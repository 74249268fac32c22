import Fecraw.Ports.Retune
import Fecraw.Ports.Receiver

/-!
# Loss as the timer infers it

`conn_timer_cb` never learns of lost packets.  Once a second it compares two
counters of the receiving direction: the FEC packets that came in and the
packets that the decoder put out.  Where more came in than went out, the
difference is recorded as loss.

A `Link` is the receiving half of a connection with its counters, and the
endpoint whose ratio the timer tunes.

## Main results

* `accounts_run`: at every tick the timer compares the number of FEC packets
  that came in since the last one with the number of packets put out at them.
* `quiet_run`: in a run in which nothing is recorded as loss, the parity is not
  raised beyond its minimum.
-/

namespace Fecraw.Ports.ConnTimer

open Fecraw.Verified Fecraw.Ports.Packet Fecraw.Ports.RsTable Fecraw.Ports.FecEncode
open Fecraw.Ports.FecDecode

/-! ## The link -/

structure Link where
  decoder : FecDecodeManager := {}
  /-- `input_packet_num` and `output_packet_num` of `stat.fec_to_normal`. -/
  inputPacketNum : UInt64 := 0
  outputPacketNum : UInt64 := 0
  prevFecInput : UInt64 := 0
  prevFecOutput : UInt64 := 0
  endpoint : Retune.Endpoint

inductive Event where
  /-- A FEC packet of the peer comes in. -/
  | fec (p : Incoming)
  /-- The timer fires. -/
  | tick (now : ℚ)

/-- What is seen of an event: an arrival, or the count that the timer gives to
`record_loss` (0 where it does not call it). -/
inductive Seen where
  | arrival (a : Arrival)
  | tick (loss : Int)

/-- `from_fec_to_normal` with its counters. -/
def fromFecToNormal (c : Code) (packet : Nat → Nat → Bytes) (l : Link) (p : Incoming) :
    Checked (Link × Seen) := do
  let (d, a) ← deliver c packet l.decoder p
  return ({ l with
      decoder := d
      inputPacketNum := l.inputPacketNum + 1
      outputPacketNum := l.outputPacketNum + .ofNat a.out.length },
    .arrival a)

/-- The count that `conn_timer_cb` gives to `record_loss`. -/
def inferred (deltaIn deltaOut : UInt64) : Int :=
  if deltaIn > 0 ∧ AdaptiveFec.recovered deltaIn deltaOut > 0
    then AdaptiveFec.recovered deltaIn deltaOut else 0

/-- `conn_timer_cb` with `fec_adaptive` set. -/
def connTimerCb (l : Link) (now : ℚ) : Link × Seen :=
  let deltaIn := l.inputPacketNum - l.prevFecInput
  let deltaOut := l.outputPacketNum - l.prevFecOutput
  ({ l with
      prevFecInput := l.inputPacketNum
      prevFecOutput := l.outputPacketNum
      endpoint := Retune.connTimer l.endpoint deltaIn deltaOut now },
    .tick (inferred deltaIn deltaOut))

def step (c : Code) (packet : Nat → Nat → Bytes) (l : Link) : Event → Checked (Link × Seen)
  | .fec p => fromFecToNormal c packet l p
  | .tick now => .ok (connTimerCb l now)

/-! ## What the timer infers -/

section Inferred

variable {n m : UInt64}

theorem inferred_eq_zero_iff :
    inferred n m = 0 ↔ ¬ (n > 0 ∧ AdaptiveFec.recovered n m > 0) := by
  unfold inferred
  split
  · next h => exact ⟨fun hzero => absurd hzero (by omega), fun hno => absurd h hno⟩
  · next h => exact ⟨fun _ => h, fun _ => rfl⟩

theorem countInt_ofNat {k : Nat} (h : k < 2 ^ 31) : AdaptiveFec.countInt (.ofNat k) = k := by
  have hnat : (UInt64.ofNat k).toNat = k :=
    UInt64.toNat_ofNat_of_lt' (Nat.lt_trans h (by decide))
  unfold AdaptiveFec.countInt
  rw [hnat, wrapInt_of_lt (by omega) (by omega)]

/-- As long as the counts are `int`s, nothing is inferred exactly if at least as
much was put out as came in. -/
theorem inferred_ofNat_iff {k j : Nat} (hk : k < 2 ^ 31) (hj : j < 2 ^ 31) :
    inferred (.ofNat k) (.ofNat j) = 0 ↔ k ≤ j := by
  have hpos : UInt64.ofNat k > 0 ↔ 0 < k := by
    rw [gt_iff_lt, UInt64.lt_iff_toNat_lt,
      UInt64.toNat_ofNat_of_lt' (Nat.lt_trans hk (by decide))]
    rfl
  rw [inferred_eq_zero_iff, hpos]
  unfold AdaptiveFec.recovered
  rw [countInt_ofNat hk, countInt_ofNat hj]
  by_cases hle : k ≤ j
  · rw [if_neg (by omega)]
    exact ⟨fun _ => hle, fun _ h => absurd h.2 (by decide)⟩
  · rw [if_pos (by omega), wrapInt_of_lt (by omega) (by omega)]
    exact ⟨fun h => absurd ⟨by omega, by omega⟩ h, fun h => absurd h hle⟩

/-- Counts that are the same infer nothing, however large they are. -/
theorem inferred_self (n : UInt64) : inferred n n = 0 := by
  rw [inferred_eq_zero_iff]
  rintro ⟨-, hpos⟩
  unfold AdaptiveFec.recovered at hpos
  rw [if_neg (lt_irrefl _)] at hpos
  exact absurd hpos (by decide)

end Inferred

/-! ## The intervals between two ticks -/

/-- The FEC packets among the events. -/
def packets : List Event → List Incoming
  | [] => []
  | .fec p :: evs => p :: packets evs
  | .tick _ :: evs => packets evs

/-- The intervals that ticks close: what had come before an interval, and what
comes in it.  The first two arguments are these for the interval that is open. -/
def intervals : List Incoming → List Incoming → List Event → List (List Incoming × List Incoming)
  | _, _, [] => []
  | before, now, .fec p :: evs => intervals before (now ++ [p]) evs
  | before, now, .tick _ :: evs => (before, now) :: intervals (before ++ now) [] evs

/-- The arrivals among what is seen. -/
def arrivals : List Seen → List Arrival
  | [] => []
  | .arrival a :: ss => a :: arrivals ss
  | .tick _ :: ss => arrivals ss

/-- An interval as it is seen, with the loss that its tick infers. -/
structure Account where
  before : List Arrival
  now : List Arrival
  loss : Int

/-- The accounts of what is seen. -/
def accounts : List Arrival → List Arrival → List Seen → List Account
  | _, _, [] => []
  | before, now, .arrival a :: ss => accounts before (now ++ [a]) ss
  | before, now, .tick loss :: ss => ⟨before, now, loss⟩ :: accounts (before ++ now) [] ss

/-- How many packets are put out at the arrivals. -/
def putOut (as : List Arrival) : Nat := (as.map fun a => a.out.length).sum

@[simp] theorem putOut_nil : putOut [] = 0 := rfl

@[simp] theorem putOut_cons (a : Arrival) (as : List Arrival) :
    putOut (a :: as) = a.out.length + putOut as := by
  unfold putOut
  rw [List.map_cons, List.sum_cons]

@[simp] theorem putOut_append (as bs : List Arrival) :
    putOut (as ++ bs) = putOut as + putOut bs := by
  unfold putOut
  rw [List.map_append, List.sum_append]

/-- Which packet of which group an arrival is. -/
def Arrival.place (a : Arrival) : Nat × Nat := (a.group, a.idx)

/-- The same of a packet on its way. -/
def Incoming.place (p : Incoming) : Nat × Nat := (p.group, p.idx)

section Accounts

variable {ss : List Seen}

/-- The accounts are those of the arrivals, one after another. -/
theorem split_of_mem_accounts : ∀ {ss : List Seen} {before now : List Arrival} {acc : Account},
    acc ∈ accounts before now ss →
    ∃ after, before ++ now ++ arrivals ss = acc.before ++ acc.now ++ after := by
  intro ss
  induction ss with
  | nil => exact fun {before now acc} h => absurd h (by simp [accounts])
  | cons s ss ih =>
      intro before now acc h
      cases s with
      | arrival a =>
          obtain ⟨after, heq⟩ := ih h
          refine ⟨after, ?_⟩
          rw [← heq, arrivals]
          simp
      | tick loss =>
          rcases List.mem_cons.mp h with rfl | h
          · exact ⟨arrivals ss, rfl⟩
          · obtain ⟨after, heq⟩ := ih h
            refine ⟨after, ?_⟩
            rw [← heq, arrivals, List.append_nil]

/-- Every tick has an account. -/
theorem exists_account : ∀ {ss : List Seen} {before now : List Arrival} {loss : Int},
    .tick loss ∈ ss → ∃ acc ∈ accounts before now ss, acc.loss = loss := by
  intro ss
  induction ss with
  | nil => exact fun {before now loss} h => absurd h (by simp)
  | cons s ss ih =>
      intro before now loss h
      cases s with
      | arrival a => exact ih (by simpa using h)
      | tick loss' =>
          rcases List.mem_cons.mp h with heq | h
          · obtain rfl := Seen.tick.inj heq
            exact ⟨_, List.mem_cons_self, rfl⟩
          · obtain ⟨acc, hacc, hloss⟩ := ih h
            exact ⟨acc, List.mem_cons_of_mem _ hacc, hloss⟩

/-- Every account is that of a tick. -/
theorem tick_of_mem_accounts : ∀ {ss : List Seen} {before now : List Arrival} {acc : Account},
    acc ∈ accounts before now ss → .tick acc.loss ∈ ss := by
  intro ss
  induction ss with
  | nil => exact fun {before now acc} h => absurd h (by simp [accounts])
  | cons s ss ih =>
      intro before now acc h
      cases s with
      | arrival a => exact List.mem_cons_of_mem _ (ih h)
      | tick loss =>
          rcases List.mem_cons.mp h with rfl | h
          · exact List.mem_cons_self
          · exact List.mem_cons_of_mem _ (ih h)

/-- Where every account has as much put out as came in, so has the whole run,
if a tick is the last event. -/
theorem length_le_putOut : ∀ {ss : List Seen} {before now : List Arrival},
    (∀ acc ∈ accounts before now ss, acc.now.length ≤ putOut acc.now) →
    (∃ loss, ss.getLast? = some (.tick loss)) →
    now.length + (arrivals ss).length ≤ putOut now + putOut (arrivals ss) := by
  intro ss
  induction ss with
  | nil => exact fun {before now} _ hlast => absurd hlast (by simp)
  | cons s ss ih =>
      intro before now hall hlast
      cases s with
      | arrival a =>
          have hrest : ∃ loss, ss.getLast? = some (.tick loss) := by
            cases ss with
            | nil => exact absurd hlast (by simp)
            | cons s' ss => simpa using hlast
          have hind := @ih before (now ++ [a]) hall hrest
          simp only [List.length_append, List.length_singleton, putOut_append, putOut_cons,
            putOut_nil] at hind
          simp only [arrivals, List.length_cons, putOut_cons]
          omega
      | tick loss =>
          have hone := hall ⟨before, now, loss⟩ List.mem_cons_self
          dsimp only at hone
          by_cases hnil : ss = []
          · subst hnil
            simpa [arrivals] using hone
          · have hrest : ∃ loss, ss.getLast? = some (.tick loss) := by
              obtain ⟨s', ss', rfl⟩ := List.exists_cons_of_ne_nil hnil
              simpa using hlast
            have hind := @ih (before ++ now) []
              (fun acc hacc => hall acc (List.mem_cons_of_mem _ hacc)) hrest
            simp only [List.length_nil, putOut_nil] at hind
            rw [arrivals]
            omega

end Accounts

/-! ## The link follows the decoder -/

section Follow

variable {c : Code} {packet : Nat → Nat → Bytes}

/-- Where the decoder takes all packets, so does the link. -/
theorem run_of_deliver : ∀ {evs : List Event} {l : Link} {d : FecDecodeManager}
    {as : List Arrival}, run (deliver c packet) l.decoder (packets evs) = .ok (d, as) →
    ∃ l' ss, run (step c packet) l evs = .ok (l', ss) ∧ arrivals ss = as := by
  intro evs
  induction evs with
  | nil =>
      intro l d as h
      obtain ⟨-, rfl⟩ := Prod.mk.inj (Except.ok.inj h)
      exact ⟨l, [], rfl, rfl⟩
  | cons ev evs ih =>
      intro l d as h
      cases ev with
      | fec p =>
          obtain ⟨d₁, a, as', hdel, hrest, rfl⟩ := run_cons_eq_ok.mp h
          have hstep : step c packet l (.fec p) = .ok ({ l with
              decoder := d₁
              inputPacketNum := l.inputPacketNum + 1
              outputPacketNum := l.outputPacketNum + .ofNat a.out.length }, .arrival a) := by
            show fromFecToNormal c packet l p = _
            unfold fromFecToNormal
            rw [hdel]
            rfl
          obtain ⟨l', ss, hrun, has⟩ := @ih { l with
            decoder := d₁
            inputPacketNum := l.inputPacketNum + 1
            outputPacketNum := l.outputPacketNum + .ofNat a.out.length } d as' hrest
          exact ⟨l', _, run_cons_eq_ok.mpr ⟨_, _, ss, hstep, hrun, rfl⟩,
            congrArg (a :: ·) has⟩
      | tick now =>
          obtain ⟨l', ss, hrun, has⟩ := @ih (connTimerCb l now).1 d as h
          exact ⟨l', _, run_cons_eq_ok.mpr ⟨_, _, ss, rfl, hrun, rfl⟩, has⟩

/-- The arrivals of a run are the packets among its events. -/
theorem arrived_run : ∀ {evs : List Event} {l l' : Link} {ss : List Seen},
    run (step c packet) l evs = .ok (l', ss) →
    (arrivals ss).map Arrival.place = (packets evs).map Incoming.place := by
  intro evs
  induction evs with
  | nil =>
      intro l l' ss hrun
      obtain ⟨-, rfl⟩ := Prod.mk.inj (Except.ok.inj hrun)
      rfl
  | cons ev evs ih =>
      intro l l' ss hrun
      obtain ⟨l₁, o, ss', hstep, hrest, rfl⟩ := run_cons_eq_ok.mp hrun
      cases ev with
      | fec p =>
          obtain ⟨⟨d, a⟩, hdel, hst⟩ := Checked.doBind_eq_ok.mp hstep
          obtain ⟨-, rfl⟩ := Prod.mk.inj (Except.ok.inj hst)
          obtain ⟨hgroup, hidx⟩ := deliver_place hdel
          simp only [arrivals, packets, List.map_cons, ih hrest, Arrival.place, Incoming.place,
            hgroup, hidx]
      | tick now =>
          obtain ⟨-, rfl⟩ := Prod.mk.inj (Except.ok.inj hstep)
          have hind := ih hrest
          exact hind

/-- A run ends with a tick if its events do. -/
theorem getLast_run {evs : List Event} {now : ℚ} {l l' : Link} {ss : List Seen}
    (hrun : run (step c packet) l (evs ++ [.tick now]) = .ok (l', ss)) :
    ∃ loss, ss.getLast? = some (.tick loss) := by
  obtain ⟨m, ss₁, ss₂, -, hlast, rfl⟩ := run_append_eq_ok.mp hrun
  obtain ⟨l₁, o, ss', hstep, hrest, rfl⟩ := run_cons_eq_ok.mp hlast
  obtain ⟨-, rfl⟩ := Prod.mk.inj (Except.ok.inj hrest)
  obtain ⟨-, rfl⟩ := Prod.mk.inj (Except.ok.inj hstep)
  exact ⟨_, List.getLast?_concat⟩

/-- An account is that of an interval: the same packets, and the timer compares
how many came with how many were put out. -/
def Matches (iv : List Incoming × List Incoming) (acc : Account) : Prop :=
  acc.before.map Arrival.place = iv.1.map Incoming.place ∧
    acc.now.map Arrival.place = iv.2.map Incoming.place ∧
    acc.loss = inferred (.ofNat iv.2.length) (.ofNat (putOut acc.now))

private theorem sub_grown (cur prev k : UInt64) : cur + k - prev = cur - prev + k := by
  grind

/-- At every tick the timer compares what came since the last one with what was
put out; the counters have grown by that much in the interval that is open. -/
theorem accounts_run : ∀ {evs : List Event} {l l' : Link} {ss : List Seen}
    {before now : List Incoming} {before' now' : List Arrival},
    run (step c packet) l evs = .ok (l', ss) →
    before'.map Arrival.place = before.map Incoming.place →
    now'.map Arrival.place = now.map Incoming.place →
    l.inputPacketNum - l.prevFecInput = .ofNat now.length →
    l.outputPacketNum - l.prevFecOutput = .ofNat (putOut now') →
    List.Forall₂ Matches (intervals before now evs) (accounts before' now' ss) := by
  intro evs
  induction evs with
  | nil =>
      intro l l' ss before now before' now' hrun _ _ _ _
      obtain ⟨-, rfl⟩ := Prod.mk.inj (Except.ok.inj hrun)
      exact .nil
  | cons ev evs ih =>
      intro l l' ss before now before' now' hrun hbefore hnow hin hout
      obtain ⟨l₁, o, ss', hstep, hrest, rfl⟩ := run_cons_eq_ok.mp hrun
      cases ev with
      | fec p =>
          obtain ⟨⟨d, a⟩, hdel, hst⟩ := Checked.doBind_eq_ok.mp hstep
          obtain ⟨rfl, rfl⟩ := Prod.mk.inj (Except.ok.inj hst)
          obtain ⟨hgroup, hidx⟩ := deliver_place hdel
          show List.Forall₂ Matches (intervals before (now ++ [p]) evs)
            (accounts before' (now' ++ [a]) ss')
          refine ih hrest hbefore ?_ ?_ ?_
          · rw [List.map_append, List.map_append, hnow]
            simp only [List.map_cons, List.map_nil, Arrival.place, Incoming.place, hgroup, hidx]
          · rw [List.length_append, UInt64.ofNat_add, ← hin]
            exact sub_grown _ _ 1
          · rw [putOut_append, UInt64.ofNat_add, ← hout, putOut_cons, putOut_nil, Nat.add_zero]
            exact sub_grown _ _ _
      | tick t =>
          obtain ⟨rfl, rfl⟩ := Prod.mk.inj (Except.ok.inj hstep)
          refine .cons ⟨hbefore, hnow, ?_⟩ (ih hrest ?_ rfl ?_ ?_)
          · show inferred _ _ = _
            rw [hin, hout]
          · rw [List.map_append, List.map_append, hbefore, hnow]
          · exact UInt64.sub_self _
          · exact UInt64.sub_self _

end Follow

/-! ## Runs without recorded loss -/

section Quiet

/-- Nothing was recorded as loss, and the parity is at most what it was at the
start, or the minimum. -/
structure Quiet (start : AdaptiveFec) (a : AdaptiveFec) : Prop where
  windowLost : a.windowLost = 0
  minParity : a.minParity = start.minParity
  parity_le : a.parityShards ≤ max start.parityShards start.minParity

variable {c : Code} {packet : Nat → Nat → Bytes} {start : AdaptiveFec} {n m : UInt64}

theorem observe_windowLost (a : AdaptiveFec) (h : inferred n m = 0) :
    (a.observe n m).windowLost = a.windowLost := by
  have hno := inferred_eq_zero_iff.mp h
  unfold AdaptiveFec.observe
  dsimp only
  split
  · next hn =>
      rw [if_neg (fun hpos => hno ⟨hn, hpos⟩)]
      rfl
  · rfl

theorem Quiet.connTimer {st : Retune.Endpoint} (h : Quiet start st.adaptive)
    (hzero : inferred n m = 0) (now : ℚ) :
    Quiet start (Retune.connTimer st n m now).adaptive := by
  have hlost : (st.adaptive.observe n m).windowLost = 0 :=
    (observe_windowLost _ hzero).trans h.windowLost
  obtain ⟨-, hmin, -, hparity⟩ := st.adaptive.observe_other n m
  obtain ⟨-, hmin', -⟩ := (st.adaptive.observe n m).adjust_other now
  obtain ⟨hlost', hle⟩ := @AdaptiveFec.adjust_parity_le _ now hlost
  have hbound := h.parity_le
  have hstart := h.minParity
  refine ⟨hlost', hmin'.trans (hmin.trans hstart), ?_⟩
  show ((st.adaptive.observe n m).adjust now).1.parityShards ≤ _
  rw [hparity, hmin] at hle
  omega

/-- Where no tick infers loss, the controller stays quiet. -/
theorem quiet_run : ∀ {evs : List Event} {l l' : Link} {ss : List Seen},
    run (step c packet) l evs = .ok (l', ss) → (∀ loss, .tick loss ∈ ss → loss = 0) →
    Quiet start l.endpoint.adaptive → Quiet start l'.endpoint.adaptive := by
  intro evs
  induction evs with
  | nil =>
      intro l l' ss hrun _ hquiet
      obtain ⟨rfl, rfl⟩ := Prod.mk.inj (Except.ok.inj hrun)
      exact hquiet
  | cons ev evs ih =>
      intro l l' ss hrun hzero hquiet
      obtain ⟨l₁, o, ss', hstep, hrest, rfl⟩ := run_cons_eq_ok.mp hrun
      refine ih hrest (fun loss hloss => hzero loss (List.mem_cons_of_mem _ hloss)) ?_
      cases ev with
      | fec p =>
          obtain ⟨⟨d, a⟩, -, hst⟩ := Checked.doBind_eq_ok.mp hstep
          obtain ⟨rfl, -⟩ := Prod.mk.inj (Except.ok.inj hst)
          exact hquiet
      | tick now =>
          obtain ⟨rfl, rfl⟩ := Prod.mk.inj (Except.ok.inj hstep)
          exact hquiet.connTimer (hzero _ List.mem_cons_self) now

end Quiet

end Fecraw.Ports.ConnTimer
