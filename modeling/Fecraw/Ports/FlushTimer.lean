import Fecraw.Ports.EncodeRun

/-!
# The flush timer of the encoder

The encoder starts a one-shot timer with the first packet of a group and stops
it when the group is closed.  A packet that was taken waits in the open group,
so the timer has to run whenever there is one.

A run is a sequence of calls of `input`, each with or without a call of
`output` after it.  When the timer's callback runs, the timer is inactive
already.  What a call leaves to be sent is told by `ready_for_output`, which it
sets.

## Main results

* `advance_watched`: what one call does to the open group and to the timer.
* `never_strands`: after every call the timer runs exactly if the open group has
  packets, and every packet that was taken is in the open group or in one that
  was sent.
-/

namespace Fecraw.Ports.FecEncode

open Fecraw.Verified Fecraw.Ports.Packet Fecraw.Ports.RsTable Fecraw.Ports.BlobCodec
open FecEncodeManager

/-- One call of `input`, and whether `output` is called after it.  Without an
argument it is the timer's callback. -/
structure InputCall where
  arg : Option Bytes
  drained : Bool := true

namespace FecEncodeManager

/-- The encoder as a call finds it: the callback runs with an inactive timer. -/
def fired (e : FecEncodeManager) : Option Bytes → FecEncodeManager
  | none => { e with timer := false }
  | some _ => e

/-- One call, with what it has made ready to be sent. -/
def call (c : Code) (g : FecParameter) (e : FecEncodeManager) (k : InputCall) :
    Checked (FecEncodeManager × Sending) := do
  let (ret, e') ← (e.fired k.arg).input c g k.arg
  let out := if e'.readyForOutput ∧ ¬ e.readyForOutput then e'.outputBuf else []
  return (if k.drained then e'.output.1 else e',
    ⟨k.arg, ret, out, decide (e'.seq ≠ e.seq), e'.counter⟩)

end FecEncodeManager

section Watched

variable {c : Code} {g : FecParameter}

/-! ## The open group -/

/-- The open group has the packets `ps`. -/
structure Pending (e : FecEncodeManager) (ps : List Bytes) : Prop where
  counter : e.counter = ps.length
  blob : e.fecPar.mode = 0 → BlobEncode.Holds e.blob ps
  packets : e.fecPar.mode = 1 → e.bodies = ps.map BlobEncode.record

/-- The packets sent for a group carry `ps`: in mode 0 the shards of their blob
do, in mode 1 there is one for each. -/
structure Sends (c : Code) (mode : Int) (seq : UInt32) (ps sent : List Bytes) : Prop where
  blob : mode = 0 → ∃ x y len data stale, 0 < x ∧
    sent = (List.range (x + y)).map (blobPacket c seq x y len data) ∧
      data.flatten = writeU32 ps.length ++ BlobEncode.records ps ++ stale
  packets : mode = 1 → ∀ i p, ps[i]? = some p → dataPacket seq (BlobEncode.record p) i ∈ sent

theorem Pending.append {e e' : FecEncodeManager} {ps : List Bytes} {p : Bytes}
    (h : Pending e ps) (hmode : e.fecPar.mode = 0 ∨ e.fecPar.mode = 1)
    (happend : e.append p = .ok e') :
    Pending e' (ps ++ [p]) ∧ e'.timer = (e.timer || decide (e.counter = 0)) := by
  have hcnt := counter_append hmode happend
  rcases hmode with hmode | hmode
  · obtain ⟨blob, hblob, rfl⟩ := append_blob hmode happend
    refine ⟨⟨?_, fun _ => BlobEncode.holds_input (h.blob hmode) hblob, fun hone => ?_⟩, rfl⟩
    · rw [hcnt, h.counter, List.length_append, List.length_singleton]
    · exact absurd (hmode.symm.trans hone) (by decide)
  · have hbodies := bodies_append hmode happend
    obtain ⟨-, -, rfl⟩ := append_packet hmode happend
    refine ⟨⟨?_, fun hzero => ?_, fun _ => ?_⟩, rfl⟩
    · rw [hcnt, h.counter, List.length_append, List.length_singleton]
    · exact absurd (hmode.symm.trans hzero) (by decide)
    · rw [hbodies, h.packets hmode, List.map_append]
      rfl

/-- A body of the open group in mode 1. -/
theorem Pending.inputBuf {e : FecEncodeManager} {ps : List Bytes} (h : Pending e ps)
    (hmode : e.fecPar.mode = 1) {i : Nat} {p : Bytes} (hp : ps[i]? = some p) :
    e.inputBuf i = BlobEncode.record p := by
  obtain ⟨hi, rfl⟩ := List.getElem?_eq_some_iff.mp hp
  have hbodies := congrArg (fun l => l[i]?) (h.packets hmode)
  simpa [FecEncodeManager.bodies, h.counter, hi] using hbodies

/-- Closing a group stops the timer and leaves the group's shards, or its last
packet, to be sent. -/
theorem Pending.close {e e' : FecEncodeManager} {ps : List Bytes} {hasPacket : Bool}
    (h : Pending e ps) (hmode : e.fecPar.mode = 0 ∨ e.fecPar.mode = 1) (hpending : e.counter ≠ 0)
    (hclose : e.closeGroup c hasPacket = .ok e') :
    Pending e' [] ∧ e'.timer = false ∧ e'.counter = 0 ∧ e'.seq = e.seq + 1 ∧
      e'.fecPar = e.fecPar ∧ e.readyForOutput = false ∧ e'.readyForOutput = true ∧
      (e.fecPar.mode = 0 → Sends c 0 e.seq ps e'.outputBuf) ∧
      (e.fecPar.mode = 1 → hasPacket = true →
        dataPacket e.seq (e.inputBuf (e.counter - 1)) (e.counter - 1) ∈ e'.outputBuf) := by
  rcases hmode with hmode | hmode
  · obtain ⟨tail, x, -, hx, -, -, hready, rfl⟩ := closeGroup_blob hmode hclose
    obtain ⟨hpos, -, -⟩ := chooseDataNum_eq_ok hx
    have hone : ¬ e.fecPar.mode = 1 := by omega
    refine ⟨⟨rfl, fun _ => BlobEncode.holds_clear _, fun h => absurd h hone⟩, rfl, rfl, rfl, rfl,
      hready, rfl, fun _ => ⟨fun _ => ?_, fun h => absurd h (by decide)⟩, fun h => absurd h hone⟩
    obtain ⟨stale, hflat⟩ := BlobEncode.flatten_shards (h.blob hmode) hpos
    exact ⟨x, _, _, _, stale, hpos, rfl, hflat⟩
  · obtain ⟨-, -, hready, rfl⟩ := closeGroup_packets hmode hpending hclose
    have hzero : ¬ e.fecPar.mode = 0 := by omega
    refine ⟨⟨rfl, fun h => absurd h hzero, fun _ => rfl⟩, rfl, rfl, rfl, rfl, hready, rfl,
      fun h => absurd h hzero, fun _ hhas => ?_⟩
    have hlast : e.counter - 1 < e.bodies.length := by
      simp only [FecEncodeManager.bodies, List.length_map, List.length_range]
      omega
    have hbody : e.bodies.getD (e.counter - 1) [] = e.inputBuf (e.counter - 1) := by
      rw [List.getD_eq_getElem _ _ hlast]
      simp [FecEncodeManager.bodies]
    refine List.mem_map.mpr ⟨e.counter - 1, ?_, ?_⟩
    · rw [hhas]
      exact List.mem_append_left _ (List.mem_singleton.mpr rfl)
    · unfold groupPacket
      rw [if_pos hlast, hbody]

/-- In mode 1 a packet that is sent at once is one of the group. -/
theorem Pending.fastSend {e e' : FecEncodeManager} {ps : List Bytes} {p : Bytes}
    (h : Pending e (ps ++ [p])) (hmode : e.fecPar.mode = 0 ∨ e.fecPar.mode = 1)
    (hsend : e.fastSend true = .ok e') :
    Pending e' (ps ++ [p]) ∧ e'.timer = e.timer ∧ e'.counter = e.counter ∧ e'.seq = e.seq ∧
      e'.fecPar = e.fecPar ∧ (e.fecPar.mode = 0 → e' = e) ∧
      (e.fecPar.mode = 1 → e.readyForOutput = false ∧ e'.readyForOutput = true ∧
        e'.outputBuf = [dataPacket e.seq (BlobEncode.record p) ps.length]) := by
  rcases hmode with hmode | hmode
  · obtain rfl := fastSend_blob hmode hsend
    exact ⟨h, rfl, rfl, rfl, rfl, fun _ => rfl,
      fun hone => absurd (hmode.symm.trans hone) (by decide)⟩
  · obtain ⟨-, -, hready, rfl⟩ := fastSend_packet hmode hsend
    have hlast : e.counter - 1 = ps.length := by
      rw [h.counter, List.length_append]
      rfl
    have hbody : e.inputBuf ps.length = BlobEncode.record p := h.inputBuf hmode (by simp)
    refine ⟨⟨h.counter, h.blob, h.packets⟩, rfl, rfl, rfl, rfl,
      fun hzero => absurd (hmode.symm.trans hzero) (by decide), fun _ => ⟨hready, rfl, ?_⟩⟩
    rw [hlast, hbody]

/-! ## One call -/

/-- The encoder with the open group of a run: the timer runs exactly if there
are packets in it. -/
structure Watched (c : Code) (g : FecParameter) (e : FecEncodeManager) (m : Emitted) : Prop where
  par : e.fecPar = g
  pending : Pending e m.accepted
  unsent : g.mode = 0 → m.packets = []
  sent : g.mode = 1 → ∀ i p, m.accepted[i]? = some p →
    dataPacket e.seq (BlobEncode.record p) i ∈ m.packets
  timer : e.timer = true ↔ 0 < e.counter

/-- `output` does not touch the open group. -/
theorem Watched.drain {e : FecEncodeManager} {m : Emitted} (h : Watched c g e m) (drained : Bool) :
    Watched c g (if drained then e.output.1 else e) m ∧
      (if drained then e.output.1 else e).seq = e.seq := by
  unfold output
  cases drained with
  | false => exact ⟨h, rfl⟩
  | true =>
      cases hready : e.readyForOutput with
      | false => exact ⟨h, rfl⟩
      | true =>
          refine ⟨⟨h.par, ⟨h.pending.counter, h.pending.blob, h.pending.packets⟩, h.unsent, h.sent,
            h.timer⟩, rfl⟩

/-- The last packet of a group of mode 1 is sent with the call that takes it. -/
theorem mem_sent_concat {seq : UInt32} {ps sent : List Bytes} {p : Bytes}
    (h : ∀ i q, ps[i]? = some q → dataPacket seq (BlobEncode.record q) i ∈ sent) {out : List Bytes}
    (hout : dataPacket seq (BlobEncode.record p) ps.length ∈ out) :
    ∀ i q, (ps ++ [p])[i]? = some q → dataPacket seq (BlobEncode.record q) i ∈ sent ++ out := by
  intro i q hq
  by_cases hi : i < ps.length
  · rw [List.getElem?_append_left hi] at hq
    exact List.mem_append_left _ (h i q hq)
  · rw [List.getElem?_append_right (not_lt.mp hi)] at hq
    obtain ⟨hlt, rfl⟩ := List.getElem?_eq_some_iff.mp hq
    have hi' : i = ps.length := by
      rw [List.length_singleton] at hlt
      omega
    subst hi'
    simpa using List.mem_append_right sent hout

/-- A call that takes nothing: the timer is stopped already. -/
theorem Watched.rejected {e : FecEncodeManager} {m : Emitted} (h : Watched c g e m)
    (s : Option Bytes) (hempty : e.counter = 0) : Watched c g (e.fired s) m := by
  cases s with
  | none =>
      refine ⟨h.par, ⟨h.pending.counter, h.pending.blob, h.pending.packets⟩, h.unsent, h.sent, ?_⟩
      show false = true ↔ 0 < e.counter
      simp [hempty]
  | some p => exact h

theorem timer_append {e e' : FecEncodeManager} (h : e.timer = true ↔ 0 < e.counter)
    (htimer : e'.timer = (e.timer || decide (e.counter = 0))) : e'.timer = true := by
  rw [htimer, Bool.or_eq_true, decide_eq_true_iff]
  rcases Nat.eq_zero_or_pos e.counter with hzero | hpos
  · exact .inr hzero
  · exact .inl (h.mpr hpos)

/-- A call that takes a packet into the open group. -/
theorem Watched.queued (hmode : g.mode = 0 ∨ g.mode = 1) {e e₁ e' : FecEncodeManager} {m : Emitted}
    {p : Bytes} (h : Watched c g e m) (happend : e.append p = .ok e₁)
    (hsend : e₁.fastSend true = .ok e') {out : List Bytes}
    (hout : out = if e'.readyForOutput ∧ ¬ e.readyForOutput then e'.outputBuf else []) :
    e'.seq = e.seq ∧ Watched c g e' ⟨m.accepted ++ [p], m.packets ++ out⟩ := by
  have hmode' : e.fecPar.mode = 0 ∨ e.fecPar.mode = 1 := by
    rw [h.par]
    exact hmode
  obtain ⟨hpending, htimer⟩ := h.pending.append hmode' happend
  obtain ⟨hseq, hpar, hready, -⟩ := append_output hmode' happend
  obtain ⟨hpending', htimer', hcnt, hseq', hpar', hblob, hpacket⟩ :=
    hpending.fastSend (hpar ▸ hmode') hsend
  have hpar₁ : e₁.fecPar = g := hpar.trans h.par
  refine ⟨hseq'.trans hseq, hpar'.trans hpar₁, hpending', fun hzero => ?_, fun hone => ?_, ?_⟩
  · obtain rfl := hblob (by rw [hpar₁, hzero])
    have hno : ¬ (e'.readyForOutput = true ∧ ¬ e.readyForOutput = true) := by
      rw [hready]
      exact fun hboth => hboth.2 hboth.1
    rw [hout, if_neg hno, List.append_nil]
    exact h.unsent hzero
  · obtain ⟨hfree, hmade, hbuf⟩ := hpacket (by rw [hpar₁, hone])
    have hyes : e'.readyForOutput = true ∧ ¬ e.readyForOutput = true := by
      rw [← hready, hfree]
      exact ⟨hmade, by simp⟩
    rw [hout, if_pos hyes, hbuf, hseq', hseq]
    exact mem_sent_concat (h.sent hone) (List.mem_singleton.mpr rfl)
  · have hpos : 0 < e'.counter := by
      rw [hpending'.counter]
      simp
    rw [htimer', timer_append h.timer htimer]
    exact ⟨fun _ => hpos, fun _ => rfl⟩

/-- A group that is closed, with what was sent for it. -/
theorem Watched.closed (hmode : g.mode = 0 ∨ g.mode = 1) {e e₁ e' : FecEncodeManager} {m : Emitted}
    {ps : List Bytes} {hasPacket : Bool} (h : Watched c g e m) (hpending : Pending e₁ ps)
    (hpar : e₁.fecPar = g) (hseq : e₁.seq = e.seq) (hready : e₁.readyForOutput = e.readyForOutput)
    (hne : e₁.counter ≠ 0) (hclose : e₁.closeGroup c hasPacket = .ok e')
    (hlast : g.mode = 1 → ∀ out, (hasPacket = true →
      dataPacket e.seq (e₁.inputBuf (e₁.counter - 1)) (e₁.counter - 1) ∈ out) →
        ∀ i p, ps[i]? = some p → dataPacket e.seq (BlobEncode.record p) i ∈ m.packets ++ out) :
    Sends c g.mode e.seq ps (m.packets ++ e'.outputBuf) ∧ e'.seq = e.seq + 1 ∧
      e'.counter = 0 ∧ e'.readyForOutput = true ∧ ¬ e.readyForOutput = true ∧
      Watched c g e' {} := by
  obtain ⟨hempty, htimer, hcnt, hseq', hpar', hfree, hmade, hblob, hpacket⟩ :=
    hpending.close (by rw [hpar]; exact hmode) hne hclose
  rw [hpar, hseq] at hblob hpacket
  refine ⟨⟨fun hzero => ?_, fun hone => ?_⟩, ?_, hcnt, hmade, ?_, ?_⟩
  · rw [h.unsent hzero, List.nil_append]
    exact (hblob hzero).blob rfl
  · exact hlast hone e'.outputBuf (hpacket hone)
  · rw [hseq', hseq]
  · rw [← hready, hfree]
    simp
  · refine ⟨hpar'.trans hpar, hempty, fun _ => rfl, fun _ i p hp => absurd hp (by simp), ?_⟩
    rw [htimer, hcnt]
    simp

/-- One call of `input`, on the encoder as it finds it. -/
theorem advance_input (hmode : g.mode = 0 ∨ g.mode = 1) {e e' : FecEncodeManager}
    {m : Emitted} {s : Option Bytes} {ret : Int} (h : Watched c g e m)
    (hcall : Call c (e.fired s) s ret e') :
    Advance (Watched c g) (fun seq n => Sends c g.mode seq n.accepted n.packets) e m e'
      ⟨s, ret, if e'.readyForOutput ∧ ¬ e.readyForOutput then e'.outputBuf else [],
        decide (e'.seq ≠ e.seq), e'.counter⟩ := by
  have hmode' : e.fecPar.mode = 0 ∨ e.fecPar.mode = 1 := by
    rw [h.par]
    exact hmode
  cases hcall with
  | rejected hempty _ =>
      have hsame : (e.fired s).seq = e.seq ∧ (e.fired s).readyForOutput = e.readyForOutput ∧
          (e.fired s).counter = e.counter := by
        cases s with
        | none => exact ⟨rfl, rfl, rfl⟩
        | some p => exact ⟨rfl, rfl, rfl⟩
      have hw := h.rejected s (hsame.2.2.symm.trans hempty)
      refine .stays (by simp [hsame.1]) hsame.1 ?_
      simpa [Sending.taken, hsame.2.1] using hw
  | @queued p e₁ _ _ _ happend _ hsend =>
      obtain ⟨hseq, hw⟩ := h.queued hmode happend hsend rfl
      exact .stays (by simp [hseq]) hseq hw
  | @completed p e₁ _ _ _ happend _ hclose =>
      have happend : e.append p = .ok e₁ := happend
      obtain ⟨hpending, -⟩ := h.pending.append hmode' happend
      obtain ⟨hseq, hpar, hready, -⟩ := append_output hmode' happend
      have hcnt := counter_append hmode' happend
      have hlast : g.mode = 1 → ∀ out, (true = true → dataPacket e.seq
          (e₁.inputBuf (e₁.counter - 1)) (e₁.counter - 1) ∈ out) → ∀ i q,
          (m.accepted ++ [p])[i]? = some q →
            dataPacket e.seq (BlobEncode.record q) i ∈ m.packets ++ out := by
        intro hone out hlast
        have hbody : e₁.inputBuf m.accepted.length = BlobEncode.record p :=
          hpending.inputBuf (by rw [hpar, h.par, hone]) (by simp)
        have hnew : e₁.counter - 1 = m.accepted.length := by
          rw [hcnt, h.pending.counter]
          rfl
        rw [hnew, hbody] at hlast
        exact mem_sent_concat (h.sent hone) (hlast rfl)
      obtain ⟨hsends, hseq', hzero, hmade, hfree, hw⟩ := h.closed hmode hpending
        (hpar.trans h.par) hseq hready (by omega) hclose hlast
      refine .closes (by simp [hseq']) hseq' hzero ?_ hw
      rw [if_pos ⟨hmade, hfree⟩]
      exact hsends
  | flushed _ hpending hclose =>
      obtain ⟨hsends, hseq', hzero, hmade, hfree, hw⟩ := @Watched.closed c g hmode e
        (e.fired none) e' m m.accepted false h
        ⟨h.pending.counter, h.pending.blob, h.pending.packets⟩ h.par rfl rfl hpending hclose
        fun hone out _ i p hp => List.mem_append_left _ (h.sent hone i p hp)
      refine .closes (by simp [hseq']) hseq' hzero ?_ hw
      rw [if_pos ⟨hmade, hfree⟩]
      simpa [Sending.taken] using hsends
  | @delayed p e₁ _ _ hpending hlong hclose happend =>
      have hzero : g.mode = 0 := h.par ▸ (delays_true hlong).1
      have hclose : e.closeGroup c true = .ok e₁ := hclose
      obtain ⟨hsends, hseq', hcnt, hmade, hfree, hw⟩ := h.closed hmode h.pending h.par rfl rfl
        hpending hclose fun hone => absurd (hzero.symm.trans hone) (by decide)
      have hmode₁ : e₁.fecPar.mode = 0 ∨ e₁.fecPar.mode = 1 := by
        rw [hw.par]
        exact hmode
      obtain ⟨hpending', htimer⟩ := hw.pending.append hmode₁ happend
      obtain ⟨hseq, hpar, hready, hbuf⟩ := append_output hmode₁ happend
      have hone := counter_append hmode₁ happend
      refine .splits (by simp [hseq, hseq']) (hseq.trans hseq') ?_ ?_ ⟨hpar.trans hw.par, hpending',
        fun _ => rfl, fun hm => absurd (hzero.symm.trans hm) (by decide), ?_⟩
      · show e'.counter ≠ 0
        omega
      · rw [if_pos ⟨hready.trans hmade, hfree⟩, hbuf]
        exact hsends
      · rw [timer_append hw.timer htimer]
        simp [hone]

/-- One call. -/
theorem advance_watched (hmode : g.mode = 0 ∨ g.mode = 1) {e e' : FecEncodeManager}
    {m : Emitted} {k : InputCall} {o : Sending} (h : Watched c g e m)
    (hok : e.call c g k = .ok (e', o)) :
    Advance (Watched c g) (fun seq n => Sends c g.mode seq n.accepted n.packets) e m e' o := by
  obtain ⟨⟨ret, e₁⟩, hin, hrest⟩ := Checked.doBind_eq_ok.mp hok
  obtain ⟨rfl, rfl⟩ := Prod.mk.inj (Except.ok.inj hrest)
  obtain ⟨e₀, hsync, -, hcall⟩ := input_cases hin
  have hpar : (e.fired k.arg).fecPar = g := by
    cases k.arg with
    | none => exact h.par
    | some p => exact h.par
  rw [syncPar_of_version (congrArg FecParameter.version hpar)] at hsync
  obtain rfl := Except.ok.inj hsync
  have hadv := advance_input hmode h hcall
  cases hadv with
  | stays hclosed hseq hinv =>
      obtain ⟨hw, hs⟩ := hinv.drain k.drained
      exact .stays hclosed (hs.trans hseq) hw
  | closes hclosed hseq hcounter hgroup hinv =>
      obtain ⟨hw, hs⟩ := hinv.drain k.drained
      exact .closes hclosed (hs.trans hseq) hcounter hgroup hw
  | splits hclosed hseq hcounter hgroup hinv =>
      obtain ⟨hw, hs⟩ := hinv.drain k.drained
      exact .splits hclosed (hs.trans hseq) hcounter hgroup hw

/-! ## Runs -/

/-- What a run took is what its groups took. -/
theorem flatMap_groupsOf : ∀ (os : List Sending) (m : Emitted),
    (groupsOf m os).flatMap Emitted.accepted = m.accepted ++ os.flatMap Sending.taken := by
  intro os
  induction os with
  | nil => intro m; simp [groupsOf]
  | cons o os ih =>
      intro m
      rw [groupsOf]
      split
      · split
        · rw [List.flatMap_cons, ih]
          simp
        · rw [List.flatMap_cons, ih]
          simp
      · rw [ih]
        simp

theorem watched_init (seq : UInt32) (buf : Mem) : Watched c g (init g seq buf) {} where
  par := rfl
  pending := ⟨rfl, fun _ => BlobEncode.holds_clear ⟨buf, 0, 0⟩, fun _ => rfl⟩
  unsent := fun _ => rfl
  sent := fun _ i p hp => absurd hp (by simp)
  timer := by simp [init]

/-- After every run the timer runs exactly if the open group has packets, and
the packets that were taken are those of the groups that were sent, and those
of the open group. -/
theorem never_strands (hmode : g.mode = 0 ∨ g.mode = 1) {seq : UInt32} {buf : Mem}
    {calls : List InputCall} {e : FecEncodeManager} {os : List Sending}
    (hrun : run (call c g) (init g seq buf) calls = .ok (e, os)) :
    (e.timer = true ↔ 0 < e.counter) ∧ ∃ groups opened, groupsOf {} os = groups ++ [opened] ∧
      os.flatMap Sending.taken = groups.flatMap Emitted.accepted ++ opened.accepted ∧
      (∀ k ∈ groups, ∃ seq, Sends c g.mode seq k.accepted k.packets) ∧
      Pending e opened.accepted := by
  obtain ⟨closed, n, heq, hall, -, hn⟩ := run_divides
    (fun e m e' i o (_ : True) h hok => advance_watched hmode h hok) (fun _ _ => trivial)
    (watched_init seq buf) hrun
  refine ⟨hn.timer, closed, n, heq, ?_, ?_, hn.pending⟩
  · have htaken := flatMap_groupsOf os {}
    rw [heq, List.flatMap_append] at htaken
    simpa using htaken.symm
  · intro group hgroup
    obtain ⟨k, hk⟩ := List.mem_iff_getElem?.mp hgroup
    exact ⟨_, hall k group hk⟩

end Watched

/-- Rows for one packet of at most 20 octets. -/
def tightTable : FecParameter where
  mtu := 20
  rsCnt := 1
  rsPar := fun _ => ⟨1, 1⟩

/-- Two packets that do not fit one group: the second one closes the group of
the first and waits in the next. -/
def tightCalls : List InputCall :=
  [⟨some (List.replicate 10 1), false⟩, ⟨some (List.replicate 10 2), true⟩]

/-- The timer runs for the second packet. -/
theorem never_strands_tight : ∃ e os, run (call .repetition tightTable)
    (init tightTable 7 fun _ => 0) tightCalls = .ok (e, os) ∧ e.timer = true ∧ 0 < e.counter := by
  obtain ⟨⟨e, os⟩, hrun, hcnt⟩ := @Checked.exists_of_any _ _
    (run (call .repetition tightTable) (init tightTable 7 fun _ => 0) tightCalls)
    (fun r => decide (0 < r.1.counter)) (by decide +kernel)
  have hpos := of_decide_eq_true hcnt
  exact ⟨e, os, hrun, (never_strands (.inl rfl) hrun).1.mpr hpos, hpos⟩

end Fecraw.Ports.FecEncode
