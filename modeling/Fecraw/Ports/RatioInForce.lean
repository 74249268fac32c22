import Fecraw.Ports.Retune

/-!
# The ratio of the controller and the ratio in force

`conn_timer_cb` ignores whether `rs_from_str` accepts the ratio that the
controller asks for.  The controller lets the parity grow up to the number of
data shards; a group has at most 255 packets.  So controller and encoder agree
for good exactly if twice the number of data shards fits a group.

## Main results

* `inStep_of_le`: up to 127 data shards every new ratio is accepted.
* `inStep_iff`: with more data shards there is a run of ticks after which the
  ratio in force is not the controller's.
-/

namespace Fecraw.Ports.RatioInForce

open Fecraw.Verified Fecraw.Verified.Scan Fecraw.Ports.RsTable Fecraw.Ports.Retune

/-! ## Runs of ticks -/

/-- One tick of `conn_timer_cb`, with what its two counters grew by. -/
structure Tick where
  deltaIn : UInt64
  deltaOut : UInt64
  now : ℚ

def tick (st : Endpoint) (t : Tick) : Endpoint := connTimer st t.deltaIn t.deltaOut t.now

def ticks (st : Endpoint) (ts : List Tick) : Endpoint := ts.foldl tick st

/-- `adjust` returns true at this tick. -/
def Changes (st : Endpoint) (t : Tick) : Prop :=
  ((st.adaptive.observe t.deltaIn t.deltaOut).adjust t.now).2 = true

/-- The clock is at `start` and does not go back. -/
def Clocked (start : ℚ) (ts : List Tick) : Prop :=
  List.IsChain (· ≤ ·) (start :: ts.map Tick.now)

/-- The encoder's table ends with the pair of the controller. -/
def InStep (st : Endpoint) : Prop :=
  ∃ tail, st.encoder.fecPar.getTail = some tail ∧
    (st.encoder.fecPar.rsCnt : Int) = st.adaptive.dataShards ∧
    (tail.y : Int) = st.adaptive.parityShards

/-- After every tick of every run that changes the parity, the table ends with
the pair of the controller. -/
def StaysInStep (st : Endpoint) : Prop :=
  ∀ ts t, Clocked 0 (ts ++ [t]) → Changes (ticks st ts) t → InStep (tick (ticks st ts) t)

/-! ## Ratios that fit -/

section Fits

variable {st : Endpoint}

theorem tick_adaptive (st : Endpoint) (t : Tick) :
    (tick st t).adaptive
      = ((st.adaptive.observe t.deltaIn t.deltaOut).adjust t.now).1 := rfl

/-- The table after a tick that changes the parity. -/
theorem tick_fecPar {t : Tick} (h : Changes st t) :
    (tick st t).encoder.fecPar
      = (st.encoder.fecPar.rsFromStr (tick st t).adaptive.ratio).getD st.encoder.fecPar := by
  unfold Changes at h
  show AdaptiveFec.retune _ _ _ = _
  unfold AdaptiveFec.retune
  rw [if_pos h]
  rfl

/-- A pair in range is in force after the tick. -/
theorem inStep_of_sum_le {t : Tick} (h : Changes st t) (hd : 1 ≤ (tick st t).adaptive.dataShards)
    (hp : 0 ≤ (tick st t).adaptive.parityShards)
    (hsum : (tick st t).adaptive.dataShards + (tick st t).adaptive.parityShards ≤ 255) :
    InStep (tick st t) := by
  have hpar := tick_fecPar h
  have hstr := rsFromStr_printPair st.encoder.fecPar hd hp hsum
  unfold AdaptiveFec.ratio at hpar
  rw [hstr, Option.getD_some] at hpar
  unfold InStep FecParameter.getTail
  rw [hpar, if_pos (by show 1 ≤ Int.toNat _; omega)]
  refine ⟨_, rfl, ?_, ?_⟩
  · show ((Int.toNat _ : Nat) : Int) = _
    omega
  · show (((fillFirst _ _ _ : RsParameter).y : Nat) : Int) = _
    rw [fillFirst_apply, if_pos (by show Int.toNat _ - 1 < Int.toNat _; omega)]
    show ((Int.toNat _ : Nat) : Int) = _
    omega

theorem ranged_tick (h : st.adaptive.Ranged) (t : Tick) : (tick st t).adaptive.Ranged :=
  (h.observe t.deltaIn t.deltaOut).adjust t.now

theorem dataShards_tick (st : Endpoint) (t : Tick) :
    (tick st t).adaptive.dataShards = st.adaptive.dataShards := by
  rw [tick_adaptive, (AdaptiveFec.adjust_other _ _).1, (AdaptiveFec.observe_other _ _ _).1]

theorem ranged_ticks (h : st.adaptive.Ranged) (ts : List Tick) :
    (ticks st ts).adaptive.Ranged ∧ (ticks st ts).adaptive.dataShards = st.adaptive.dataShards := by
  induction ts using List.reverseRecOn with
  | nil => exact ⟨h, rfl⟩
  | append_singleton ts t ih =>
      have hlast : ticks st (ts ++ [t]) = tick (ticks st ts) t := by simp [ticks]
      rw [hlast, dataShards_tick]
      exact ⟨ranged_tick ih.1 t, ih.2⟩

/-- Up to 127 data shards every new ratio is accepted. -/
theorem inStep_of_le (h : st.adaptive.Ranged) (hd : st.adaptive.dataShards ≤ 127) :
    StaysInStep st := by
  intro ts t _ hchange
  obtain ⟨hranged, hdata⟩ := ranged_ticks h ts
  have hobs := hranged.observe t.deltaIn t.deltaOut
  obtain ⟨hlo, hhi⟩ := AdaptiveFec.adjust_in_range hobs.minParity hobs.maxParity hobs.data_pos
    hchange
  have hpos := hranged.data_pos
  have hsame := dataShards_tick (ticks st ts) t
  rw [(AdaptiveFec.observe_other _ _ _).1] at hhi
  rw [← tick_adaptive] at hlo hhi
  exact inStep_of_sum_le hchange (by omega) (by omega) (by omega)

end Fits

/-! ## Ratios that do not fit -/

section Overflow

variable {st : Endpoint} {now : ℚ} {d q : Int}

/-- The controller just after an evaluation, or at the start. -/
structure Fresh (a : AdaptiveFec) (now : ℚ) (d q : Int) : Prop where
  sent : a.windowSent = 0
  lost : a.windowLost = 0
  last : a.lastAdjustTime ≤ now
  minParity : a.minParity = 2
  maxParity : a.maxParity = d
  data : a.dataShards = d
  parity : a.parityShards = q

/-- A tick, three seconds later, in which all packets were lost. -/
def lossy (now : ℚ) : Tick := ⟨100, 0, now + 3⟩

/-- A tick, three seconds later, in which none was. -/
def quiet (now : ℚ) : Tick := ⟨100, 100, now + 3⟩

theorem observe_lossy {a : AdaptiveFec} (h : Fresh a now d q) :
    a.observe 100 0 = { a with windowSent := 100, windowLost := 100 } := by
  have hrec : AdaptiveFec.recovered 100 0 = 100 := by decide
  have hint : AdaptiveFec.countInt 100 = 100 := by decide
  unfold AdaptiveFec.observe
  rw [if_pos (by decide), hrec, if_pos (by decide), hint]
  unfold AdaptiveFec.recordSent AdaptiveFec.recordLoss
  simp only [h.sent, h.lost]
  rfl

theorem observe_quiet {a : AdaptiveFec} (h : Fresh a now d q) :
    a.observe 100 100 = { a with windowSent := 100 } := by
  have hrec : AdaptiveFec.recovered 100 100 = 0 := by decide
  have hint : AdaptiveFec.countInt 100 = 100 := by decide
  unfold AdaptiveFec.observe
  rw [if_pos (by decide), hrec, if_neg (by decide), hint]
  unfold AdaptiveFec.recordSent
  simp only [h.sent]
  rfl

theorem not_holds {a : AdaptiveFec} (hsent : a.windowSent = 100) (hlast : a.lastAdjustTime ≤ now) :
    ¬ a.holds (now + 3) := by
  unfold AdaptiveFec.holds
  rintro (h | ⟨-, h⟩)
  · omega
  · linarith

/-- What an evaluation leaves behind. -/
theorem fresh_adjust {a : AdaptiveFec} (hgo : ¬ a.holds (now + 3)) (hmin : a.minParity = 2)
    (hmax : a.maxParity = d) (hdata : a.dataShards = d) :
    Fresh (a.adjust (now + 3)).1 (now + 3) d (a.clamp a.move.parityShards) ∧
      (a.adjust (now + 3)).1.consecutiveLow = a.move.consecutiveLow ∧
      ((a.adjust (now + 3)).2 = true ↔ a.clamp a.move.parityShards ≠ a.parityShards) := by
  obtain ⟨hd, hlo, hhi⟩ := a.move_other
  unfold AdaptiveFec.adjust
  rw [if_neg hgo]
  refine ⟨⟨rfl, rfl, le_refl _, hlo.trans hmin, hhi.trans hmax, hd.trans hdata, rfl⟩, rfl, ?_⟩
  simp

/-- Below the target the parity goes up by one, or to its minimum. -/
theorem clamp_move_of_lt {a : AdaptiveFec} (hmin : a.minParity = 2) (hmax : a.maxParity = d)
    (hpar : a.parityShards = q) (htarget : a.target = d) (hd : 2 ≤ d) (hq : 0 ≤ q) (hlt : q < d) :
    a.clamp a.move.parityShards = max (q + 1) 2 := by
  have hmove : a.move.parityShards = q + 1 := by
    unfold AdaptiveFec.move
    rw [if_pos (by omega)]
    show a.parityShards + 1 = q + 1
    rw [hpar]
  rw [hmove]
  unfold AdaptiveFec.clamp
  rw [hmin, hmax]
  dsimp only
  split_ifs <;> omega

/-- Above the target the parity goes down by one at the third evaluation. -/
theorem move_of_gt {a : AdaptiveFec} (hpar : a.parityShards = q) (hlt : a.target < q) :
    (a.consecutiveLow + 1 < 3 → a.move.parityShards = q ∧
      a.move.consecutiveLow = a.consecutiveLow + 1) ∧
    (3 ≤ a.consecutiveLow + 1 → a.move.parityShards = q - 1) := by
  unfold AdaptiveFec.move
  rw [if_neg (by omega), if_pos (by omega)]
  constructor
  · intro hfew
    rw [if_neg (by omega)]
    exact ⟨hpar, rfl⟩
  · intro henough
    rw [if_pos (by omega)]
    show a.parityShards - 1 = q - 1
    rw [hpar]

/-- All packets lost: the parity goes up by one, and down to its bound. -/
theorem fresh_lossy (h : Fresh st.adaptive now d q) (hd : 128 ≤ d) (hq : 0 ≤ q) (hne : q ≠ d) :
    Changes st (lossy now) ∧
      Fresh (tick st (lossy now)).adaptive (now + 3) d (if q < d then max (q + 1) 2 else d) ∧
      (d < q → st.adaptive.consecutiveLow = 0 →
        (tick st (lossy now)).adaptive.consecutiveLow = 1) := by
  have hobs := observe_lossy h
  rw [tick_adaptive]
  unfold Changes lossy
  dsimp only
  generalize st.adaptive.observe 100 0 = a at hobs ⊢
  have hsent : a.windowSent = 100 := by rw [hobs]
  have hgo : ¬ a.holds (now + 3) := not_holds hsent (by rw [hobs]; exact h.last)
  obtain ⟨hfresh, hlow, hchange⟩ := fresh_adjust (d := d) hgo (by rw [hobs]; exact h.minParity)
    (by rw [hobs]; exact h.maxParity) (by rw [hobs]; exact h.data)
  have hpar : a.parityShards = q := by rw [hobs]; exact h.parity
  have hmin : a.minParity = 2 := by rw [hobs]; exact h.minParity
  have hmax : a.maxParity = d := by rw [hobs]; exact h.maxParity
  have hrate : a.lossRate = 1 := by
    unfold AdaptiveFec.lossRate
    rw [hobs]
    norm_num
  have htarget : a.target = d := by
    unfold AdaptiveFec.target AdaptiveFec.clamp
    rw [hrate, hmin, hmax]
    norm_num
    omega
  rw [hchange, hlow, hpar]
  by_cases hlt : q < d
  · have hclamp := clamp_move_of_lt hmin hmax hpar htarget (by omega) hq hlt
    rw [hclamp] at hfresh ⊢
    rw [if_pos hlt]
    exact ⟨by omega, hfresh, fun h => absurd h (by omega)⟩
  · obtain ⟨hstay, hdown⟩ := move_of_gt hpar (by omega : a.target < q)
    have hclamp : a.clamp a.move.parityShards = d := by
      by_cases hlow : a.consecutiveLow + 1 < 3
      · rw [(hstay hlow).1, AdaptiveFec.clamp_of_le (by omega), hmax]
        omega
      · rw [hdown (by omega), AdaptiveFec.clamp_of_le (by omega), hmax]
        omega
    rw [hclamp] at hfresh ⊢
    rw [if_neg hlt]
    refine ⟨by omega, hfresh, fun _ hzero => ?_⟩
    have hzero' : a.consecutiveLow = 0 := by rw [hobs]; exact hzero
    rw [(hstay (by omega)).2, hzero']
    rfl

/-- No packet lost: at the third evaluation the parity goes down by one. -/
theorem fresh_quiet (h : Fresh st.adaptive now d q) (hq : 2 < q) (hle : q ≤ d) :
    (st.adaptive.consecutiveLow + 1 < 3 →
      Fresh (tick st (quiet now)).adaptive (now + 3) d q ∧
      (tick st (quiet now)).adaptive.consecutiveLow = st.adaptive.consecutiveLow + 1 ∧
      (tick st (quiet now)).encoder.fecPar = st.encoder.fecPar) ∧
    (3 ≤ st.adaptive.consecutiveLow + 1 → Changes st (quiet now) ∧
      Fresh (tick st (quiet now)).adaptive (now + 3) d (q - 1)) := by
  have hobs := observe_quiet h
  have hpar' : ∀ t, (tick st t).encoder.fecPar
      = (st.adaptive.observe t.deltaIn t.deltaOut).retune t.now st.encoder.fecPar := fun _ => rfl
  rw [tick_adaptive, hpar']
  unfold Changes quiet
  dsimp only
  generalize st.adaptive.observe 100 100 = a at hobs ⊢
  have hsent : a.windowSent = 100 := by rw [hobs]
  have hgo : ¬ a.holds (now + 3) := not_holds hsent (by rw [hobs]; exact h.last)
  obtain ⟨hfresh, hlow, hchange⟩ := fresh_adjust (d := d) hgo (by rw [hobs]; exact h.minParity)
    (by rw [hobs]; exact h.maxParity) (by rw [hobs]; exact h.data)
  have hpar : a.parityShards = q := by rw [hobs]; exact h.parity
  have hmin : a.minParity = 2 := by rw [hobs]; exact h.minParity
  have hmax : a.maxParity = d := by rw [hobs]; exact h.maxParity
  have hsame : a.consecutiveLow = st.adaptive.consecutiveLow := by rw [hobs]
  have htarget : a.target ≤ 2 := by
    have := AdaptiveFec.target_le (a := a) (by rw [hobs]; exact h.lost)
    omega
  obtain ⟨hstay, hdown⟩ := move_of_gt hpar (by omega : a.target < q)
  rw [← hsame]
  constructor
  · intro hfew
    obtain ⟨hmove, hcount⟩ := hstay hfew
    have hclamp : a.clamp a.move.parityShards = q := by
      rw [hmove, AdaptiveFec.clamp_of_le (by omega), hmax]
      omega
    rw [hclamp] at hfresh hchange
    refine ⟨hfresh, hlow.trans hcount, ?_⟩
    unfold AdaptiveFec.retune
    rw [if_neg (by rw [hchange, hpar]; simp)]
  · intro henough
    have hclamp : a.clamp a.move.parityShards = q - 1 := by
      rw [hdown henough, AdaptiveFec.clamp_of_le (by omega), hmax]
      omega
    rw [hclamp] at hfresh hchange
    exact ⟨hchange.mpr (by omega), hfresh⟩

/-- A run from `st`, at the time `now`, ends with a change that is not in force. -/
def Fails (st : Endpoint) (now : ℚ) : Prop :=
  ∃ ts t, Clocked now (ts ++ [t]) ∧ Changes (ticks st ts) t ∧ ¬ InStep (tick (ticks st ts) t)

theorem Fails.tick {t : Tick} (hnow : now ≤ t.now) (h : Fails (tick st t) t.now) :
    Fails st now := by
  obtain ⟨ts, u, hclock, hchange, hnot⟩ := h
  exact ⟨t :: ts, u, List.isChain_cons_cons.mpr ⟨hnow, hclock⟩, hchange, hnot⟩

theorem fails_or_inStep {t : Tick} (hnow : now ≤ t.now) (h : Changes st t) :
    Fails st now ∨ InStep (tick st t) := by
  by_cases hstep : InStep (tick st t)
  · exact Or.inr hstep
  · have hclock : Clocked now [t] :=
      List.isChain_cons_cons.mpr ⟨hnow, List.isChain_singleton _⟩
    exact Or.inl ⟨[], t, hclock, h, hstep⟩

theorem inStep_iff_of_fresh (h : Fresh st.adaptive now d q) :
    InStep st ↔ ∃ tail, st.encoder.fecPar.getTail = some tail ∧
      (st.encoder.fecPar.rsCnt : Int) = d ∧ (tail.y : Int) = q := by
  unfold InStep
  rw [h.data, h.parity]

/-- The table keeps at most 255 rows. -/
theorem rsCnt_tick (h : st.encoder.fecPar.rsCnt ≤ 255) (t : Tick) :
    (tick st t).encoder.fecPar.rsCnt ≤ 255 := by
  by_cases hchange : Changes st t
  · rw [tick_fecPar hchange]
    cases hpar : st.encoder.fecPar.rsFromStr (tick st t).adaptive.ratio with
    | none => exact h
    | some par => exact rsFromStr_rsCnt_le hpar
  · have hsame : (tick st t).encoder.fecPar = st.encoder.fecPar := if_neg hchange
    rw [hsame]
    exact h

/-- A change that is in force after one that was: the new pair fits. -/
theorem sum_le_of_inStep {t : Tick} {q' : Int} {now' : ℚ} (h : Fresh st.adaptive now d q)
    (h' : Fresh (tick st t).adaptive now' d q') (hchange : Changes st t) (hd : 1 ≤ d)
    (hd' : d ≤ 255) (hq : 0 ≤ q') (hle : q' ≤ d) (hne : q ≠ q') (hstep : InStep st)
    (hstep' : InStep (tick st t)) : d + q' ≤ 255 := by
  by_contra hsum
  rw [inStep_iff_of_fresh h] at hstep
  rw [inStep_iff_of_fresh h'] at hstep'
  -- the string is rejected, so both pairs are read off the same table
  have hpar := tick_fecPar hchange
  unfold AdaptiveFec.ratio at hpar
  rw [h'.data, h'.parity, rsFromStr_printPair_none _ hd hq
    (by unfold maxFecPacketNum; omega) (by omega), Option.getD_none] at hpar
  rw [hpar] at hstep'
  obtain ⟨tail, htail, -, hy⟩ := hstep
  obtain ⟨tail', htail', -, hy'⟩ := hstep'
  obtain rfl := Option.some.inj (htail.symm.trans htail')
  exact hne (hy.symm.trans hy')

theorem data_le_of_inStep (h : Fresh st.adaptive now d q) (hcnt : st.encoder.fecPar.rsCnt ≤ 255)
    (hstep : InStep st) : d ≤ 255 := by
  obtain ⟨-, -, hrows, -⟩ := (inStep_iff_of_fresh h).mp hstep
  omega

/-- Below the bound: losses raise the parity until a ratio is rejected. -/
theorem fails_of_lt (n : Nat) : ∀ {st : Endpoint} {now : ℚ} {q : Int},
    Fresh st.adaptive now d q → st.encoder.fecPar.rsCnt ≤ 255 → (d ≤ 255 → InStep st) →
      128 ≤ d → 0 ≤ q → q < d → (d - q).toNat ≤ n → Fails st now := by
  induction n with
  | zero => intro st now q _ _ _ _ _ hlt hn; omega
  | succ n ih =>
      intro st now q h hcnt hstep hd hq hlt hn
      obtain ⟨hchange, hnext, -⟩ := fresh_lossy h hd hq (by omega)
      rw [if_pos hlt] at hnext
      have hcnt' := rsCnt_tick hcnt (lossy now)
      have hnow : now ≤ (lossy now).now := by show now ≤ now + 3; linarith
      rcases fails_or_inStep hnow hchange with hfails | hstep'
      · exact hfails
      · have hd' := data_le_of_inStep hnext hcnt' hstep'
        have hsum := sum_le_of_inStep h hnext hchange (by omega) hd' (by omega) (by omega)
          (by omega) (hstep hd') hstep'
        exact (ih hnext hcnt' (fun _ => hstep') hd (by omega) (by omega) (by omega)).tick hnow

/-- At the bound: three evaluations without loss lower the parity first. -/
theorem fails_of_eq (n : Nat) : ∀ {st : Endpoint} {now : ℚ},
    Fresh st.adaptive now d d → st.encoder.fecPar.rsCnt ≤ 255 → (d ≤ 255 → InStep st) →
      128 ≤ d → (2 - st.adaptive.consecutiveLow).toNat ≤ n → Fails st now := by
  induction n with
  | zero =>
      intro st now h hcnt hstep hd hn
      obtain ⟨hchange, hnext⟩ := (fresh_quiet h (by omega) (by omega)).2 (by omega)
      have hcnt' := rsCnt_tick hcnt (quiet now)
      have hnow : now ≤ (quiet now).now := by show now ≤ now + 3; linarith
      rcases fails_or_inStep hnow hchange with hfails | hstep'
      · exact hfails
      · exact (fails_of_lt 1 hnext hcnt' (fun _ => hstep') hd (by omega) (by omega)
          (by omega)).tick hnow
  | succ n ih =>
      intro st now h hcnt hstep hd hn
      by_cases hlow : 3 ≤ st.adaptive.consecutiveLow + 1
      · exact ih h hcnt hstep hd (by omega)
      · obtain ⟨hnext, hcount, hpar⟩ := (fresh_quiet h (by omega) (by omega)).1 (by omega)
        have hnow : now ≤ (quiet now).now := by show now ≤ now + 3; linarith
        refine (ih hnext (rsCnt_tick hcnt _) (fun hd' => ?_) hd (by omega)).tick hnow
        have := (inStep_iff_of_fresh h).mp (hstep hd')
        rw [inStep_iff_of_fresh hnext, hpar]
        exact this

end Overflow

/-! ## Exactly the ratios that fit -/

section Start

variable {par g : FecParameter} {seq : UInt32} {buf : Mem} {d p : Int}

/-- The controller starts with the pair of the string. -/
theorem fresh_start (hd : -2 ^ 31 ≤ d) (hd' : d < 2 ^ 31) (hp : -2 ^ 31 ≤ p) (hp' : p < 2 ^ 31) :
    Fresh (start g seq buf (printPair d p)).adaptive 0 d p ∧
      (start g seq buf (printPair d p)).adaptive.consecutiveLow = 0 := by
  show Fresh (AdaptiveFec.start _) 0 d p ∧ (AdaptiveFec.start _).consecutiveLow = 0
  unfold AdaptiveFec.start
  rw [scanPair_printPair hd hd' hp hp']
  exact ⟨⟨rfl, rfl, le_refl _, rfl, rfl, rfl, rfl⟩, rfl⟩

/-- A pair in range is in force from the start. -/
theorem inStep_start (hs : par.rsFromStr (printPair d p) = some g) (hd : 1 ≤ d) (hp : 0 ≤ p)
    (hsum : d + p ≤ 255) : InStep (start g seq buf (printPair d p)) := by
  obtain ⟨hfresh, -⟩ := @fresh_start g seq buf d p (by omega) (by omega) (by omega) (by omega)
  rw [rsFromStr_printPair par hd hp hsum] at hs
  rw [inStep_iff_of_fresh hfresh]
  show ∃ tail, g.getTail = some tail ∧ (g.rsCnt : Int) = d ∧ (tail.y : Int) = p
  obtain rfl := Option.some.inj hs
  unfold FecParameter.getTail
  rw [if_pos (by show 1 ≤ Int.toNat _; omega)]
  refine ⟨_, rfl, by show ((Int.toNat _ : Nat) : Int) = _; omega, ?_⟩
  show (((fillFirst _ _ _ : RsParameter).y : Nat) : Int) = _
  rw [fillFirst_apply, if_pos (by show Int.toNat _ - 1 < Int.toNat _; omega)]
  show ((Int.toNat _ : Nat) : Int) = _
  omega

/-- With 128 data shards or more some run ends with a ratio that is not in force. -/
theorem fails_start (hs : par.rsFromStr (printPair d p) = some g) (hd : 128 ≤ d) (hd' : d < 2 ^ 31)
    (hp : -2 ^ 31 ≤ p) (hp' : p < 2 ^ 31) : Fails (start g seq buf (printPair d p)) 0 := by
  obtain ⟨-, hpos, hsum⟩ := printPair_accepted (by omega) hd' hp hp' hs
  unfold maxFecPacketNum at hsum
  obtain ⟨hfresh, hlow⟩ := @fresh_start g seq buf d p (by omega) hd' hp hp'
  have hcnt : (start g seq buf (printPair d p)).encoder.fecPar.rsCnt ≤ 255 :=
    rsFromStr_rsCnt_le hs
  rcases lt_trichotomy p d with hlt | rfl | hgt
  · exact fails_of_lt _ hfresh hcnt (fun _ => inStep_start hs (by omega) hpos (by omega)) hd hpos
      hlt (le_refl _)
  · exact fails_of_eq _ hfresh hcnt (fun _ => by omega) hd (le_refl _)
  · -- the first loss takes the parity down to its bound
    obtain ⟨hchange, hnext, -⟩ := fresh_lossy hfresh hd hpos (by omega)
    rw [if_neg (by omega)] at hnext
    have hnow : (0 : ℚ) ≤ (lossy 0).now := by show (0 : ℚ) ≤ 0 + 3; norm_num
    rcases fails_or_inStep hnow hchange with hfails | hstep
    · exact hfails
    · exact (fails_of_eq _ hnext (rsCnt_tick hcnt _) (fun _ => hstep) hd (le_refl _)).tick hnow

/-- The ratio in force follows the controller for good exactly if the ratio
has at most 127 data shards. -/
theorem inStep_iff (hs : par.rsFromStr (printPair d p) = some g) (hd : -2 ^ 31 ≤ d)
    (hd' : d < 2 ^ 31) (hp : -2 ^ 31 ≤ p) (hp' : p < 2 ^ 31) :
    StaysInStep (start g seq buf (printPair d p)) ↔ d ≤ 127 := by
  obtain ⟨hpos, -, -⟩ := printPair_accepted hd hd' hp hp' hs
  obtain ⟨hfresh, -⟩ := @fresh_start g seq buf d p hd hd' hp hp'
  constructor
  · intro hstays
    by_contra hlarge
    obtain ⟨ts, t, hclock, hchange, hnot⟩ :=
      @fails_start par g seq buf d p hs (by omega) hd' hp hp'
    exact hnot (hstays ts t hclock hchange)
  · intro hle
    have hdata := hfresh.data
    exact inStep_of_le ⟨hfresh.minParity, by rw [hfresh.maxParity, hdata], by omega, by omega⟩
      (by omega)

/-- The default ratio stays in step. -/
theorem inStep_iff_default :
    FecParameter.rsFromStr {} (printPair 20 10)
      = some { rsPar := fillFirst (fun _ => ⟨0, 0⟩) ⟨20, 10⟩, rsCnt := 20 } ∧
    StaysInStep (start { rsPar := fillFirst (fun _ => ⟨0, 0⟩) ⟨20, 10⟩, rsCnt := 20 } 0
      (fun _ => 0) (printPair 20 10)) := by
  have hs : FecParameter.rsFromStr {} (printPair 20 10)
      = some { rsPar := fillFirst (fun _ => ⟨0, 0⟩) ⟨20, 10⟩, rsCnt := 20 } :=
    @rsFromStr_printPair {} 20 10 (by decide) (by decide) (by decide)
  refine ⟨hs, (inStep_iff hs ?_ ?_ ?_ ?_).mpr ?_⟩ <;> decide

/-- `200:55` is accepted; after one lossy tick the controller says `200:56`,
and the ratio in force is still `200:55`. -/
theorem ratio_not_in_force : ∃ g, FecParameter.rsFromStr {} (printPair 200 55) = some g ∧
    ∃ t, Clocked 0 [t] ∧ Changes (start g 0 (fun _ => 0) (printPair 200 55)) t ∧
      (tick (start g 0 (fun _ => 0) (printPair 200 55)) t).adaptive.parityShards = 56 ∧
      (tick (start g 0 (fun _ => 0) (printPair 200 55)) t).encoder.fecPar.getTail
        = some ⟨200, 55⟩ ∧
      ¬ StaysInStep (start g 0 (fun _ => 0) (printPair 200 55)) := by
  have hs := @rsFromStr_printPair {} 200 55 (by decide) (by decide) (by decide)
  refine ⟨_, hs, lossy 0, ?_⟩
  generalize hg : FecParameter.mk _ _ _ _ _ _ _ = g
  obtain ⟨hfresh, -⟩ := @fresh_start g 0 (fun _ => 0) 200 55 (by decide) (by decide) (by decide)
    (by decide)
  obtain ⟨hchange, hnext, -⟩ := fresh_lossy hfresh (by decide) (by decide) (by decide)
  rw [if_pos (by decide), show max ((55 : Int) + 1) 2 = 56 by decide] at hnext
  have hclock : Clocked 0 [lossy 0] := by
    refine List.isChain_cons_cons.mpr ⟨?_, List.isChain_singleton _⟩
    show (0 : ℚ) ≤ 0 + 3
    norm_num
  have htail : (tick (start g 0 (fun _ => 0) (printPair 200 55)) (lossy 0)).encoder.fecPar.getTail
      = some ⟨200, 55⟩ := by
    rw [tick_fecPar hchange]
    unfold AdaptiveFec.ratio
    rw [hnext.data, hnext.parity,
      rsFromStr_printPair_none _ (by decide) (by decide) (by decide) (by decide)]
    show g.getTail = some ⟨200, 55⟩
    rw [← hg]
    unfold FecParameter.getTail
    rw [if_pos (by decide)]
    show some (fillFirst _ _ 199) = _
    rw [fillFirst_apply]
    rfl
  refine ⟨hclock, hchange, hnext.parity, htail, fun hstays => ?_⟩
  obtain ⟨tail, htail', -, hy⟩ :=
    (inStep_iff_of_fresh hnext).mp (hstays [] (lossy 0) hclock hchange)
  change (tick (start g 0 (fun _ => 0) (printPair 200 55)) (lossy 0)).encoder.fecPar.getTail
    = some tail at htail'
  obtain rfl := Option.some.inj (htail.symm.trans htail')
  exact absurd hy (by decide)

end Start

end Fecraw.Ports.RatioInForce
