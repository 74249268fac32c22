import Fecraw.Ports.RsTable

/-!
# The adaptive FEC controller

A port of `adaptive_fec_t`.  Between two evaluations the controller sums up
what it is told was sent and was lost; an evaluation moves the parity by one
step towards a target that depends on the loss rate, holds it for at least
three seconds and lowers it only after three quiet evaluations.

The loss rate, the round-trip time and the clock are `double`s in the source
and are read here as exact rational numbers.  The mutex is left out.

## Main results

* `adjust_parity_le`: without recorded loss the parity does not grow beyond
  the larger of its value and the minimum.
* `adjust_in_range`: an evaluation that changes the parity leaves it between
  one and the number of data shards.
-/

namespace Fecraw.Ports

open Fecraw.Verified.Scan

/-- A sum as it is left in a 32-bit `int`. -/
def wrapInt (n : Int) : Int := n.bmod (2 ^ 32)

theorem wrapInt_of_lt {n : Int} (hlo : 0 ≤ n) (hhi : n < 2 ^ 31) : wrapInt n = n :=
  Int.bmod_eq_of_le (by omega) (by omega)

/-- `adaptive_fec_t`. -/
structure AdaptiveFec where
  dataShards : Int
  parityShards : Int
  minParity : Int
  maxParity : Int
  windowSent : Int := 0
  windowLost : Int := 0
  rttMs : ℚ := 0
  consecutiveLow : Int := 0
  lastAdjustTime : ℚ := 0

namespace AdaptiveFec

/-- `init`. -/
def init (data parity : Int) : AdaptiveFec where
  dataShards := data
  parityShards := parity
  minParity := 2
  maxParity := data

/-- The controller that the event loops start with: the first pair of the
ratio string, or `20:10` where `sscanf` finds none. -/
def start (fecStr : List Char) : AdaptiveFec :=
  init ((scanPair fecStr).1.getD 20) ((scanPair fecStr).2.getD 10)

/-- `record_sent`. -/
def recordSent (a : AdaptiveFec) (n : Int) : AdaptiveFec :=
  { a with windowSent := wrapInt (a.windowSent + n) }

/-- `record_loss`. -/
def recordLoss (a : AdaptiveFec) (n : Int) : AdaptiveFec :=
  { a with windowLost := wrapInt (a.windowLost + n) }

/-- `set_rtt`. -/
def setRtt (a : AdaptiveFec) (ms : ℚ) : AdaptiveFec := { a with rttMs := ms }

def lossRate (a : AdaptiveFec) : ℚ := a.windowLost / a.windowSent

def rttFactor (a : AdaptiveFec) : ℚ :=
  if a.rttMs > 300 then 16 / 10 else if a.rttMs > 100 then 13 / 10 else 1

/-- The two bounds of the parity, in the order in which the code applies
them. -/
def clamp (a : AdaptiveFec) (n : Int) : Int :=
  let n := if n < a.minParity then a.minParity else n
  if n > a.maxParity then a.maxParity else n

/-- The parity that the loss rate asks for. -/
def target (a : AdaptiveFec) : Int :=
  a.clamp (
    if a.lossRate < 2 / 100 then a.minParity
    else if a.lossRate < 5 / 100 then ⌊3 * a.rttFactor⌋
    else if a.lossRate < 10 / 100 then ⌊5 * a.rttFactor⌋
    else if a.lossRate < 20 / 100 then ⌊8 * a.rttFactor⌋
    else a.maxParity)

/-- One step of the parity towards the target, with the count of quiet
evaluations. -/
def move (a : AdaptiveFec) : AdaptiveFec :=
  if a.target > a.parityShards then
    { a with parityShards := a.parityShards + 1, consecutiveLow := 0 }
  else if a.target < a.parityShards then
    if a.consecutiveLow + 1 ≥ 3 then
      { a with parityShards := a.parityShards - 1, consecutiveLow := 0 }
    else { a with consecutiveLow := a.consecutiveLow + 1 }
  else if a.lossRate < 2 / 100 then { a with consecutiveLow := a.consecutiveLow + 1 }
  else { a with consecutiveLow := 0 }

/-- Too few packets, or too soon after the last evaluation. -/
def holds (a : AdaptiveFec) (now : ℚ) : Prop :=
  a.windowSent < 50 ∨ (a.lastAdjustTime > 0 ∧ now - a.lastAdjustTime < 3)

instance (a : AdaptiveFec) (now : ℚ) : Decidable (a.holds now) := by
  unfold holds
  infer_instance

/-- `adjust`: whether the parity has changed.  `out_data` and `out_parity`
are the fields afterwards. -/
def adjust (a : AdaptiveFec) (now : ℚ) : AdaptiveFec × Bool :=
  if a.holds now then (a, false)
  else
    let parity := a.clamp a.move.parityShards
    ({ a.move with
        parityShards := parity
        windowSent := 0
        windowLost := 0
        lastAdjustTime := now },
      decide (parity ≠ a.parityShards))

/-! ## The timer that feeds the controller -/

/-- `(int)` of a 64-bit counter. -/
def countInt (n : UInt64) : Int := wrapInt n.toNat

/-- What `conn_timer_cb` takes for loss: the FEC packets of one interval that
did not yield a packet. -/
def recovered (deltaIn deltaOut : UInt64) : Int :=
  if countInt deltaIn > countInt deltaOut then wrapInt (countInt deltaIn - countInt deltaOut)
  else 0

/-- What `conn_timer_cb` records. -/
def observe (a : AdaptiveFec) (deltaIn deltaOut : UInt64) : AdaptiveFec :=
  if deltaIn > 0 then
    let a := a.recordSent (countInt deltaIn)
    if recovered deltaIn deltaOut > 0 then a.recordLoss (recovered deltaIn deltaOut) else a
  else a

/-- The ratio that `conn_timer_cb` prints and gives to `rs_from_str`. -/
def ratio (a : AdaptiveFec) : List Char := printPair a.dataShards a.parityShards

/-- `adjust` in `conn_timer_cb`: a changed parity is written to the live
encoder's table, and the return value of `rs_from_str` is ignored. -/
def retune (a : AdaptiveFec) (now : ℚ) (par : RsTable.FecParameter) : RsTable.FecParameter :=
  if (a.adjust now).2 then (par.rsFromStr (a.adjust now).1.ratio).getD par else par

/-! ## What an evaluation can do -/

section Adjust

variable {a : AdaptiveFec} {now : ℚ}

theorem move_other (a : AdaptiveFec) :
    a.move.dataShards = a.dataShards ∧ a.move.minParity = a.minParity ∧
      a.move.maxParity = a.maxParity := by
  unfold move
  split
  · exact ⟨rfl, rfl, rfl⟩
  · split
    · split
      · exact ⟨rfl, rfl, rfl⟩
      · exact ⟨rfl, rfl, rfl⟩
    · split
      · exact ⟨rfl, rfl, rfl⟩
      · exact ⟨rfl, rfl, rfl⟩

/-- The number of data shards and the bounds never change. -/
theorem adjust_other (a : AdaptiveFec) (now : ℚ) :
    (a.adjust now).1.dataShards = a.dataShards ∧
      (a.adjust now).1.minParity = a.minParity ∧
      (a.adjust now).1.maxParity = a.maxParity := by
  unfold adjust
  split
  · exact ⟨rfl, rfl, rfl⟩
  · exact a.move_other

/-- The parity moves by at most one, and up only below the target. -/
theorem move_parity_le (a : AdaptiveFec) :
    a.move.parityShards ≤ max a.parityShards a.target := by
  unfold move
  split
  · next h => show a.parityShards + 1 ≤ _; omega
  · split
    · split
      · show a.parityShards - 1 ≤ _
        omega
      · exact le_max_left _ _
    · split
      · exact le_max_left _ _
      · exact le_max_left _ _

theorem observe_other (a : AdaptiveFec) (deltaIn deltaOut : UInt64) :
    (a.observe deltaIn deltaOut).dataShards = a.dataShards ∧
      (a.observe deltaIn deltaOut).minParity = a.minParity ∧
      (a.observe deltaIn deltaOut).maxParity = a.maxParity ∧
      (a.observe deltaIn deltaOut).parityShards = a.parityShards := by
  unfold observe
  dsimp only
  split
  · split
    · exact ⟨rfl, rfl, rfl, rfl⟩
    · exact ⟨rfl, rfl, rfl, rfl⟩
  · exact ⟨rfl, rfl, rfl, rfl⟩

/-- At or above the lower bound only the upper one counts. -/
theorem clamp_of_le {a : AdaptiveFec} {n : Int} (h : a.minParity ≤ n) :
    a.clamp n = min n a.maxParity := by
  unfold clamp
  dsimp only
  split_ifs <;> omega

theorem clamp_le (a : AdaptiveFec) (n : Int) : a.clamp n ≤ max n a.minParity := by
  unfold clamp
  dsimp only
  split_ifs <;> omega

/-- Without loss, the target is the minimum. -/
theorem target_le (hlost : a.windowLost = 0) : a.target ≤ a.minParity := by
  have hrate : a.lossRate = 0 := by
    unfold lossRate
    rw [hlost]
    simp
  unfold target
  rw [hrate, if_pos (by norm_num)]
  exact (a.clamp_le a.minParity).trans (by omega)

/-- Without recorded loss an evaluation does not raise the parity beyond the
minimum, and none is recorded after it. -/
theorem adjust_parity_le (hlost : a.windowLost = 0) :
    (a.adjust now).1.windowLost = 0 ∧
      (a.adjust now).1.parityShards ≤ max a.parityShards a.minParity := by
  have htarget := target_le hlost
  have hmove := a.move_parity_le
  have hclamp := a.clamp_le a.move.parityShards
  unfold adjust
  split
  · exact ⟨hlost, le_max_left _ _⟩
  · refine ⟨rfl, ?_⟩
    show a.clamp a.move.parityShards ≤ _
    omega

/-- A parity that was changed is in its bounds. -/
theorem adjust_in_range (hmin : a.minParity = 2) (hmax : a.maxParity = a.dataShards)
    (hdata : 1 ≤ a.dataShards) (h : (a.adjust now).2 = true) :
    1 ≤ (a.adjust now).1.parityShards ∧
      (a.adjust now).1.parityShards ≤ a.dataShards := by
  unfold adjust at h ⊢
  split at h
  · exact absurd h (by simp)
  · next hgo =>
      rw [if_neg hgo]
      show 1 ≤ a.clamp a.move.parityShards ∧ a.clamp a.move.parityShards ≤ a.dataShards
      unfold clamp
      dsimp only
      split_ifs <;> omega

/-- The bounds of the parity, and data shards that fit a group. -/
structure Ranged (a : AdaptiveFec) : Prop where
  minParity : a.minParity = 2
  maxParity : a.maxParity = a.dataShards
  data_pos : 1 ≤ a.dataShards
  data_le : a.dataShards ≤ 255

theorem Ranged.observe (h : a.Ranged) (deltaIn deltaOut : UInt64) :
    (a.observe deltaIn deltaOut).Ranged := by
  obtain ⟨hd, hlo, hhi, -⟩ := a.observe_other deltaIn deltaOut
  exact ⟨hlo.trans h.minParity, by rw [hhi, hd, h.maxParity], hd ▸ h.data_pos, hd ▸ h.data_le⟩

theorem Ranged.adjust (h : a.Ranged) (now : ℚ) : (a.adjust now).1.Ranged := by
  obtain ⟨hd, hlo, hhi⟩ := a.adjust_other now
  exact ⟨hlo.trans h.minParity, by rw [hhi, hd, h.maxParity], hd ▸ h.data_pos, hd ▸ h.data_le⟩

/-- The timer wants a new ratio, and the encoder's table takes it. -/
def Retunes (a : AdaptiveFec) (now : ℚ) (par : RsTable.FecParameter) : Prop :=
  (a.adjust now).2 = true ∧ (par.rsFromStr (a.adjust now).1.ratio).isSome

/-- Every accepted new ratio has the controller's own number of data shards. -/
theorem retune_cases (h : a.Ranged) (now : ℚ) (par : RsTable.FecParameter) :
    a.retune now par = par ∨
      (a.Retunes now par ∧ par.rsFromStr (a.adjust now).1.ratio = some (a.retune now par) ∧
        (a.retune now par).rsCnt = a.dataShards.toNat) := by
  unfold retune Retunes
  by_cases hchanged : (a.adjust now).2 = true
  · rw [if_pos hchanged]
    cases hstr : par.rsFromStr (a.adjust now).1.ratio with
    | none => exact Or.inl rfl
    | some par' =>
        obtain ⟨hlo, hhi⟩ := adjust_in_range h.minParity h.maxParity h.data_pos hchanged
        have hle := h.data_le
        have hpos := h.data_pos
        obtain ⟨hdata, -, -⟩ := a.adjust_other now
        unfold ratio at hstr
        rw [hdata] at hstr
        have hcnt := RsTable.rsCnt_of_printPair hpos hle (by omega) (by omega) hstr
        exact Or.inr ⟨⟨hchanged, rfl⟩, rfl, hcnt⟩
  · rw [if_neg hchanged]
    exact Or.inl rfl

end Adjust

/-! ## The pair that the controller starts with -/

section Start

open RsTable

/-- A string is one token, or has a first token before a comma. -/
theorem token_cases (s : List Char) :
    ',' ∉ s ∨ ∃ tok rest, ',' ∉ tok ∧ s = tok ++ ',' :: rest := by
  induction s with
  | nil => exact Or.inl (by simp)
  | cons c s ih =>
      by_cases hc : c = ','
      · subst hc
        exact Or.inr ⟨[], s, by simp, rfl⟩
      · rcases ih with hs | ⟨tok, rest, htok, rfl⟩
        · exact Or.inl (by simp [Ne.symm hc, hs])
        · exact Or.inr ⟨c :: tok, rest, by simp [Ne.symm hc, htok], rfl⟩

/-- What `sscanf` reads from the whole string is what it reads from one of
its tokens, or nothing. -/
theorem scanPair_token (s : List Char) :
    scanPair s = (none, none) ∨ ∃ tok ∈ stringToVec s, scanPair s = scanPair tok := by
  rcases token_cases s with hs | ⟨tok, rest, htok, rfl⟩
  · cases s with
    | nil => exact Or.inl rfl
    | cons c s =>
        refine Or.inr ⟨c :: s, ?_, rfl⟩
        unfold stringToVec
        rw [List.splitOn_eq_singleton hs]
        simp
  · cases tok with
    | nil => exact Or.inl (scanPair_of_comma rest)
    | cons c tok =>
        refine Or.inr ⟨c :: tok, ?_, scanPair_comma (c :: tok) rest⟩
        unfold stringToVec
        rw [List.splitOn_append_cons_self, List.splitOn_eq_singleton htok]
        simp

/-- On an accepted string the controller starts with a pair in range. -/
theorem ranged_start {s : List Char} {par par' : FecParameter}
    (hs : par.rsFromStr s = some par') (hr : InRange s) : (start s).Ranged := by
  obtain ⟨p, rest, hps, -, -⟩ := rsFromStr_eq_some hs
  suffices hdata : 1 ≤ (scanPair s).1.getD 20 ∧ (scanPair s).1.getD 20 ≤ 255 from
    ⟨rfl, rfl, hdata.1, hdata.2⟩
  rcases scanPair_token s with h | ⟨tok, htok, h⟩
  · rw [h]
    decide
  · obtain ⟨q, -, hq⟩ := exists_mem_of_token hps tok htok
    obtain ⟨x, y, hscan, hrange⟩ := parsePair_of_sum_le hq
    have hsum := hr.sum_le htok hscan
    obtain ⟨hx, hy, -⟩ := hrange hsum
    unfold maxFecPacketNum at hsum
    rw [h, hscan]
    show 1 ≤ x ∧ x ≤ 255
    omega

end Start

end AdaptiveFec

end Fecraw.Ports
