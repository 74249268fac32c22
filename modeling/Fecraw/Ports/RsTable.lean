import Mathlib.Data.Rat.Floor
import Mathlib.Tactic
import Fecraw.Verified.Scan

/-!
# The FEC parameter table

A port of `fec_parameter_t`.  A ratio string is a comma-separated list of
pairs `x:y`; `rs_from_str` turns it into one row per group size: the
first pair's parity up to its own size, the listed parity at each listed
size, and a rounded-up linear interpolation in between.

Rows are stored as unsigned chars, and the test `x + y > 255` is made on
32-bit `int`s, so a pair whose sum overflows passes it.  The interpolation
is computed in `double`; it is read here as exact rational arithmetic.

## Main results

* `rsFromStr_x`: row `i` of an accepted table is for group size `i + 1`.
* `rsFromStr_sum_le`: a bound on the sums of the listed pairs is a bound on
  every row.
* `rsFromStr_row_of_mem`: every listed pair is a row of the table.
* `rsFromStr_printPair`: a printed pair is accepted as the table it names.
-/

namespace Fecraw.Ports.RsTable

open Fecraw.Verified.Scan

/-- `max_fec_packet_num`. -/
def maxFecPacketNum : Nat := 255

/-- One row: `x` data packets get `y` redundant ones.  Both are unsigned
chars in the source. -/
structure RsParameter where
  x : Nat
  y : Nat
deriving Repr, DecidableEq

/-- `fec_parameter_t`. -/
structure FecParameter where
  version : Int := 0
  mtu : Int := 1250
  queueLen : Int := 200
  timeout : Int := 8 * 1000
  mode : Int := 0
  rsCnt : Nat := 0
  rsPar : Nat → RsParameter := fun _ => ⟨0, 0⟩

/-! ## Parsing -/

/-- `string_to_vec(s, ",")`: `strtok` never returns an empty token. -/
def stringToVec (s : List Char) : List (List Char) :=
  (s.splitOn ',').filter (· ≠ [])

/-- `x + y` on 32-bit `int`s. -/
def addInt (x y : Int) : Int := (x + y).bmod (2 ^ 32)

/-- One token of the string: two `int`s in range, cut to unsigned chars. -/
def parsePair (tok : List Char) : Option RsParameter :=
  match scanPair tok with
  | (some x, some y) =>
      if x < 1 ∨ y < 0 ∨ addInt x y > maxFecPacketNum then none
      else some ⟨(x % 2 ^ 8).toNat, (y % 2 ^ 8).toNat⟩
  | _ => none

/-! ## Filling the table -/

/-- A `double` stored into an `int`. -/
def truncate (q : ℚ) : Int := if 0 ≤ q then ⌊q⌋ else ⌈q⌉

/-- The parity of group size `inX`, strictly between two listed sizes. -/
def rowY (pre now : RsParameter) (inX : Nat) : Nat :=
  let inY := truncate (pre.y + ((now.y : ℚ) - pre.y) * ((inX : ℚ) - pre.x)
    / ((now.x : ℚ) - pre.x) + 9999 / 10000)
  if inX + inY > maxFecPacketNum then maxFecPacketNum - inX else inY.toNat

/-- The rows up to the first listed size. -/
def fillFirst (t : Nat → RsParameter) (p : RsParameter) : Nat → RsParameter :=
  (List.range p.x).foldl (fun t k => Function.update t k ⟨k + 1, p.y⟩) t

/-- The rows after `pre` up to and including `now`. -/
def fillBetween (t : Nat → RsParameter) (pre now : RsParameter) :
    Nat → RsParameter :=
  (List.range (now.x - 1 - pre.x)).foldl
    (fun t k => Function.update t (pre.x + k)
      ⟨pre.x + k + 1, rowY pre now (pre.x + k + 1)⟩)
    (Function.update t (now.x - 1) now)

/-- The rows of all further pairs, in order. -/
def fillRest (t : Nat → RsParameter) : RsParameter → List RsParameter →
    Nat → RsParameter
  | _, [] => t
  | pre, now :: rest => fillRest (fillBetween t pre now) now rest

/-- The listed sizes are strictly increasing. -/
def Ascending (ps : List RsParameter) : Prop :=
  ps.IsChain fun a b => a.x < b.x

instance (ps : List RsParameter) : Decidable (Ascending ps) := by
  unfold Ascending
  infer_instance

/-- The pairs of a ratio string, if every token is one. -/
def parsePairs (s : List Char) : Option (List RsParameter) :=
  (stringToVec s).mapM parsePair

/-- The last of the pairs `p :: rest`. -/
def lastPair (p : RsParameter) (rest : List RsParameter) : RsParameter :=
  rest.getLastD p

/-- `rs_from_str`; `none` is the return value `-1`, which leaves the
parameters as they were. -/
def FecParameter.rsFromStr (par : FecParameter) (s : List Char) :
    Option FecParameter :=
  match parsePairs s with
  | some (p :: rest) =>
      if Ascending (p :: rest) then
        some { par with
          rsPar := fillRest (fillFirst par.rsPar p) p rest
          rsCnt := (lastPair p rest).x }
      else none
  | _ => none

/-- `get_tail`; `none` is the failed assertion `rs_cnt >= 1`. -/
def FecParameter.getTail (par : FecParameter) : Option RsParameter :=
  if 1 ≤ par.rsCnt then some (par.rsPar (par.rsCnt - 1)) else none

/-- `clone`: all fields of `other`, and the rows it uses. -/
def FecParameter.clone (par other : FecParameter) : FecParameter :=
  { other with
    rsPar := fun i => if i < other.rsCnt then other.rsPar i else par.rsPar i }

/-! ## Reading the table back -/

private theorem foldl_update_range {α : Type} (f : Nat → α) (a : Nat) :
    ∀ (n : Nat) (t : Nat → α) (i : Nat),
      (List.range n).foldl (fun t k => Function.update t (a + k) (f k)) t i
        = if a ≤ i ∧ i < a + n then f (i - a) else t i := by
  intro n
  induction n with
  | zero => intro t i; simp
  | succ n ih =>
      intro t i
      rw [List.range_succ, List.foldl_append, List.foldl_cons, List.foldl_nil]
      by_cases hi : i = a + n
      · subst hi
        simp
      · rw [Function.update_of_ne hi, ih]
        congr 1
        apply propext
        omega

theorem fillFirst_apply (t : Nat → RsParameter) (p : RsParameter) (i : Nat) :
    fillFirst t p i = if i < p.x then ⟨i + 1, p.y⟩ else t i := by
  have h := foldl_update_range (fun k => (⟨k + 1, p.y⟩ : RsParameter)) 0 p.x t i
  simp only [Nat.zero_add, Nat.zero_le, true_and, Nat.sub_zero] at h
  exact h

/-- Row `i` between two consecutive pairs, the upper one included. -/
def betweenRow (pre now : RsParameter) (i : Nat) : RsParameter :=
  if i + 1 = now.x then now else ⟨i + 1, rowY pre now (i + 1)⟩

theorem fillBetween_apply (t : Nat → RsParameter) {pre now : RsParameter}
    (h : pre.x < now.x) (i : Nat) :
    fillBetween t pre now i
      = if pre.x ≤ i ∧ i < now.x then betweenRow pre now i else t i := by
  have hfold := foldl_update_range
    (fun k => (⟨pre.x + k + 1, rowY pre now (pre.x + k + 1)⟩ : RsParameter))
    pre.x (now.x - 1 - pre.x) (Function.update t (now.x - 1) now) i
  unfold fillBetween
  rw [hfold]
  unfold betweenRow
  by_cases hlast : i + 1 = now.x
  · rw [if_neg (by omega), if_pos (by omega), if_pos hlast,
      show now.x - 1 = i by omega, Function.update_self]
  · by_cases hin : pre.x ≤ i ∧ i < now.x
    · rw [if_pos (by omega), if_pos hin, if_neg hlast,
        show pre.x + (i - pre.x) = i by omega]
    · rw [if_neg (by omega), if_neg hin, Function.update_of_ne (by omega)]

theorem Ascending.head_lt {a b : RsParameter} {rest : List RsParameter}
    (h : Ascending (a :: b :: rest)) : a.x < b.x :=
  (List.isChain_cons_cons.mp h).1

theorem Ascending.tail {a : RsParameter} {rest : List RsParameter}
    (h : Ascending (a :: rest)) : Ascending rest :=
  List.isChain_of_isChain_cons h

/-- Later pairs leave the rows of earlier ones alone. -/
theorem fillRest_of_lt : ∀ (rest : List RsParameter) (pre : RsParameter)
    (t : Nat → RsParameter), Ascending (pre :: rest) → ∀ i, i < pre.x →
      fillRest t pre rest i = t i := by
  intro rest
  induction rest with
  | nil => intro pre t _ i _; rfl
  | cons now rest ih =>
      intro pre t hasc i hi
      have hlt := hasc.head_lt
      have hstep := ih now (fillBetween t pre now) hasc.tail i (by omega)
      rw [fillBetween_apply t hlt, if_neg (by omega)] at hstep
      exact hstep

@[simp]
theorem lastPair_cons (pre now : RsParameter) (rest : List RsParameter) :
    lastPair pre (now :: rest) = lastPair now rest :=
  List.getLastD_cons

theorem lastPair_mem : ∀ (rest : List RsParameter) (p : RsParameter),
    lastPair p rest ∈ p :: rest := by
  intro rest
  induction rest with
  | nil => intro p; exact List.mem_singleton.mpr rfl
  | cons now rest ih =>
      intro p
      rw [lastPair_cons]
      exact List.mem_cons_of_mem _ (ih now)

/-- Every pair's size is at most the last one's. -/
theorem le_lastPair : ∀ (rest : List RsParameter) (pre : RsParameter),
    Ascending (pre :: rest) → ∀ q ∈ pre :: rest, q.x ≤ (lastPair pre rest).x := by
  intro rest
  induction rest with
  | nil =>
      intro pre _ q hq
      obtain rfl := List.mem_singleton.mp hq
      exact Nat.le_refl _
  | cons now rest ih =>
      intro pre hasc q hq
      have hnow := ih now hasc.tail
      rw [lastPair_cons]
      rcases List.mem_cons.mp hq with rfl | hq
      · exact Nat.le_trans (Nat.le_of_lt hasc.head_lt) (hnow now (by simp))
      · exact hnow q hq

/-- A property of the rows that holds of the rows written so far, and of
every row between two consecutive pairs, holds of the whole table. -/
theorem fillRest_forall {P : Nat → RsParameter → Prop} :
    ∀ (rest : List RsParameter) (pre : RsParameter) (t : Nat → RsParameter),
      Ascending (pre :: rest) →
      (∀ i, i < pre.x → P i (t i)) →
      (∀ a b, a ∈ pre :: rest → b ∈ pre :: rest → a.x < b.x →
        ∀ i, a.x ≤ i → i < b.x → P i (betweenRow a b i)) →
      ∀ i, i < (lastPair pre rest).x → P i (fillRest t pre rest i) := by
  intro rest
  induction rest with
  | nil =>
      intro pre t _ hpre _ i hi
      exact hpre i hi
  | cons now rest ih =>
      intro pre t hasc hpre hbetween i hi
      have hlt := hasc.head_lt
      apply ih now (fillBetween t pre now) hasc.tail
      · intro k hk
        rw [fillBetween_apply t hlt]
        split
        · next hin =>
            exact hbetween pre now (by simp) (by simp) hlt k hin.1 hin.2
        · exact hpre k (by omega)
      · intro a b ha hb hab
        exact hbetween a b (List.mem_cons_of_mem _ ha) (List.mem_cons_of_mem _ hb) hab
      · simpa using hi

/-! ## The interpolated rows -/

private theorem interpolation_le {x1 y1 x2 y2 x s : ℚ} (h1 : x1 < x) (h2 : x < x2)
    (hs1 : x1 + y1 ≤ s) (hs2 : x2 + y2 ≤ s) :
    x + (y1 + (y2 - y1) * (x - x1) / (x2 - x1)) ≤ s := by
  have hd : 0 < x2 - x1 := by linarith
  rw [← sub_nonneg]
  have hkey : s - (x + (y1 + (y2 - y1) * (x - x1) / (x2 - x1)))
      = ((s - (x1 + y1)) * (x2 - x) + (s - (x2 + y2)) * (x - x1)) / (x2 - x1) := by
    field_simp
    ring
  rw [hkey]
  apply div_nonneg _ hd.le
  apply add_nonneg
  · exact mul_nonneg (by linarith) (by linarith)
  · exact mul_nonneg (by linarith) (by linarith)

theorem rowY_sum_le {pre now : RsParameter} {x s : Nat} (h1 : pre.x < x)
    (h2 : x < now.x) (hs1 : pre.x + pre.y ≤ s) (hs2 : now.x + now.y ≤ s) :
    x + rowY pre now x ≤ s := by
  set q : ℚ := pre.y + ((now.y : ℚ) - pre.y) * ((x : ℚ) - pre.x)
    / ((now.x : ℚ) - pre.x) with hq
  have hline : (x : ℚ) + q ≤ s :=
    interpolation_le (by exact_mod_cast h1) (by exact_mod_cast h2)
      (by exact_mod_cast hs1) (by exact_mod_cast hs2)
  have hfloor : (x : Int) + truncate (q + 9999 / 10000) ≤ s ∨
      truncate (q + 9999 / 10000) ≤ 0 := by
    unfold truncate
    split
    · left
      have hlt : q + 9999 / 10000 < ((s : Int) - x : Int) + 1 := by
        push_cast
        linarith
      have hle : ⌊q + 9999 / 10000⌋ < (s : Int) - x + 1 := by
        rw [Int.floor_lt]
        push_cast at hlt ⊢
        exact hlt
      omega
    · right
      next hneg => exact Int.ceil_le.mpr (by push_cast; linarith)
  have hxs : x ≤ s := by omega
  unfold rowY
  simp only [← hq]
  split
  · next hbig =>
      rcases hfloor with h | h
      · unfold maxFecPacketNum at *
        omega
      · unfold maxFecPacketNum at *
        omega
  · rcases hfloor with h | h <;> omega

/-! ## What an accepted string says about the table -/

section Accepted

variable {par par' : FecParameter} {s : List Char}

/-- An accepted string has pairs in ascending order, and the table is theirs. -/
theorem rsFromStr_eq_some (h : par.rsFromStr s = some par') :
    ∃ p rest, parsePairs s = some (p :: rest) ∧ Ascending (p :: rest) ∧
      par' = { par with
        rsPar := fillRest (fillFirst par.rsPar p) p rest
        rsCnt := (lastPair p rest).x } := by
  unfold FecParameter.rsFromStr at h
  split at h
  · next p rest hps =>
      split at h
      · next hasc => exact ⟨p, rest, hps, hasc, (Option.some.inj h).symm⟩
      · exact absurd h (by simp)
  · exact absurd h (by simp)

/-- Row `i` is for group size `i + 1`. -/
theorem rsFromStr_x (h : par.rsFromStr s = some par') :
    ∀ i, i < par'.rsCnt → (par'.rsPar i).x = i + 1 := by
  obtain ⟨p, rest, -, hasc, rfl⟩ := rsFromStr_eq_some h
  apply fillRest_forall (P := fun i r => r.x = i + 1) rest p _ hasc
  · intro i hi
    rw [fillFirst_apply, if_pos hi]
  · intro a b _ _ _ i _ _
    unfold betweenRow
    split
    · next hb => exact hb.symm
    · rfl

/-- Whatever bounds the sum of every listed pair bounds every row. -/
theorem rsFromStr_sum_le (h : par.rsFromStr s = some par') {ps : List RsParameter}
    (hps : parsePairs s = some ps) {S : Nat} (hS : ∀ p ∈ ps, p.x + p.y ≤ S) :
    ∀ i, i < par'.rsCnt → i + 1 + (par'.rsPar i).y ≤ S := by
  obtain ⟨p, rest, hps', hasc, rfl⟩ := rsFromStr_eq_some h
  obtain rfl := Option.some.inj (hps.symm.trans hps')
  apply fillRest_forall (P := fun i r => i + 1 + r.y ≤ S) rest p _ hasc
  · intro i hi
    rw [fillFirst_apply, if_pos hi]
    have := hS p (by simp)
    show i + 1 + p.y ≤ S
    omega
  · intro a b ha hb _ i hai hib
    unfold betweenRow
    split
    · next hbx => rw [hbx]; exact hS b hb
    · next hbx =>
        exact rowY_sum_le (by omega) (by omega) (hS a ha) (hS b hb)

private theorem fillRest_row : ∀ (rest : List RsParameter) (pre : RsParameter)
    (t : Nat → RsParameter), Ascending (pre :: rest) →
      (0 < pre.x → t (pre.x - 1) = pre) →
      ∀ q ∈ pre :: rest, 0 < q.x → fillRest t pre rest (q.x - 1) = q := by
  intro rest
  induction rest with
  | nil =>
      intro pre t _ hpre q hq hpos
      obtain rfl := List.mem_singleton.mp hq
      exact hpre hpos
  | cons now rest ih =>
      intro pre t hasc hpre q hq hpos
      have hlt := hasc.head_lt
      rcases List.mem_cons.mp hq with rfl | hq
      · rw [fillRest_of_lt _ _ t hasc _ (by omega)]
        exact hpre hpos
      · apply ih now (fillBetween t pre now) hasc.tail _ q hq hpos
        intro _
        rw [fillBetween_apply t hlt, if_pos (by omega), betweenRow,
          if_pos (by omega)]

/-- Every listed pair is a row of the table. -/
theorem rsFromStr_row_of_mem (h : par.rsFromStr s = some par') {ps : List RsParameter}
    (hps : parsePairs s = some ps) {q : RsParameter} (hq : q ∈ ps) (hpos : 0 < q.x) :
    q.x ≤ par'.rsCnt ∧ par'.rsPar (q.x - 1) = q := by
  obtain ⟨p, rest, hps', hasc, rfl⟩ := rsFromStr_eq_some h
  obtain rfl := Option.some.inj (hps.symm.trans hps')
  refine ⟨le_lastPair rest p hasc q hq, ?_⟩
  apply fillRest_row rest p _ hasc _ q hq hpos
  intro hp
  rw [fillFirst_apply, if_pos (by omega), Nat.sub_add_cancel hp]

/-- The other parameters are those it was called on. -/
theorem rsFromStr_other (h : par.rsFromStr s = some par') :
    par'.version = par.version ∧ par'.mtu = par.mtu ∧
      par'.queueLen = par.queueLen ∧ par'.mode = par.mode := by
  obtain ⟨p, rest, -, -, rfl⟩ := rsFromStr_eq_some h
  exact ⟨rfl, rfl, rfl, rfl⟩

private theorem parsePair_lt {tok : List Char} {p : RsParameter}
    (h : parsePair tok = some p) : p.x ≤ 255 ∧ p.y ≤ 255 := by
  unfold parsePair at h
  split at h
  · split at h
    · exact absurd h (by simp)
    · obtain rfl := Option.some.inj h
      constructor
      · show (_ % 2 ^ 8 : Int).toNat ≤ 255
        omega
      · show (_ % 2 ^ 8 : Int).toNat ≤ 255
        omega
  · exact absurd h (by simp)

/-- Every token was read as a listed pair. -/
theorem exists_mem_of_token {ps : List RsParameter} (hps : parsePairs s = some ps) :
    ∀ tok ∈ stringToVec s, ∃ p ∈ ps, parsePair tok = some p := by
  intro tok htok
  have hmem : parsePair tok ∈ ps.map some := map_of_mapM hps ▸ List.mem_map_of_mem htok
  obtain ⟨p, hp, heq⟩ := List.mem_map.mp hmem
  exact ⟨p, hp, heq.symm⟩

/-- A token whose sum is in range is read as it is written. -/
theorem parsePair_of_sum_le {tok : List Char} {p : RsParameter}
    (h : parsePair tok = some p) :
    ∃ x y, scanPair tok = (some x, some y) ∧
      (x + y ≤ 255 → 1 ≤ x ∧ 0 ≤ y ∧ p = ⟨x.toNat, y.toNat⟩) := by
  unfold parsePair at h
  split at h
  · next x y hscan =>
      refine ⟨x, y, hscan, ?_⟩
      intro hsum
      split at h
      · exact absurd h (by simp)
      · next hrange =>
          obtain rfl := Option.some.inj h
          refine ⟨by omega, by omega, ?_⟩
          congr 1
          · omega
          · omega
  · exact absurd h (by simp)

/-- No listed pair exceeds the number of packets of a group.  The test that
`rs_from_str` makes on the sum lets a pair through whose sum overflows. -/
def InRange (s : List Char) : Prop :=
  ∀ tok ∈ stringToVec s, ∀ x ∈ (scanPair tok).1, ∀ y ∈ (scanPair tok).2,
    x + y ≤ maxFecPacketNum

instance (s : List Char) : Decidable (InRange s) := by
  unfold InRange
  infer_instance

theorem InRange.sum_le (h : InRange s) {tok : List Char} (htok : tok ∈ stringToVec s)
    {x y : Int} (hscan : scanPair tok = (some x, some y)) : x + y ≤ maxFecPacketNum := by
  apply h tok htok
  · rw [hscan]
    rfl
  · rw [hscan]
    rfl

/-- Every listed pair was read from a token. -/
theorem exists_token_of_mem {ps : List RsParameter} (hps : parsePairs s = some ps) :
    ∀ p ∈ ps, ∃ tok ∈ stringToVec s, parsePair tok = some p := by
  intro p hp
  have hmem : some p ∈ (stringToVec s).map parsePair := map_of_mapM hps ▸ List.mem_map_of_mem hp
  exact List.mem_map.mp hmem

/-- Listed sizes and parities are unsigned chars. -/
theorem parsePairs_le {ps : List RsParameter} (hps : parsePairs s = some ps) :
    ∀ p ∈ ps, p.x ≤ 255 ∧ p.y ≤ 255 := by
  intro p hp
  obtain ⟨tok, -, htok⟩ := exists_token_of_mem hps p hp
  exact parsePair_lt htok

/-- The table has at most 255 rows. -/
theorem rsFromStr_rsCnt_le (h : par.rsFromStr s = some par') : par'.rsCnt ≤ 255 := by
  obtain ⟨p, rest, hps, -, rfl⟩ := rsFromStr_eq_some h
  exact (parsePairs_le hps _ (lastPair_mem rest p)).1

/-- The table of a string whose pairs are in range is not empty. -/
theorem rsFromStr_rsCnt_pos (h : par.rsFromStr s = some par') (hr : InRange s) :
    1 ≤ par'.rsCnt := by
  obtain ⟨p, rest, hps, -, rfl⟩ := rsFromStr_eq_some h
  obtain ⟨tok, htok, hpair⟩ := exists_token_of_mem hps _ (lastPair_mem rest p)
  obtain ⟨x, y, hscan, hrange⟩ := parsePair_of_sum_le hpair
  obtain ⟨hx, -, hlast⟩ := hrange (hr.sum_le htok hscan)
  show 1 ≤ (lastPair p rest).x
  rw [hlast]
  show 1 ≤ x.toNat
  omega

end Accepted

/-! ## A printed pair -/

theorem stringToVec_printPair (d p : Int) : stringToVec (printPair d p) = [printPair d p] := by
  have hne : printPair d p ≠ [] := by simp [printPair]
  unfold stringToVec
  rw [List.splitOn_eq_singleton (comma_not_mem_printPair d p)]
  simp [hne]

theorem parsePairs_printPair {d p : Int} (hd : 1 ≤ d) (hp : 0 ≤ p)
    (hsum : d + p ≤ maxFecPacketNum) :
    parsePairs (printPair d p) = some [⟨d.toNat, p.toNat⟩] := by
  unfold maxFecPacketNum at hsum
  have hadd : addInt d p = d + p := Int.bmod_eq_of_le (by omega) (by omega)
  have hpair : parsePair (printPair d p) = some ⟨d.toNat, p.toNat⟩ := by
    unfold parsePair
    rw [scanPair_printPair (by omega) (by omega) (by omega) (by omega)]
    simp only [hadd]
    rw [if_neg (by unfold maxFecPacketNum; omega)]
    congr 2
    · omega
    · omega
  unfold parsePairs
  rw [stringToVec_printPair]
  simp [hpair]

/-- A printed pair that is accepted has its own number of rows. -/
theorem rsCnt_of_printPair {par par' : FecParameter} {d p : Int} (hd : 1 ≤ d) (hd' : d ≤ 255)
    (hp : -2 ^ 31 ≤ p) (hp' : p < 2 ^ 31) (h : par.rsFromStr (printPair d p) = some par') :
    par'.rsCnt = d.toNat := by
  obtain ⟨q, rest, hps, -, rfl⟩ := rsFromStr_eq_some h
  have hmem := lastPair_mem rest q
  obtain ⟨tok, htok, hpair⟩ := exists_token_of_mem hps _ hmem
  rw [stringToVec_printPair, List.mem_singleton] at htok
  subst htok
  unfold parsePair at hpair
  rw [scanPair_printPair (by omega) (by omega) hp hp'] at hpair
  dsimp only at hpair
  split at hpair
  · exact absurd hpair (by simp)
  · show (lastPair q rest).x = d.toNat
    rw [← Option.some.inj hpair]
    show (d % 2 ^ 8).toNat = d.toNat
    omega

/-- A printed pair in range is accepted, with its own rows. -/
theorem rsFromStr_printPair (par : FecParameter) {d p : Int} (hd : 1 ≤ d)
    (hp : 0 ≤ p) (hsum : d + p ≤ maxFecPacketNum) :
    par.rsFromStr (printPair d p) = some { par with
      rsPar := fillFirst par.rsPar ⟨d.toNat, p.toNat⟩
      rsCnt := d.toNat } := by
  have hasc : Ascending [⟨d.toNat, p.toNat⟩] := List.isChain_singleton _
  unfold FecParameter.rsFromStr
  rw [parsePairs_printPair hd hp hsum]
  simp only [hasc, if_true]
  rfl

/-- A printed pair that sums to more, without overflow, is rejected. -/
theorem rsFromStr_printPair_none (par : FecParameter) {d p : Int} (hd : 1 ≤ d) (hp : 0 ≤ p)
    (hsum : maxFecPacketNum < d + p) (hfit : d + p < 2 ^ 31) :
    par.rsFromStr (printPair d p) = none := by
  have hadd : addInt d p = d + p := Int.bmod_eq_of_le (by omega) (by omega)
  have hpair : parsePair (printPair d p) = none := by
    unfold parsePair
    rw [scanPair_printPair (by omega) (by omega) (by omega) (by omega)]
    simp only [hadd]
    rw [if_pos (Or.inr (Or.inr hsum))]
  have hpairs : parsePairs (printPair d p) = none := by
    unfold parsePairs
    rw [stringToVec_printPair]
    simp [hpair]
  unfold FecParameter.rsFromStr
  rw [hpairs]

/-- An accepted pair is in range, or overflows. -/
theorem printPair_accepted {par par' : FecParameter} {d p : Int} (hd : -2 ^ 31 ≤ d)
    (hd' : d < 2 ^ 31) (hp : -2 ^ 31 ≤ p) (hp' : p < 2 ^ 31)
    (h : par.rsFromStr (printPair d p) = some par') :
    1 ≤ d ∧ 0 ≤ p ∧ (d + p ≤ maxFecPacketNum ∨ 2 ^ 31 ≤ d + p) := by
  have hpos : 1 ≤ d ∧ 0 ≤ p := by
    obtain ⟨q, rest, hps, -, -⟩ := rsFromStr_eq_some h
    obtain ⟨r, -, hr⟩ := exists_mem_of_token hps (printPair d p)
      (by rw [stringToVec_printPair]; exact List.mem_singleton.mpr rfl)
    unfold parsePair at hr
    rw [scanPair_printPair hd hd' hp hp'] at hr
    dsimp only at hr
    split at hr
    · exact absurd hr (by simp)
    · omega
  refine ⟨hpos.1, hpos.2, ?_⟩
  by_contra hout
  rw [rsFromStr_printPair_none par hpos.1 hpos.2 (by omega) (by omega)] at h
  exact absurd h (by simp)

end Fecraw.Ports.RsTable
