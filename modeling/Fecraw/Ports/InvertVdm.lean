import Fecraw.Ports.InvertMat
import Fecraw.Verified.Vandermonde

/-!
# The fast inverse of a Vandermonde matrix

`invert_vdm` of `lib/fec.cpp` inverts the matrix whose row `i` holds the powers
of a point `p_i`, in time `k²`.  It multiplies out the polynomial with the
points as its roots, divides it by one linear factor after the other, and
scales.  The comment in the source says that the matrix must be a Vandermonde
matrix and not singular.  That is not enough: the loop that multiplies out
starts one entry late, so it never writes the constant coefficient of a
product, which is right only if that coefficient is zero.

## Main results

* `invertVdm_iff`: for distinct points, the result is the inverse exactly if
  there are at most two points or one of the first two is zero.
-/

namespace Fecraw.Ports.FecLib

open Fecraw.Verified Polynomial

/-- Multiplying by the linear factor of `p_i`: the loop over `j`, then the
leading entry. -/
def vdmFactor (k : Nat) (p c : Nat → Gf) (i : Nat) : Nat → Gf :=
  let c := (List.range' (k - 1 - (i - 1)) (i - 1)).foldl
    (fun c j => Function.update c j (c j + gfMul (p i) (c (j + 1)))) c
  Function.update c (k - 1) (c (k - 1) + p i)

/-- The coefficients `c` of the product, the leading one left out. -/
def vdmCoeffs (k : Nat) (p : Nat → Gf) : Nat → Gf :=
  (List.range' 1 (k - 1)).foldl (vdmFactor k p) (Function.update (fun _ => 0) (k - 1) (p 0))

/-- A pass of the synthetic division, with `b` and `t`. -/
def vdmDivide (c : Nat → Gf) (xx : Gf) (s : (Nat → Gf) × Gf) (i : Nat) : (Nat → Gf) × Gf :=
  let b := Function.update s.1 i (c (i + 1) + gfMul xx (s.1 (i + 1)))
  (b, gfMul xx s.2 + b i)

/-- The division by the factor of the point `xx`, and the value of the
quotient there. -/
def vdmQuotient (k : Nat) (c : Nat → Gf) (xx : Gf) : (Nat → Gf) × Gf :=
  (List.range (k - 1)).reverse.foldl (vdmDivide c xx) (Function.update (fun _ => 0) (k - 1) 1, 1)

/-- The points: `p[i] = src[i * k + 1]`. -/
def vdmPoints {k : Nat} (src : Matrix (Fin k) (Fin k) Gf) (i : Nat) : Gf :=
  if h : i < k ∧ 1 < k then src ⟨i, h.1⟩ ⟨1, h.2⟩ else 0

/-- `invert_vdm`. -/
def invertVdm {k : Nat} (src : Matrix (Fin k) (Fin k) Gf) : Matrix (Fin k) (Fin k) Gf :=
  if k = 1 then src
  else
    let p := vdmPoints src
    let c := vdmCoeffs k p
    Matrix.of fun col row =>
      gfMul (gfInverse (vdmQuotient k c (p row)).2) ((vdmQuotient k c (p row)).1 col)

/-! ## Multiplying out -/

/-- An ascending loop reads the entry after the one it writes before that one
is written. -/
theorem foldl_ascending (a : Gf) (c : Nat → Gf) (lo n : Nat) (j : Nat) :
    (List.range' lo n).foldl (fun c j => Function.update c j (c j + gfMul a (c (j + 1)))) c j
      = if lo ≤ j ∧ j < lo + n then c j + a * c (j + 1) else c j := by
  have h := foldl_range' (a := lo) (n := n) (s := c)
    (f := fun c j => Function.update c j (c j + gfMul a (c (j + 1))))
    (P := fun m c' => ∀ j, c' j = if lo ≤ j ∧ j < m then c j + a * c (j + 1) else c j)
    (fun j => by rw [if_neg (by omega)]) (by
      intro m c' hlo _ hc' j
      rw [Function.update_apply]
      split
      · next hj =>
          rw [hj, hc' m, hc' (m + 1), if_neg (by omega), if_neg (by omega), if_pos (by omega)]
          rfl
      · next hj =>
          rw [hc' j]
          have hiff : (lo ≤ j ∧ j < m) ↔ (lo ≤ j ∧ j < m + 1) := by omega
          simp only [hiff])
  exact h j

/-- One more factor, entry by entry. -/
theorem vdmFactor_apply (p c : Nat → Gf) {k i : Nat} (hi : 1 ≤ i) (hik : i < k) (j : Nat) :
    vdmFactor k p c i j
      = if j = k - 1 then c j + p i
        else if k - i ≤ j ∧ j < k - 1 then c j + p i * c (j + 1) else c j := by
  unfold vdmFactor
  have hbounds : ∀ j, (k - 1 - (i - 1) ≤ j ∧ j < k - 1 - (i - 1) + (i - 1))
      ↔ (k - i ≤ j ∧ j < k - 1) := by
    intro j
    omega
  simp only [Function.update_apply, foldl_ascending, hbounds]
  split
  · next hj =>
      rw [if_neg (by omega), hj]
  · rfl

/-- The array holds the coefficients of the product, where the entry that the
loop leaves out is either not there or zero anyway. -/
theorem vdmCoeffs_eq {k : Nat} {p : Nat → Gf} (hk : 2 ≤ k) (h0 : k ≤ 2 ∨ p 0 = 0 ∨ p 1 = 0)
    {j : Nat} (hj : 1 ≤ j) (hjk : j < k) :
    vdmCoeffs k p j = (linearFactors p k).coeff j := by
  have h := foldl_range' (a := 1) (n := k - 1)
    (s := Function.update (fun _ => 0) (k - 1) (p 0)) (f := vdmFactor k p)
    (P := fun i c => ∀ j, 1 ≤ j → j < k →
      c j = if k - i ≤ j then (linearFactors p i).coeff (j - (k - i)) else 0)
    (by
      intro j hj hjk
      rw [Function.update_apply]
      by_cases hlast : j = k - 1
      · rw [if_pos hlast, if_pos (by omega), hlast, Nat.sub_self, coeff_zero_eq_eval_zero]
        simp [linearFactors]
      · rw [if_neg hlast, if_neg (by omega)])
    (by
      intro i c hi hik hc j hj hjk
      rw [vdmFactor_apply p c hi (by omega)]
      by_cases hlast : j = k - 1
      · -- The leading entry: the next coefficient is the implicit 1.
        have hone : (linearFactors p i).coeff (i - 1 + 1) = 1 := by
          rw [Nat.sub_add_cancel hi]
          exact coeff_linearFactors_self p i
        have hrec := coeff_linearFactors_succ p i (i - 1)
        rw [hone, mul_one, sub_eq_add_neg, Gf.neg_eq] at hrec
        rw [if_pos hlast, hc j hj hjk, if_pos (by omega), if_pos (by omega),
          show j - (k - i) = i - 1 by omega, show j - (k - (i + 1)) = i - 1 + 1 by omega, hrec]
      · rw [if_neg hlast]
        by_cases hin : k - i ≤ j
        · have hrec := coeff_linearFactors_succ p i (j - (k - i))
          rw [sub_eq_add_neg, Gf.neg_eq] at hrec
          rw [if_pos ⟨hin, by omega⟩, if_pos (by omega), hc j hj hjk, if_pos hin,
            hc (j + 1) (by omega) (by omega), if_pos (by omega),
            show j - (k - (i + 1)) = j - (k - i) + 1 by omega,
            show j + 1 - (k - i) = j - (k - i) + 1 by omega, hrec]
        · rw [if_neg (by omega), hc j hj hjk, if_neg hin]
          by_cases hnew : k - (i + 1) ≤ j
          · -- The entry the loop leaves out.
            rw [if_pos hnew, show j - (k - (i + 1)) = 0 by omega]
            rcases h0 with hle | hp | hp
            · omega
            · exact (coeff_zero_linearFactors (Nat.succ_pos i) hp).symm
            · exact (coeff_zero_linearFactors (by omega : 1 < i + 1) hp).symm
          · rw [if_neg hnew])
  have hfinal := h j hj hjk
  rw [if_pos (by omega), show j - (k - (1 + (k - 1))) = j by omega,
    show 1 + (k - 1) = k by omega] at hfinal
  exact hfinal

/-- Past two factors, with neither of the first two points zero, the second
entry from the end lacks their product. -/
theorem vdmCoeffs_second {k : Nat} (p : Nat → Gf) (hk : 3 ≤ k) :
    vdmCoeffs k p (k - 1) = (linearFactors p k).coeff (k - 1)
      ∧ vdmCoeffs k p (k - 2) = (linearFactors p k).coeff (k - 2) + p 0 * p 1 := by
  have h := foldl_range' (a := 1) (n := k - 1)
    (s := Function.update (fun _ => 0) (k - 1) (p 0)) (f := vdmFactor k p)
    (P := fun i c => c (k - 1) = (linearFactors p i).coeff (i - 1)
      ∧ c (k - 2) = if i = 1 then 0 else (linearFactors p i).coeff (i - 2) + p 0 * p 1)
    (by
      constructor
      · rw [Function.update_self, Nat.sub_self, coeff_zero_eq_eval_zero]
        simp [linearFactors]
      · rw [Function.update_of_ne (by omega), if_pos rfl])
    (by
      rintro i c hi hik ⟨hlast, hsecond⟩
      have hone : (linearFactors p i).coeff (i - 1 + 1) = 1 := by
        rw [Nat.sub_add_cancel hi]
        exact coeff_linearFactors_self p i
      have hrec := coeff_linearFactors_succ p i (i - 1)
      rw [hone, mul_one, sub_eq_add_neg, Gf.neg_eq, Nat.sub_add_cancel hi] at hrec
      constructor
      · rw [vdmFactor_apply p c hi (by omega), if_pos rfl, hlast, Nat.add_sub_cancel, hrec]
      · rw [vdmFactor_apply p c hi (by omega), if_neg (by omega), if_neg (by omega : i + 1 ≠ 1)]
        by_cases hfirst : i = 1
        · -- The first pass: the loop over `j` is empty.
          have hzero : (linearFactors p (1 + 1)).coeff 0 = p 0 * p 1 := by
            rw [coeff_zero_eq_eval_zero]
            simp [linearFactors, Finset.prod_range_succ]
          rw [if_neg (by omega), hsecond, if_pos hfirst, hfirst, Nat.sub_self, hzero, Gf.add_self]
        · have hrec' := coeff_linearFactors_succ p i (i - 2)
          rw [sub_eq_add_neg, Gf.neg_eq, show i - 2 + 1 = i - 1 by omega] at hrec'
          rw [if_pos ⟨by omega, by omega⟩, hsecond, if_neg hfirst,
            show k - 2 + 1 = k - 1 by omega, hlast, show i + 1 - 2 = i - 1 by omega, hrec']
          ring)
  rw [show 1 + (k - 1) = k by omega, if_neg (by omega : k ≠ 1)] at h
  exact h

/-! ## Dividing -/

/-- The division runs down the recurrence, and evaluates the quotient on the
way. -/
theorem vdmQuotient_spec (k : Nat) (c : Nat → Gf) (xx : Gf) :
    (vdmQuotient k c xx).1 (k - 1) = 1
      ∧ (∀ i < k - 1, (vdmQuotient k c xx).1 i = c (i + 1) + xx * (vdmQuotient k c xx).1 (i + 1))
      ∧ (vdmQuotient k c xx).2
          = ∑ i ∈ Finset.range (k - 1 + 1), (vdmQuotient k c xx).1 i * xx ^ i := by
  have h := foldl_range_reverse (n := k - 1) (f := vdmDivide c xx)
    (s := (Function.update (fun _ => 0) (k - 1) 1, 1))
    (P := fun j s => s.1 (k - 1) = 1
      ∧ (∀ i, j ≤ i → i < k - 1 → s.1 i = c (i + 1) + xx * s.1 (i + 1))
      ∧ s.2 = ∑ i ∈ Finset.range (k - 1 - j + 1), s.1 (j + i) * xx ^ i)
    ⟨by simp, fun i hji hi => by omega, by simp⟩ (by
      rintro j ⟨b, t⟩ hj ⟨hlast, hrec, hsum⟩
      have hnext : ∀ i, j + 1 ≤ i → (vdmDivide c xx (b, t) j).1 i = b i := by
        intro i hi
        exact Function.update_of_ne (by omega) _ _
      have hself : (vdmDivide c xx (b, t) j).1 j = c (j + 1) + xx * b (j + 1) :=
        Function.update_self ..
      refine ⟨?_, ?_, ?_⟩
      · rw [hnext _ (by omega)]
        exact hlast
      · intro i hji hi
        rw [hnext (i + 1) (by omega)]
        by_cases hij : i = j
        · rw [hij, hself]
        · rw [hnext i (by omega)]
          exact hrec i (by omega) hi
      · have ht : (vdmDivide c xx (b, t) j).2 = xx * t + (vdmDivide c xx (b, t) j).1 j := rfl
        have htail : ∀ i ∈ Finset.range (k - 1 - j),
            (vdmDivide c xx (b, t) j).1 (j + (i + 1)) * xx ^ (i + 1)
              = xx * (b (j + 1 + i) * xx ^ i) := by
          intro i _
          rw [hnext _ (by omega), show j + (i + 1) = j + 1 + i by omega]
          ring
        have hsum' : t = ∑ i ∈ Finset.range (k - 1 - j), b (j + 1 + i) * xx ^ i := by
          rw [show k - 1 - j = k - 1 - (j + 1) + 1 by omega]
          exact hsum
        rw [ht, Finset.sum_range_succ', Finset.sum_congr rfl htail, ← Finset.mul_sum, pow_zero,
          mul_one, ← hsum']
        rfl)
  obtain ⟨hlast, hrec, hsum⟩ := h
  simp only [Nat.sub_zero, Nat.zero_add] at hsum
  exact ⟨hlast, fun i hi => hrec i (Nat.zero_le i) hi, hsum⟩

/-- With the right coefficients, from the second one on, the quotient is the
product of the other factors. -/
theorem vdmQuotient_eq {k : Nat} {p c : Nat → Gf} {r : Nat} (hr : r < k)
    (hc : ∀ j, 1 ≤ j → j < k → c j = (linearFactors p k).coeff j) :
    (∀ i < k, (vdmQuotient k c (p r)).1 i = (otherFactors p k r).coeff i)
      ∧ (vdmQuotient k c (p r)).2 = (otherFactors p k r).eval (p r) := by
  obtain ⟨hlast, hrec, hsum⟩ := vdmQuotient_spec k c (p r)
  -- Downwards from the leading coefficient.
  have hdown : ∀ m i, i + m = k - 1 →
      (vdmQuotient k c (p r)).1 i = (otherFactors p k r).coeff i := by
    intro m
    induction m with
    | zero =>
        intro i hi
        rw [show i = k - 1 by omega, hlast, coeff_otherFactors_last p hr]
    | succ m ih =>
        intro i hi
        rw [hrec i (by omega), ih (i + 1) (by omega), hc (i + 1) (by omega) (by omega),
          ← coeff_otherFactors p hr]
  have hcoeff : ∀ i < k, (vdmQuotient k c (p r)).1 i = (otherFactors p k r).coeff i :=
    fun i hi => hdown (k - 1 - i) i (by omega)
  refine ⟨hcoeff, ?_⟩
  have hdeg : (otherFactors p k r).natDegree < k - 1 + 1 := by
    rw [natDegree_otherFactors p hr]
    omega
  rw [hsum, eval_eq_sum_range' hdeg]
  refine Finset.sum_congr rfl fun i hi => ?_
  rw [hcoeff i (by have := Finset.mem_range.mp hi; omega)]

/-! ## The inverse -/

theorem vdmPoints_vandermonde {k : Nat} (hk : 2 ≤ k) (p : Nat → Gf) {i : Nat} (hi : i < k) :
    vdmPoints (Matrix.vandermonde fun i : Fin k => p i) i = p i := by
  unfold vdmPoints
  rw [dif_pos ⟨hi, by omega⟩, Matrix.vandermonde_apply]
  exact pow_one _

/-- Only the first `k` points matter. -/
theorem vdmCoeffs_congr {k : Nat} (hk : 2 ≤ k) {p q : Nat → Gf} (h : ∀ i < k, p i = q i) :
    vdmCoeffs k p = vdmCoeffs k q := by
  unfold vdmCoeffs
  rw [h 0 (by omega)]
  apply List.foldl_ext
  intro c i hi
  have hik : i < k := by
    have := List.mem_range'_1.mp hi
    omega
  unfold vdmFactor
  rw [h i hik]

/-- The entries of the result, for the Vandermonde matrix of the points. -/
theorem invertVdm_apply {k : Nat} (hk : 2 ≤ k) (p : Nat → Gf) (col row : Fin k) :
    invertVdm (Matrix.vandermonde fun i : Fin k => p i) col row
      = ((vdmQuotient k (vdmCoeffs k p) (p row)).2)⁻¹
        * (vdmQuotient k (vdmCoeffs k p) (p row)).1 col := by
  unfold invertVdm
  rw [if_neg (by omega)]
  have hpoints : ∀ i < k, vdmPoints (Matrix.vandermonde fun i : Fin k => p i) i = p i :=
    fun i hi => vdmPoints_vandermonde hk p hi
  rw [Matrix.of_apply, vdmCoeffs_congr hk hpoints, hpoints row row.isLt]
  rfl

/-- If the loop leaves out nothing that is not zero, the result is the inverse. -/
theorem invertVdm_eq_lagrange {k : Nat} {p : Nat → Gf} (hp : Set.InjOn p (Set.Iio k))
    (h0 : k ≤ 2 ∨ p 0 = 0 ∨ p 1 = 0) :
    invertVdm (Matrix.vandermonde fun i : Fin k => p i) = lagrange p k := by
  rcases Nat.lt_or_ge k 2 with hk | hk
  · have hmul := vandermonde_mul_lagrange hp
    have hcase : k = 0 ∨ k = 1 := by omega
    rcases hcase with rfl | rfl
    · exact Subsingleton.elim _ _
    · have hone : (Matrix.vandermonde fun i : Fin 1 => p i) = 1 := by
        ext i j : 1
        obtain rfl : i = 0 := Subsingleton.elim i 0
        obtain rfl : j = 0 := Subsingleton.elim j 0
        rw [Matrix.vandermonde_apply, Matrix.one_apply_eq]
        exact pow_zero _
      rw [hone, one_mul] at hmul
      rw [hone, hmul]
      rfl
  · ext col row : 1
    obtain ⟨hcoeff, hval⟩ := vdmQuotient_eq (c := vdmCoeffs k p) row.isLt
      fun j hj hjk => vdmCoeffs_eq hk h0 hj hjk
    rw [invertVdm_apply hk, hcoeff col col.isLt, hval]
    rfl

/-- The result is the inverse only if the loop leaves out nothing that is not
zero: the entry it leaves out is in every column, above the leading one. -/
theorem points_of_invertVdm {k : Nat} {p : Nat → Gf} (hp : Set.InjOn p (Set.Iio k))
    (h : invertVdm (Matrix.vandermonde fun i : Fin k => p i) = lagrange p k) :
    k ≤ 2 ∨ p 0 = 0 ∨ p 1 = 0 := by
  by_contra hnot
  push Not at hnot
  obtain ⟨hk, hp0, hp1⟩ := hnot
  obtain ⟨hc1, hc2⟩ := vdmCoeffs_second p hk
  obtain ⟨hlast, hrec, -⟩ := vdmQuotient_spec k (vdmCoeffs k p) (p 0)
  let row : Fin k := ⟨0, by omega⟩
  have hentry : ∀ col : Fin k, ((vdmQuotient k (vdmCoeffs k p) (p 0)).2)⁻¹
      * (vdmQuotient k (vdmCoeffs k p) (p 0)).1 col
        = ((otherFactors p k 0).eval (p 0))⁻¹ * (otherFactors p k 0).coeff col := by
    intro col
    have hcol := congrFun (congrFun h col) row
    rw [invertVdm_apply (by omega)] at hcol
    exact hcol
  -- The leading entries are 1, so the two factors agree.
  have hscale := hentry ⟨k - 1, by omega⟩
  simp only [hlast, coeff_otherFactors_last p (by omega : 0 < k), mul_one] at hscale
  have hne : ((otherFactors p k 0).eval (p 0))⁻¹ ≠ 0 :=
    inv_ne_zero (eval_otherFactors_self hp (by omega))
  have hthird := hentry ⟨k - 3, by omega⟩
  rw [hscale] at hthird
  have hb := mul_left_cancel₀ hne hthird
  simp only at hb
  have hb2 : (vdmQuotient k (vdmCoeffs k p) (p 0)).1 (k - 2)
      = (otherFactors p k 0).coeff (k - 2) := by
    rw [hrec (k - 2) (by omega), show k - 2 + 1 = k - 1 by omega, hlast, hc1,
      coeff_otherFactors p (by omega : 0 < k) (k - 2), show k - 2 + 1 = k - 1 by omega,
      coeff_otherFactors_last p (by omega : 0 < k)]
  rw [hrec (k - 3) (by omega), show k - 3 + 1 = k - 2 by omega, hb2, hc2,
    coeff_otherFactors p (by omega : 0 < k) (k - 3), show k - 3 + 1 = k - 2 by omega] at hb
  have hprod : p 0 * p 1 = 0 := by
    have hcancel := add_right_cancel hb
    exact add_eq_left.mp hcancel
  rcases mul_eq_zero.mp hprod with h | h
  · exact hp0 h
  · exact hp1 h

/-- **`invert_vdm`** inverts the Vandermonde matrix of distinct points, of which
there is at least one, exactly if there are at most two of them or one of the
first two is zero. -/
theorem invertVdm_iff {k : Nat} (_hk : 1 ≤ k) {p : Nat → Gf} (hp : Set.InjOn p (Set.Iio k)) :
    (Matrix.vandermonde fun i : Fin k => p i)
        * invertVdm (Matrix.vandermonde fun i : Fin k => p i) = 1
      ↔ k ≤ 2 ∨ p 0 = 0 ∨ p 1 = 0 := by
  have hmul := vandermonde_mul_lagrange hp
  constructor
  · intro h
    apply points_of_invertVdm hp
    rw [← Matrix.inv_eq_right_inv h, Matrix.inv_eq_right_inv hmul]
  · intro h0
    rw [invertVdm_eq_lagrange hp h0]
    exact hmul

/-- Of the points 1, 2 and 3 neither of the first two is zero. -/
theorem invertVdm_iff_three :
    (Matrix.vandermonde fun i : Fin 3 => (⟨UInt8.ofNat (i.val + 1)⟩ : Gf))
        * invertVdm (Matrix.vandermonde fun i : Fin 3 => (⟨UInt8.ofNat (i.val + 1)⟩ : Gf)) ≠ 1 := by
  have hp : Set.InjOn (fun i => (⟨UInt8.ofNat (i + 1)⟩ : Gf)) (Set.Iio 3) := by
    intro i hi j hj hij
    have hoctet := congrArg UInt8.toNat (Gf.mk.inj hij)
    simp only [UInt8.toNat_ofNat'] at hoctet
    simp only [Set.mem_Iio] at hi hj
    omega
  exact (invertVdm_iff (by decide) hp).not.mpr (by decide)

end Fecraw.Ports.FecLib
