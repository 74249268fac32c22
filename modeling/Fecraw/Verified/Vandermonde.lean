import Mathlib.LinearAlgebra.Vandermonde
import Mathlib.LinearAlgebra.Matrix.NonsingularInverse
import Mathlib.Algebra.Polynomial.Roots
import Mathlib.Tactic

/-!
# Vandermonde matrices and their inverses

The rows of a Vandermonde matrix are the powers of distinct points.  Column
`r` of its inverse holds the coefficients of the polynomial of degree below
`k` that is 1 at point `r` and 0 at the others, which is the product of the
linear factors of the other points divided by its value at point `r`.

With more points than columns, a systematic matrix is got by multiplying with
the inverse of the top square.  Any `k` of its rows are invertible, since they
come from the Vandermonde matrix of `k` of the points.

## Main results

* `vandermonde_mul_lagrange`: the inverse by coefficients.
* `systematic_top`, `systematic_isUnit_det`: the systematic matrix.
-/

namespace Fecraw.Verified

open Polynomial

variable {F : Type*} [Field F]

/-- The product of the linear factors of the first `n` points. -/
noncomputable def linearFactors (p : Nat → F) (n : Nat) : F[X] :=
  ∏ l ∈ Finset.range n, (X - C (p l))

/-- The linear factors of the points other than `r`. -/
noncomputable def otherFactors (p : Nat → F) (k r : Nat) : F[X] :=
  ∏ l ∈ (Finset.range k).erase r, (X - C (p l))

theorem linearFactors_succ (p : Nat → F) (n : Nat) :
    linearFactors p (n + 1) = linearFactors p n * (X - C (p n)) :=
  Finset.prod_range_succ ..

theorem linearFactors_monic (p : Nat → F) (n : Nat) : (linearFactors p n).Monic :=
  monic_prod_of_monic _ _ fun l _ => monic_X_sub_C (p l)

theorem natDegree_linearFactors (p : Nat → F) (n : Nat) : (linearFactors p n).natDegree = n := by
  unfold linearFactors
  rw [natDegree_prod_of_monic _ _ fun l _ => monic_X_sub_C (p l)]
  simp

theorem coeff_linearFactors_self (p : Nat → F) (n : Nat) : (linearFactors p n).coeff n = 1 := by
  have h := (linearFactors_monic p n).coeff_natDegree
  rwa [natDegree_linearFactors] at h

/-- With 0 among the points the constant coefficient is 0. -/
theorem coeff_zero_linearFactors {p : Nat → F} {l n : Nat} (hl : l < n) (h0 : p l = 0) :
    (linearFactors p n).coeff 0 = 0 := by
  rw [coeff_zero_eq_eval_zero, linearFactors, eval_prod]
  exact Finset.prod_eq_zero (Finset.mem_range.mpr hl) (by simp [h0])

/-- The recurrence of multiplying out. -/
theorem coeff_linearFactors_succ (p : Nat → F) (n m : Nat) :
    (linearFactors p (n + 1)).coeff (m + 1)
      = (linearFactors p n).coeff m - p n * (linearFactors p n).coeff (m + 1) := by
  rw [linearFactors_succ, coeff_mul_X_sub_C]
  ring

theorem otherFactors_mul (p : Nat → F) {k r : Nat} (hr : r < k) :
    otherFactors p k r * (X - C (p r)) = linearFactors p k :=
  Finset.prod_erase_mul _ _ (Finset.mem_range.mpr hr)

theorem otherFactors_monic (p : Nat → F) (k r : Nat) : (otherFactors p k r).Monic :=
  monic_prod_of_monic _ _ fun l _ => monic_X_sub_C (p l)

theorem natDegree_otherFactors (p : Nat → F) {k r : Nat} (hr : r < k) :
    (otherFactors p k r).natDegree = k - 1 := by
  unfold otherFactors
  rw [natDegree_prod_of_monic _ _ fun l _ => monic_X_sub_C (p l)]
  simp [hr]

theorem coeff_otherFactors_last (p : Nat → F) {k r : Nat} (hr : r < k) :
    (otherFactors p k r).coeff (k - 1) = 1 := by
  have h := (otherFactors_monic p k r).coeff_natDegree
  rwa [natDegree_otherFactors p hr] at h

/-- The recurrence of synthetic division. -/
theorem coeff_otherFactors (p : Nat → F) {k r : Nat} (hr : r < k) (i : Nat) :
    (otherFactors p k r).coeff i
      = (linearFactors p k).coeff (i + 1) + p r * (otherFactors p k r).coeff (i + 1) := by
  rw [← otherFactors_mul p hr, coeff_mul_X_sub_C]
  ring

theorem eval_otherFactors_of_ne (p : Nat → F) {k r i : Nat} (hi : i < k) (hne : i ≠ r) :
    (otherFactors p k r).eval (p i) = 0 := by
  rw [otherFactors, eval_prod]
  exact Finset.prod_eq_zero (Finset.mem_erase.mpr ⟨hne, Finset.mem_range.mpr hi⟩) (by simp)

theorem eval_otherFactors_self {p : Nat → F} {k r : Nat} (hp : Set.InjOn p (Set.Iio k))
    (hr : r < k) : (otherFactors p k r).eval (p r) ≠ 0 := by
  rw [otherFactors, eval_prod]
  apply Finset.prod_ne_zero_iff.mpr
  intro l hl
  obtain ⟨hne, hlk⟩ := Finset.mem_erase.mp hl
  rw [eval_sub, eval_X, eval_C]
  exact sub_ne_zero.mpr fun h => hne (hp hr (Finset.mem_range.mp hlk) h).symm

/-- The columns of the inverse, by their coefficients. -/
noncomputable def lagrange (p : Nat → F) (k : Nat) : Matrix (Fin k) (Fin k) F :=
  Matrix.of fun col row =>
    ((otherFactors p k row).eval (p row))⁻¹ * (otherFactors p k row).coeff col

theorem vandermonde_mul_lagrange {p : Nat → F} {k : Nat} (hp : Set.InjOn p (Set.Iio k)) :
    Matrix.vandermonde (fun i : Fin k => p i) * lagrange p k = 1 := by
  ext i r
  have hdeg : (otherFactors p k r).natDegree < k := by
    rw [natDegree_otherFactors p r.isLt]
    have := r.isLt
    omega
  have hsum : (Matrix.vandermonde (fun i : Fin k => p i) * lagrange p k) i r
      = ((otherFactors p k r).eval (p r))⁻¹ * (otherFactors p k r).eval (p i) := by
    rw [eval_eq_sum_range' hdeg (p i), Finset.mul_sum, Matrix.mul_apply,
      ← Fin.sum_univ_eq_sum_range fun j =>
        ((otherFactors p k r).eval (p r))⁻¹ * ((otherFactors p k r).coeff j * p i ^ j)]
    refine Finset.sum_congr rfl fun j _ => ?_
    rw [Matrix.vandermonde_apply, lagrange, Matrix.of_apply]
    ring
  rw [hsum]
  by_cases hir : i = r
  · rw [hir, Matrix.one_apply_eq, inv_mul_cancel₀ (eval_otherFactors_self hp r.isLt)]
  · rw [Matrix.one_apply_ne hir, eval_otherFactors_of_ne p i.isLt (fun h => hir (Fin.ext h)),
      mul_zero]

/-- The powers of `n` points, `k` of each. -/
def powers (p : Nat → F) (n k : Nat) : Matrix (Fin n) (Fin k) F :=
  Matrix.of fun i j => p i ^ j.val

/-- The systematic matrix of the points. -/
noncomputable def systematic (p : Nat → F) (n k : Nat) : Matrix (Fin n) (Fin k) F :=
  powers p n k * lagrange p k

/-- Its first `k` rows are the identity. -/
theorem systematic_top {p : Nat → F} {n k : Nat} (hkn : k ≤ n) (hp : Set.InjOn p (Set.Iio k)) :
    (systematic p n k).submatrix (Fin.castLE hkn) id = 1 :=
  vandermonde_mul_lagrange hp

/-- Any `k` different rows of the systematic matrix are invertible. -/
theorem systematic_isUnit_det {p : Nat → F} {n k : Nat} (hkn : k ≤ n)
    (hp : Set.InjOn p (Set.Iio n)) {q : Fin k → Fin n} (hq : Function.Injective q) :
    IsUnit ((systematic p n k).submatrix q id).det := by
  have hsplit : (systematic p n k).submatrix q id
      = Matrix.vandermonde (fun i => p (q i)) * lagrange p k := rfl
  have hrows : (Matrix.vandermonde fun i => p (q i)).det ≠ 0 := by
    rw [Matrix.det_vandermonde_ne_zero_iff]
    intro i j h
    exact hq (Fin.ext (hp (q i).isLt (q j).isLt h))
  have htop : IsUnit (lagrange p k).det := by
    have hmul := vandermonde_mul_lagrange (hp.mono (Set.Iio_subset_Iio hkn))
    apply IsUnit.of_mul_eq_one_right (Matrix.vandermonde fun i : Fin k => p i).det
    rw [← Matrix.det_mul, hmul, Matrix.det_one]
  rw [hsplit, Matrix.det_mul]
  exact hrows.isUnit.mul htop

end Fecraw.Verified
