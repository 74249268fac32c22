import Mathlib.LinearAlgebra.Matrix.NonsingularInverse
import Mathlib.Tactic

/-!
# Inverting a matrix by exchanging variables

A matrix `A` relates arguments `x` to values `A x`.  Solving one of the
equations for one of its arguments exchanges the two: the argument becomes a
value and the value an argument.  Gauss-Jordan elimination in place does one
such exchange after the other, in the storage of `A` itself; when all
arguments have been exchanged, what is stored takes values to arguments.

`Exchanged A M S σ` says that `M` is what is stored when the arguments in `S`
have been exchanged and the rows have been permuted by `σ` on the way.

## Main results

* `Exchanged.swapRows`, `Exchanged.pivot`: the two kinds of steps.
* `Exchanged.exists_ne_zero`: if `A` is invertible, each remaining row has a
  possible pivot.
* `Exchanged.inverse`: at the end the columns have to be permuted back, and
  then the inverse is there.
-/

namespace Fecraw.Verified

open Matrix

variable {ι F : Type*} [Fintype ι] [DecidableEq ι] [Field F]

/-- `M` takes the values of the exchanged arguments and the other arguments
to the exchanged arguments and the other values. -/
def Exchanged (A M : Matrix ι ι F) (S : Finset ι) (σ : Equiv.Perm ι) : Prop :=
  ∀ x : ι → F, ∀ i,
    ∑ j, M i j * (if j ∈ S then (A *ᵥ x) (σ j) else x j)
      = if i ∈ S then x i else (A *ᵥ x) (σ i)

/-- Solving row `p` for argument `p`. -/
def exchange (p : ι) (M : Matrix ι ι F) : Matrix ι ι F := of fun i j =>
  if i = p then (if j = p then (M p p)⁻¹ else -((M p p)⁻¹ * M p j))
  else if j = p then M i p * (M p p)⁻¹
  else M i j - M i p * ((M p p)⁻¹ * M p j)

variable {A M : Matrix ι ι F} {S : Finset ι} {σ : Equiv.Perm ι}

theorem exchanged_start (A : Matrix ι ι F) : Exchanged A A ∅ 1 := by
  intro x i
  simp [mulVec, dotProduct]

/-- Rows that are not exchanged yet can be permuted. -/
theorem Exchanged.swapRows (h : Exchanged A M S σ) {r p : ι} (hr : r ∉ S) (hp : p ∉ S) :
    Exchanged A (M.submatrix (Equiv.swap r p) id) S (σ * Equiv.swap r p) := by
  have hfix : ∀ j ∈ S, Equiv.swap r p j = j := by
    intro j hj
    apply Equiv.swap_apply_of_ne_of_ne
    · rintro rfl
      exact hr hj
    · rintro rfl
      exact hp hj
  have hmem : ∀ i, Equiv.swap r p i ∈ S ↔ i ∈ S := by
    intro i
    constructor
    · intro hi
      have hswap := hfix _ hi
      rw [Equiv.swap_apply_self] at hswap
      rwa [← hswap] at hi
    · intro hi
      rwa [hfix i hi]
  intro x i
  have hargs : ∀ j, (if j ∈ S then (A *ᵥ x) ((σ * Equiv.swap r p) j) else x j)
      = if j ∈ S then (A *ᵥ x) (σ j) else x j := by
    intro j
    split
    · next hj => rw [Equiv.Perm.mul_apply, hfix j hj]
    · rfl
  simp only [hargs, submatrix_apply, id]
  rw [h x (Equiv.swap r p i)]
  by_cases hi : i ∈ S
  · rw [if_pos hi, if_pos ((hmem i).mpr hi), hfix i hi]
  · rw [if_neg hi, if_neg fun hs => hi ((hmem i).mp hs), Equiv.Perm.mul_apply]

/-- A nonzero pivot exchanges its argument. -/
theorem Exchanged.pivot (h : Exchanged A M S σ) {p : ι} (hp : p ∉ S) (hpivot : M p p ≠ 0) :
    Exchanged A (exchange p M) (insert p S) σ := by
  intro x i
  -- The other summands of a row, which the exchange of `p` does not touch.
  let rest : ι → F := fun i => ∑ j ∈ Finset.univ.erase p,
    M i j * (if j ∈ S then (A *ᵥ x) (σ j) else x j)
  have hsplit : ∀ i, M i p * x p + rest i = if i ∈ S then x i else (A *ᵥ x) (σ i) := by
    intro i
    rw [← h x i, ← Finset.add_sum_erase _ _ (Finset.mem_univ p), if_neg hp]
  have hsolve : x p = (M p p)⁻¹ * ((A *ᵥ x) (σ p) - rest p) := by
    have hrow := hsplit p
    rw [if_neg hp] at hrow
    rw [← hrow, add_sub_cancel_right, inv_mul_cancel_left₀ hpivot]
  have hargs : ∀ j ∈ Finset.univ.erase p,
      (if j ∈ insert p S then (A *ᵥ x) (σ j) else x j)
        = if j ∈ S then (A *ᵥ x) (σ j) else x j := by
    intro j hj
    simp [Finset.ne_of_mem_erase hj]
  rw [← Finset.add_sum_erase _ _ (Finset.mem_univ p), if_pos (Finset.mem_insert_self p S)]
  by_cases hi : i = p
  · subst hi
    have hrow : ∑ j ∈ Finset.univ.erase i,
        exchange i M i j * (if j ∈ insert i S then (A *ᵥ x) (σ j) else x j)
          = -((M i i)⁻¹ * rest i) := by
      rw [Finset.mul_sum, ← Finset.sum_neg_distrib]
      refine Finset.sum_congr rfl fun j hj => ?_
      rw [hargs j hj, exchange, of_apply, if_pos rfl,
        if_neg (Finset.ne_of_mem_erase hj)]
      ring
    rw [hrow, if_pos (Finset.mem_insert_self i S), hsolve, exchange, of_apply, if_pos rfl,
      if_pos rfl]
    ring
  · have hrow : ∑ j ∈ Finset.univ.erase p,
        exchange p M i j * (if j ∈ insert p S then (A *ᵥ x) (σ j) else x j)
          = rest i - M i p * ((M p p)⁻¹ * rest p) := by
      rw [Finset.mul_sum, Finset.mul_sum, ← Finset.sum_sub_distrib]
      refine Finset.sum_congr rfl fun j hj => ?_
      rw [hargs j hj, exchange, of_apply, if_neg hi,
        if_neg (Finset.ne_of_mem_erase hj)]
      ring
    have hsame : (if i ∈ insert p S then x i else (A *ᵥ x) (σ i))
        = if i ∈ S then x i else (A *ᵥ x) (σ i) := by
      simp [hi]
    rw [hrow, hsame, ← hsplit i, hsolve, exchange, of_apply, if_neg hi, if_pos rfl]
    ring

/-- If `A` is invertible, a row that is not exchanged yet is not zero at all
the arguments that are left: choose arguments with value 1 in that row only. -/
theorem Exchanged.exists_ne_zero (h : Exchanged A M S σ) (hA : IsUnit A.det) {i : ι}
    (hi : i ∉ S) : ∃ j, j ∉ S ∧ M i j ≠ 0 := by
  by_contra hnone
  push Not at hnone
  let x : ι → F := A⁻¹ *ᵥ Pi.single (σ i) 1
  have hx : A *ᵥ x = Pi.single (σ i) 1 := by
    rw [mulVec_mulVec, mul_nonsing_inv A hA, one_mulVec]
  have hzero : ∑ j, M i j * (if j ∈ S then (A *ᵥ x) (σ j) else x j) = 0 := by
    apply Finset.sum_eq_zero
    intro j _
    by_cases hj : j ∈ S
    · have hne : σ j ≠ σ i := fun heq => hi (σ.injective heq ▸ hj)
      rw [if_pos hj, hx, Pi.single_eq_of_ne hne, mul_zero]
    · rw [hnone j hj, zero_mul]
  have hone := h x i
  rw [hzero, if_neg hi, hx, Pi.single_eq_same] at hone
  exact zero_ne_one hone

/-- When all arguments are exchanged, permuting the columns back gives the
inverse. -/
theorem Exchanged.inverse (h : Exchanged A M Finset.univ σ) :
    (M.submatrix id σ.symm) * A = 1 := by
  apply ext_of_mulVec_single
  intro k
  rw [one_mulVec, ← mulVec_mulVec]
  funext i
  have hrow := h (Pi.single k 1) i
  simp only [Finset.mem_univ, if_true] at hrow
  rw [← hrow, mulVec, dotProduct, ← Equiv.sum_comp σ]
  simp

end Fecraw.Verified
