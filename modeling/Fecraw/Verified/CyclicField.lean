import Mathlib.Algebra.Field.Basic
import Mathlib.Algebra.Group.Hom.Defs
import Mathlib.Logic.Function.Iterate
import Mathlib.Tactic

/-!
# Multiplication by logarithms

A finite field is often implemented by two tables: the powers of one
generator, and the logarithm to its base.  The product of two nonzero
elements is the power at the sum of their logarithms, taken modulo the order
of the generator.  Associativity and commutativity are then facts about sums
of exponents, but distributivity is not visible in the tables at all.

It comes from how the powers are generated: the next power is a *linear*
function of the last one.  `Generator` collects what has to be known of that
function, and `Generator.LogMul` what a product by logarithms is.

## Main results

* `Generator.LogMul.exp_mul`: multiplying by the power `i` is applying the
  generating map `i` times, hence linear.
* `Generator.LogMul.assoc`, `.comm`, `.one_mul`, `.mul_add`,
  `.mul_exp_sub_log`: the laws of a field.
-/

namespace Fecraw.Verified

variable {F : Type*} [AddCommGroup F]

/-- A linear map whose iterates on `one` run through all nonzero elements of
`F` and come back to `one` after `order` steps. -/
structure Generator (F : Type*) [AddCommGroup F] where
  /-- Multiplication by the generator. -/
  step : F →+ F
  one : F
  order : Nat
  /-- The exponent at which a nonzero element is reached. -/
  log : F → Nat
  order_pos : 0 < order
  one_ne_zero : one ≠ 0
  period : step^[order] one = one
  log_lt : ∀ x, x ≠ 0 → log x < order
  exp_log : ∀ x, x ≠ 0 → step^[log x] one = x

namespace Generator

variable (g : Generator F)

/-- The power `i` of the generator. -/
def exp (i : Nat) : F := g.step^[i] g.one

@[simp] theorem exp_zero : g.exp 0 = g.one := rfl

theorem exp_add (i j : Nat) : g.exp (i + j) = g.step^[i] (g.exp j) :=
  Function.iterate_add_apply g.step i j g.one

theorem exp_order : g.exp g.order = g.one := g.period

/-- Exponents count modulo the order. -/
theorem exp_mod (i : Nat) : g.exp (i % g.order) = g.exp i := by
  have hmul : ∀ q r, g.exp (r + g.order * q) = g.exp r := by
    intro q
    induction q with
    | zero => intro r; rfl
    | succ q ih =>
        intro r
        rw [Nat.mul_succ, ← Nat.add_assoc, Nat.add_right_comm, ih, exp_add, exp_order]
        rfl
  have h := hmul (i / g.order) (i % g.order)
  rw [Nat.mod_add_div] at h
  exact h.symm

/-- A product that adds logarithms. -/
structure LogMul (mul : F → F → F) : Prop where
  zero_mul : ∀ y, mul 0 y = 0
  mul_zero : ∀ x, mul x 0 = 0
  exp_mul_exp : ∀ i j, i < g.order → j < g.order → mul (g.exp i) (g.exp j) = g.exp (i + j)

namespace LogMul

variable {g} {mul : F → F → F} (h : g.LogMul mul)
include h

/-- Multiplying by a power of the generator is iterating the generating map. -/
theorem exp_mul (i : Nat) (y : F) : mul (g.exp i) y = g.step^[i] y := by
  by_cases hy : y = 0
  · rw [hy, h.mul_zero]
    exact (iterate_map_zero g.step i).symm
  · have hi : i % g.order < g.order := Nat.mod_lt _ g.order_pos
    conv_rhs => rw [← g.exp_log y hy]
    conv_lhs => rw [← g.exp_log y hy, ← g.exp_mod i]
    calc mul (g.exp (i % g.order)) (g.exp (g.log y))
        = g.exp (g.log y + i % g.order) := by
          rw [h.exp_mul_exp _ _ hi (g.log_lt y hy), Nat.add_comm]
      _ = g.exp (g.log y + i) := by rw [exp_add, exp_mod, ← exp_add]
      _ = g.step^[i] (g.exp (g.log y)) := by rw [Nat.add_comm, exp_add]

theorem mul_exp_exp (i j : Nat) : mul (g.exp i) (g.exp j) = g.exp (i + j) := by
  rw [h.exp_mul, ← exp_add]

theorem comm (x y : F) : mul x y = mul y x := by
  by_cases hx : x = 0
  · rw [hx, h.zero_mul, h.mul_zero]
  by_cases hy : y = 0
  · rw [hy, h.zero_mul, h.mul_zero]
  rw [← g.exp_log x hx, ← g.exp_log y hy]
  exact (h.mul_exp_exp _ _).trans ((Nat.add_comm _ _ ▸ h.mul_exp_exp _ _).symm)

theorem assoc (x y z : F) : mul (mul x y) z = mul x (mul y z) := by
  by_cases hx : x = 0
  · rw [hx, h.zero_mul, h.zero_mul, h.zero_mul]
  by_cases hy : y = 0
  · rw [hy, h.zero_mul, h.mul_zero, h.zero_mul]
  obtain ⟨i, rfl⟩ : ∃ i, g.exp i = x := ⟨_, g.exp_log x hx⟩
  obtain ⟨j, rfl⟩ : ∃ j, g.exp j = y := ⟨_, g.exp_log y hy⟩
  rw [h.mul_exp_exp, h.exp_mul, h.exp_mul, h.exp_mul, Function.iterate_add_apply]

theorem one_mul (y : F) : mul g.one y = y := h.exp_mul 0 y

/-- Distributivity is the linearity of the generating map. -/
theorem mul_add (x y z : F) : mul x (y + z) = mul x y + mul x z := by
  by_cases hx : x = 0
  · rw [hx, h.zero_mul, h.zero_mul, h.zero_mul, add_zero]
  obtain ⟨i, rfl⟩ : ∃ i, g.exp i = x := ⟨_, g.exp_log x hx⟩
  rw [h.exp_mul, h.exp_mul, h.exp_mul, iterate_map_add]

/-- The inverse is the power at the complement of the logarithm. -/
theorem mul_exp_sub_log {x : F} (hx : x ≠ 0) : mul x (g.exp (g.order - g.log x)) = g.one := by
  have hlog : g.exp (g.log x) = x := g.exp_log x hx
  have hsum : g.log x + (g.order - g.log x) = g.order := by
    have := g.log_lt x hx
    omega
  calc mul x (g.exp (g.order - g.log x))
      = mul (g.exp (g.log x)) (g.exp (g.order - g.log x)) := by rw [hlog]
    _ = g.exp g.order := by rw [h.mul_exp_exp, hsum]
    _ = g.one := g.exp_order

end LogMul

end Generator

end Fecraw.Verified
