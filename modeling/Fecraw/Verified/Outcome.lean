import Mathlib.Data.List.Basic
import Mathlib.Tactic

/-!
# Rules for programs that can fail in several ways

`Ends x F Q` says how a program in `Except` ends: if it returns, the result
satisfies `Q`, and if it fails, the failure satisfies `F`.  With `F` always
false it is total correctness, and with `F` always true partial correctness.

The rules go along the constructs of the program, so that one pass over it
shows which failures are possible and what is kept on every path.

## Main results

* `Ends.bind`, `ends_bind`: sequencing.
* `ends_foldlM`: the invariant rule for a loop over a list.
-/

namespace Fecraw.Verified

variable {ε α β : Type}

/-- Go on if `p` holds, else fail with `e`. -/
def require (p : Prop) [Decidable p] (e : ε) : Except ε Unit :=
  if p then .ok () else .error e

/-- The value, or the failure `e` if there is none. -/
def expect (o : Option α) (e : ε) : Except ε α :=
  match o with
  | some a => .ok a
  | none => .error e

/-- How a program ends: the result satisfies `Q`, or the failure `F`. -/
def Ends (x : Except ε α) (F : ε → Prop) (Q : α → Prop) : Prop :=
  match x with
  | .ok a => Q a
  | .error e => F e

variable {x : Except ε α} {F F' : ε → Prop} {Q Q' : α → Prop}

@[simp] theorem ends_ok {a : α} : Ends (.ok a) F Q ↔ Q a := Iff.rfl

@[simp] theorem ends_pure {a : α} : Ends (pure a) F Q ↔ Q a := Iff.rfl

@[simp] theorem ends_error {e : ε} : Ends (.error e) F Q ↔ F e := Iff.rfl

theorem Ends.of_ok {a : α} (h : Ends x F Q) (hx : x = .ok a) : Q a := by
  rw [hx] at h
  exact h

theorem Ends.of_error {e : ε} (h : Ends x F Q) (hx : x = .error e) : F e := by
  rw [hx] at h
  exact h

theorem Ends.mono (h : Ends x F Q) (hQ : ∀ a, Q a → Q' a) (hF : ∀ e, F e → F' e) :
    Ends x F' Q' := by
  cases x with
  | ok a => exact hQ a h
  | error e => exact hF e h

/-- What is known of the result may be used for what is to be shown. -/
theorem Ends.imp (h : Ends x F Q) (hQ : ∀ a, x = .ok a → Q a → Q' a) : Ends x F Q' := by
  cases x with
  | ok a => exact hQ a rfl h
  | error e => exact h

/-- A sequence ends well if its first part does, in a state from which the
second does. -/
theorem Ends.bind {f : α → Except ε β} {R : β → Prop} (h : Ends x F Q)
    (hf : ∀ a, Q a → Ends (f a) F R) : Ends (x >>= f) F R := by
  cases x with
  | ok a => exact hf a h
  | error e => exact h

theorem ends_bind {f : α → Except ε β} {R : β → Prop} :
    Ends (x >>= f) F R ↔ Ends x F fun a => Ends (f a) F R := by
  cases x with
  | ok a => exact Iff.rfl
  | error e => exact Iff.rfl

theorem ends_require {p : Prop} [Decidable p] {e : ε} {f : Unit → Except ε β} {R : β → Prop}
    (hp : p) (hf : Ends (f ()) F R) : Ends (require p e >>= f) F R := by
  unfold require
  rw [if_pos hp]
  exact hf

/-- A check in front of a program that returns. -/
theorem require_bind_eq_ok {p : Prop} [Decidable p] {e : ε} {f : Unit → Except ε β} {b : β} :
    (require p e >>= f) = .ok b ↔ p ∧ f () = .ok b := by
  unfold require
  by_cases hp : p
  · rw [if_pos hp]
    exact (and_iff_right hp).symm
  · rw [if_neg hp]
    exact ⟨fun h => (by cases h), fun h => absurd h.1 hp⟩

/-- A check that may fail in an allowed way. -/
theorem ends_require_or {p : Prop} [Decidable p] {e : ε} {f : Unit → Except ε β}
    {R : β → Prop} (hfail : ¬ p → F e) (hf : p → Ends (f ()) F R) :
    Ends (require p e >>= f) F R := by
  unfold require
  by_cases hp : p
  · rw [if_pos hp]
    exact hf hp
  · rw [if_neg hp]
    exact hfail hp

theorem ends_expect {o : Option α} {a : α} {e : ε} {f : α → Except ε β} {R : β → Prop}
    (ho : o = some a) (hf : Ends (f a) F R) : Ends (expect o e >>= f) F R := by
  rw [ho]
  exact hf

theorem ends_ite {p : Prop} [Decidable p] {y : Except ε α} (hx : p → Ends x F Q)
    (hy : ¬ p → Ends y F Q) : Ends (if p then x else y) F Q := by
  by_cases hp : p
  · rw [if_pos hp]
    exact hx hp
  · rw [if_neg hp]
    exact hy hp

/-- What every round of a loop keeps, the loop keeps. -/
theorem ends_foldlM {f : β → α → Except ε β} {I : β → Prop} : ∀ {as : List α} {b : β},
    (∀ b, ∀ a ∈ as, I b → Ends (f b a) F I) → I b → Ends (as.foldlM f b) F I := by
  intro as
  induction as with
  | nil => intro b _ hb; exact hb
  | cons a as ih =>
      intro b hround hb
      rw [List.foldlM_cons]
      apply (hround b a (by simp) hb).bind
      intro b' hb'
      exact ih (fun b a' ha' => hround b a' (List.mem_cons_of_mem _ ha')) hb'

end Fecraw.Verified
