import Mathlib.Data.List.Basic
import Mathlib.Tactic

/-!
# A buffer with room for one

A program receives into a buffer that holds one item, and a counter says how
many are in it.  Every access asserts what the counter must be.  `SlotM` is the
monad of such programs; it also keeps a trace of the accesses, so that one can
say that an item is taken exactly once on every path.

`Does a b uses x` is the judgement: from a counter of `a`, the program `x` makes
exactly the accesses `uses` and returns with a counter of `b`, or it ends for a
reason that has nothing to do with the buffer.

## Main results

* `Does.bind`: accesses of two programs, one after the other.
* `does_runAll`: what each handler of a loop does, the loop does.
-/

namespace Fecraw.Verified

/-- An access to the buffer. -/
inductive SlotUse where
  | fill
  | look
  | take
deriving Repr, DecidableEq

/-- The counter, and the accesses so far. -/
structure Slot where
  cnt : Nat := 0
  trace : List SlotUse := []
deriving Repr, DecidableEq

/-- How a program ends without returning: by an assertion about the buffer, or
otherwise. -/
inductive Stop (ε : Type) where
  | slot
  | fault (e : ε)
deriving Repr, DecidableEq

abbrev SlotM (ε : Type) := StateT Slot (Except (Stop ε))

namespace Slot

variable {ε α β σ ι : Type}

/-- Assert that the buffer is empty. -/
def empty : SlotM ε Unit := fun s =>
  if s.cnt = 0 then .ok ((), s) else .error .slot

/-- Put an item into the buffer. -/
def fill : SlotM ε Unit := fun s => .ok ((), ⟨s.cnt + 1, s.trace ++ [.fill]⟩)

/-- Read the item and leave it. -/
def look : SlotM ε Unit := fun s =>
  if s.cnt = 1 then .ok ((), ⟨s.cnt, s.trace ++ [.look]⟩) else .error .slot

/-- Take the item. -/
def take : SlotM ε Unit := fun s =>
  if s.cnt = 1 then .ok ((), ⟨s.cnt - 1, s.trace ++ [.take]⟩) else .error .slot

/-- A program that does not access the buffer. -/
def aside (x : Except ε α) : SlotM ε α := fun s =>
  match x with
  | .ok a => .ok (a, s)
  | .error e => .error (.fault e)

/-- The accesses of a program. -/
def Does (before after : Nat) (uses : List SlotUse) (x : SlotM ε α) : Prop :=
  ∀ s : Slot, s.cnt = before →
    match x s with
    | .ok (_, s') => s' = ⟨after, s.trace ++ uses⟩
    | .error e => e ≠ .slot

/-! ## Rules -/

theorem does_pure (n : Nat) (a : α) : Does n n [] (pure a : SlotM ε α) := by
  intro s hs
  show s = ⟨n, s.trace ++ []⟩
  rw [List.append_nil, ← hs]

theorem does_aside (n : Nat) (x : Except ε α) : Does n n [] (aside x) := by
  intro s hs
  cases x with
  | error e => exact nofun
  | ok a =>
      show s = ⟨n, s.trace ++ []⟩
      rw [List.append_nil, ← hs]

theorem does_empty : Does 0 0 [] (empty : SlotM ε Unit) := by
  intro s hs
  unfold empty
  rw [if_pos hs]
  show s = ⟨0, s.trace ++ []⟩
  rw [List.append_nil, ← hs]

theorem does_fill : Does 0 1 [.fill] (fill : SlotM ε Unit) := by
  intro s hs
  unfold fill
  rw [hs]

theorem does_look : Does 1 1 [.look] (look : SlotM ε Unit) := by
  intro s hs
  unfold look
  rw [if_pos hs, hs]

theorem does_take : Does 1 0 [.take] (take : SlotM ε Unit) := by
  intro s hs
  unfold take
  rw [if_pos hs, hs]

/-- One program after the other. -/
theorem Does.bind {a b c : Nat} {us vs : List SlotUse} {x : SlotM ε α} {f : α → SlotM ε β}
    (hx : Does a b us x) (hf : ∀ v, Does b c vs (f v)) : Does a c (us ++ vs) (x >>= f) := by
  intro s hs
  have hx := hx s hs
  show match (x s >>= fun p => f p.1 p.2) with
    | .ok (_, s') => s' = ⟨c, s.trace ++ (us ++ vs)⟩
    | .error e => e ≠ .slot
  cases hrun : x s with
  | error e =>
      rw [hrun] at hx
      exact hx
  | ok got =>
      obtain ⟨v, s'⟩ := got
      rw [hrun] at hx
      dsimp only at hx
      have hf := hf v s' (by rw [hx])
      show match f v s' with
        | .ok (_, s') => s' = ⟨c, s.trace ++ (us ++ vs)⟩
        | .error e => e ≠ .slot
      rw [← List.append_assoc, show s.trace ++ us = s'.trace by rw [hx]]
      exact hf

theorem Does.map {a b : Nat} {us : List SlotUse} {x : SlotM ε α} (hx : Does a b us x)
    (f : α → β) : Does a b us (x >>= fun v => pure (f v)) := by
  have hbind := hx.bind fun v => does_pure b (f v)
  rwa [List.append_nil] at hbind

theorem Does.ite {a b : Nat} {us : List SlotUse} {p : Prop} [Decidable p] {x y : SlotM ε α}
    (hx : p → Does a b us x) (hy : ¬ p → Does a b us y) : Does a b us (if p then x else y) := by
  split
  · next h => exact hx h
  · next h => exact hy h

/-! ## Loops -/

/-- A loop that handles one input after the other. -/
def runAll (handle : σ → ι → SlotM ε σ) : σ → List ι → SlotM ε σ
  | s, [] => pure s
  | s, i :: is => handle s i >>= fun s' => runAll handle s' is

/-- If every handler finds the buffer empty and leaves it so, the loop does. -/
theorem does_runAll {handle : σ → ι → SlotM ε σ} {uses : ι → List SlotUse}
    (h : ∀ s i, Does 0 0 (uses i) (handle s i)) (s : σ) (is : List ι) :
    Does 0 0 (is.flatMap uses) (runAll handle s is) := by
  induction is generalizing s with
  | nil => exact does_pure 0 s
  | cons i is ih =>
      rw [List.flatMap_cons]
      exact (h s i).bind fun s' => ih s'

end Slot

end Fecraw.Verified
