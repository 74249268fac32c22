import Mathlib.Tactic

/-!
# Sequential transducers

A transducer reads a list from left to right and turns each entry into another
one, with a state.  Two transducers on the same states undo each other if one
step of the second, on what the first has put out, gives back the entry and
makes the same change to the state.  This carries over to runs, and to runs in
pieces, as a run goes on where the run before it stopped.

## Main results

* `run_append`, `run_flatten`: a run in pieces is the run over all entries.
* `run_run`: a transducer that undoes the steps of another undoes its runs.
* `runs_runs`: the pieces of the two may differ.
-/

namespace Fecraw.Verified.Transducer

variable {σ α β : Type}

/-- The last state, and what was put out. -/
def run (step : σ → α → σ × β) (s : σ) : List α → σ × List β
  | [] => (s, [])
  | a :: l =>
      let (s, b) := step s a
      let (s, out) := run step s l
      (s, b :: out)

/-- A run in pieces: the pieces that were put out. -/
def runs (step : σ → α → σ × β) (s : σ) (pieces : List (List α)) : σ × List (List β) :=
  run (run step) s pieces

section Run

variable (step : σ → α → σ × β) (s : σ)

@[simp] theorem run_nil : run step s [] = (s, []) := rfl

@[simp] theorem run_cons (a : α) (l : List α) : run step s (a :: l)
    = ((run step (step s a).1 l).1, (step s a).2 :: (run step (step s a).1 l).2) := rfl

@[simp] theorem length_run (l : List α) : (run step s l).2.length = l.length := by
  induction l generalizing s with
  | nil => rfl
  | cons a l ih => simp only [run_cons, List.length_cons, ih]

theorem run_append (l l' : List α) : run step s (l ++ l')
    = ((run step (run step s l).1 l').1, (run step s l).2 ++ (run step (run step s l).1 l').2) := by
  induction l generalizing s with
  | nil => rfl
  | cons a l ih => simp only [List.cons_append, run_cons, ih]

theorem run_flatten (pieces : List (List α)) : run step s pieces.flatten
    = ((runs step s pieces).1, (runs step s pieces).2.flatten) := by
  induction pieces generalizing s with
  | nil => rfl
  | cons l pieces ih =>
      rw [List.flatten_cons, run_append, ih]
      rfl

end Run

/-- On the states of `I` and the entries of `J`, a step of `back` undoes a step of
`step`. -/
structure Undoes (I : σ → Prop) (J : α → Prop) (step : σ → α → σ × β) (back : σ → β → σ × α) :
    Prop where
  inv : ∀ s a, I s → J a → I (step s a).1
  undo : ∀ s a, I s → J a → back s (step s a).2 = ((step s a).1, a)

section Undo

variable {I : σ → Prop} {J : α → Prop} {step : σ → α → σ × β} {back : σ → β → σ × α}

/-- **Runs are undone.** -/
theorem run_run (h : Undoes I J step back) {s : σ} (hs : I s) {l : List α} (hl : ∀ a ∈ l, J a) :
    run back s (run step s l).2 = ((run step s l).1, l) := by
  induction l generalizing s with
  | nil => rfl
  | cons a l ih =>
      have ha := hl a (List.mem_cons_self ..)
      rw [run_cons, run_cons, h.undo s a hs ha,
        ih (h.inv s a hs ha) fun b hb => hl b (List.mem_cons_of_mem _ hb)]

/-- What was put out in pieces may be read in other pieces. -/
theorem runs_runs (h : Undoes I J step back) {s : σ} (hs : I s) {pieces : List (List α)}
    (hl : ∀ l ∈ pieces, ∀ a ∈ l, J a) {received : List (List β)}
    (hsame : received.flatten = (runs step s pieces).2.flatten) :
    (runs back s received).1 = (runs step s pieces).1 ∧
      (runs back s received).2.flatten = pieces.flatten := by
  have hrun := run_run h hs (l := pieces.flatten) fun a ha => by
    obtain ⟨l, hmem, ha⟩ := List.mem_flatten.1 ha
    exact hl l hmem a ha
  rw [run_flatten, ← hsame, run_flatten] at hrun
  exact Prod.mk.inj hrun

end Undo

end Fecraw.Verified.Transducer
