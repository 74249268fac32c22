import Mathlib.Algebra.BigOperators.Fin
import Mathlib.Data.List.FinRange
import Mathlib.Data.List.Nodup
import Mathlib.Tactic

/-!
# Counting loops

A `for` loop over a range is a fold over the list of its counter values.
Its rule of invariants speaks of the counter: what holds at `i` holds at
`i + 1` after the pass.  A loop that can leave with an error is a monadic
fold in `Option`, with one rule for what it establishes when it comes to its
end, and one for when it always does.

A loop that assigns each entry of an array once, from the old entry alone, is
the array with the assignment made everywhere at once.

## Main results

* `foldl_range'`, `foldl_range_reverse`: the invariant rules.
* `foldlM_finRange_some`, `foldlM_finRange_total`: the same with an early exit.
* `foldl_finRange_add`: a loop that accumulates a sum.
* `foldl_update`: a loop of independent assignments.
-/

namespace Fecraw.Verified

variable {σ : Type*}

/-- The invariant rule for `for (i = a; i < a + n; i++)`. -/
theorem foldl_range' {P : Nat → σ → Prop} {f : σ → Nat → σ} {a n : Nat} {s : σ}
    (h : P a s) (hstep : ∀ i s, a ≤ i → i < a + n → P i s → P (i + 1) (f s i)) :
    P (a + n) ((List.range' a n).foldl f s) := by
  induction n with
  | zero => exact h
  | succ n ih =>
      have hpre : P (a + n) ((List.range' a n).foldl f s) :=
        ih fun i s hai hin hi => hstep i s hai (by omega) hi
      rw [List.range'_concat, List.foldl_append, Nat.mul_comm, Nat.mul_one]
      exact hstep (a + n) _ (Nat.le_add_right ..) (by omega) hpre

/-- The invariant rule for `for (i = n - 1; i >= 0; i--)`. -/
theorem foldl_range_reverse {P : Nat → σ → Prop} {f : σ → Nat → σ} {n : Nat} {s : σ}
    (h : P n s) (hstep : ∀ i s, i < n → P (i + 1) s → P i (f s i)) :
    P 0 ((List.range n).reverse.foldl f s) := by
  induction n generalizing s with
  | zero => exact h
  | succ n ih =>
      rw [List.range_succ, List.reverse_append, List.reverse_singleton, List.singleton_append,
        List.foldl_cons]
      exact ih (hstep n s (Nat.lt_succ_self n) h) fun i s hi => hstep i s (by omega)

/-- A loop that accumulates a sum. -/
theorem foldl_finRange_add {M : Type*} [AddCommMonoid M] {n : Nat} (f : Fin n → M) (a : M) :
    (List.finRange n).foldl (fun acc i => acc + f i) a = a + ∑ i, f i := by
  induction n with
  | zero => simp
  | succ n ih =>
      rw [List.finRange_succ_last, List.foldl_append, List.foldl_map, ih fun i => f i.castSucc,
        Fin.sum_univ_castSucc, ← add_assoc]
      rfl

/-- What a loop with an early exit has established when it comes to its end. -/
theorem foldlM_finRange_some {P : Nat → σ → Prop} {n : Nat} {f : σ → Fin n → Option σ}
    {s s' : σ} (h : P 0 s)
    (hstep : ∀ (i : Fin n) s s', P i s → f s i = some s' → P (i + 1) s')
    (hrun : (List.finRange n).foldlM f s = some s') : P n s' := by
  induction n generalizing s' with
  | zero =>
      obtain rfl : s = s' := Option.some.inj hrun
      exact h
  | succ n ih =>
      rw [List.finRange_succ_last, List.foldlM_append, List.foldlM_map] at hrun
      obtain ⟨t, hpre, hlast⟩ := Option.bind_eq_some_iff.mp hrun
      have ht : P n t := ih (fun i s s' hi hs => hstep i.castSucc s s' hi hs) hpre
      rw [List.foldlM_cons] at hlast
      obtain ⟨u, hu, hend⟩ := Option.bind_eq_some_iff.mp hlast
      obtain rfl : u = s' := Option.some.inj hend
      exact hstep (Fin.last n) t u ht hu

/-- A loop none of whose passes leaves comes to its end. -/
theorem foldlM_finRange_total {P : Nat → σ → Prop} {n : Nat} {f : σ → Fin n → Option σ}
    {s : σ} (h : P 0 s)
    (hstep : ∀ (i : Fin n) s, P i s → ∃ s', f s i = some s' ∧ P (i + 1) s') :
    ∃ s', (List.finRange n).foldlM f s = some s' := by
  induction n with
  | zero => exact ⟨s, rfl⟩
  | succ n ih =>
      obtain ⟨t, hpre⟩ : ∃ t, (List.finRange n).foldlM (fun s i => f s i.castSucc) s = some t :=
        ih fun i s hi => hstep i.castSucc s hi
      have ht : P n t := by
        refine foldlM_finRange_some h (fun i s s' hi hs => ?_) hpre
        obtain ⟨u, hu, hP⟩ := hstep i.castSucc s hi
        obtain rfl : u = s' := Option.some.inj (hu.symm.trans hs)
        exact hP
      obtain ⟨u, hu, -⟩ := hstep (Fin.last n) t ht
      refine ⟨u, ?_⟩
      rw [List.finRange_succ_last, List.foldlM_append, List.foldlM_map, hpre]
      simp [hu]

/-- Entries assigned once each, from their own old value, in any order. -/
theorem foldl_update {ι α : Type*} [DecidableEq ι] (g : ι → α → α) :
    ∀ {l : List ι}, l.Nodup → ∀ (a : ι → α) (i : ι),
      l.foldl (fun a i => Function.update a i (g i (a i))) a i
        = if i ∈ l then g i (a i) else a i := by
  intro l
  induction l with
  | nil =>
      intro _ a i
      simp
  | cons j l ih =>
      intro hnodup a i
      obtain ⟨hj, hl⟩ := List.nodup_cons.mp hnodup
      rw [List.foldl_cons, ih hl]
      by_cases hij : i = j
      · subst hij
        simp [hj]
      · simp [hij]

end Fecraw.Verified
