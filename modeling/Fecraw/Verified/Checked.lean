import Mathlib.Data.List.Basic
import Mathlib.Tactic

/-!
# Programs that can abort, and their runs

A C function that asserts, or that would write past an array, either
returns or ends the process.  `Checked` is the exception monad over the two
ways to end.

A server or a codec is then a step function `σ → ι → Checked (σ × ο)`, and
`run` feeds it a list of inputs, collecting one output per input and
stopping at the first abort.  The ways to end are a parameter of `run`: a
program that distinguishes more of them brings its own.

## Main results

* `bind_eq_ok`: how a sequence of checked calls returns.
* `run_append`: a run is the run of its parts.
* `run_invariant`: what every step keeps, the whole run keeps.
* `run_total`: if every step from a good state returns in a good state, no
  run aborts.
* `run_ok_iff`: a run returns exactly if each of its steps does.
* `Reached.invariant`: the invariant rule for runs whose steps all meet a
  condition.
-/

namespace Fecraw.Verified

/-- How a C program ends without returning. -/
inductive Abort where
  /-- A failed `assert`. -/
  | assertion
  /-- An array is accessed past its end. -/
  | outOfBounds
deriving Repr, DecidableEq

abbrev Checked := Except Abort

namespace Checked

/-- `assert(p)`. -/
def check (p : Prop) [Decidable p] : Checked Unit :=
  if p then .ok () else .error .assertion

/-- The program is only defined when the accesses described by `p` are in
bounds. -/
def bounds (p : Prop) [Decidable p] : Checked Unit :=
  if p then .ok () else .error .outOfBounds

@[simp] theorem check_eq_ok {p : Prop} [Decidable p] {u : Unit} :
    check p = .ok u ↔ p := by
  unfold check
  split <;> simp_all

@[simp] theorem bounds_eq_ok {p : Prop} [Decidable p] {u : Unit} :
    bounds p = .ok u ↔ p := by
  unfold bounds
  split <;> simp_all

theorem check_of {p : Prop} [Decidable p] (h : p) : check p = .ok () := if_pos h

theorem bounds_of {p : Prop} [Decidable p] (h : p) : bounds p = .ok () := if_pos h

theorem bounds_ne_assertion {p : Prop} [Decidable p] :
    bounds p ≠ .error .assertion := by
  unfold bounds
  split <;> simp

variable {ε α β : Type}

/-- A sequence returns exactly when both parts do. -/
theorem bind_eq_ok {x : Except ε α} {f : α → Except ε β} {b : β} :
    x.bind f = .ok b ↔ ∃ a, x = .ok a ∧ f a = .ok b := by
  cases x with
  | error e => simp [Except.bind]
  | ok a => simp [Except.bind]

theorem doBind_eq_ok {x : Except ε α} {f : α → Except ε β} {b : β} :
    (x >>= f) = .ok b ↔ ∃ a, x = .ok a ∧ f a = .ok b := bind_eq_ok

/-- A sequence ends with `e` when its first part does, or its second. -/
theorem doBind_eq_error {x : Except ε α} {f : α → Except ε β} {e : ε} :
    (x >>= f) = .error e ↔ x = .error e ∨ ∃ a, x = .ok a ∧ f a = .error e := by
  cases x with
  | error e' => simp [bind, Except.bind]
  | ok a => simp [bind, Except.bind]

theorem check_bind_eq_ok {p : Prop} [Decidable p] {f : Unit → Checked β} {b : β} :
    (check p >>= f) = .ok b ↔ p ∧ f () = .ok b := by
  unfold check
  split <;> simp_all [bind, Except.bind]

theorem bounds_bind_eq_ok {p : Prop} [Decidable p] {f : Unit → Checked β} {b : β} :
    (bounds p >>= f) = .ok b ↔ p ∧ f () = .ok b := by
  unfold bounds
  split <;> simp_all [bind, Except.bind]

@[simp] theorem ok_bind (a : α) (f : α → Except ε β) :
    ((.ok a : Except ε α) >>= f) = f a := rfl

/-- An optional value that the code asserts to be there. -/
def ofOption : Option α → Checked α
  | some a => .ok a
  | none => .error .assertion

@[simp] theorem ofOption_eq_ok {o : Option α} {a : α} :
    ofOption o = .ok a ↔ o = some a := by
  cases o <;> simp [ofOption]

@[simp] theorem ofOption_some (a : α) : ofOption (some a) = .ok a := rfl

/-- A call on fixed arguments returns what a test accepts. -/
theorem exists_of_any {x : Except ε α} {p : α → Bool} (h : x.toOption.any p = true) :
    ∃ a, x = .ok a ∧ p a = true := by
  cases x with
  | error e => exact absurd h (by simp [Except.toOption])
  | ok a => exact ⟨a, rfl, h⟩

/-! ### Assertions that hold -/

/-- No assertion fails.  The program may still access an array past its end. -/
def NoAssert (x : Checked α) : Prop := x ≠ .error .assertion

instance (x : Checked α) : Decidable (NoAssert x) :=
  match x with
  | .ok a => .isTrue (by simp [NoAssert])
  | .error .outOfBounds => .isTrue (by simp [NoAssert])
  | .error .assertion => .isFalse (by simp [NoAssert])

theorem noAssert_ok (a : α) : NoAssert (.ok a) := by simp [NoAssert]

theorem noAssert_check {p : Prop} [Decidable p] (h : p) : NoAssert (check p) := by
  rw [check_of h]
  exact noAssert_ok ()

theorem noAssert_bounds {p : Prop} [Decidable p] : NoAssert (bounds p) :=
  bounds_ne_assertion

theorem NoAssert.bind {x : Checked α} {f : α → Checked β} (hx : NoAssert x)
    (hf : ∀ a, x = .ok a → NoAssert (f a)) : NoAssert (x >>= f) := by
  intro h
  rcases doBind_eq_error.mp h with hfirst | ⟨a, ha, hrest⟩
  · exact hx hfirst
  · exact hf a ha hrest

/-- In a loop it is enough that no round fails, whatever the rounds before
have computed. -/
theorem noAssert_foldlM {f : β → α → Checked β} : ∀ {as : List α} {b : β},
    (∀ b, ∀ a ∈ as, NoAssert (f b a)) → NoAssert (as.foldlM f b) := by
  intro as
  induction as with
  | nil => intro b _; exact noAssert_ok b
  | cons a as ih =>
      intro b h
      rw [List.foldlM_cons]
      apply (h b a (by simp)).bind
      intro b' _
      exact ih fun b a ha => h b a (List.mem_cons_of_mem _ ha)

end Checked

/-! ## Runs -/

section Run

variable {ε σ ι ο : Type}

/-- Feed the inputs one after the other. -/
def run (step : σ → ι → Except ε (σ × ο)) : σ → List ι → Except ε (σ × List ο)
  | s, [] => .ok (s, [])
  | s, i :: is =>
      (step s i).bind fun (s', o) => (run step s' is).bind fun (t, os) => .ok (t, o :: os)

variable {step : σ → ι → Except ε (σ × ο)}

@[simp] theorem run_nil (s : σ) : run step s [] = .ok (s, []) := rfl

theorem run_cons_eq_ok {s t : σ} {i : ι} {is : List ι} {os : List ο} :
    run step s (i :: is) = .ok (t, os) ↔
      ∃ s' o os', step s i = .ok (s', o) ∧ run step s' is = .ok (t, os') ∧
        os = o :: os' := by
  rw [run, Checked.bind_eq_ok]
  constructor
  · rintro ⟨⟨s', o⟩, hstep, hrest⟩
    obtain ⟨⟨t', os'⟩, hrun, heq⟩ := Checked.bind_eq_ok.mp hrest
    simp only [Except.ok.injEq, Prod.mk.injEq] at heq
    obtain ⟨rfl, rfl⟩ := heq
    exact ⟨s', o, os', hstep, hrun, rfl⟩
  · rintro ⟨s', o, os', hstep, hrun, rfl⟩
    exact ⟨(s', o), hstep, Checked.bind_eq_ok.mpr ⟨(t, os'), hrun, rfl⟩⟩

/-- A run splits at every point. -/
theorem run_append_eq_ok {is js : List ι} : ∀ {s t : σ} {os : List ο},
    run step s (is ++ js) = .ok (t, os) ↔
      ∃ m os₁ os₂, run step s is = .ok (m, os₁) ∧ run step m js = .ok (t, os₂) ∧
        os = os₁ ++ os₂ := by
  induction is with
  | nil =>
      intro s t os
      constructor
      · intro h
        exact ⟨s, [], os, rfl, h, rfl⟩
      · rintro ⟨m, os₁, os₂, h₁, h₂, rfl⟩
        simp only [run_nil, Except.ok.injEq, Prod.mk.injEq] at h₁
        obtain ⟨rfl, rfl⟩ := h₁
        exact h₂
  | cons i is ih =>
      intro s t os
      rw [List.cons_append, run_cons_eq_ok]
      constructor
      · rintro ⟨s', o, os', hstep, hrun, rfl⟩
        obtain ⟨m, os₁, os₂, h₁, h₂, rfl⟩ := ih.mp hrun
        exact ⟨m, o :: os₁, os₂, run_cons_eq_ok.mpr ⟨s', o, os₁, hstep, h₁, rfl⟩,
          h₂, rfl⟩
      · rintro ⟨m, os₁, os₂, h₁, h₂, rfl⟩
        obtain ⟨s', o, os', hstep, hrun, rfl⟩ := run_cons_eq_ok.mp h₁
        exact ⟨s', o, os' ++ os₂, hstep, ih.mpr ⟨m, os', os₂, hrun, h₂, rfl⟩, rfl⟩

/-- One more step at the end of a run. -/
theorem run_concat {is : List ι} {s m t : σ} {i : ι} {os : List ο} {o : ο}
    (hrun : run step s is = .ok (m, os)) (hstep : step m i = .ok (t, o)) :
    run step s (is ++ [i]) = .ok (t, os ++ [o]) :=
  run_append_eq_ok.mpr ⟨m, os, [o], hrun,
    run_cons_eq_ok.mpr ⟨t, o, [], hstep, run_nil t, rfl⟩, rfl⟩

/-- What every step keeps, the whole run keeps; `Q` is what the outputs of
the steps are known to satisfy. -/
theorem run_invariant {Inv : σ → Prop} {Q : ι → ο → Prop} :
    ∀ {is : List ι} {s t : σ} {os : List ο},
      (∀ s s' i o, i ∈ is → Inv s → step s i = .ok (s', o) → Inv s' ∧ Q i o) →
      Inv s → run step s is = .ok (t, os) →
      Inv t ∧ List.Forall₂ Q is os := by
  intro is
  induction is with
  | nil =>
      intro s t os _ hs h
      simp only [run_nil, Except.ok.injEq, Prod.mk.injEq] at h
      obtain ⟨rfl, rfl⟩ := h
      exact ⟨hs, .nil⟩
  | cons i is ih =>
      intro s t os hstep hs h
      obtain ⟨s', o, os', hone, hrun, rfl⟩ := run_cons_eq_ok.mp h
      obtain ⟨hs', hq⟩ := hstep s s' i o (by simp) hs hone
      obtain ⟨ht, hqs⟩ := ih
        (fun s s' j o hj => hstep s s' j o (List.mem_cons_of_mem _ hj)) hs' hrun
      exact ⟨ht, .cons hq hqs⟩

/-- The outputs of a run, one by one. -/
theorem run_outputs {Inv : σ → Prop} {P : ο → Prop} {is : List ι} {s t : σ} {os : List ο}
    (hstep : ∀ s s' i o, i ∈ is → Inv s → step s i = .ok (s', o) → Inv s' ∧ P o)
    (hs : Inv s) (h : run step s is = .ok (t, os)) : Inv t ∧ ∀ o ∈ os, P o := by
  obtain ⟨ht, hall⟩ := run_invariant (Q := fun _ o => P o) hstep hs h
  refine ⟨ht, ?_⟩
  intro o ho
  obtain ⟨k, hk, rfl⟩ := List.mem_iff_getElem.mp ho
  exact (List.forall₂_iff_get.mp hall).2 k (hall.length_eq ▸ hk) hk

/-- If the output of a step is good exactly under a condition on the state and the input,
which also keeps the invariant, the outputs of a run are good exactly if that condition
holds at every step. -/
theorem run_outputs_iff {Inv : σ → Prop} {P : ο → Prop} {C : σ → ι → Prop}
    (hstep : ∀ s s' i o, Inv s → step s i = .ok (s', o) → (P o ↔ C s i) ∧ (C s i → Inv s')) :
    ∀ {is : List ι} {s t : σ} {os : List ο}, Inv s → run step s is = .ok (t, os) →
      ((∀ o ∈ os, P o) ↔
        ∀ pre i post, is = pre ++ i :: post → ∀ m os', run step s pre = .ok (m, os') → C m i) := by
  intro is
  induction is with
  | nil =>
      intro s t os _ h
      obtain ⟨-, rfl⟩ := Prod.mk.inj (Except.ok.inj h)
      exact ⟨fun _ pre i post h => absurd h (by simp), fun _ o ho => absurd ho (by simp)⟩
  | cons i is ih =>
      intro s t os hs h
      obtain ⟨s', o, os', hone, hrun, rfl⟩ := run_cons_eq_ok.mp h
      obtain ⟨hiff, hkeep⟩ := hstep s s' i o hs hone
      constructor
      · intro hall pre j post hsplit m os'' hpre
        have hC : C s i := hiff.mp (hall o (by simp))
        cases pre with
        | nil =>
            obtain ⟨rfl, -⟩ := Prod.mk.inj (Except.ok.inj hpre)
            rw [← (List.cons.inj hsplit).1]
            exact hC
        | cons k pre =>
            obtain ⟨rfl, hrest⟩ := List.cons.inj hsplit
            obtain ⟨s₁, o₁, os₁, hone₁, hpre', -⟩ := run_cons_eq_ok.mp hpre
            obtain ⟨rfl, -⟩ := Prod.mk.inj (Except.ok.inj (hone.symm.trans hone₁))
            exact (ih (hkeep hC) hrun).mp (fun o ho => hall o (List.mem_cons_of_mem _ ho))
              pre j post hrest m os₁ hpre'
      · intro hall
        have hC : C s i := hall [] i is rfl s [] rfl
        have hrest := (ih (hkeep hC) hrun).mpr fun pre j post hsplit m os'' hpre =>
          hall (i :: pre) j post (by rw [hsplit]; rfl) m (o :: os'')
            (run_cons_eq_ok.mpr ⟨s', o, os'', hone, hpre, rfl⟩)
        exact List.forall_mem_cons.mpr ⟨hiff.mpr hC, hrest⟩

/-- If every step from a good state returns in a good state, no run aborts. -/
theorem run_total {Inv : σ → Prop} : ∀ {is : List ι} {s : σ},
    (∀ s i, i ∈ is → Inv s → ∃ s' o, step s i = .ok (s', o) ∧ Inv s') →
    Inv s → ∃ t os, run step s is = .ok (t, os) ∧ Inv t := by
  intro is
  induction is with
  | nil => intro s _ hs; exact ⟨s, [], rfl, hs⟩
  | cons i is ih =>
      intro s hstep hs
      obtain ⟨s', o, hone, hs'⟩ := hstep s i (by simp) hs
      obtain ⟨t, os, hrun, ht⟩ := ih
        (fun s j hj => hstep s j (List.mem_cons_of_mem _ hj)) hs'
      exact ⟨t, o :: os, run_cons_eq_ok.mpr ⟨s', o, os, hone, hrun, rfl⟩, ht⟩

/-- A run aborts exactly at a step from a state in which that step does. -/
theorem run_ok_iff {Inv : σ → Prop} {P : σ → ι → Prop} : ∀ {is : List ι} {s : σ},
    (∀ s s' i o, i ∈ is → Inv s → step s i = .ok (s', o) → Inv s') →
    (∀ s i, i ∈ is → Inv s → ((∃ r, step s i = .ok r) ↔ P s i)) → Inv s →
    ((∃ t os, run step s is = .ok (t, os)) ↔
      ∀ pre i post, is = pre ++ i :: post → ∀ m os, run step s pre = .ok (m, os) → P m i) := by
  intro is
  induction is with
  | nil =>
      intro s _ _ _
      exact ⟨fun _ pre i post h => absurd h (by simp), fun _ => ⟨s, [], rfl⟩⟩
  | cons i is ih =>
      intro s hkeep hone hs
      constructor
      · rintro ⟨t, os, h⟩ pre j post hsplit m os' hpre
        rw [hsplit] at h hone
        obtain ⟨m', os₁, os₂, hpre', hrest, -⟩ := run_append_eq_ok.mp h
        obtain ⟨rfl, -⟩ := Prod.mk.inj (Except.ok.inj (hpre.symm.trans hpre'))
        obtain ⟨s', o, -, hstep, -, -⟩ := run_cons_eq_ok.mp hrest
        have hm : Inv m := (run_invariant (Q := fun _ _ => True)
          (fun s s' k o hk hinv hok => ⟨hkeep s s' k o
            (by rw [hsplit]; exact List.mem_append_left _ hk) hinv hok, trivial⟩) hs hpre).1
        exact (hone m j (by simp) hm).mp ⟨_, hstep⟩
      · intro hall
        obtain ⟨⟨s', o⟩, hstep⟩ :=
          (hone s i (by simp) hs).mpr (hall [] i is rfl s [] rfl)
        have hrest := (ih (fun s s' j o hj => hkeep s s' j o (List.mem_cons_of_mem _ hj))
          (fun s j hj => hone s j (List.mem_cons_of_mem _ hj))
          (hkeep s s' i o (by simp) hs hstep)).mpr (by
            intro pre j post hsplit m os hrun
            exact hall (i :: pre) j post (by rw [hsplit]; rfl) m (o :: os)
              (run_cons_eq_ok.mpr ⟨s', o, os, hstep, hrun, rfl⟩))
        obtain ⟨t, os, hrun⟩ := hrest
        exact ⟨t, o :: os, run_cons_eq_ok.mpr ⟨s', o, os, hstep, hrun, rfl⟩⟩

/-- The states that are reached from `s` by steps that satisfy `P`. -/
inductive Reached (step : σ → ι → Except ε (σ × ο)) (P : σ → ι → Prop) (s : σ) : σ → Prop where
  | start : Reached step P s s
  | next {t t' : σ} {i : ι} {o : ο} (h : Reached step P s t) (hP : P t i)
      (hstep : step t i = .ok (t', o)) : Reached step P s t'

/-- What holds at the start, and what every such step keeps, holds in every
state that is reached. -/
theorem Reached.invariant {P : σ → ι → Prop} {Inv : σ → Prop} {s t : σ}
    (hkeep : ∀ s s' i o, Inv s → P s i → step s i = .ok (s', o) → Inv s') (hs : Inv s)
    (h : Reached step P s t) : Inv t := by
  induction h with
  | start => exact hs
  | next _ hP hstep ih => exact hkeep _ _ _ _ ih hP hstep

/-- Whatever a run ends in is reached. -/
theorem Reached.run {P : σ → ι → Prop} {s : σ} : ∀ {is : List ι} {t t' : σ} {os : List ο},
    Reached step P s t → (∀ t, ∀ i ∈ is, P t i) → run step t is = .ok (t', os) →
      Reached step P s t' := by
  intro is
  induction is with
  | nil =>
      intro t t' os hs _ h
      obtain ⟨rfl, -⟩ := Prod.mk.inj (Except.ok.inj h)
      exact hs
  | cons i is ih =>
      intro t t' os hs hP h
      obtain ⟨t₁, o, os', hone, hrun, -⟩ := run_cons_eq_ok.mp h
      exact ih (hs.next (hP t i (by simp)) hone)
        (fun t j hj => hP t j (List.mem_cons_of_mem _ hj)) hrun

/-- Every step of a run passes a check. -/
def runChecks (step : σ → ι → Except ε (σ × ο)) (check : σ → ι → Bool) : σ → List ι → Bool
  | _, [] => true
  | s, i :: is => check s i && match step s i with
      | .ok (t, _) => runChecks step check t is
      | .error _ => true

/-- The number of steps of a run that `p` holds of. -/
def runCount (step : σ → ι → Except ε (σ × ο)) (p : σ → ι → Bool) : σ → List ι → Nat
  | _, [] => 0
  | s, i :: is => (if p s i then 1 else 0) + match step s i with
      | .ok (t, _) => runCount step p t is
      | .error _ => 0

theorem runCount_cons {p : σ → ι → Bool} {s t : σ} {i : ι} {o : ο} (is : List ι)
    (h : step s i = .ok (t, o)) :
    runCount step p s (i :: is) = (if p s i then 1 else 0) + runCount step p t is := by
  rw [runCount, h]

theorem Reached.run_of_checks {P : σ → ι → Prop} {check : σ → ι → Bool}
    (hP : ∀ s i, check s i → P s i) {s : σ} : ∀ {is : List ι} {t t' : σ} {os : List ο},
      Reached step P s t → runChecks step check t is → Verified.run step t is = .ok (t', os) →
        Reached step P s t' := by
  intro is
  induction is with
  | nil =>
      intro t t' os hs _ h
      obtain ⟨rfl, -⟩ := Prod.mk.inj (Except.ok.inj h)
      exact hs
  | cons i is ih =>
      intro t t' os hs hchecks h
      obtain ⟨t₁, o, os', hone, hrun, -⟩ := run_cons_eq_ok.mp h
      simp only [runChecks, hone, Bool.and_eq_true] at hchecks
      exact ih (hs.next (hP t i hchecks.1) hone) hchecks.2 hrun

/-- A given run that passes the check, and what its result is found to be. -/
theorem exists_reached {P : σ → ι → Prop} {check : σ → ι → Bool} {p : σ × List ο → Bool} {s : σ}
    {is : List ι} (hP : ∀ s i, check s i → P s i) (hchecks : runChecks step check s is)
    (hany : (run step s is).toOption.any p) :
    ∃ t os, run step s is = .ok (t, os) ∧ Reached step P s t ∧ p (t, os) := by
  obtain ⟨⟨t, os⟩, hrun, hp⟩ := Checked.exists_of_any hany
  exact ⟨t, os, hrun, Reached.start.run_of_checks hP hchecks hrun, hp⟩

end Run

end Fecraw.Verified
