import Mathlib.Data.List.Basic
import Mathlib.Tactic

/-!
# Keys in the order of their last use

Keys are used, dropped one by one or dropped all at once.  A list to whose front
each used key is moved has the keys that are there, ordered by the time since their
last use, so that its last key is the one whose last use is the oldest.

## Main results

* `ByRecency.apply`: moving used keys to the front keeps the order.
* `ByRecency.age_le_of_getLast?`: the last key has the oldest last use.
-/

namespace Fecraw.Verified.Recency

/-- What happens to keys. -/
inductive KeyEvent (κ : Type) where
  | use (key : κ)
  | drop (key : κ)
  | reset
  /-- Something else. -/
  | other
deriving Repr, DecidableEq

variable {κ : Type} [DecidableEq κ]

namespace KeyEvent

/-- The event uses a key. -/
def uses (key : κ) : KeyEvent κ → Bool
  | use k => k = key
  | _ => false

/-- If a key is there after an event. -/
def keeps (key : κ) (present : Bool) : KeyEvent κ → Bool
  | use k => present || k = key
  | drop k => present && k ≠ key
  | reset => false
  | other => present

/-- A list to whose front used keys are moved. -/
def apply : KeyEvent κ → List κ → List κ
  | use k, keys => k :: keys.erase k
  | drop k, keys => keys.erase k
  | reset, _ => []
  | other, keys => keys

end KeyEvent

/-- A key is there after events: it was used, and was not dropped since. -/
def present (events : List (KeyEvent κ)) (key : κ) : Bool :=
  events.foldl (KeyEvent.keeps key) false

/-- The number of events since the last use of a key. -/
def age (events : List (KeyEvent κ)) (key : κ) : Nat := events.reverse.findIdx (KeyEvent.uses key)

/-- A list has the keys that are there, the one that was used last in front. -/
structure ByRecency (events : List (KeyEvent κ)) (keys : List κ) : Prop where
  mem : ∀ k, present events k ↔ k ∈ keys
  sorted : keys.Pairwise fun a b => age events a < age events b

section lemmas

variable {events : List (KeyEvent κ)} {keys : List κ} {key : κ}

theorem present_append (events : List (KeyEvent κ)) (event : KeyEvent κ) (key : κ) :
    present (events ++ [event]) key = event.keeps key (present events key) :=
  List.foldl_append

theorem age_append (events : List (KeyEvent κ)) (event : KeyEvent κ) (key : κ) :
    age (events ++ [event]) key = if event.uses key = true then 0 else age events key + 1 := by
  unfold age
  rw [List.reverse_append, List.reverse_singleton, List.singleton_append, List.findIdx_cons]
  cases event.uses key <;> rfl

theorem byRecency_nil : ByRecency ([] : List (KeyEvent κ)) [] :=
  ⟨fun k => by simp [present], List.Pairwise.nil⟩

theorem ByRecency.nodup (h : ByRecency events keys) : keys.Nodup :=
  h.sorted.imp fun hlt heq => absurd hlt (by rw [heq]; exact lt_irrefl _)

/-- Keys that an event does not use keep their order. -/
theorem pairwise_age_append {event : KeyEvent κ}
    (h : keys.Pairwise fun a b => age events a < age events b)
    (hunused : ∀ k ∈ keys, event.uses k = false) :
    keys.Pairwise fun a b => age (events ++ [event]) a < age (events ++ [event]) b := by
  refine h.imp_of_mem fun ha hb hlt => ?_
  rw [age_append, age_append, hunused _ ha, hunused _ hb]
  simpa using hlt

/-- Moving used keys to the front keeps the order. -/
theorem ByRecency.apply (h : ByRecency events keys) (event : KeyEvent κ) :
    ByRecency (events ++ [event]) (event.apply keys) := by
  constructor
  · intro k
    rw [present_append]
    cases event with
    | use key =>
        show (_ || _) = true ↔ k ∈ key :: keys.erase key
        rw [Bool.or_eq_true, decide_eq_true_eq, h.mem, List.mem_cons,
          h.nodup.mem_erase_iff]
        by_cases hk : k = key
        · simp [hk]
        · simp [hk, Ne.symm hk]
    | drop key =>
        show (_ && _) = true ↔ k ∈ keys.erase key
        rw [Bool.and_eq_true, decide_eq_true_eq, h.mem, h.nodup.mem_erase_iff, and_comm, ne_comm]
    | reset => simp [KeyEvent.keeps, KeyEvent.apply]
    | other => simpa [KeyEvent.keeps, KeyEvent.apply] using h.mem k
  · cases event with
    | use key =>
        have hrest : ∀ k ∈ keys.erase key, (KeyEvent.use key).uses k = false := by
          intro k hk
          have hne : k ≠ key := ((h.nodup.mem_erase_iff).mp hk).1
          exact decide_eq_false fun heq => hne heq.symm
        refine List.pairwise_cons.mpr ⟨fun k hk => ?_, ?_⟩
        · rw [age_append, age_append, if_pos (by simp [KeyEvent.uses]), hrest k hk]
          simp
        · exact pairwise_age_append (h.sorted.sublist List.erase_sublist) hrest
    | drop key =>
        exact pairwise_age_append (h.sorted.sublist List.erase_sublist) fun _ _ => rfl
    | reset => exact List.Pairwise.nil
    | other => exact pairwise_age_append h.sorted fun _ _ => rfl

/-- The last key has the oldest last use. -/
theorem ByRecency.age_le_of_getLast? (h : ByRecency events keys) (hlast : keys.getLast? = some key)
    {k : κ} (hk : present events k) : age events k ≤ age events key := by
  have hmem := (h.mem k).mp hk
  obtain ⟨rest, rfl⟩ := List.getLast?_eq_some_iff.mp hlast
  rcases List.mem_append.mp hmem with hk | hk
  · exact ((List.pairwise_append.mp h.sorted).2.2 k hk key (by simp)).le
  · rw [List.mem_singleton.mp hk]

end lemmas

end Fecraw.Verified.Recency
