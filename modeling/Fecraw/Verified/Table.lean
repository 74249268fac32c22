import Mathlib.Data.List.AList
import Mathlib.Tactic

/-!
# Finite maps

A hash map of a C++ program is an association list without repeated keys.
The order of its entries is not used anywhere.

`pick` stands for an allocator: of a descriptor by the operating system, or
of an address by `new`.  Any name can come out that is not in use.

## Main results

* `lookup_insert_eq`, `lookup_erase_eq`: what a write leaves.
* `size_insert_of_none`, `size_erase_of_some`: how the size changes.
-/

namespace Fecraw.Verified

/-- A finite map from `κ` to `α`. -/
abbrev Table (κ α : Type) := AList fun _ : κ => α

namespace Table

variable {κ α : Type} [DecidableEq κ]

/-- The number of entries. -/
def size (t : Table κ α) : Nat := t.keys.length

theorem lookup_insert_eq (t : Table κ α) (k k' : κ) (a : α) :
    (t.insert k a).lookup k' = if k' = k then some a else t.lookup k' := by
  by_cases h : k' = k
  · rw [if_pos h, h, AList.lookup_insert]
  · rw [if_neg h, AList.lookup_insert_ne h]

theorem lookup_erase_eq (t : Table κ α) (k k' : κ) :
    (t.erase k).lookup k' = if k' = k then none else t.lookup k' := by
  by_cases h : k' = k
  · rw [if_pos h, h, AList.lookup_erase]
  · rw [if_neg h, AList.lookup_erase_ne h]

theorem mem_keys_of_lookup {t : Table κ α} {k : κ} {a : α} (h : t.lookup k = some a) :
    k ∈ t.keys :=
  AList.lookup_isSome.mp (by rw [h]; rfl)

theorem lookup_eq_none_of_notMem {t : Table κ α} {k : κ} (h : k ∉ t.keys) :
    t.lookup k = none :=
  AList.lookup_eq_none.mpr h

theorem size_insert_of_none {t : Table κ α} {k : κ} (a : α) (h : t.lookup k = none) :
    size (t.insert k a) = size t + 1 := by
  have hnot : k ∉ t.keys := AList.lookup_eq_none.mp h
  unfold size
  rw [AList.keys_insert, List.erase_of_not_mem hnot]
  rfl

theorem size_erase_of_some {t : Table κ α} {k : κ} {a : α} (h : t.lookup k = some a) :
    size (t.erase k) + 1 = size t := by
  have hmem := mem_keys_of_lookup h
  unfold size
  rw [AList.keys_erase, List.length_erase_of_mem hmem]
  have := List.length_pos_of_mem hmem
  omega

theorem size_pos_of_some {t : Table κ α} {k : κ} {a : α} (h : t.lookup k = some a) :
    0 < size t :=
  List.length_pos_of_mem (mem_keys_of_lookup h)

end Table

/-- A name that is not in use; the hint is taken if it is free. -/
def pick (used : List Nat) (hint : Nat) : Nat :=
  if hint ∈ used then used.foldl max 0 + 1 else hint

theorem pick_notMem (used : List Nat) (hint : Nat) : pick used hint ∉ used := by
  unfold pick
  split
  · intro hmem
    have hle : ∀ (l : List Nat) (m : Nat), ∀ a, a ∈ l ∨ a ≤ m → a ≤ l.foldl max m := by
      intro l
      induction l with
      | nil => intro m a ha; simpa using ha
      | cons b l ih =>
          intro m a ha
          rw [List.foldl_cons]
          apply ih
          rcases ha with hmem | hle
          · rcases List.mem_cons.mp hmem with rfl | hrest
            · exact .inr (le_max_right m a)
            · exact .inl hrest
          · exact .inr (hle.trans (le_max_left m b))
    have := hle used 0 _ (.inl hmem)
    omega
  · assumption

end Fecraw.Verified
