import Mathlib.Data.Nat.ModEq
import Mathlib.Tactic

/-!
# Positions in a ring

A ring of `n` cells is written at a cursor that moves on by one after each
write.  `Ago n cursor k j` says that the last write to cell `k` was the
`j`-th most recent one; as long as `j` is smaller than the ring the cursor
is elsewhere, so the cell is still untouched.

The second part is about a ring that keeps a flag for each number of a window:
the flag of `i` is in cell `i % n`, and the flags of a range are taken down
when the window moves over it.
-/

namespace Fecraw.Verified.Ring

/-- The cursor after a write. -/
def next (n i : Nat) : Nat := if i + 1 = n then 0 else i + 1

/-- The writes to the cells `k, k + 1, …` led the cursor here in `j` steps. -/
def Ago (n cursor k j : Nat) : Prop := (k + j) % n = cursor

theorem next_lt {n i : Nat} (h : i < n) : next n i < n := by
  unfold next
  split <;> omega

theorem next_eq_mod {n i : Nat} (h : i < n) : next n i = (i + 1) % n := by
  unfold next
  split
  · next heq => rw [heq, Nat.mod_self]
  · rw [Nat.mod_eq_of_lt (by omega)]

/-- The cell just written is one write ago. -/
theorem ago_self {n k : Nat} (h : k < n) : Ago n (next n k) k 1 := by
  unfold Ago
  rw [next_eq_mod h]

/-- Another write makes every cell one write older. -/
theorem Ago.next {n cursor k j : Nat} (hc : cursor < n) (h : Ago n cursor k j) :
    Ago n (next n cursor) k (j + 1) := by
  unfold Ago at h ⊢
  rw [next_eq_mod hc, ← h, Nat.mod_add_mod, Nat.add_assoc]

/-- Fewer than `n` writes ago is not where the next write goes. -/
theorem Ago.ne_cursor {n cursor k j : Nat} (hk : k < n) (hpos : 0 < j) (hj : j < n)
    (h : Ago n cursor k j) : k ≠ cursor := by
  unfold Ago at h
  intro heq
  subst heq
  rcases Nat.lt_or_ge (k + j) n with hlt | hge
  · rw [Nat.mod_eq_of_lt hlt] at h
    omega
  · rw [Nat.mod_eq_sub_mod hge, Nat.mod_eq_of_lt (by omega)] at h
    omega

/-- How many writes there were, at most `n - 1`, between two cursors. -/
def writes (n before after : Nat) : Nat := (after + n - before) % n

theorem writes_self (n i : Nat) : writes n i i = 0 := by
  unfold writes
  rw [Nat.add_sub_cancel_left, Nat.mod_self]

theorem writes_next {n i : Nat} (hn : 1 < n) : writes n i (next n i) = 1 := by
  unfold writes next
  split
  · rw [show 0 + n - i = 1 by omega, Nat.mod_eq_of_lt hn]
  · rw [show i + 1 + n - i = 1 + n by omega, Nat.add_mod_right, Nat.mod_eq_of_lt hn]

theorem writes_next_next {n i : Nat} (hn : 2 < n) :
    writes n i (next n (next n i)) = 2 := by
  unfold writes next
  split
  · rw [if_neg (by omega), show 0 + 1 + n - i = 2 by omega, Nat.mod_eq_of_lt hn]
  · split
    · rw [show 0 + n - i = 2 by omega, Nat.mod_eq_of_lt hn]
    · rw [show i + 1 + 1 + n - i = 2 + n by omega, Nat.add_mod_right,
        Nat.mod_eq_of_lt hn]

/-! ## Flags of numbers -/

/-- Two numbers less than `n` apart have different cells. -/
theorem mod_ne_mod {n a b : Nat} (hab : a < b) (hba : b < a + n) : a % n ≠ b % n := by
  intro heq
  have hdvd : n ∣ b - a := (Nat.modEq_iff_dvd' hab.le).mp heq
  have hle : n ≤ b - a := Nat.le_of_dvd (by omega) hdvd
  omega

/-- The flags after those of `a, …, a + k - 1` were taken down. -/
def lower (n a k : Nat) (flags : Nat → Bool) : Nat → Bool :=
  (List.range' a k).foldl (fun w i => Function.update w (i % n) false) flags

theorem lower_succ (n a k : Nat) (flags : Nat → Bool) :
    lower n a (k + 1) flags = lower n (a + 1) k (Function.update flags (a % n) false) := rfl

/-- A flag that is still up was up and is not in the range. -/
theorem lower_eq_true {n a k j : Nat} {flags : Nat → Bool} (h : lower n a k flags j = true) :
    flags j = true ∧ ∀ i, a ≤ i → i < a + k → i % n ≠ j := by
  induction k generalizing a flags with
  | zero => exact ⟨h, fun i hi hlt => by omega⟩
  | succ k ih =>
      rw [lower_succ] at h
      obtain ⟨hup, hout⟩ := ih h
      have hj : j ≠ a % n := by
        rintro rfl
        simp at hup
      rw [Function.update_of_ne hj] at hup
      refine ⟨hup, fun i hi hlt => ?_⟩
      rcases Nat.eq_or_lt_of_le hi with rfl | hgt
      · exact hj.symm
      · exact hout i hgt (by omega)

/-- Flags out of the range stay as they are. -/
theorem lower_of_ne {n a k j : Nat} {flags : Nat → Bool}
    (h : ∀ i, a ≤ i → i < a + k → i % n ≠ j) : lower n a k flags j = flags j := by
  induction k generalizing a flags with
  | zero => rfl
  | succ k ih =>
      rw [lower_succ, ih fun i hi hlt => h i (by omega) (by omega)]
      exact Function.update_of_ne (h a le_rfl (by omega)).symm _ _

end Fecraw.Verified.Ring
