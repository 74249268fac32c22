import Fecraw.Verified.Outcome
import Fecraw.Verified.Table

/-!
# Descriptors by number

A port of `fd_manager_t`, which gives every descriptor a 64-bit number that is
never used again, and keeps for it the connection it belongs to.

Connections are objects on the heap; a pointer to one is a number.

## Main results

* `FdManager.Wf.added`, `FdManager.Wf.removed`: the two maps stay inverse to
  each other.
-/

namespace Fecraw.Ports.Raw

open Fecraw.Verified

/-- How the raw tunnel ends without returning. -/
inductive Fault where
  /-- A failed `assert`, or an exit that should never happen. -/
  | assertion
  /-- A pointer that is null, or to a deleted object, is followed. -/
  | pointer
  /-- `fd_manager_t` asserts that it has the descriptor of this number. -/
  | descriptor (fd64 : Nat)
  /-- A datagram of the bridge is for a deleted connection. -/
  | bridge
  /-- `server_event_loop` returns. -/
  | stopped
deriving Repr, DecidableEq

/-- `fd_manager_t`.  `closed` lists the descriptors that were closed. -/
structure FdManager where
  fdToFd64 : Table Nat Nat := ∅
  fd64ToFd : Table Nat Nat := ∅
  /-- `p_conn_info` of each number. -/
  fdInfo : Table Nat (Option Nat) := ∅
  counter : Nat := 2 ^ 32 - 1 + 100
  closed : List Nat := []

variable {m : FdManager} {fd fd64 : Nat}

/-- `exist`. -/
def FdManager.exist (m : FdManager) (fd64 : Nat) : Bool := (m.fd64ToFd.lookup fd64).isSome

/-- `exist_info`. -/
def FdManager.existInfo (m : FdManager) (fd64 : Nat) : Bool := (m.fdInfo.lookup fd64).isSome

/-- `to_fd`. -/
def FdManager.toFd (m : FdManager) (fd64 : Nat) : Except Fault Nat :=
  expect (m.fd64ToFd.lookup fd64) (.descriptor fd64)

/-- The tables after a descriptor was registered. -/
def FdManager.added (m : FdManager) (fd : Nat) : FdManager :=
  { m with
    counter := m.counter + 1
    fdToFd64 := m.fdToFd64.insert fd m.counter
    fd64ToFd := m.fd64ToFd.insert m.counter fd }

/-- `create`. -/
def FdManager.create (m : FdManager) (fd : Nat) : Except Fault (FdManager × Nat) := do
  require (m.fdToFd64.lookup fd = none) .assertion
  return (m.added fd, m.counter)

/-- `get_info(fd64).p_conn_info`. -/
def FdManager.getInfo (m : FdManager) (fd64 : Nat) : Except Fault (Option Nat) := do
  require (m.exist fd64) (.descriptor fd64)
  return (m.fdInfo.lookup fd64).join

/-- The tables after the connection of a number was set. -/
def FdManager.withInfo (m : FdManager) (fd64 : Nat) (p : Option Nat) : FdManager :=
  { m with fdInfo := m.fdInfo.insert fd64 p }

/-- `get_info(fd64).p_conn_info = p`. -/
def FdManager.setInfo (m : FdManager) (fd64 : Nat) (p : Option Nat) : Except Fault FdManager := do
  require (m.exist fd64) (.descriptor fd64)
  return m.withInfo fd64 p

/-- The tables after a descriptor was closed. -/
def FdManager.removed (m : FdManager) (fd64 fd : Nat) : FdManager :=
  { m with
    fd64ToFd := m.fd64ToFd.erase fd64
    fdToFd64 := m.fdToFd64.erase fd
    fdInfo := m.fdInfo.erase fd64
    closed := fd :: m.closed }

/-- `fd64_close`. -/
def FdManager.fd64Close (m : FdManager) (fd64 : Nat) : Except Fault FdManager := do
  let fd ← expect (m.fd64ToFd.lookup fd64) (.descriptor fd64)
  return m.removed fd64 fd

/-- `server_clear_function`. -/
def serverClearFunction (m : FdManager) (fd64 : Nat) : Except Fault FdManager := do
  require (m.exist fd64) (.descriptor fd64)
  m.fd64Close fd64

/-! ## What the calls do -/

theorem create_eq (hfd : m.fdToFd64.lookup fd = none) :
    m.create fd = .ok (m.added fd, m.counter) := by
  unfold FdManager.create require
  rw [if_pos hfd]
  rfl

theorem setInfo_eq (hexist : m.exist fd64) (p : Option Nat) :
    m.setInfo fd64 p = .ok (m.withInfo fd64 p) := by
  unfold FdManager.setInfo require
  rw [if_pos hexist]
  rfl

/-- The two maps are inverse to each other, and new numbers are new. -/
structure FdManager.Wf (m : FdManager) : Prop where
  inverse : ∀ fd fd64, m.fdToFd64.lookup fd = some fd64 ↔ m.fd64ToFd.lookup fd64 = some fd
  old : ∀ fd64, m.exist fd64 → 2 ^ 32 < fd64 ∧ fd64 < m.counter
  counter : 2 ^ 32 < m.counter

theorem FdManager.exist_iff : m.exist fd64 ↔ ∃ fd, m.fd64ToFd.lookup fd64 = some fd := by
  unfold FdManager.exist
  rw [Option.isSome_iff_exists]

theorem wf_init : FdManager.Wf {} := by
  refine ⟨fun fd fd64 => ?_, fun fd64 h => ?_, by decide⟩
  · simp
  · simp [FdManager.exist] at h

/-- The next number is not in use. -/
theorem FdManager.Wf.lookup_counter (hwf : m.Wf) : m.fd64ToFd.lookup m.counter = none := by
  have hnew : ¬ m.exist m.counter := fun h => absurd (hwf.old _ h).2 (lt_irrefl _)
  simpa [FdManager.exist] using hnew

theorem added_lookup (x : Nat) :
    (m.added fd).fd64ToFd.lookup x = if x = m.counter then some fd else m.fd64ToFd.lookup x :=
  Table.lookup_insert_eq _ _ _ _

theorem removed_lookup (x : Nat) :
    (m.removed fd64 fd).fd64ToFd.lookup x = if x = fd64 then none else m.fd64ToFd.lookup x :=
  Table.lookup_erase_eq _ _ _

theorem withInfo_info {p : Option Nat} (x : Nat) :
    (m.withInfo fd64 p).fdInfo.lookup x = if x = fd64 then some p else m.fdInfo.lookup x :=
  Table.lookup_insert_eq _ _ _ _

theorem FdManager.Wf.withInfo (hwf : m.Wf) (x : Nat) (p : Option Nat) : (m.withInfo x p).Wf :=
  ⟨hwf.inverse, hwf.old, hwf.counter⟩

theorem removed_info (x : Nat) :
    (m.removed fd64 fd).fdInfo.lookup x = if x = fd64 then none else m.fdInfo.lookup x :=
  Table.lookup_erase_eq _ _ _

/-- A descriptor that is not in use can be registered. -/
theorem FdManager.Wf.added (hwf : m.Wf) (hfd : m.fdToFd64.lookup fd = none) :
    (m.added fd).Wf := by
  have hnone := hwf.lookup_counter
  refine ⟨fun f x => ?_, fun x hx => ?_, Nat.lt_succ_of_lt hwf.counter⟩
  · rw [added_lookup]
    show (m.fdToFd64.insert fd m.counter).lookup f = some x ↔ _
    rw [Table.lookup_insert_eq]
    have hinv := hwf.inverse f x
    by_cases hf : f = fd
    · by_cases hx : x = m.counter
      · simp [hf, hx]
      · rw [hf, hfd] at hinv
        rw [if_pos hf, if_neg hx, hf]
        simp only [reduceCtorEq, false_iff] at hinv
        simp [hinv, Ne.symm hx]
    · by_cases hx : x = m.counter
      · rw [hx, hnone] at hinv
        rw [if_neg hf, if_pos hx, hx]
        simp only [reduceCtorEq, iff_false] at hinv
        simp [hinv, Ne.symm hf]
      · rw [if_neg hf, if_neg hx]
        exact hinv
  · have hcounter := hwf.counter
    show 2 ^ 32 < x ∧ x < m.counter + 1
    obtain ⟨f, hlook⟩ := FdManager.exist_iff.mp hx
    rw [added_lookup] at hlook
    by_cases heq : x = m.counter
    · omega
    · rw [if_neg heq] at hlook
      have := hwf.old x (FdManager.exist_iff.mpr ⟨f, hlook⟩)
      omega

/-- Closing a descriptor leaves the others. -/
theorem FdManager.Wf.removed (hwf : m.Wf) (hfd : m.fd64ToFd.lookup fd64 = some fd) :
    (m.removed fd64 fd).Wf := by
  refine ⟨fun f x => ?_, fun x hx => ?_, hwf.counter⟩
  · rw [removed_lookup]
    show (m.fdToFd64.erase fd).lookup f = some x ↔ _
    rw [Table.lookup_erase_eq]
    have hinv := hwf.inverse f x
    have hkey := (hwf.inverse fd fd64).mpr hfd
    by_cases hf : f = fd
    · by_cases hx : x = fd64
      · simp [hf, hx]
      · rw [hf, hkey] at hinv
        rw [if_pos hf, if_neg hx, hf, ← hinv]
        simp [Ne.symm hx]
    · by_cases hx : x = fd64
      · rw [hx, hfd] at hinv
        rw [if_neg hf, if_pos hx, hx, hinv]
        simp [Ne.symm hf]
      · rw [if_neg hf, if_neg hx]
        exact hinv
  · obtain ⟨f, hlook⟩ := FdManager.exist_iff.mp hx
    rw [removed_lookup] at hlook
    split at hlook
    · exact absurd hlook (by simp)
    · exact hwf.old x (FdManager.exist_iff.mpr ⟨f, hlook⟩)

end Fecraw.Ports.Raw
