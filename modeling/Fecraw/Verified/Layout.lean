import Fecraw.Verified.Bytes

/-!
# Reading a memory by its layout

A packet in a receive buffer is a pointer and a length, and its fields are read
at fixed offsets.  `Mem.Holds` says which octets are at an address; it splits
along the parts of a layout, so that the fields of a header are read off one by
one.

## Main results

* `Mem.holds_append`, `Mem.holds_cons`: a layout part by part.
* `Mem.Holds.u16`, `Mem.Holds.u32`: the numbers in it.
-/

namespace Fecraw.Verified

namespace Mem

variable {m : Mem} {pos : Nat} {xs ys : Bytes}

/-- The octets from address `pos` on are `bs`. -/
def Holds (m : Mem) (pos : Nat) (bs : Bytes) : Prop := m.read pos bs.length = bs

/-- The 16-bit number at an address. -/
def u16 (m : Mem) (pos : Nat) : Nat := readU16 (m.read pos 2)

/-- The 32-bit number at an address. -/
def u32 (m : Mem) (pos : Nat) : Nat := readU32 (m.read pos 4)

/-- The memory as seen through a pointer to `base`. -/
def shift (m : Mem) (base : Nat) : Mem := fun i => m (base + i)

theorem read_shift (m : Mem) (base pos n : Nat) :
    (m.shift base).read pos n = m.read (base + pos) n := by
  unfold read shift
  simp only [Nat.add_assoc]

@[simp] theorem holds_shift {base : Nat} :
    (m.shift base).Holds pos xs ↔ m.Holds (base + pos) xs := by
  unfold Holds
  rw [read_shift]

/-- A layout of two parts. -/
theorem holds_append : m.Holds pos (xs ++ ys) ↔ m.Holds pos xs ∧ m.Holds (pos + xs.length) ys := by
  unfold Holds
  rw [List.length_append, read_add]
  constructor
  · exact fun h => List.append_inj h (length_read m pos xs.length)
  · rintro ⟨hxs, hys⟩
    rw [hxs, hys]

/-- A layout that starts with one octet. -/
theorem holds_cons {b : UInt8} : m.Holds pos (b :: xs) ↔ m pos = b ∧ m.Holds (pos + 1) xs := by
  rw [← List.singleton_append, holds_append]
  unfold Holds read
  simp

theorem Holds.read_eq {n : Nat} (h : m.Holds pos xs) (hn : xs.length = n) : m.read pos n = xs := by
  rw [← hn]
  exact h

theorem Holds.u16 {n : Nat} (h : m.Holds pos (writeU16 n)) : m.u16 pos = n % 2 ^ 16 := by
  unfold Mem.u16
  rw [h.read_eq (length_writeU16 n)]
  exact readU16_writeU16 n []

theorem Holds.u32 {n : Nat} (h : m.Holds pos (writeU32 n)) : m.u32 pos = n % 2 ^ 32 := by
  unfold Mem.u32
  rw [h.read_eq (length_writeU32 n)]
  exact readU32_writeU32 n []

/-- A memory that starts with these octets. -/
def ofBytes (bs : Bytes) : Mem := fun i => bs.getD i 0

theorem holds_ofBytes (bs : Bytes) : (ofBytes bs).Holds 0 bs := by
  apply List.ext_getElem
  · simp
  · intro i h1 h2
    simp [read, ofBytes, h2]

end Mem

end Fecraw.Verified
