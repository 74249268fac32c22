import Mathlib.Data.List.Basic
import Mathlib.Tactic

/-!
# Byte strings, big-endian numbers and byte-addressed memory

The wire formats of this development are lists of octets.  Two number
formats are used, both big endian: 16 bits for lengths and 32 bits for
sequence numbers and counts.  They are stated over `Nat`, and the writers
truncate exactly as a cast to the unsigned C type does, so the round trip
is `n % 2 ^ 16` and `n % 2 ^ 32`.

Buffers that are filled piecemeal and read back at other boundaries are a
total function from addresses to octets.  Nothing is assumed about the
octets a program never wrote, which is what an uninitialised or reused C
array gives.

## Main results

* `readU16_writeU16`, `readU32_writeU32`: the number formats round trip.
* `xorStream_xorStream`: a stream cipher by XOR is its own inverse.
* `Mem.read_write_self`, `Mem.read_write_before`: a region reads back what
  was written to it, and a write at a higher address leaves it alone.
* `Mem.read_add`: a region is the concatenation of its two parts.
* `compact_eq_map`: compacting an array in place selects entries.
-/

namespace Fecraw.Verified

/-- A byte string. -/
abbrev Bytes := List UInt8

/-! ## Big-endian numbers -/

/-- The two octets of `n` as an unsigned 16-bit number. -/
def writeU16 (n : Nat) : Bytes := [UInt8.ofNat (n / 2 ^ 8), UInt8.ofNat n]

/-- The number in the first two octets. -/
def readU16 (bs : Bytes) : Nat :=
  (bs.getD 0 0).toNat * 2 ^ 8 + (bs.getD 1 0).toNat

/-- The four octets of `n` as an unsigned 32-bit number. -/
def writeU32 (n : Nat) : Bytes :=
  [UInt8.ofNat (n / 2 ^ 24), UInt8.ofNat (n / 2 ^ 16), UInt8.ofNat (n / 2 ^ 8),
    UInt8.ofNat n]

/-- The number in the first four octets. -/
def readU32 (bs : Bytes) : Nat :=
  (bs.getD 0 0).toNat * 2 ^ 24 + (bs.getD 1 0).toNat * 2 ^ 16
    + (bs.getD 2 0).toNat * 2 ^ 8 + (bs.getD 3 0).toNat

@[simp] theorem length_writeU16 (n : Nat) : (writeU16 n).length = 2 := rfl

@[simp] theorem length_writeU32 (n : Nat) : (writeU32 n).length = 4 := rfl

theorem readU16_writeU16 (n : Nat) (rest : Bytes) :
    readU16 (writeU16 n ++ rest) = n % 2 ^ 16 := by
  simp only [readU16, writeU16, List.cons_append, List.nil_append,
    List.getD_cons_zero, List.getD_cons_succ, UInt8.toNat_ofNat']
  omega

theorem writeU16_readU16 {bs : Bytes} (h : bs.length = 2) : writeU16 (readU16 bs) = bs := by
  obtain ⟨a, b, rfl⟩ := List.length_eq_two.mp h
  have ha := a.toNat_lt
  have hb := b.toNat_lt
  simp only [readU16, writeU16, List.getD_cons_zero, List.getD_cons_succ]
  congr 1
  · refine UInt8.toNat_inj.mp ?_
    rw [UInt8.toNat_ofNat']
    omega
  · congr 1
    refine UInt8.toNat_inj.mp ?_
    rw [UInt8.toNat_ofNat']
    omega

theorem readU32_writeU32 (n : Nat) (rest : Bytes) :
    readU32 (writeU32 n ++ rest) = n % 2 ^ 32 := by
  simp only [readU32, writeU32, List.cons_append, List.nil_append,
    List.getD_cons_zero, List.getD_cons_succ, UInt8.toNat_ofNat']
  omega

/-- A 32-bit sequence number survives the wire. -/
theorem ofNat_readU32_writeU32 (seq : UInt32) (rest : Bytes) :
    UInt32.ofNat (readU32 (writeU32 seq.toNat ++ rest)) = seq := by
  rw [readU32_writeU32, Nat.mod_eq_of_lt seq.toNat_lt, UInt32.ofNat_toNat]

/-! ## XOR with a cyclic stream -/

/-- XOR a byte string with the stream `ks`.  The cursor is passed through
`wrap` before each use and stepped after it, so `wrap` decides where the
stream starts over. -/
def xorStream (wrap : Nat → Nat) (ks : Nat → UInt8) : Nat → Bytes → Bytes
  | _, [] => []
  | j, b :: bs => (b ^^^ ks (wrap j)) :: xorStream wrap ks (wrap j + 1) bs

@[simp] theorem length_xorStream (wrap : Nat → Nat) (ks : Nat → UInt8) :
    ∀ (bs : Bytes) (j : Nat), (xorStream wrap ks j bs).length = bs.length := by
  intro bs
  induction bs with
  | nil => intro j; rfl
  | cons b bs ih => intro j; simp [xorStream, ih]

/-- XOR with the same stream twice is the identity. -/
theorem xorStream_xorStream (wrap : Nat → Nat) (ks : Nat → UInt8) :
    ∀ (bs : Bytes) (j : Nat),
      xorStream wrap ks j (xorStream wrap ks j bs) = bs := by
  intro bs
  induction bs with
  | nil => intro j; rfl
  | cons b bs ih =>
      intro j
      simp only [xorStream, ih, UInt8.xor_assoc, UInt8.xor_self, UInt8.xor_zero]

/-- Start over when the cursor reaches `n`. -/
def wrapAt (n j : Nat) : Nat := if j = n then 0 else j

/-- With a wrap at `n > 0` only the first `n` octets of the stream count. -/
theorem xorStream_wrapAt_congr {n : Nat} (hn : 0 < n) {ks ks' : Nat → UInt8}
    (h : ∀ j, j < n → ks j = ks' j) :
    ∀ (bs : Bytes) (j : Nat), j ≤ n →
      xorStream (wrapAt n) ks j bs = xorStream (wrapAt n) ks' j bs := by
  intro bs
  induction bs with
  | nil => intro j _; rfl
  | cons b bs ih =>
      intro j hj
      have hw : wrapAt n j < n := by
        unfold wrapAt
        split <;> omega
      simp only [xorStream]
      rw [h _ hw, ih _ (by omega)]

/-- A cursor that starts over after `l` octets stands on octet `n` modulo `l`. -/
theorem xorStream_getD {wrap : Nat → Nat} {ks : Nat → UInt8} {l : Nat} (hl : 0 < l)
    (hwrap : ∀ j, j ≤ l → wrap j = j % l) {bs : Bytes} {j n : Nat} (hj : j ≤ l)
    (hn : n < bs.length) :
    (xorStream wrap ks j bs).getD n 0 = bs.getD n 0 ^^^ ks ((j + n) % l) := by
  induction bs generalizing j n with
  | nil => exact absurd hn (Nat.not_lt_zero n)
  | cons b bs ih =>
      have hlt : j % l < l := Nat.mod_lt j hl
      rw [xorStream, hwrap j hj]
      cases n with
      | zero => rw [List.getD_cons_zero, List.getD_cons_zero, Nat.add_zero]
      | succ n =>
          rw [List.getD_cons_succ, List.getD_cons_succ, ih (by omega) (by simpa using hn),
            Nat.add_assoc, Nat.mod_add_mod, Nat.add_comm 1 n]

/-! ## Byte-addressed memory -/

/-- The contents of a byte array, as a function of the address. -/
abbrev Mem := Nat → UInt8

namespace Mem

/-- Copy `bs` to the addresses `pos, pos + 1, …`. -/
def write (m : Mem) (pos : Nat) (bs : Bytes) : Mem := fun i =>
  if pos ≤ i ∧ i < pos + bs.length then bs.getD (i - pos) 0 else m i

/-- The `n` octets from address `pos` on. -/
def read (m : Mem) (pos n : Nat) : Bytes :=
  (List.range n).map fun k => m (pos + k)

@[simp] theorem length_read (m : Mem) (pos n : Nat) : (m.read pos n).length = n := by
  simp [read]

@[simp] theorem read_zero (m : Mem) (pos : Nat) : m.read pos 0 = [] := rfl

/-- A region is the concatenation of its lower and upper part. -/
theorem read_add (m : Mem) (pos a b : Nat) :
    m.read pos (a + b) = m.read pos a ++ m.read (pos + a) b := by
  simp [read, List.range_add, Nat.add_assoc, Function.comp_def]

/-- A write is read back at its own address. -/
theorem read_write_self (m : Mem) (pos : Nat) (bs : Bytes) :
    (m.write pos bs).read pos bs.length = bs := by
  apply List.ext_getElem
  · simp
  · intro i h1 h2
    have hi : i < bs.length := by simpa using h1
    simp [read, write, hi]

/-- A write above a region does not change it. -/
theorem read_write_before (m : Mem) (pos n at' : Nat) (bs : Bytes)
    (h : pos + n ≤ at') : (m.write at' bs).read pos n = m.read pos n := by
  apply List.map_congr_left
  intro k hk
  have hk' : k < n := List.mem_range.mp hk
  unfold write
  rw [if_neg (by omega)]

/-- A write below a region does not change it. -/
theorem read_write_after (m : Mem) (pos n at' : Nat) (bs : Bytes)
    (h : at' + bs.length ≤ pos) : (m.write at' bs).read pos n = m.read pos n := by
  apply List.map_congr_left
  intro k _
  unfold write
  rw [if_neg (by omega)]

/-- Cutting a region into `n` pieces of equal length and joining them again
gives the region. -/
theorem flatten_read_pieces (m : Mem) (pos len : Nat) : ∀ n : Nat,
    ((List.range n).map fun i => m.read (pos + len * i) len).flatten
      = m.read pos (n * len) := by
  intro n
  induction n with
  | zero => simp
  | succ n ih =>
      rw [List.range_succ, List.map_append, List.flatten_append, ih, Nat.succ_mul,
        read_add]
      simp [Nat.mul_comm]

end Mem

/-! ## Compacting an array in place -/

section Compact

variable {α : Type}

/-- The loop `for (i = 0; i < n; i++) arr[i] = arr[idx[i]]`, started at
position `i`. -/
def gather (arr : Nat → α) : Nat → List Nat → Nat → α
  | _, [] => arr
  | i, j :: js => gather (Function.update arr i (arr j)) (i + 1) js

/-- The first entries of an array after the indexed ones were moved to its
front. -/
def compact (arr : Nat → α) (idx : List Nat) : List α :=
  (List.range idx.length).map (gather arr 0 idx)

private theorem gather_of_lt : ∀ (js : List Nat) (arr : Nat → α) (i k : Nat),
    k < i → gather arr i js k = arr k := by
  intro js
  induction js with
  | nil => intro arr i k _; rfl
  | cons j js ih =>
      intro arr i k hk
      rw [gather, ih _ _ _ (by omega), Function.update_of_ne (by omega)]

/-- Each entry is read before it is overwritten when the indices ascend and
are not below the positions they are moved to. -/
private theorem gather_get : ∀ (js : List Nat) (arr : Nat → α) (i : Nat),
    js.Pairwise (· < ·) → (∀ j ∈ js, i ≤ j) →
    (List.range' i js.length).map (gather arr i js) = js.map arr := by
  intro js
  induction js with
  | nil => intro arr i _ _; rfl
  | cons j js ih =>
      intro arr i hasc hle
      obtain ⟨hj, hasc⟩ := List.pairwise_cons.mp hasc
      have hij : i ≤ j := hle j (by simp)
      have hrest := ih (Function.update arr i (arr j)) (i + 1) hasc
        (fun k hk => by have := hj k hk; omega)
      have hkeep : js.map (Function.update arr i (arr j)) = js.map arr := by
        apply List.map_congr_left
        intro k hk
        have := hj k hk
        exact Function.update_of_ne (by omega) _ _
      rw [List.length_cons, List.range'_succ, List.map_cons, List.map_cons, gather,
        gather_of_lt _ _ _ _ (Nat.lt_succ_self i), Function.update_self, hrest, hkeep]

/-- Compacting along ascending indices selects the entries. -/
theorem compact_eq_map {arr : Nat → α} {idx : List Nat} (h : idx.Pairwise (· < ·)) :
    compact arr idx = idx.map arr := by
  unfold compact
  rw [List.range_eq_range']
  exact gather_get idx arr 0 h fun _ _ => Nat.zero_le _

end Compact

end Fecraw.Verified
