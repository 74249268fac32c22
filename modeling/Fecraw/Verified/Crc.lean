import Mathlib.Data.List.GetD
import Mathlib.Dynamics.PeriodicPts.Lemmas
import Fecraw.Verified.Bytes
import Fecraw.Verified.Octet

/-!
# Reflected cyclic redundancy checks of 32 bits

The register is a polynomial over the field with two elements whose lowest
term is the top bit.  Shifting in a bit divides by a polynomial, and is a
linear map of the register; all other forms of the check follow from that.  The
polynomial is a parameter.

## Main results

* `bits_xor`, `register_append`, `register_eq`: the register is linear in its
  contents, and a message in two parts is a shift of the first part's register.
* `register_slice`: the register after four octets and more, by tables.
* `pick_columns`: a linear map is the list of its values on single bits.
* `power_eq`: many bits by squaring.
* `registerBits_octets`: octets are shifted in from their lowest bit.
* `register_ne_of_burst`, `register_ne_of_two`: messages that differ in at most
  32 consecutive bits, or in two bits, leave different registers.
-/

namespace Fecraw.Verified.Crc

variable (poly : UInt32)

/-- One bit: a shift, and a subtraction of the polynomial. -/
def bit (c : UInt32) : UInt32 := (c >>> 1) ^^^ (if c &&& 1 = 1 then poly else 0)

/-- `n` bits that are zero. -/
def bits (n : Nat) (c : UInt32) : UInt32 := (bit poly)^[n] c

/-- One octet. -/
def step (c : UInt32) (b : UInt8) : UInt32 := bits poly 8 (c ^^^ b.toUInt32)

/-- A message. -/
def register (c : UInt32) (d : Bytes) : UInt32 := d.foldl (step poly) c

/-- What the octet `b` leaves after itself and `k` zeros. -/
def table (k : Nat) (b : UInt8) : UInt32 := bits poly (8 * (k + 1)) b.toUInt32

/-! ## Linearity -/

theorem and_one_iff (c : UInt32) : c &&& 1 = 1 ↔ c.toBitVec.getLsbD 0 = true := by
  rw [← UInt32.toBitVec_inj, UInt32.toBitVec_and]
  have hone : c.toBitVec &&& 1#32 = (BitVec.ofBool (c.toBitVec.getLsbD 0)).setWidth 32 :=
    BitVec.and_one_eq_setWidth_ofBool_getLsbD
  change c.toBitVec &&& 1#32 = 1#32 ↔ _
  rw [hone]
  cases c.toBitVec.getLsbD 0 <;> decide

theorem shiftRight_one_xor (a b : UInt32) : (a ^^^ b) >>> 1 = a >>> 1 ^^^ b >>> 1 := by
  apply UInt32.toBitVec_inj.mp
  exact BitVec.ushiftRight_xor_distrib ..

theorem bit_xor (a b : UInt32) : bit poly (a ^^^ b) = bit poly a ^^^ bit poly b := by
  have hred : ∀ p q : Bool, (if (p ^^ q) = true then poly else 0)
      = (if p = true then poly else 0) ^^^ (if q = true then poly else 0) := by
    intro p q
    cases p <;> cases q <;> simp
  unfold bit
  simp only [and_one_iff, UInt32.toBitVec_xor, BitVec.getLsbD_xor, hred, shiftRight_one_xor]
  ac_rfl

theorem bits_succ (n : Nat) (c : UInt32) : bits poly (n + 1) c = bits poly n (bit poly c) :=
  Function.iterate_succ_apply ..

theorem bits_add (m n : Nat) (c : UInt32) : bits poly (m + n) c = bits poly m (bits poly n c) :=
  Function.iterate_add_apply ..

theorem bits_xor (n : Nat) (a b : UInt32) :
    bits poly n (a ^^^ b) = bits poly n a ^^^ bits poly n b := by
  induction n generalizing a b with
  | zero => rfl
  | succ n ih => rw [bits_succ, bit_xor, ih, ← bits_succ, ← bits_succ]

@[simp] theorem bits_zero (n : Nat) : bits poly n 0 = 0 := by
  induction n with
  | zero => rfl
  | succ n ih =>
      rw [bits_succ, show bit poly 0 = 0 from by simp [bit], ih]

/-! ## Messages -/

@[simp] theorem register_nil (c : UInt32) : register poly c [] = c := rfl

theorem register_append (c : UInt32) (d e : Bytes) :
    register poly c (d ++ e) = register poly (register poly c d) e := List.foldl_append

theorem step_eq (c : UInt32) (b : UInt8) :
    step poly c b = bits poly 8 c ^^^ bits poly 8 b.toUInt32 := bits_xor ..

/-- What was in the register is shifted, and what the message leaves is added. -/
theorem register_eq (c : UInt32) (d : Bytes) :
    register poly c d = bits poly (8 * d.length) c ^^^ register poly 0 d := by
  induction d generalizing c with
  | nil => simp [bits]
  | cons b d ih =>
      have hcons : ∀ c, register poly c (b :: d) = register poly (step poly c b) d := fun c => rfl
      rw [hcons, ih, hcons, ih (step poly 0 b), step_eq, step_eq, bits_zero, UInt32.zero_xor,
        bits_xor, List.length_cons, Nat.mul_succ, bits_add, UInt32.xor_assoc]

/-- The first octet of a message, by a table. -/
theorem register_cons (b : UInt8) (d : Bytes) :
    register poly 0 (b :: d) = table poly d.length b ^^^ register poly 0 d := by
  have hstep : register poly 0 (b :: d) = register poly (bits poly 8 b.toUInt32) d := by
    rw [← UInt32.zero_xor (a := b.toUInt32)]
    rfl
  rw [hstep, register_eq, table, Nat.mul_succ, bits_add]

/-! ## Tables -/

/-- Bits that are zero are shifted out. -/
theorem bits_shiftLeft (x : UInt32) : bits poly 8 (x <<< 8) = x <<< 8 >>> 8 := by
  have hstep : ∀ y : UInt32, y.toBitVec.getLsbD 0 = false → bit poly y = y >>> 1 := by
    intro y hy
    unfold bit
    rw [if_neg (by rw [and_one_iff, hy]; exact Bool.false_ne_true), UInt32.xor_zero]
  have hrun : ∀ k, k ≤ 8 → (bits poly k (x <<< 8)).toBitVec = (x.toBitVec <<< 8) >>> k := by
    intro k
    induction k with
    | zero =>
        intro _
        rfl
    | succ k ih =>
        intro hk
        have hlow : (bits poly k (x <<< 8)).toBitVec.getLsbD 0 = false := by
          rw [ih (by omega)]
          simp
          omega
        rw [Nat.add_comm, bits_add, bits, Function.iterate_one, hstep _ hlow]
        change (bits poly k (x <<< 8)).toBitVec >>> 1 = _
        rw [ih (by omega), ← BitVec.shiftRight_add, Nat.add_comm]
  apply UInt32.toBitVec_inj.mp
  exact hrun 8 le_rfl

/-- Eight bits: the other octets move down, and the lowest is looked up. -/
theorem bits_word (b : Fin 4 → UInt8) :
    bits poly 8 (word b) = word ![b 1, b 2, b 3, 0] ^^^ table poly 0 (b 0) := by
  have hsplit : word b = word ![b 1, b 2, b 3, 0] <<< 8 ^^^ (b 0).toUInt32 := by
    apply UInt32.toBitVec_inj.mp
    unfold word
    ext j hj
    simp
    grind
  have hback : word ![b 1, b 2, b 3, 0] <<< 8 >>> 8 = word ![b 1, b 2, b 3, 0] := by
    apply UInt32.toBitVec_inj.mp
    unfold word
    ext j hj
    simp
    grind
  rw [hsplit, bits_xor, bits_shiftLeft, hback]
  rfl

/-- All octets of a word are looked up when as many bits follow. -/
theorem bits_word_add (b : Fin 4 → UInt8) (n : Nat) :
    bits poly (8 * (n + 4)) (word b) = table poly (n + 3) (b 0) ^^^ table poly (n + 2) (b 1)
      ^^^ table poly (n + 1) (b 2) ^^^ table poly n (b 3) := by
  have hzero : ∀ k, table poly k 0 = 0 := fun k => bits_zero ..
  have hmore : ∀ k m b, bits poly (8 * m) (table poly k b) = table poly (m + k) b := by
    intro k m b
    rw [table, table, ← bits_add, ← Nat.mul_add, Nat.add_assoc]
  have hword : ∀ m (b : Fin 4 → UInt8), bits poly (8 * (m + 1)) (word b)
      = bits poly (8 * m) (word ![b 1, b 2, b 3, 0]) ^^^ table poly m (b 0) := by
    intro m b
    rw [Nat.mul_succ, bits_add, bits_word, bits_xor, hmore, Nat.add_zero]
  have hnil : word ![0, 0, 0, 0] = 0 := by decide
  rw [hword (n + 3), hword (n + 2), hword (n + 1), hword n]
  simp [hnil]
  ac_rfl

/-- **Four octets at once**, and what follows them. -/
theorem register_slice (c : UInt32) (b : Fin 4 → UInt8) (d : Bytes) :
    register poly c (b 0 :: b 1 :: b 2 :: b 3 :: d)
      = table poly (d.length + 3) (octet (word b ^^^ c) 0)
        ^^^ table poly (d.length + 2) (octet (word b ^^^ c) 1)
        ^^^ table poly (d.length + 1) (octet (word b ^^^ c) 2)
        ^^^ table poly d.length (octet (word b ^^^ c) 3) ^^^ register poly 0 d := by
  have htable : ∀ k x y, table poly k (x ^^^ y) = table poly k x ^^^ table poly k y := by
    intro k x y
    rw [table, UInt8.toUInt32_xor, bits_xor]
    rfl
  rw [register_eq, register_cons, register_cons, register_cons, register_cons]
  conv_lhs => rw [← word_octet c]
  simp only [List.length_cons, Nat.add_assoc, Nat.reduceAdd, bits_word_add, octet_xor, octet_word,
    htable]
  ac_rfl

/-- One octet, by the table of single octets. -/
theorem step_table (c : UInt32) (b : UInt8) :
    step poly c b = c >>> 8 ^^^ table poly 0 (octet c 0 ^^^ b) := by
  have hshift : c >>> 8 = word ![octet c 1, octet c 2, octet c 3, 0] := by
    apply word_ext
    intro i
    rw [octet_word]
    apply UInt8.toBitVec_inj.mp
    unfold octet
    ext j hj
    fin_cases i <;> simp [BitVec.getElem_extractLsb', ← Nat.add_assoc]
  conv_lhs => rw [step_eq, ← word_octet c, bits_word, ← hshift]
  rw [UInt32.xor_assoc, table, table, UInt8.toUInt32_xor, bits_xor]

/-! ## Linear maps as lists of words -/

/-- The sum of the words of a list that the bits of `v` pick, the lowest first. -/
def pick : List UInt32 → UInt32 → UInt32
  | [], _ => 0
  | x :: l, v => (if v &&& 1 = 1 then x else 0) ^^^ pick l (v >>> 1)

/-- The values of a map on the single bits, the lowest first. -/
def columns (f : UInt32 → UInt32) : List UInt32 :=
  (List.range 32).map fun i => f ⟨BitVec.twoPow 32 i⟩

@[simp] theorem pick_zero (l : List UInt32) : pick l 0 = 0 := by
  induction l with
  | nil => rfl
  | cons x l ih =>
      rw [pick, show (0 : UInt32) >>> 1 = 0 from rfl, ih, if_neg (by decide), UInt32.xor_zero]

theorem shiftLeft_eq_xor (v : UInt32) {i : Nat} (hi : i < 32) :
    v.toBitVec <<< i = (v >>> 1).toBitVec <<< (i + 1)
      ^^^ (if v &&& 1 = 1 then BitVec.twoPow 32 i else 0) := by
  have hlow : (if v &&& 1 = 1 then BitVec.twoPow 32 i else 0)
      = if v.toBitVec.getLsbD 0 = true then BitVec.twoPow 32 i else 0 := by
    simp only [and_one_iff]
  rw [hlow]
  apply BitVec.eq_of_getLsbD_eq
  intro j hj
  have hshift : (v >>> 1).toBitVec = v.toBitVec >>> 1 := rfl
  rw [hshift, BitVec.getLsbD_xor, BitVec.getLsbD_shiftLeft, BitVec.getLsbD_shiftLeft,
    BitVec.getLsbD_ushiftRight]
  have hpow : (if v.toBitVec.getLsbD 0 = true then BitVec.twoPow 32 i else 0).getLsbD j
      = (v.toBitVec.getLsbD 0 && decide (i = j)) := by
    cases v.toBitVec.getLsbD 0
    · rw [if_neg Bool.false_ne_true, Bool.false_and]
      exact BitVec.getLsbD_zero
    · rw [if_pos rfl, Bool.true_and, BitVec.getLsbD_twoPow, decide_eq_true hi, Bool.true_and]
  rw [hpow]
  rcases lt_trichotomy j i with h | h | h
  · simp [h, h.ne', Nat.lt_succ_of_lt h]
  · simp [h, hi]
  · simp [hj, h.ne, Nat.not_lt_of_lt h, show 1 + (j - (i + 1)) = j - i by omega,
      show ¬ j < i + 1 by omega]

/-- A linear map is the list of its values on single bits. -/
theorem pick_columns {f : UInt32 → UInt32} (hf : ∀ a b, f (a ^^^ b) = f a ^^^ f b) (v : UInt32) :
    pick (columns f) v = f v := by
  have hzero : f 0 = 0 := by
    have h := hf 0 0
    rwa [UInt32.xor_self, UInt32.xor_self] at h
  have hrun : ∀ n i v, i + n = 32 → pick ((List.range' i n).map fun j => f ⟨BitVec.twoPow 32 j⟩) v
      = f ⟨v.toBitVec <<< i⟩ := by
    intro n
    induction n with
    | zero =>
        intro i v hi
        have hout : v.toBitVec <<< i = 0 := BitVec.shiftLeft_eq_zero (by omega)
        rw [hout]
        exact hzero.symm
    | succ n ih =>
        intro i v hi
        have hsplit : (⟨v.toBitVec <<< i⟩ : UInt32)
            = (if v &&& 1 = 1 then ⟨BitVec.twoPow 32 i⟩ else 0)
              ^^^ ⟨(v >>> 1).toBitVec <<< (i + 1)⟩ := by
          rw [shiftLeft_eq_xor v (by omega), UInt32.xor_comm]
          split <;> rfl
        rw [hsplit, hf, List.range'_succ, List.map_cons, pick, ih (i + 1) _ (by omega)]
        split
        · rfl
        · rw [hzero]
  have h := hrun 32 0 v rfl
  rwa [List.range_eq_range'.symm, BitVec.shiftLeft_zero] at h

/-! ## Powers of `x` -/

/-- The polynomial 1: the top bit is the term without `x`. -/
def one : UInt32 := 0x80000000

/-- A bit that is not the lowest is shifted. -/
theorem bit_twoPow {i : Nat} (hi : i + 1 < 32) :
    bit poly ⟨BitVec.twoPow 32 (i + 1)⟩ = ⟨BitVec.twoPow 32 i⟩ := by
  have heven : (BitVec.twoPow 32 (i + 1)).getLsbD 0 = false := by
    simp
  rw [bit, if_neg (by rw [and_one_iff, heven]; exact Bool.false_ne_true), UInt32.xor_zero]
  apply UInt32.toBitVec_inj.mp
  apply BitVec.eq_of_getLsbD_eq
  intro j _
  change (BitVec.twoPow 32 (i + 1) >>> 1).getLsbD j = _
  rw [BitVec.getLsbD_ushiftRight, BitVec.getLsbD_twoPow, BitVec.getLsbD_twoPow]
  simp [hi, Nat.lt_of_succ_lt hi, Nat.add_comm 1 j]

/-- The first 32 powers of `x` are single bits. -/
theorem bits_one {n : Nat} (hn : n < 32) : bits poly n one = ⟨BitVec.twoPow 32 (31 - n)⟩ := by
  induction n with
  | zero => rfl
  | succ n ih =>
      have hplace : 31 - n = 31 - (n + 1) + 1 := by omega
      rw [Nat.add_comm, bits_add, ih (by omega), hplace, bits, Function.iterate_one,
        bit_twoPow poly (by omega), Nat.add_comm]

/-- The product of two polynomials: the multiples of `a` that the bits of `b`
pick. -/
def multiply (a b : UInt32) : UInt32 := pick (List.iterate (bit poly) a 32).reverse b

theorem multiply_bits_one (n : Nat) (v : UInt32) :
    multiply poly (bits poly n one) v = bits poly n v := by
  have hcolumns : (List.iterate (bit poly) (bits poly n one) 32).reverse
      = columns (bits poly n) := by
    refine List.ext_getElem (by simp [columns]) fun i hi hi' => ?_
    have hlen : i < 32 := by simpa [columns] using hi'
    have hcomm : bits poly (31 - i) (bits poly n one) = bits poly n (bits poly (31 - i) one) := by
      rw [← bits_add, ← bits_add, Nat.add_comm]
    have hback : 31 - (31 - i) = i := by omega
    rw [bits_one poly (by omega : 31 - i < 32), hback] at hcomm
    rw [List.getElem_reverse, List.getElem_iterate]
    simp only [List.length_iterate, columns, List.getElem_map, List.getElem_range]
    exact hcomm
  rw [multiply, hcolumns, pick_columns (bits_xor poly n)]

/-- The power `n` of `x`, by squaring. -/
def power (n : Nat) : UInt32 :=
  if n = 0 then one
  else
    let half := power (n / 2)
    let square := multiply poly half half
    if n % 2 = 1 then bit poly square else square
termination_by n
decreasing_by omega

theorem power_eq (n : Nat) : power poly n = bits poly n one := by
  fun_induction power poly n with
  | case1 => rfl
  | case2 n hn half square hodd ih =>
      have hn : n = 1 + (n / 2 + n / 2) := by omega
      have hsquare : square = bits poly (n / 2 + n / 2) one := by
        change multiply poly (power poly (n / 2)) (power poly (n / 2)) = _
        rw [ih, multiply_bits_one, ← bits_add]
      rw [hsquare]
      conv_rhs => rw [hn, bits_add]
      rfl
  | case3 n hn half square hodd ih =>
      have hn : n / 2 + n / 2 = n := by omega
      change multiply poly (power poly (n / 2)) (power poly (n / 2)) = _
      rw [ih, multiply_bits_one, ← bits_add, hn]

/-! ## Bits -/

/-- The bits of an octet, the lowest first. -/
def octetBits (b : UInt8) : List Bool := (List.range 8).map fun i => b.toBitVec.getLsbD i

/-- The bits of a message in the order in which they are shifted in. -/
def messageBits (d : Bytes) : List Bool := d.flatMap octetBits

/-- One bit of a message. -/
def bitIn (c : UInt32) (β : Bool) : UInt32 := bit poly (c ^^^ if β then 1 else 0)

/-- Bits of a message. -/
def registerBits (c : UInt32) (l : List Bool) : UInt32 := l.foldl (bitIn poly) c

/-- At most 32 bits as a number, the first one lowest. -/
def number : List Bool → UInt32
  | [] => 0
  | β :: l => number l <<< 1 ^^^ if β then 1 else 0

theorem getLsbD_number {l : List Bool} (hl : l.length ≤ 32) (i : Nat) :
    (number l).toBitVec.getLsbD i = l.getD i false := by
  induction l generalizing i with
  | nil => simp [number]
  | cons β l ih =>
      have hβ : (if β then 1 else 0 : UInt32).toBitVec = (BitVec.ofBool β).setWidth 32 := by
        cases β <;> rfl
      have hshift : (number l <<< 1).toBitVec = (number l).toBitVec <<< 1 := rfl
      have hl : l.length + 1 ≤ 32 := hl
      rw [number, UInt32.toBitVec_xor, hβ, hshift, BitVec.getLsbD_xor, BitVec.getLsbD_shiftLeft,
        BitVec.getLsbD_setWidth, BitVec.getLsbD_ofBool]
      cases i with
      | zero => simp
      | succ i =>
          rw [Nat.add_sub_cancel, ih (by omega), List.getD_cons_succ]
          by_cases hi : i + 1 < 32
          · simp [hi]
          · rw [List.getD_eq_default _ _ (by omega : l.length ≤ i)]
            simp [hi]

theorem number_injective {l m : List Bool} (hlen : l.length = m.length) (hl : l.length ≤ 32)
    (h : number l = number m) : l = m := by
  refine List.ext_getElem hlen fun i hi hi' => ?_
  have hget := getLsbD_number hl i
  rw [h, getLsbD_number (hlen ▸ hl), List.getD_eq_getElem _ _ hi, List.getD_eq_getElem _ _ hi']
    at hget
  exact hget.symm

theorem registerBits_append (c : UInt32) (l m : List Bool) :
    registerBits poly c (l ++ m) = registerBits poly (registerBits poly c l) m :=
  List.foldl_append

/-- At most 32 bits are shifted in as one number. -/
theorem registerBits_eq {l : List Bool} (hl : l.length ≤ 32) (c : UInt32) :
    registerBits poly c l = bits poly l.length (c ^^^ number l) := by
  induction l generalizing c with
  | nil => simp [registerBits, number, bits]
  | cons β l ih =>
      have hl : l.length + 1 ≤ 32 := hl
      -- The bits of `l` come one place later.
      have hlow : bit poly (number l <<< 1) = number l := by
        have heven : (number l <<< 1).toBitVec.getLsbD 0 = false := by
          change ((number l).toBitVec <<< 1).getLsbD 0 = false
          simp
        rw [bit, if_neg (by rw [and_one_iff, heven]; exact Bool.false_ne_true), UInt32.xor_zero]
        apply UInt32.toBitVec_inj.mp
        apply BitVec.eq_of_getLsbD_eq
        intro i hi
        change (((number l).toBitVec <<< 1) >>> 1).getLsbD i = _
        rw [BitVec.getLsbD_ushiftRight, BitVec.getLsbD_shiftLeft, Nat.add_comm,
          Nat.add_sub_cancel, getLsbD_number (by omega)]
        by_cases hi' : i + 1 < 32
        · simp [hi']
        · rw [List.getD_eq_default _ _ (by omega : l.length ≤ i)]
          simp [hi']
      have hcons : registerBits poly c (β :: l) = registerBits poly (bitIn poly c β) l := rfl
      rw [hcons, ih (by omega), List.length_cons, bits_succ, number, ← UInt32.xor_assoc,
        UInt32.xor_comm c, UInt32.xor_assoc, bit_xor, hlow, UInt32.xor_comm (number l)]
      rfl

theorem number_octetBits (b : UInt8) : number (octetBits b) = b.toUInt32 := by
  apply UInt32.toBitVec_inj.mp
  apply BitVec.eq_of_getLsbD_eq
  intro i _
  rw [getLsbD_number (by simp [octetBits]), UInt8.toBitVec_toUInt32, BitVec.getLsbD_setWidth]
  by_cases hi : i < 8
  · simp [octetBits, List.getD_eq_getElem?_getD, hi]
    omega
  · rw [List.getD_eq_default _ _ (by simp [octetBits]; omega),
      BitVec.getLsbD_of_ge _ _ (by omega), Bool.and_false]

/-- Octets are shifted in from their lowest bit. -/
theorem registerBits_octets (c : UInt32) (d : Bytes) :
    registerBits poly c (messageBits d) = register poly c d := by
  induction d generalizing c with
  | nil => rfl
  | cons b d ih =>
      have hfirst : registerBits poly c (octetBits b) = step poly c b := by
        rw [registerBits_eq poly (by simp [octetBits]), number_octetBits]
        rfl
      rw [messageBits, List.flatMap_cons, registerBits_append, hfirst]
      exact ih _

/-! ## Errors -/

section Errors

variable {poly}

/-- With the top bit set the polynomial has a constant term, and nothing is
forgotten. -/
theorem bit_injective (hpoly : poly.toBitVec.msb = true) : Function.Injective (bit poly) := by
  have hker : ∀ z, bit poly z = 0 → z = 0 := by
    intro z hz
    have htop : (z >>> 1).toBitVec.getLsbD 31 = false := by
      change (z.toBitVec >>> 1).getLsbD 31 = false
      simp
    have hodd : z.toBitVec.getLsbD 0 = false := by
      by_contra hodd
      rw [bit, if_pos ((and_one_iff z).mpr (by simpa using hodd))] at hz
      have hmsb := congrArg (fun w => w.toBitVec.getLsbD 31) hz
      rw [BitVec.msb_eq_getLsbD_last] at hpoly
      simp only [UInt32.toBitVec_xor, BitVec.getLsbD_xor, htop] at hmsb
      rw [show (31 : Nat) = 32 - 1 from rfl, hpoly] at hmsb
      exact absurd hmsb (by decide)
    rw [bit, if_neg (by rw [and_one_iff, hodd]; exact Bool.false_ne_true), UInt32.xor_zero] at hz
    apply UInt32.toBitVec_inj.mp
    apply BitVec.eq_of_getLsbD_eq
    intro i _
    cases i with
    | zero => exact hodd
    | succ i =>
        have hbit := congrArg (fun w => w.toBitVec.getLsbD i) hz
        change (z.toBitVec >>> 1).getLsbD i = _ at hbit
        rw [BitVec.getLsbD_ushiftRight, Nat.add_comm] at hbit
        rw [hbit]
        simp
  intro x y hxy
  have hz := hker (x ^^^ y) (by rw [bit_xor, hxy, UInt32.xor_self])
  rwa [UInt32.xor_eq_zero_iff] at hz

theorem bits_injective (hpoly : poly.toBitVec.msb = true) (n : Nat) :
    Function.Injective (bits poly n) := (bit_injective hpoly).iterate n

theorem registerBits_injective (hpoly : poly.toBitVec.msb = true) (l : List Bool) :
    Function.Injective fun c => registerBits poly c l := by
  induction l with
  | nil => exact fun _ _ h => h
  | cons β l ih =>
      intro c c' h
      have hbit := bit_injective hpoly (ih h)
      exact (UInt32.xor_left_inj _).mp hbit

/-- **Bursts**: two messages whose bits differ, all of them in a stretch of at
most 32 bits, leave different registers. -/
theorem register_ne_of_burst (hpoly : poly.toBitVec.msb = true) {d e : Bytes}
    {before x y after : List Bool} (hd : messageBits d = before ++ x ++ after)
    (he : messageBits e = before ++ y ++ after) (hlen : x.length = y.length)
    (hx : x.length ≤ 32) (hne : x ≠ y) (c : UInt32) :
    register poly c d ≠ register poly c e := by
  rw [← registerBits_octets, ← registerBits_octets, hd, he]
  simp only [registerBits_append]
  intro h
  have hmiddle := registerBits_injective hpoly after h
  generalize registerBits poly c before = r at hmiddle
  have hy : y.length ≤ 32 := hlen ▸ hx
  rw [registerBits_eq poly hx, registerBits_eq poly hy, hlen] at hmiddle
  have hnumber := bits_injective hpoly _ hmiddle
  exact hne (number_injective hlen hx ((UInt32.xor_right_inj _).mp hnumber))

/-- The powers of `x` before the order `order` are not 1: a shorter period
would divide the order by one of its primes. -/
theorem bits_ne_one {order : Nat} (horder : power poly order = one)
    (hprime : ∀ q, q.Prime → q ∣ order → power poly (order / q) ≠ one) {n : Nat} (hn : 0 < n)
    (hlt : n < order) : bits poly n one ≠ one := by
  simp only [power_eq] at horder hprime
  have hperiod : Function.minimalPeriod (bit poly) one ∣ order :=
    Function.IsPeriodicPt.minimalPeriod_dvd horder
  obtain ⟨k, hk⟩ := hperiod
  by_cases hone : k = 1
  · rw [hone, Nat.mul_one] at hk
    exact Function.not_isPeriodicPt_of_pos_of_lt_minimalPeriod hn.ne' (hk ▸ hlt)
  · have hfactor := Nat.minFac_prime hone
    obtain ⟨l, hl⟩ := Nat.minFac_dvd k
    have hsplit : order = Function.minimalPeriod (bit poly) one * l * k.minFac := by
      rw [hk, Nat.mul_assoc, Nat.mul_comm l, ← hl]
    have hquotient : order / k.minFac = Function.minimalPeriod (bit poly) one * l := by
      rw [hsplit, Nat.mul_div_cancel _ hfactor.pos]
    refine absurd ?_ (hprime _ hfactor (hsplit ▸ Nat.dvd_mul_left ..))
    rw [hquotient]
    exact Function.isPeriodicPt_iff_minimalPeriod_dvd.mpr (Nat.dvd_mul_right ..)

/-- A difference is shifted along with the register. -/
theorem registerBits_xor (x y : UInt32) (l : List Bool) :
    registerBits poly (x ^^^ y) l = registerBits poly x l ^^^ bits poly l.length y := by
  induction l generalizing x y with
  | nil => rfl
  | cons β l ih =>
      have hfirst : bitIn poly (x ^^^ y) β = bitIn poly x β ^^^ bit poly y := by
        rw [bitIn, bitIn, ← bit_xor]
        congr 1
        ac_rfl
      have hcons : ∀ c, registerBits poly c (β :: l) = registerBits poly (bitIn poly c β) l :=
        fun c => rfl
      rw [hcons, hfirst, ih, hcons, List.length_cons, bits_succ]

theorem bitIn_not (c : UInt32) (β : Bool) : bitIn poly c (!β) = bitIn poly (c ^^^ 1) β := by
  unfold bitIn
  cases β with
  | false => simp
  | true =>
      have hback : c ^^^ 1 ^^^ 1 = c := by
        rw [UInt32.xor_assoc, UInt32.xor_self, UInt32.xor_zero]
      simp [hback]

/-- **Two bits**: two messages that differ in two bits, closer than the order of
`x`, leave different registers. -/
theorem register_ne_of_two (hpoly : poly.toBitVec.msb = true) {order : Nat}
    (horder : ∀ n, 0 < n → n < order → bits poly n one ≠ one) {d e : Bytes}
    {before between after : List Bool} {a b : Bool}
    (hd : messageBits d = before ++ a :: between ++ b :: after)
    (he : messageBits e = before ++ (!a) :: between ++ (!b) :: after)
    (hnear : between.length + 1 < order) (c : UInt32) :
    register poly c d ≠ register poly c e := by
  have hcons : ∀ c β l, registerBits poly c (β :: l) = registerBits poly (bitIn poly c β) l :=
    fun c β l => rfl
  have htwoBits : ∀ β β', registerBits poly c (before ++ β :: between ++ β' :: after)
      = registerBits poly (bitIn poly (registerBits poly
        (bitIn poly (registerBits poly c before) β) between) β') after := by
    intro β β'
    rw [registerBits_append, registerBits_append, hcons, hcons]
  rw [← registerBits_octets, ← registerBits_octets, hd, he, htwoBits, htwoBits]
  intro h
  have hsecond := registerBits_injective hpoly after h
  generalize registerBits poly c before = r at hsecond
  -- The first flip has become `bits (between.length + 1) 1` when the second comes.
  have hfirst : registerBits poly (bitIn poly r (!a)) between
      = registerBits poly (bitIn poly r a) between ^^^ bits poly (between.length + 1) 1 := by
    have hflip : bitIn poly r (!a) = bitIn poly r a ^^^ bit poly 1 := by
      rw [bitIn_not, bitIn, bitIn, ← bit_xor]
      congr 1
      ac_rfl
    rw [hflip, registerBits_xor, bits_succ]
  rw [bitIn_not, hfirst] at hsecond
  generalize registerBits poly (bitIn poly r a) between = u at hsecond
  have hcancel := (UInt32.xor_left_inj _).mp (bit_injective hpoly hsecond)
  rw [UInt32.xor_assoc] at hcancel
  have hback : bits poly (between.length + 1) 1 ^^^ 1 = 0 := by
    rw [← UInt32.xor_right_inj u, ← hcancel, UInt32.xor_zero]
  have hfixed := UInt32.xor_eq_zero_iff.mp hback
  have hlast : (1 : UInt32) = bits poly 31 one := (bits_one poly (by decide : 31 < 32)).symm
  rw [hlast, ← bits_add, Nat.add_comm, bits_add] at hfixed
  exact horder _ (Nat.succ_pos _) hnear (bits_injective hpoly 31 hfixed)

end Errors

end Fecraw.Verified.Crc
