import Mathlib.Tactic

/-!
# Octets as polynomials and words as octets

An octet is a polynomial over the field with two elements; multiplying it by
`x` modulo a polynomial of degree 8 is a shift and a conditional XOR.  A
32-bit word is four octets, the least significant first.

## Main results

* `shiftReduce_xor`: multiplication by `x` is linear.
* `octet_word`, `word_octet`: words are quadruples of octets.
* `octet_xor`: XOR works octet by octet.
* `word_eq_or`, `octet_eq_shiftRight`, `and_shiftRight`: the same by shifts and
  masks.
-/

namespace Fecraw.Verified

/-! ## Multiplication by `x` -/

/-- Shifting out the top bit, which stands for the lower terms `poly`. -/
def shiftReduce (poly x : UInt8) : UInt8 := (x <<< 1) ^^^ (if 128 ≤ x then poly else 0)

theorem le_iff_msb (x : UInt8) : 128 ≤ x ↔ x.toBitVec.msb = true := by
  rw [BitVec.msb_eq_decide, decide_eq_true_eq, UInt8.le_iff_toNat_le]
  rfl

theorem shiftLeft_xor (x y : UInt8) : (x ^^^ y) <<< 1 = x <<< 1 ^^^ y <<< 1 := by
  apply UInt8.toBitVec_inj.mp
  exact BitVec.shiftLeft_xor_distrib ..

theorem shiftReduce_xor (poly x y : UInt8) :
    shiftReduce poly (x ^^^ y) = shiftReduce poly x ^^^ shiftReduce poly y := by
  have hred : ∀ p q : Bool, (if (p ^^ q) = true then poly else 0)
      = (if p = true then poly else 0) ^^^ (if q = true then poly else 0) := by
    intro p q
    cases p <;> cases q <;> simp
  unfold shiftReduce
  simp only [le_iff_msb, UInt8.toBitVec_xor, BitVec.msb_xor, hred, shiftLeft_xor]
  ac_rfl

/-! ## Words -/

/-- The places of a word are counted modulo four. -/
instance neZero_four : NeZero 4 := ⟨by decide⟩

/-- Octet `i` of a word. -/
def octet (w : UInt32) (i : Fin 4) : UInt8 := ⟨w.toBitVec.extractLsb' (8 * i.val) 8⟩

/-- The word of four octets. -/
def word (b : Fin 4 → UInt8) : UInt32 :=
  ⟨(b 3).toBitVec ++ (b 2).toBitVec ++ (b 1).toBitVec ++ (b 0).toBitVec⟩

theorem octet_xor (a b : UInt32) (i : Fin 4) : octet (a ^^^ b) i = octet a i ^^^ octet b i := by
  apply UInt8.toBitVec_inj.mp
  exact BitVec.extractLsb'_xor ..

theorem octet_word (b : Fin 4 → UInt8) (i : Fin 4) : octet (word b) i = b i := by
  apply UInt8.toBitVec_inj.mp
  unfold octet word
  ext j hj
  fin_cases i <;> simp [BitVec.getElem_extractLsb'] <;> grind

theorem word_octet (w : UInt32) : word (octet w) = w := by
  apply UInt32.toBitVec_inj.mp
  unfold octet word
  ext j hj
  simp
  grind

/-- Words are equal octet by octet. -/
theorem word_ext {a b : UInt32} (h : ∀ i, octet a i = octet b i) : a = b := by
  rw [← word_octet a, ← word_octet b, funext h]

/-- A word put together by shifts. -/
theorem word_eq_or (b : Fin 4 → UInt8) :
    (b 0).toUInt32 ||| (b 1).toUInt32 <<< 8 ||| (b 2).toUInt32 <<< 16 ||| (b 3).toUInt32 <<< 24
      = word b := by
  apply UInt32.toBitVec_inj.mp
  unfold word
  ext j hj
  simp
  grind

/-- The same with XOR, as the shifted octets do not overlap. -/
theorem word_eq_xor (b : Fin 4 → UInt8) :
    (b 0).toUInt32 ^^^ (b 1).toUInt32 <<< 8 ^^^ (b 2).toUInt32 <<< 16 ^^^ (b 3).toUInt32 <<< 24
      = word b := by
  apply UInt32.toBitVec_inj.mp
  unfold word
  ext j hj
  simp
  grind

/-- An octet taken out by a shift and a truncation. -/
theorem octet_eq_shiftRight (w : UInt32) (i : Fin 4) :
    (w >>> UInt32.ofNat (8 * i.val)).toUInt8 = octet w i := by
  apply UInt8.toBitVec_inj.mp
  unfold octet
  ext j hj
  fin_cases i <;> simp [BitVec.getElem_extractLsb']

/-- An octet taken out by a shift and a mask, as an index. -/
theorem and_shiftRight (w : UInt32) (i : Fin 4) :
    ((w >>> UInt32.ofNat (8 * i.val)) &&& 0xFF).toNat = (octet w i).toNat := by
  have hmask : ∀ n : Nat, n &&& 255 = n % 256 := fun n => Nat.and_two_pow_sub_one_eq_mod n 8
  rw [← octet_eq_shiftRight]
  fin_cases i <;> simp [hmask]

/-- Rotating a word by one octet. -/
def rotateOctets (w : UInt32) : UInt32 := (w <<< 8) ||| (w >>> 24)

theorem octet_rotateOctets (w : UInt32) (i : Fin 4) :
    octet (rotateOctets w) i = octet w (i - 1) := by
  apply UInt8.toBitVec_inj.mp
  unfold octet rotateOctets
  ext j hj
  fin_cases i <;> simp [BitVec.getElem_extractLsb'] <;> grind

end Fecraw.Verified
