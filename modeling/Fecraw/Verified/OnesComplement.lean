import Fecraw.Verified.Bytes

/-!
# The checksum by one's complement sums

Octets are added as 16-bit words in the byte order of a little-endian machine,
and the carries are folded back into the lower 16 bits.  The checksum is the
complement of the sum.  It is stored in the data it is computed over, in a field
that held 0 before, and then the checksum of the whole is 0.

## Main results

* `wordSum_append`: sums of parts add up where the first part has even length.
* `fold16_eq`: what folding twice computes.
* `complement_sealed`: the checksum over sealed data is 0.
-/

namespace Fecraw.Verified

/-! ## Sums of words -/

/-- The sum of the words of a byte string; an odd octet at the end is a word with
a high octet of 0. -/
def wordSum : Bytes → Nat
  | [] => 0
  | [a] => a.toNat
  | a :: b :: rest => a.toNat + b.toNat * 2 ^ 8 + wordSum rest

/-- The octets of a word in memory. -/
def writeWord (n : Nat) : Bytes := [UInt8.ofNat n, UInt8.ofNat (n / 2 ^ 8)]

@[simp] theorem length_writeWord (n : Nat) : (writeWord n).length = 2 := rfl

theorem wordSum_writeWord (n : Nat) : wordSum (writeWord n) = n % 2 ^ 16 := by
  simp only [wordSum, writeWord, UInt8.toNat_ofNat']
  omega

/-- The words of the first part are words of the whole. -/
theorem wordSum_append {xs : Bytes} (ys : Bytes) (h : xs.length % 2 = 0) :
    wordSum (xs ++ ys) = wordSum xs + wordSum ys := by
  induction xs using wordSum.induct with
  | case1 => simp [wordSum]
  | case2 a => simp at h
  | case3 a b rest ih =>
      have hrest : rest.length % 2 = 0 := by
        simp only [List.length_cons] at h
        omega
      simp only [List.cons_append, wordSum]
      rw [ih hrest]
      omega

/-- A word for every two octets. -/
theorem wordSum_le (xs : Bytes) : wordSum xs ≤ (xs.length + 1) / 2 * (2 ^ 16 - 1) := by
  induction xs using wordSum.induct with
  | case1 => simp [wordSum]
  | case2 a =>
      have ha := a.toNat_lt
      simp only [wordSum, List.length_cons, List.length_nil]
      omega
  | case3 a b rest ih =>
      have ha := a.toNat_lt
      have hb := b.toNat_lt
      simp only [wordSum, List.length_cons]
      rw [show (rest.length + 1 + 1 + 1) / 2 = (rest.length + 1) / 2 + 1 by omega, Nat.succ_mul]
      omega

/-! ## Folding -/

/-- The carries of a sum are added to its lower 16 bits, twice. -/
def fold16 (sum : Nat) : Nat :=
  let sum := sum / 2 ^ 16 + sum % 2 ^ 16
  (sum + sum / 2 ^ 16) % 2 ^ 16

/-- The complement of the folded sum. -/
def complement16 (sum : Nat) : Nat := 2 ^ 16 - 1 - fold16 sum

/-- Folding keeps the remainder by `2 ^ 16 - 1`, of which it takes the greatest
representative, unless the sum is 0. -/
theorem fold16_eq {sum : Nat} (h : sum < 2 ^ 32) :
    fold16 sum = if sum = 0 then 0 else (sum - 1) % (2 ^ 16 - 1) + 1 := by
  unfold fold16
  dsimp only
  split
  · omega
  · -- a unit of the upper part counts `2 ^ 16`, which is 1 modulo `2 ^ 16 - 1`
    have hpos : 0 < sum / 2 ^ 16 + sum % 2 ^ 16 := by omega
    have hle : sum / 2 ^ 16 + sum % 2 ^ 16 ≤ 2 ^ 17 - 2 := by omega
    have hmod : (sum - 1) % (2 ^ 16 - 1) =
        (sum / 2 ^ 16 + sum % 2 ^ 16 - 1) % (2 ^ 16 - 1) := by
      rw [show sum - 1 = (2 ^ 16 - 1) * (sum / 2 ^ 16) + (sum / 2 ^ 16 + sum % 2 ^ 16 - 1) by omega,
        Nat.mul_add_mod]
    rw [hmod]
    clear hmod h
    generalize sum / 2 ^ 16 + sum % 2 ^ 16 = s at hpos hle
    rcases Nat.lt_or_ge s (2 ^ 16) with hs | hs
    · rw [Nat.div_eq_of_lt hs, Nat.add_zero, Nat.mod_eq_of_lt hs, Nat.mod_eq_of_lt (by omega)]
      omega
    · rw [show s / 2 ^ 16 = 1 by omega, Nat.mod_eq_sub_mod (by omega : 2 ^ 16 ≤ s + 1),
        Nat.mod_eq_of_lt (by omega), Nat.mod_eq_sub_mod (by omega), Nat.mod_eq_of_lt (by omega)]
      omega

theorem complement16_lt (sum : Nat) : complement16 sum < 2 ^ 16 := by
  unfold complement16
  omega

/-- A sum with its complement added is all ones. -/
theorem complement16_add_complement16 {sum : Nat} (h : sum < 2 ^ 32 - 2 ^ 16) :
    complement16 (sum + complement16 sum) = 0 := by
  have hlt := complement16_lt sum
  have hfold : fold16 (sum + complement16 sum) = 2 ^ 16 - 1 := by
    rw [fold16_eq (by omega)]
    unfold complement16
    rw [fold16_eq (by omega)]
    split <;> split <;> omega
  unfold complement16 at hfold ⊢
  omega

/-! ## Sealing -/

/-- The complement of the words of a byte string, on top of a sum. -/
def complement (sum : Nat) (bs : Bytes) : Nat := complement16 (sum + wordSum bs)

/-- A layout with a field for the checksum, at an even distance from its start. -/
def HasCheck (build : Nat → Bytes) : Prop :=
  ∃ before after, (∀ check, build check = before ++ (writeWord check ++ after)) ∧
    before.length % 2 = 0

/-- The field holds 0 while the checksum is computed. -/
def sealed (checksum : Bytes → Nat) (build : Nat → Bytes) : Bytes := build (checksum (build 0))

theorem length_sealed {build : Nat → Bytes} (h : HasCheck build) (checksum : Bytes → Nat) :
    (sealed checksum build).length = (build 0).length := by
  obtain ⟨before, after, hbuild, -⟩ := h
  unfold sealed
  rw [hbuild, hbuild]
  simp

/-- Sealed data has checksum 0, whatever the sum it is added to. -/
theorem complement_sealed {build : Nat → Bytes} {sum : Nat} (h : HasCheck build)
    (hsum : sum ≤ 2 ^ 29) (hlen : (build 0).length ≤ 2 ^ 16) :
    complement sum (sealed (complement sum) build) = 0 := by
  obtain ⟨before, after, hbuild, heven⟩ := h
  have hwords : ∀ check, check < 2 ^ 16 → wordSum (build check) = wordSum (build 0) + check := by
    intro check hcheck
    have hword : ∀ n, (writeWord n).length % 2 = 0 := fun n => by simp
    rw [hbuild, hbuild, wordSum_append _ heven, wordSum_append _ heven, wordSum_append _ (hword _),
      wordSum_append _ (hword _), wordSum_writeWord, wordSum_writeWord, Nat.mod_eq_of_lt hcheck]
    omega
  have hbound : sum + wordSum (build 0) < 2 ^ 32 - 2 ^ 16 := by
    have hle := wordSum_le (build 0)
    have hhalf : ((build 0).length + 1) / 2 * (2 ^ 16 - 1) ≤ 2 ^ 15 * (2 ^ 16 - 1) :=
      Nat.mul_le_mul_right _ (by omega)
    omega
  unfold sealed complement
  rw [hwords _ (complement16_lt _), ← Nat.add_assoc]
  exact complement16_add_complement16 hbound

end Fecraw.Verified
