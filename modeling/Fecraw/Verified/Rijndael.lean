import Fecraw.Verified.Octet

/-!
# Substitution and permutation ciphers on four by four octets

The cipher of this module is the one Rijndael is an instance of.  Its state
is four columns of four octets.  A round substitutes each octet, moves row `r`
by `r` columns, multiplies each column by a matrix over the octets as
polynomials, and adds the round key; the last round does not mix.  The
substitution, the number of rounds and the round keys are parameters.

The equivalent inverse cipher runs through the round keys backwards, with the
inverse mixing applied to those of the inner rounds, so that each of its
rounds has the shape of a round of the cipher.

## Main results

* `invMixColumn_mixColumn`: mixing is undone.
* `invCipher_cipher`: the equivalent inverse cipher undoes the cipher, for any
  invertible substitution and any round keys.
-/

namespace Fecraw.Verified

/-! ## Mixing a column -/

/-- Multiplication by `x` modulo `1 + x + x^3 + x^4 + x^8`. -/
def xtime (a : UInt8) : UInt8 := shiftReduce 0x1B a

theorem xtime_xor (a b : UInt8) : xtime (a ^^^ b) = xtime a ^^^ xtime b := shiftReduce_xor ..

theorem xtime_zero : xtime 0 = 0 := by rfl

/-- Multiplication by 9, 11, 13 and 14. -/
def times9 (a : UInt8) : UInt8 := xtime (xtime (xtime a)) ^^^ a
def times11 (a : UInt8) : UInt8 := xtime (xtime (xtime a)) ^^^ xtime a ^^^ a
def times13 (a : UInt8) : UInt8 := xtime (xtime (xtime a)) ^^^ xtime (xtime a) ^^^ a
def times14 (a : UInt8) : UInt8 := xtime (xtime (xtime a)) ^^^ xtime (xtime a) ^^^ xtime a

/-- The column times the circulant matrix of 2, 3, 1, 1. -/
def mixColumn (c : Fin 4 → UInt8) : Fin 4 → UInt8 := fun i =>
  xtime (c i) ^^^ (xtime (c (i + 1)) ^^^ c (i + 1)) ^^^ c (i + 2) ^^^ c (i + 3)

/-- The column times the circulant matrix of 14, 11, 13, 9. -/
def invMixColumn (c : Fin 4 → UInt8) : Fin 4 → UInt8 := fun i =>
  times14 (c i) ^^^ times11 (c (i + 1)) ^^^ times13 (c (i + 2)) ^^^ times9 (c (i + 3))

section Mixing

variable (c d : Fin 4 → UInt8) (i : Fin 4)

theorem xor_left_comm (x y z : UInt8) : x ^^^ (y ^^^ z) = y ^^^ (x ^^^ z) := by
  rw [← UInt8.xor_assoc, UInt8.xor_comm x y, UInt8.xor_assoc]

theorem xor_cancel_left (x y : UInt8) : x ^^^ (x ^^^ y) = y := by
  rw [← UInt8.xor_assoc, UInt8.xor_self, UInt8.zero_xor]

/-- The inverse mixing is linear. -/
theorem invMixColumn_xor :
    invMixColumn (fun j => c j ^^^ d j) i = invMixColumn c i ^^^ invMixColumn d i := by
  unfold invMixColumn times14 times11 times13 times9
  simp only [xtime_xor]
  ac_rfl

theorem mixColumn_xor :
    mixColumn (fun j => c j ^^^ d j) i = mixColumn c i ^^^ mixColumn d i := by
  unfold mixColumn
  simp only [xtime_xor]
  ac_rfl

/-- The column with `x` in row `r` and zeros elsewhere. -/
def single (r : Fin 4) (x : UInt8) : Fin 4 → UInt8 := fun j => if j = r then x else 0

/-- A column is the sum of its octets, each alone in its row. -/
theorem sum_singles {mix : (Fin 4 → UInt8) → Fin 4 → UInt8}
    (hmix : ∀ c d i, mix (fun j => c j ^^^ d j) i = mix c i ^^^ mix d i) :
    mix (single 0 (c 0)) i ^^^ mix (single 1 (c 1)) i ^^^ mix (single 2 (c 2)) i
      ^^^ mix (single 3 (c 3)) i = mix c i := by
  have hsum : (fun j => ((single 0 (c 0) j ^^^ single 1 (c 1) j) ^^^ single 2 (c 2) j)
      ^^^ single 3 (c 3) j) = c := by
    funext j
    fin_cases j <;> simp [single]
  rw [← hmix, ← hmix, ← hmix, hsum]

/-- Mixing commutes with moving a column down. -/
theorem mixColumn_sub (r : Fin 4) :
    mixColumn (fun j => c (j - r)) i = mixColumn c (i - r) := by
  unfold mixColumn
  simp only [sub_add_eq_add_sub]

theorem invMixColumn_sub (r : Fin 4) :
    invMixColumn (fun j => c (j - r)) i = invMixColumn c (i - r) := by
  unfold invMixColumn
  simp only [sub_add_eq_add_sub]

theorem single_sub (r : Fin 4) (x : UInt8) :
    (fun j => single 0 x (j - r)) = single r x := by
  funext j
  simp only [single, sub_eq_zero]

theorem mixColumn_single (x : UInt8) :
    mixColumn (single 0 x) = ![xtime x, x, x, xtime x ^^^ x] := by
  funext j
  fin_cases j <;> simp [mixColumn, single, xtime_zero]

theorem invMixColumn_single (x : UInt8) :
    invMixColumn (single 0 x) = ![times14 x, times9 x, times13 x, times11 x] := by
  funext j
  fin_cases j <;> simp [invMixColumn, times9, times11, times13, times14, single,
    xtime_zero]

/-- Mixing twice. -/
def mixTwice (c : Fin 4 → UInt8) : Fin 4 → UInt8 := fun i =>
  xtime (xtime (c i)) ^^^ c i ^^^ xtime (xtime (c (i + 2)))

private theorem add_one_one : i + 1 + 1 = i + 2 := by rw [add_assoc]; rfl
private theorem add_one_two : i + 1 + 2 = i + 3 := by rw [add_assoc]; rfl
private theorem add_one_three : i + 1 + 3 = i := by rw [add_assoc]; exact add_zero i
private theorem add_two_one : i + 2 + 1 = i + 3 := by rw [add_assoc]; rfl
private theorem add_two_two : i + 2 + 2 = i := by rw [add_assoc]; exact add_zero i
private theorem add_two_three : i + 2 + 3 = i + 1 := by rw [add_assoc]; rfl
private theorem add_three_one : i + 3 + 1 = i := by rw [add_assoc]; exact add_zero i
private theorem add_three_two : i + 3 + 2 = i + 1 := by rw [add_assoc]; rfl
private theorem add_three_three : i + 3 + 3 = i + 2 := by rw [add_assoc]; rfl

/-- In each of these sums every octet occurs an even number of times but those
that are left. -/
theorem mixColumn_mixColumn : mixColumn (mixColumn c) = mixTwice c := by
  funext i
  unfold mixColumn mixTwice
  simp only [xtime_xor, add_one_one, add_one_two, add_one_three, add_two_one, add_two_two,
    add_two_three, add_three_one, add_three_two, add_three_three]
  generalize c i = p0
  generalize c (i + 1) = q0
  generalize c (i + 2) = r0
  generalize c (i + 3) = s0
  generalize xtime p0 = p1
  generalize xtime q0 = q1
  generalize xtime r0 = r1
  generalize xtime s0 = s1
  generalize xtime p1 = p2
  generalize xtime q1 = q2
  generalize xtime r1 = r2
  generalize xtime s1 = s2
  simp only [UInt8.xor_comm, xor_left_comm, xor_cancel_left]

/-- The inverse mixing is mixing three times. -/
theorem invMixColumn_eq : invMixColumn c = mixTwice (mixColumn c) := by
  funext i
  unfold invMixColumn mixTwice mixColumn times14 times11 times13 times9
  simp only [xtime_xor, add_two_one, add_two_two, add_two_three]
  generalize c i = p0
  generalize c (i + 1) = q0
  generalize c (i + 2) = r0
  generalize c (i + 3) = s0
  generalize xtime p0 = p1
  generalize xtime q0 = q1
  generalize xtime r0 = r1
  generalize xtime s0 = s1
  generalize xtime p1 = p2
  generalize xtime q1 = q2
  generalize xtime r1 = r2
  generalize xtime s1 = s2
  generalize xtime p2 = p3
  generalize xtime q2 = q3
  generalize xtime r2 = r3
  generalize xtime s2 = s3
  simp only [UInt8.xor_comm, xor_left_comm, xor_cancel_left]

theorem mixTwice_mixTwice : mixTwice (mixTwice c) = c := by
  funext i
  unfold mixTwice
  simp only [xtime_xor, add_two_two]
  generalize c i = p0
  generalize c (i + 2) = r0
  generalize xtime p0 = p1
  generalize xtime r0 = r1
  generalize xtime p1 = p2
  generalize xtime r1 = r2
  generalize xtime p2 = p3
  generalize xtime r2 = r3
  generalize xtime p3 = p4
  generalize xtime r3 = r4
  simp only [UInt8.xor_comm, xor_left_comm, xor_cancel_left, UInt8.xor_self, UInt8.xor_zero]

/-- Mixing four times changes nothing. -/
theorem invMixColumn_mixColumn : invMixColumn (mixColumn c) = c := by
  rw [invMixColumn_eq, mixColumn_mixColumn, mixTwice_mixTwice]

end Mixing

/-! ## The cipher -/

/-- Four columns of four octets. -/
abbrev Block := Fin 4 → Fin 4 → UInt8

namespace Block

def subOctets (sub : UInt8 → UInt8) (st : Block) : Block := fun c r => sub (st c r)

/-- Row `r` moves by `r` columns. -/
def shiftRows (st : Block) : Block := fun c r => st (c + r) r

def invShiftRows (st : Block) : Block := fun c r => st (c - r) r

def mixColumns (st : Block) : Block := fun c => mixColumn (st c)

def invMixColumns (st : Block) : Block := fun c => invMixColumn (st c)

def addRoundKey (key st : Block) : Block := fun c r => key c r ^^^ st c r

/-- The shape of a round, of the cipher and of its equivalent inverse. -/
def round (sub : UInt8 → UInt8) (shift mix : Block → Block) (st key : Block) : Block :=
  addRoundKey key (mix (shift (subOctets sub st)))

/-- A first key, the inner rounds, and the last round, which does not mix. -/
def crypt (sub : UInt8 → UInt8) (shift mix : Block → Block) (first : Block) (inner : List Block)
    (last st : Block) : Block :=
  round sub shift id (inner.foldl (round sub shift mix) (addRoundKey first st)) last

/-- The cipher with the substitution `sub`. -/
def cipher (sub : UInt8 → UInt8) (first : Block) (inner : List Block) (last st : Block) : Block :=
  crypt sub shiftRows mixColumns first inner last st

/-- The equivalent inverse cipher with the substitution `inv`, given the keys
in the order of the cipher. -/
def invCipher (inv : UInt8 → UInt8) (first : Block) (inner : List Block) (last st : Block) :
    Block :=
  crypt inv invShiftRows invMixColumns last (inner.reverse.map invMixColumns) first st

variable {sub inv : UInt8 → UInt8}

theorem addRoundKey_addRoundKey (key st : Block) : addRoundKey key (addRoundKey key st) = st := by
  funext c r
  exact xor_cancel_left _ _

theorem invMixColumns_addRoundKey (key st : Block) :
    invMixColumns (addRoundKey key st)
      = addRoundKey (invMixColumns key) (invMixColumns st) := by
  funext c r
  exact invMixColumn_xor (key c) (st c) r

theorem invMixColumns_mixColumns (st : Block) : invMixColumns (mixColumns st) = st := by
  funext c
  exact invMixColumn_mixColumn (st c)

/-- Substituting and shifting are undone, in either order. -/
theorem invShiftRows_subOctets (hinv : ∀ x, inv (sub x) = x) (st : Block) :
    invShiftRows (subOctets inv (shiftRows (subOctets sub st))) = st := by
  funext c r
  unfold invShiftRows subOctets shiftRows
  rw [hinv, sub_add_cancel]

/-- A round of the inverse cipher, given a round of the cipher up to the key. -/
theorem invRound_round (hinv : ∀ x, inv (sub x) = x) (st key : Block) :
    round inv invShiftRows invMixColumns (shiftRows (subOctets sub (round sub shiftRows mixColumns
      st key))) (invMixColumns key) = shiftRows (subOctets sub st) := by
  unfold round
  rw [invShiftRows_subOctets hinv, invMixColumns_addRoundKey, addRoundKey_addRoundKey,
    invMixColumns_mixColumns]

/-- The inner rounds are undone from the last to the first. -/
theorem foldl_invRound (hinv : ∀ x, inv (sub x) = x) (inner : List Block) (st : Block) :
    (inner.reverse.map invMixColumns).foldl (round inv invShiftRows invMixColumns)
        (shiftRows (subOctets sub (inner.foldl (round sub shiftRows mixColumns) st)))
      = shiftRows (subOctets sub st) := by
  induction inner generalizing st with
  | nil => rfl
  | cons key inner ih =>
      rw [List.foldl_cons, List.reverse_cons, List.map_append, List.foldl_append, ih,
        List.map_cons, List.map_nil, List.foldl_cons, List.foldl_nil]
      exact invRound_round hinv st key

/-- **The equivalent inverse cipher undoes the cipher.** -/
theorem invCipher_cipher (hinv : ∀ x, inv (sub x) = x) (first : Block) (inner : List Block)
    (last st : Block) :
    invCipher inv first inner last (cipher sub first inner last st) = st := by
  unfold invCipher cipher crypt
  have hlast : addRoundKey last (round sub shiftRows id
      (inner.foldl (round sub shiftRows mixColumns) (addRoundKey first st)) last)
        = shiftRows (subOctets sub
          (inner.foldl (round sub shiftRows mixColumns) (addRoundKey first st))) :=
    addRoundKey_addRoundKey last _
  rw [hlast, foldl_invRound hinv]
  unfold round
  rw [id, invShiftRows_subOctets hinv, addRoundKey_addRoundKey]

end Block

/-! ## The key expansion -/

def subWord (sub : UInt8 → UInt8) (w : UInt32) : UInt32 := word fun r => sub (octet w r)

def rotWord (w : UInt32) : UInt32 := word fun r => octet w (r + 1)

/-- Word `i` of the expansion of a key of `nk` words. -/
def keyWord (sub : UInt8 → UInt8) (nk : Nat) (key : Nat → UInt32) (i : Nat) : UInt32 :=
  if i < nk ∨ nk = 0 then key i
  else
    keyWord sub nk key (i - nk) ^^^
      if i % nk = 0 then
        (xtime^[i / nk - 1] 1).toUInt32 ^^^ subWord sub (rotWord (keyWord sub nk key (i - 1)))
      else if 6 < nk ∧ i % nk = 4 then subWord sub (keyWord sub nk key (i - 1))
      else keyWord sub nk key (i - 1)
termination_by i
decreasing_by all_goals omega

/-- The key of round `k`: four words of the expansion. -/
def roundKey (w : Nat → UInt32) (k : Nat) : Block := fun c r => octet (w (4 * k + c.val)) r

/-- The cipher with a key of `nk` words: `nk + 6` rounds. -/
def rijndael (sub : UInt8 → UInt8) (nk : Nat) (key : Nat → UInt32) (st : Block) : Block :=
  let w := keyWord sub nk key
  Block.cipher sub (roundKey w 0) ((List.range (nk + 5)).map fun k => roundKey w (k + 1))
    (roundKey w (nk + 6)) st

/-- Its inverse. -/
def invRijndael (sub inv : UInt8 → UInt8) (nk : Nat) (key : Nat → UInt32) (st : Block) : Block :=
  let w := keyWord sub nk key
  Block.invCipher inv (roundKey w 0) ((List.range (nk + 5)).map fun k => roundKey w (k + 1))
    (roundKey w (nk + 6)) st

theorem invRijndael_rijndael {sub inv : UInt8 → UInt8} (hinv : ∀ x, inv (sub x) = x) (nk : Nat)
    (key : Nat → UInt32) (st : Block) :
    invRijndael sub inv nk key (rijndael sub nk key st) = st :=
  Block.invCipher_cipher hinv ..

section KeyWord

variable {sub : UInt8 → UInt8} {nk : Nat} {key : Nat → UInt32} {m j : Nat}

theorem keyWord_of_lt {i : Nat} (hi : i < nk) : keyWord sub nk key i = key i := by
  rw [keyWord, if_pos (Or.inl hi)]

theorem keyWord_of_le {i : Nat} (hnk : 0 < nk) (hi : nk ≤ i) :
    keyWord sub nk key i = keyWord sub nk key (i - nk) ^^^
      if i % nk = 0 then
        (xtime^[i / nk - 1] 1).toUInt32 ^^^ subWord sub (rotWord (keyWord sub nk key (i - 1)))
      else if 6 < nk ∧ i % nk = 4 then subWord sub (keyWord sub nk key (i - 1))
      else keyWord sub nk key (i - 1) := by
  rw [keyWord, if_neg (by omega)]

/-- The first word of a new run of `nk` words. -/
theorem keyWord_mul (hnk : 0 < nk) :
    keyWord sub nk key (nk * m + nk) = keyWord sub nk key (nk * m) ^^^ ((xtime^[m] 1).toUInt32 ^^^
      subWord sub (rotWord (keyWord sub nk key (nk * m + (nk - 1))))) := by
  have hdiv : (nk * m + nk) / nk - 1 = m := by
    rw [← Nat.mul_succ, Nat.mul_div_cancel_left _ hnk]
    rfl
  rw [keyWord_of_le hnk (Nat.le_add_left ..), if_pos (by simp), hdiv, Nat.add_sub_cancel,
    Nat.add_sub_assoc hnk]

theorem add_mod_of_lt (hj : j < nk) : (nk * m + nk + j) % nk = j := by
  rw [Nat.add_right_comm, Nat.add_mod_right, Nat.mul_add_mod_self_left, Nat.mod_eq_of_lt hj]

/-- The fifth word of a run of more than six. -/
theorem keyWord_four (hnk : 6 < nk) :
    keyWord sub nk key (nk * m + nk + 4) = keyWord sub nk key (nk * m + 4) ^^^
      subWord sub (keyWord sub nk key (nk * m + nk + 3)) := by
  have hmod : (nk * m + nk + 4) % nk = 4 := add_mod_of_lt (by omega)
  rw [keyWord_of_le (by omega) (by omega), hmod, if_neg (by omega), if_pos ⟨hnk, rfl⟩,
    show nk * m + nk + 4 - nk = nk * m + 4 by omega, Nat.add_succ_sub_one]

/-- Any other word. -/
theorem keyWord_succ (hj : j + 1 < nk) (hfour : nk ≤ 6 ∨ j + 1 ≠ 4) :
    keyWord sub nk key (nk * m + nk + (j + 1)) = keyWord sub nk key (nk * m + (j + 1)) ^^^
      keyWord sub nk key (nk * m + nk + j) := by
  have hmod : (nk * m + nk + (j + 1)) % nk = j + 1 := add_mod_of_lt hj
  rw [keyWord_of_le (by omega) (by omega), hmod, if_neg (by omega), if_neg (by omega),
    show nk * m + nk + (j + 1) - nk = nk * m + (j + 1) by omega, Nat.add_succ_sub_one]

end KeyWord

end Fecraw.Verified
