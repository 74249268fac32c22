import Mathlib.Data.List.GetD
import Fecraw.Ports.AesTables
import Fecraw.Verified.Bytes

/-!
# AES

A port of the key schedules and of the block function of `aes.cpp`, as built
with `POLARSSL_AES_ROM_TABLES` and without PadLock and AES-NI.

The round keys are a list: the source appends to `buf` through the pointer
`RK`, and reads no word that it has not written.  The block functions are
written once for the column `c` that they compute; the source writes each
column out.

## Main results

* `aesSetkeyEnc_spec`: the unrolled schedules are the key expansion, for keys of
  128, 192 and 256 bits.
* `block_aesCryptEcb_encrypt`, `block_aesCryptEcb_decrypt`: with its tables the
  block function computes the cipher, and with the schedule for decryption its
  inverse.
* `aesCryptEcb_decrypt_encrypt`: decryption undoes encryption.
-/

namespace Fecraw.Ports.Aes

open Fecraw.Verified

/-! ## Words -/

/-- `GET_UINT32_LE`. -/
def getUint32Le (b : Bytes) (i : Nat) : UInt32 :=
  (b.getD i 0).toUInt32 ||| (b.getD (i + 1) 0).toUInt32 <<< 8
    ||| (b.getD (i + 2) 0).toUInt32 <<< 16 ||| (b.getD (i + 3) 0).toUInt32 <<< 24

/-- Octet `r` of a word: `( w >> 8 * r ) & 0xFF`. -/
def byteOf (w : UInt32) (r : Fin 4) : UInt8 := (w >>> UInt32.ofNat (8 * r.val)).toUInt8

/-- `PUT_UINT32_LE`. -/
def putUint32Le (n : UInt32) : Bytes := [byteOf n 0, byteOf n 1, byteOf n 2, byteOf n 3]

/-- Four octets through `FSb` or `RSb`, put together. -/
def substituted (sb : UInt8 → UInt8) (b : Fin 4 → UInt8) : UInt32 :=
  (sb (b 0)).toUInt32 ^^^ (sb (b 1)).toUInt32 <<< 8 ^^^ (sb (b 2)).toUInt32 <<< 16
    ^^^ (sb (b 3)).toUInt32 <<< 24

/-- Four octets through `FT0` to `FT3` or `RT0` to `RT3`. -/
def tabled (t : Fin 4 → UInt8 → UInt32) (b : Fin 4 → UInt8) : UInt32 :=
  t 0 (b 0) ^^^ t 1 (b 1) ^^^ t 2 (b 2) ^^^ t 3 (b 3)

/-! ## Key schedules -/

/-- `aes_context`. -/
structure AesContext where
  nr : Nat
  rk : List UInt32

/-- `POLARSSL_ERR_AES_INVALID_KEY_LENGTH`. -/
def invalidKeyLength : Int := -0x0020

/-- `RK[j]` in iteration `i` of a schedule of `nk` words. -/
def rkAt (rk : List UInt32) (nk i j : Nat) : UInt32 := rk.getD (nk * i + j) 0

/-- One iteration for 128 bits. -/
def expand128 (rk : List UInt32) (i : Nat) : List UInt32 :=
  let r4 := rkAt rk 4 i 0 ^^^ rcon i ^^^ substituted fsb fun r => byteOf (rkAt rk 4 i 3) (r + 1)
  let r5 := rkAt rk 4 i 1 ^^^ r4
  let r6 := rkAt rk 4 i 2 ^^^ r5
  let r7 := rkAt rk 4 i 3 ^^^ r6
  rk ++ [r4, r5, r6, r7]

/-- One iteration for 192 bits. -/
def expand192 (rk : List UInt32) (i : Nat) : List UInt32 :=
  let r6 := rkAt rk 6 i 0 ^^^ rcon i ^^^ substituted fsb fun r => byteOf (rkAt rk 6 i 5) (r + 1)
  let r7 := rkAt rk 6 i 1 ^^^ r6
  let r8 := rkAt rk 6 i 2 ^^^ r7
  let r9 := rkAt rk 6 i 3 ^^^ r8
  let r10 := rkAt rk 6 i 4 ^^^ r9
  let r11 := rkAt rk 6 i 5 ^^^ r10
  rk ++ [r6, r7, r8, r9, r10, r11]

/-- One iteration for 256 bits. -/
def expand256 (rk : List UInt32) (i : Nat) : List UInt32 :=
  let r8 := rkAt rk 8 i 0 ^^^ rcon i ^^^ substituted fsb fun r => byteOf (rkAt rk 8 i 7) (r + 1)
  let r9 := rkAt rk 8 i 1 ^^^ r8
  let r10 := rkAt rk 8 i 2 ^^^ r9
  let r11 := rkAt rk 8 i 3 ^^^ r10
  let r12 := rkAt rk 8 i 4 ^^^ substituted fsb (byteOf r11)
  let r13 := rkAt rk 8 i 5 ^^^ r12
  let r14 := rkAt rk 8 i 6 ^^^ r13
  let r15 := rkAt rk 8 i 7 ^^^ r14
  rk ++ [r8, r9, r10, r11, r12, r13, r14, r15]

/-- `aes_setkey_enc`. -/
def aesSetkeyEnc (key : Bytes) (keysize : Nat) : Except Int AesContext :=
  let rk := (List.range (keysize / 32)).map fun i => getUint32Le key (4 * i)
  if keysize = 128 then .ok ⟨10, (List.range 10).foldl expand128 rk⟩
  else if keysize = 192 then .ok ⟨12, (List.range 8).foldl expand192 rk⟩
  else if keysize = 256 then .ok ⟨14, (List.range 7).foldl expand256 rk⟩
  else .error invalidKeyLength

/-- `aes_setkey_dec`: the round keys from the last to the first, those of the
inner rounds through `RT` after `FSb`.  `SK` is `4 * i` words into the schedule. -/
def aesSetkeyDec (key : Bytes) (keysize : Nat) : Except Int AesContext := do
  let cty ← aesSetkeyEnc key keysize
  let sk (i j : Nat) : UInt32 := cty.rk.getD (4 * i + j) 0
  let inner := (List.range (cty.nr - 1)).reverse.flatMap fun i =>
    (List.range 4).map fun j => tabled rt fun r => fsb (byteOf (sk (i + 1) j) r)
  return ⟨cty.nr, (List.range 4).map (sk cty.nr) ++ inner ++ (List.range 4).map (sk 0)⟩

/-! ## The block function -/

/-- `AES_ENCRYPT` and `AES_DECRYPT`. -/
inductive Mode where
  | encrypt
  | decrypt
deriving Repr, DecidableEq

/-- The words `X0` to `X3` or `Y0` to `Y3`. -/
structure Words where
  w0 : UInt32
  w1 : UInt32
  w2 : UInt32
  w3 : UInt32

namespace Words

/-- Word `c`. -/
def get (x : Words) : Fin 4 → UInt32 := ![x.w0, x.w1, x.w2, x.w3]

/-- Each word from its number. -/
def ofFn (f : Fin 4 → UInt32) : Words := ⟨f 0, f 1, f 2, f 3⟩

@[simp] theorem get_ofFn (f : Fin 4 → UInt32) (c : Fin 4) : (ofFn f).get c = f c := by
  fin_cases c <;> rfl

end Words

/-- `AES_FROUND`. -/
def aesFround (rk y : Words) : Words := .ofFn fun c =>
  rk.get c ^^^ tabled ft fun r => byteOf (y.get (c + r)) r

/-- `AES_RROUND`. -/
def aesRround (rk y : Words) : Words := .ofFn fun c =>
  rk.get c ^^^ tabled rt fun r => byteOf (y.get (c - r)) r

/-- The last round of encryption. -/
def aesFlast (rk y : Words) : Words := .ofFn fun c =>
  rk.get c ^^^ substituted fsb fun r => byteOf (y.get (c + r)) r

/-- The last round of decryption. -/
def aesRlast (rk y : Words) : Words := .ofFn fun c =>
  rk.get c ^^^ substituted rsb fun r => byteOf (y.get (c - r)) r

/-- The four words at `RK + p`. -/
def AesContext.rkWords (ctx : AesContext) (p : Nat) : Words :=
  .ofFn fun c => ctx.rk.getD (p + c.val) 0

/-- The rounds of `aes_crypt_ecb`: two for each iteration of the loop, one after
it, and the last. -/
def AesContext.rounds (ctx : AesContext) (round last : Words → Words → Words) (x : Words) :
    Words :=
  let n := ctx.nr / 2 - 1
  let x := (List.range n).foldl (fun x i =>
    let y := round (ctx.rkWords (8 * i + 4)) x
    round (ctx.rkWords (8 * i + 8)) y) x
  let y := round (ctx.rkWords (8 * n + 4)) x
  last (ctx.rkWords (8 * n + 8)) y

/-- `aes_crypt_ecb`. -/
@[irreducible] def aesCryptEcb (ctx : AesContext) (mode : Mode) (input : Bytes) : Bytes :=
  let x : Words := .ofFn fun c => getUint32Le input (4 * c.val) ^^^ (ctx.rkWords 0).get c
  let x := match mode with
    | .decrypt => ctx.rounds aesRround aesRlast x
    | .encrypt => ctx.rounds aesFround aesFlast x
  putUint32Le x.w0 ++ putUint32Le x.w1 ++ putUint32Le x.w2 ++ putUint32Le x.w3

/-! ## Octets of words -/

theorem byteOf_eq (w : UInt32) (r : Fin 4) : byteOf w r = octet w r := octet_eq_shiftRight w r

theorem getUint32Le_eq (b : Bytes) (i : Nat) :
    getUint32Le b i = word fun r => b.getD (i + r.val) 0 :=
  word_eq_or fun r => b.getD (i + r.val) 0

theorem substituted_eq (sb : UInt8 → UInt8) (b : Fin 4 → UInt8) :
    substituted sb b = word fun r => sb (b r) :=
  word_eq_xor fun r => sb (b r)

/-- A lookup in the forward tables mixes the column of the substituted octets. -/
theorem octet_tabled_ft (b : Fin 4 → UInt8) (r : Fin 4) :
    octet (tabled ft b) r = mixColumn (fun j => fsb (b j)) r := by
  simp only [tabled, octet_xor, octet_ft]
  exact sum_singles (fun j => fsb (b j)) r mixColumn_xor

theorem octet_tabled_rt (b : Fin 4 → UInt8) (r : Fin 4) :
    octet (tabled rt b) r = invMixColumn (fun j => rsb (b j)) r := by
  simp only [tabled, octet_xor, octet_rt]
  exact sum_singles (fun j => rsb (b j)) r invMixColumn_xor

/-! ## The key expansion -/

/-- The words of a key. -/
def keyWords (key : Bytes) (i : Nat) : UInt32 := word fun r => key.getD (4 * i + r.val) 0

/-- The first words of the expansion of a key of `nk` words. -/
def Expands (nk : Nat) (key : Bytes) (rk : List UInt32) : Prop :=
  ∀ i < rk.length, rk.getD i 0 = keyWord fsb nk (keyWords key) i

section Expansion

variable {nk m : Nat} {key : Bytes} {rk : List UInt32}

theorem subWord_rotWord_eq (w : UInt32) :
    (substituted fsb fun r => byteOf w (r + 1)) = subWord fsb (rotWord w) := by
  simp only [substituted_eq, byteOf_eq, subWord, rotWord, octet_word]

theorem subWord_eq (w : UInt32) : substituted fsb (byteOf w) = subWord fsb w := by
  simp only [substituted_eq, byteOf_eq, subWord]

theorem expands_append {block : List UInt32} (h : Expands nk key rk)
    (hblock : ∀ j < block.length,
      block.getD j 0 = keyWord fsb nk (keyWords key) (rk.length + j)) :
    Expands nk key (rk ++ block) := by
  intro i hi
  rcases Nat.lt_or_ge i rk.length with hlt | hge
  · rw [List.getD_append _ _ _ _ hlt, h i hlt]
  · rw [List.getD_append_right _ _ _ _ hge, hblock (i - rk.length) (by simp at hi; omega),
      Nat.add_sub_cancel' hge]

/-- The words that an iteration reads. -/
theorem Expands.rkAt_eq (h : Expands nk key rk) (hlen : rk.length = nk * m + nk) {j : Nat}
    (hj : j < nk) : rkAt rk nk m j = keyWord fsb nk (keyWords key) (nk * m + j) :=
  h _ (by omega)

/-- The first word that an iteration writes. -/
theorem Expands.first_eq (h : Expands nk key rk) (hlen : rk.length = nk * m + nk) (hnk : 0 < nk)
    (hm : m < 10) :
    (rkAt rk nk m 0 ^^^ rcon m ^^^
        substituted fsb fun r => byteOf (rkAt rk nk m (nk - 1)) (r + 1))
      = keyWord fsb nk (keyWords key) (nk * m + nk) := by
  rw [keyWord_mul hnk, subWord_rotWord_eq, rcon_eq m hm, h.rkAt_eq hlen hnk,
    h.rkAt_eq hlen (by omega), Nat.add_zero, UInt32.xor_assoc]

/-- The words after it. -/
theorem Expands.next_eq (h : Expands nk key rk) (hlen : rk.length = nk * m + nk) {j : Nat}
    (hj : j + 1 < nk) (hfour : nk ≤ 6 ∨ j + 1 ≠ 4) {w : UInt32}
    (hw : w = keyWord fsb nk (keyWords key) (nk * m + nk + j)) :
    rkAt rk nk m (j + 1) ^^^ w = keyWord fsb nk (keyWords key) (nk * m + nk + (j + 1)) := by
  rw [keyWord_succ hj hfour, h.rkAt_eq hlen hj, hw]

/-- The fifth word of an iteration for 256 bits. -/
theorem Expands.fifth_eq (h : Expands nk key rk) (hlen : rk.length = nk * m + nk) (hnk : 6 < nk)
    {w : UInt32} (hw : w = keyWord fsb nk (keyWords key) (nk * m + nk + 3)) :
    rkAt rk nk m 4 ^^^ substituted fsb (byteOf w)
      = keyWord fsb nk (keyWords key) (nk * m + nk + 4) := by
  rw [keyWord_four hnk, h.rkAt_eq hlen (by omega), subWord_eq, hw]

theorem expands_expand128 (h : Expands 4 key rk) (hlen : rk.length = 4 * m + 4) (hm : m < 10) :
    Expands 4 key (expand128 rk m) := by
  have h4 := h.first_eq hlen (by omega) hm
  have h5 := h.next_eq (j := 0) hlen (by omega) (by omega) h4
  have h6 := h.next_eq (j := 1) hlen (by omega) (by omega) h5
  have h7 := h.next_eq (j := 2) hlen (by omega) (by omega) h6
  refine expands_append h fun j (hj : j < 4) => ?_
  rw [hlen]
  interval_cases j
  exacts [h4, h5, h6, h7]

theorem expands_expand192 (h : Expands 6 key rk) (hlen : rk.length = 6 * m + 6) (hm : m < 10) :
    Expands 6 key (expand192 rk m) := by
  have h6 := h.first_eq hlen (by omega) hm
  have h7 := h.next_eq (j := 0) hlen (by omega) (by omega) h6
  have h8 := h.next_eq (j := 1) hlen (by omega) (by omega) h7
  have h9 := h.next_eq (j := 2) hlen (by omega) (by omega) h8
  have h10 := h.next_eq (j := 3) hlen (by omega) (by omega) h9
  have h11 := h.next_eq (j := 4) hlen (by omega) (by omega) h10
  refine expands_append h fun j (hj : j < 6) => ?_
  rw [hlen]
  interval_cases j
  exacts [h6, h7, h8, h9, h10, h11]

theorem expands_expand256 (h : Expands 8 key rk) (hlen : rk.length = 8 * m + 8) (hm : m < 10) :
    Expands 8 key (expand256 rk m) := by
  have h8 := h.first_eq hlen (by omega) hm
  have h9 := h.next_eq (j := 0) hlen (by omega) (by omega) h8
  have h10 := h.next_eq (j := 1) hlen (by omega) (by omega) h9
  have h11 := h.next_eq (j := 2) hlen (by omega) (by omega) h10
  have h12 := h.fifth_eq hlen (by omega) h11
  have h13 := h.next_eq (j := 4) hlen (by omega) (by omega) h12
  have h14 := h.next_eq (j := 5) hlen (by omega) (by omega) h13
  have h15 := h.next_eq (j := 6) hlen (by omega) (by omega) h14
  refine expands_append h fun j (hj : j < 8) => ?_
  rw [hlen]
  interval_cases j
  exacts [h8, h9, h10, h11, h12, h13, h14, h15]

/-- A run of iterations, each of which adds `nk` words. -/
theorem expands_foldl (expand : List UInt32 → Nat → List UInt32)
    (hlen : ∀ rk m, (expand rk m).length = rk.length + nk)
    (hstep : ∀ {rk m}, Expands nk key rk → rk.length = nk * m + nk → m < 10 →
      Expands nk key (expand rk m)) {n : Nat} (hn : n ≤ 10) (h : Expands nk key rk)
    (hrk : rk.length = nk) :
    Expands nk key ((List.range n).foldl expand rk) ∧
      ((List.range n).foldl expand rk).length = nk * n + nk := by
  induction n with
  | zero => exact ⟨h, by simpa using hrk⟩
  | succ n ih =>
      obtain ⟨hexp, hl⟩ := ih (by omega)
      rw [List.range_succ, List.foldl_append, List.foldl_cons, List.foldl_nil]
      exact ⟨hstep hexp hl (by omega), by rw [hlen, hl, Nat.mul_succ]⟩

theorem expands_key (nk : Nat) (key : Bytes) :
    Expands nk key ((List.range nk).map fun i => getUint32Le key (4 * i)) := by
  intro i hi
  have hi : i < nk := by simpa using hi
  rw [keyWord_of_lt hi, keyWords, ← getUint32Le_eq]
  simp [List.getD_eq_getElem?_getD, hi]

end Expansion

/-! ## The schedules -/

/-- A schedule of `aes_setkey_enc`, for a key of `nk` words. -/
structure Scheduled (nk : Nat) (key : Bytes) (ctx : AesContext) : Prop where
  nk_mem : nk = 4 ∨ nk = 6 ∨ nk = 8
  nr_eq : ctx.nr = nk + 6
  expands : Expands nk key ctx.rk
  length_le : 4 * (ctx.nr + 1) ≤ ctx.rk.length

section Schedule

variable {keysize : Nat} {key : Bytes} {ctx : AesContext}

/-- **Every schedule is the key expansion**, and covers all rounds. -/
theorem aesSetkeyEnc_spec (h : aesSetkeyEnc key keysize = .ok ctx) :
    Scheduled (keysize / 32) key ctx := by
  unfold aesSetkeyEnc at h
  split_ifs at h with h128 h192 h256
  · subst h128
    obtain rfl := Except.ok.inj h
    obtain ⟨hexp, hlen⟩ := expands_foldl expand128 (n := 10) (fun _ _ => by
      simp [expand128]) expands_expand128 le_rfl (expands_key _ key) (by simp)
    exact ⟨by omega, rfl, hexp, (by omega : 4 * (10 + 1) ≤ 4 * 10 + 4).trans hlen.ge⟩
  · subst h192
    obtain rfl := Except.ok.inj h
    obtain ⟨hexp, hlen⟩ := expands_foldl expand192 (n := 8) (fun _ _ => by
      simp [expand192]) expands_expand192 (by omega) (expands_key _ key) (by simp)
    exact ⟨by omega, rfl, hexp, (by omega : 4 * (12 + 1) ≤ 6 * 8 + 6).trans hlen.ge⟩
  · subst h256
    obtain rfl := Except.ok.inj h
    obtain ⟨hexp, hlen⟩ := expands_foldl expand256 (n := 7) (fun _ _ => by
      simp [expand256]) expands_expand256 (by omega) (expands_key _ key) (by simp)
    exact ⟨by omega, rfl, hexp, (by omega : 4 * (14 + 1) ≤ 8 * 7 + 8).trans hlen.ge⟩

/-- The key sizes that are accepted. -/
theorem aesSetkeyEnc_isOk_iff (key : Bytes) (keysize : Nat) :
    (∃ ctx, aesSetkeyEnc key keysize = .ok ctx) ↔
      keysize = 128 ∨ keysize = 192 ∨ keysize = 256 := by
  unfold aesSetkeyEnc
  split_ifs <;> simp_all

/-- The key of round `k` in a context. -/
def AesContext.roundKey (ctx : AesContext) (k : Nat) : Block :=
  Verified.roundKey (fun i => ctx.rk.getD i 0) k

theorem Scheduled.roundKey_eq {nk : Nat} (h : Scheduled nk key ctx) {k : Nat} (hk : k ≤ ctx.nr) :
    ctx.roundKey k = Verified.roundKey (keyWord fsb nk (keyWords key)) k := by
  funext c r
  have hlen := h.length_le
  exact congrArg (octet · r) (h.expands _ (by omega))

/-- Word `j` of piece `k` of a list put together from pieces of four words. -/
theorem getD_flatMap_four (f : Nat → List UInt32) (hf : ∀ k, (f k).length = 4) (l : List Nat)
    {k j : Nat} (hk : k < l.length) (hj : j < 4) :
    (l.flatMap f).getD (4 * k + j) 0 = (f l[k]).getD j 0 := by
  induction l generalizing k with
  | nil => simp at hk
  | cons a l ih =>
      rw [List.flatMap_cons]
      match k with
      | 0 =>
          rw [List.getD_append _ _ _ _ (by rw [hf]; omega), Nat.mul_zero, Nat.zero_add]
          rfl
      | k + 1 =>
          rw [List.getD_append_right _ _ _ _ (by rw [hf]; omega), hf,
            show 4 * (k + 1) + j - 4 = 4 * k + j by omega]
          exact ih (by simpa using hk)

theorem length_flatMap_four (f : Nat → List UInt32) (hf : ∀ k, (f k).length = 4) (l : List Nat) :
    (l.flatMap f).length = 4 * l.length := by
  simp [List.length_flatMap, hf, Nat.mul_comm]

theorem getD_four (f : Nat → UInt32) (j : Nat) (hj : j < 4) :
    ((List.range 4).map f).getD j 0 = f j := by
  simp [List.getD_eq_getElem?_getD, hj]

/-- **The schedule for decryption** has the round keys in reverse, those of the
inner rounds mixed backwards. -/
theorem aesSetkeyDec_spec {dec : AesContext} (h : aesSetkeyEnc key keysize = .ok ctx)
    (hdec : aesSetkeyDec key keysize = .ok dec) :
    dec.nr = ctx.nr ∧ dec.roundKey 0 = ctx.roundKey ctx.nr ∧
      (∀ k < ctx.nr - 1,
        dec.roundKey (k + 1) = Block.invMixColumns (ctx.roundKey (ctx.nr - 1 - k))) ∧
      dec.roundKey ctx.nr = ctx.roundKey 0 := by
  have hnr : 1 ≤ ctx.nr := by
    have hs := aesSetkeyEnc_spec h
    rw [hs.nr_eq]
    omega
  rw [aesSetkeyDec, h] at hdec
  obtain rfl := Except.ok.inj hdec
  have hinner := length_flatMap_four (fun i => (List.range 4).map fun j =>
    tabled rt fun r => fsb (byteOf (ctx.rk.getD (4 * (i + 1) + j) 0) r)) (by simp)
    (List.range (ctx.nr - 1)).reverse
  rw [List.length_reverse, List.length_range] at hinner
  refine ⟨rfl, ?_, fun k hk => ?_, ?_⟩
  all_goals
    funext c r
    unfold AesContext.roundKey Verified.roundKey
    dsimp only
  · rw [List.append_assoc, List.getD_append _ _ _ _ (by simp), Nat.mul_zero, Nat.zero_add,
      getD_four _ _ c.isLt]
  · rw [List.append_assoc, List.getD_append_right _ _ _ _ (by simp; omega),
      List.getD_append _ _ _ _ (by simp only [List.length_map, List.length_range, hinner]; omega),
      show 4 * (k + 1) + c.val - ((List.range 4).map _).length = 4 * k + c.val by simp; omega,
      getD_flatMap_four _ (by simp) _ (by simpa using hk) c.isLt, List.getElem_reverse,
      List.getElem_range, List.length_range, getD_four _ _ c.isLt, octet_tabled_rt]
    simp only [rsb_fsb, byteOf_eq]
    rw [show ctx.nr - 1 - 1 - k + 1 = ctx.nr - 1 - k by omega]
    rfl
  · rw [List.getD_append_right _ _ _ _ (by
        simp only [List.length_append, List.length_map, List.length_range, hinner]; omega),
      show 4 * ctx.nr + c.val - _ = c.val by
        simp only [List.length_append, List.length_map, List.length_range, hinner]; omega,
      getD_four _ _ c.isLt]

end Schedule

/-! ## The block function and the cipher -/

/-- The block of 16 octets. -/
def block (b : Bytes) : Block := fun c r => b.getD (4 * c.val + r.val) 0

/-- The block of four words. -/
def Words.block (x : Words) : Block := fun c => octet (x.get c)

section Rounds

variable (rk y : Words)

theorem block_aesFround : (aesFround rk y).block
    = Block.round fsb Block.shiftRows Block.mixColumns y.block rk.block := by
  funext c r
  simp only [Words.block, aesFround, Words.get_ofFn, octet_xor, octet_tabled_ft, byteOf_eq]
  rfl

theorem block_aesRround : (aesRround rk y).block
    = Block.round rsb Block.invShiftRows Block.invMixColumns y.block rk.block := by
  funext c r
  simp only [Words.block, aesRround, Words.get_ofFn, octet_xor, octet_tabled_rt, byteOf_eq]
  rfl

theorem block_aesFlast : (aesFlast rk y).block
    = Block.round fsb Block.shiftRows id y.block rk.block := by
  funext c r
  simp only [Words.block, aesFlast, Words.get_ofFn, octet_xor, substituted_eq, octet_word,
    byteOf_eq]
  rfl

theorem block_aesRlast : (aesRlast rk y).block
    = Block.round rsb Block.invShiftRows id y.block rk.block := by
  funext c r
  simp only [Words.block, aesRlast, Words.get_ofFn, octet_xor, substituted_eq, octet_word,
    byteOf_eq]
  rfl

end Rounds

section Ecb

variable {ctx : AesContext}

theorem block_rkWords (k : Nat) : (ctx.rkWords (4 * k)).block = ctx.roundKey k := by
  funext c r
  simp only [Words.block, AesContext.rkWords, Words.get_ofFn]
  rfl

/-- Two steps at a time, and one more. -/
theorem foldl_range_pairs {α : Type} (f : α → Nat → α) (a : α) (n : Nat) :
    f ((List.range n).foldl (fun a i => f (f a (2 * i)) (2 * i + 1)) a) (2 * n)
      = (List.range (2 * n + 1)).foldl f a := by
  rw [List.range_succ, List.foldl_append]
  congr 1
  induction n with
  | zero => rfl
  | succ n ih =>
      rw [List.range_succ, List.foldl_append, ih, Nat.mul_succ, List.range_succ, List.range_succ,
        List.foldl_append, List.foldl_append]
      rfl

/-- The inner round keys of a context, in the order of their use. -/
def AesContext.innerKeys (ctx : AesContext) : List Block :=
  (List.range (ctx.nr - 1)).map fun k => ctx.roundKey (k + 1)

/-- The unrolled loop runs the rounds in order. -/
theorem block_rounds {round last : Words → Words → Words} {sub : UInt8 → UInt8}
    {shift mix : Block → Block}
    (hround : ∀ rk y, (round rk y).block = Block.round sub shift mix y.block rk.block)
    (hlast : ∀ rk y, (last rk y).block = Block.round sub shift id y.block rk.block)
    {n : Nat} (hnr : ctx.nr = 2 * n + 2) (x : Words) :
    (ctx.rounds round last x).block = Block.round sub shift id
      (ctx.innerKeys.foldl (Block.round sub shift mix) x.block) (ctx.roundKey ctx.nr) := by
  have hn : ctx.nr / 2 - 1 = n := by omega
  have hstep : ∀ y k, (round (ctx.rkWords (4 * k + 4)) y).block
      = Block.round sub shift mix y.block (ctx.roundKey (k + 1)) := fun y k => by
    rw [hround, ← block_rkWords, Nat.mul_succ]
  have hrun : ∀ l : List Nat, ∀ y : Words,
      (l.foldl (fun y k => round (ctx.rkWords (4 * k + 4)) y) y).block
        = (l.map fun k => ctx.roundKey (k + 1)).foldl (Block.round sub shift mix) y.block := by
    intro l
    induction l with
    | nil => exact fun y => rfl
    | cons k l ih =>
        intro y
        rw [List.foldl_cons, ih, hstep]
        rfl
  have hpairs : ctx.rounds round last x = last (ctx.rkWords (4 * (2 * n + 2)))
      ((List.range (2 * n + 1)).foldl (fun y k => round (ctx.rkWords (4 * k + 4)) y) x) := by
    rw [← foldl_range_pairs]
    unfold AesContext.rounds
    rw [hn]
    have hmul : ∀ i, 4 * (2 * i) = 8 * i := by omega
    have hmul' : ∀ i, 4 * (2 * i + 1) + 4 = 8 * i + 8 := by omega
    simp only [hmul, hmul', show 4 * (2 * n + 2) = 8 * n + 8 by omega]
  rw [hpairs, hlast, hrun, block_rkWords, hnr]
  unfold AesContext.innerKeys
  rw [hnr]
  rfl

theorem length_aesCryptEcb (mode : Mode) (input : Bytes) :
    (aesCryptEcb ctx mode input).length = 16 := by
  unfold aesCryptEcb
  rfl

theorem block_put (x : Words) :
    block (putUint32Le x.w0 ++ putUint32Le x.w1 ++ putUint32Le x.w2 ++ putUint32Le x.w3)
      = x.block := by
  funext c r
  fin_cases c <;> fin_cases r <;> exact byteOf_eq ..

theorem block_get (input : Bytes) :
    (Words.ofFn fun c => getUint32Le input (4 * c.val) ^^^ (ctx.rkWords 0).get c).block
      = Block.addRoundKey (ctx.roundKey 0) (block input) := by
  funext c r
  simp only [Words.block, Words.get_ofFn, octet_xor, getUint32Le_eq, octet_word]
  rw [UInt8.xor_comm]
  exact congrArg (· ^^^ block input c r) (congrFun (congrFun (block_rkWords 0) c) r)

/-- The block function runs a cipher with the round keys of its context. -/
theorem block_aesCryptEcb {n : Nat} (hnr : ctx.nr = 2 * n + 2) (mode : Mode) (input : Bytes) :
    block (aesCryptEcb ctx mode input) = match mode with
      | .encrypt => Block.crypt fsb Block.shiftRows Block.mixColumns (ctx.roundKey 0)
          ctx.innerKeys (ctx.roundKey ctx.nr) (block input)
      | .decrypt => Block.crypt rsb Block.invShiftRows Block.invMixColumns (ctx.roundKey 0)
          ctx.innerKeys (ctx.roundKey ctx.nr) (block input) := by
  unfold aesCryptEcb
  cases mode with
  | encrypt => rw [block_put, block_rounds block_aesFround block_aesFlast hnr, block_get]; rfl
  | decrypt => rw [block_put, block_rounds block_aesRround block_aesRlast hnr, block_get]; rfl

end Ecb

/-! ## AES -/

section Aes

variable {keysize : Nat} {key : Bytes} {enc dec : AesContext}

theorem aesSetkeyDec_ok (hdec : aesSetkeyDec key keysize = .ok dec) :
    ∃ enc, aesSetkeyEnc key keysize = .ok enc := by
  rw [aesSetkeyDec] at hdec
  cases henc : aesSetkeyEnc key keysize with
  | ok enc => exact ⟨enc, rfl⟩
  | error e => rw [henc] at hdec; cases hdec

theorem Scheduled.nr_even {nk : Nat} (h : Scheduled nk key enc) : ∃ n, enc.nr = 2 * n + 2 := by
  have hmem := h.nk_mem
  exact ⟨nk / 2 + 2, by rw [h.nr_eq]; omega⟩

theorem Scheduled.innerKeys_eq {nk : Nat} (h : Scheduled nk key enc) :
    enc.innerKeys = (List.range (nk + 5)).map fun k =>
      Verified.roundKey (keyWord fsb nk (keyWords key)) (k + 1) := by
  unfold AesContext.innerKeys
  rw [h.nr_eq]
  refine List.map_congr_left fun k hk => h.roundKey_eq ?_
  rw [h.nr_eq]
  have hk := List.mem_range.1 hk
  omega

/-- Encryption is the cipher with a key of `keysize / 32` words. -/
theorem block_aesCryptEcb_encrypt (henc : aesSetkeyEnc key keysize = .ok enc) (input : Bytes) :
    block (aesCryptEcb enc .encrypt input)
      = rijndael fsb (keysize / 32) (keyWords key) (block input) := by
  have hs := aesSetkeyEnc_spec henc
  obtain ⟨n, hn⟩ := hs.nr_even
  rw [block_aesCryptEcb hn, hs.innerKeys_eq, hs.roundKey_eq (Nat.zero_le _),
    hs.roundKey_eq le_rfl, hs.nr_eq]
  rfl

/-- The inner keys of a schedule for decryption. -/
theorem innerKeys_dec (henc : aesSetkeyEnc key keysize = .ok enc)
    (hdec : aesSetkeyDec key keysize = .ok dec) :
    dec.innerKeys = enc.innerKeys.reverse.map Block.invMixColumns := by
  obtain ⟨hnr, -, hinner, -⟩ := aesSetkeyDec_spec henc hdec
  unfold AesContext.innerKeys
  rw [hnr]
  refine List.ext_getElem (by simp) fun k hk _ => ?_
  have hk : k < enc.nr - 1 := by simpa using hk
  simp only [List.getElem_map, List.getElem_range, List.getElem_reverse, List.length_map,
    List.length_range]
  rw [hinner k hk, show enc.nr - 1 - 1 - k + 1 = enc.nr - 1 - k by omega]

/-- Decryption is the inverse cipher with the same key. -/
theorem block_aesCryptEcb_decrypt (hdec : aesSetkeyDec key keysize = .ok dec) (input : Bytes) :
    block (aesCryptEcb dec .decrypt input)
      = invRijndael fsb rsb (keysize / 32) (keyWords key) (block input) := by
  obtain ⟨enc, henc⟩ := aesSetkeyDec_ok hdec
  have hs := aesSetkeyEnc_spec henc
  obtain ⟨n, hn⟩ := hs.nr_even
  obtain ⟨hnr, hfirst, -, hlast⟩ := aesSetkeyDec_spec henc hdec
  rw [block_aesCryptEcb (hnr.trans hn), hfirst, hnr, hlast, innerKeys_dec henc hdec,
    hs.innerKeys_eq, hs.roundKey_eq (Nat.zero_le _), hs.roundKey_eq le_rfl, hs.nr_eq]
  rfl

/-- Blocks of 16 octets are equal octet by octet. -/
theorem block_injective {a b : Bytes} (ha : a.length = 16) (hb : b.length = 16)
    (h : block a = block b) : a = b := by
  refine List.ext_getElem (ha.trans hb.symm) fun i hi hi' => ?_
  have hget := congrFun (congrFun h ⟨i / 4, by omega⟩) ⟨i % 4, by omega⟩
  simp only [block, Nat.div_add_mod] at hget
  rwa [List.getD_eq_getElem _ _ hi, List.getD_eq_getElem _ _ hi'] at hget

/-- **Decryption undoes encryption**, for every key of an accepted size. -/
theorem aesCryptEcb_decrypt_encrypt (henc : aesSetkeyEnc key keysize = .ok enc)
    (hdec : aesSetkeyDec key keysize = .ok dec) {input : Bytes} (hlen : input.length = 16) :
    aesCryptEcb dec .decrypt (aesCryptEcb enc .encrypt input) = input := by
  refine block_injective (length_aesCryptEcb ..) hlen ?_
  rw [block_aesCryptEcb_decrypt hdec, block_aesCryptEcb_encrypt henc,
    invRijndael_rijndael rsb_fsb]

/-- **The compiled AES is Rijndael**: both schedules accept the same key sizes, and
with them the table lookups compute the cipher and its inverse. -/
theorem aesCryptEcb_spec (key : Bytes) (keysize : Nat)
    (hsize : keysize = 128 ∨ keysize = 192 ∨ keysize = 256) :
    ∃ enc dec, aesSetkeyEnc key keysize = .ok enc ∧ aesSetkeyDec key keysize = .ok dec ∧
      ∀ input, block (aesCryptEcb enc .encrypt input)
          = rijndael fsb (keysize / 32) (keyWords key) (block input) ∧
        block (aesCryptEcb dec .decrypt input)
          = invRijndael fsb rsb (keysize / 32) (keyWords key) (block input) := by
  obtain ⟨enc, henc⟩ := (aesSetkeyEnc_isOk_iff key keysize).2 hsize
  have hdec : ∃ dec, aesSetkeyDec key keysize = .ok dec := by
    rw [aesSetkeyDec, henc]
    exact ⟨_, rfl⟩
  obtain ⟨dec, hdec⟩ := hdec
  exact ⟨enc, dec, henc, hdec, fun input =>
    ⟨block_aesCryptEcb_encrypt henc input, block_aesCryptEcb_decrypt hdec input⟩⟩

/-- The key of 32 zeros. -/
theorem aesCryptEcb_spec_zero : ∃ enc dec,
    aesSetkeyEnc (List.replicate 32 0) 256 = .ok enc ∧
      aesSetkeyDec (List.replicate 32 0) 256 = .ok dec ∧
      ∀ input, block (aesCryptEcb enc .encrypt input)
          = rijndael fsb 8 (keyWords (List.replicate 32 0)) (block input) ∧
        block (aesCryptEcb dec .decrypt input)
          = invRijndael fsb rsb 8 (keyWords (List.replicate 32 0)) (block input) :=
  aesCryptEcb_spec (List.replicate 32 0) 256 (by decide)

end Aes

end Fecraw.Ports.Aes
