import Fecraw.Ports.Encrypt

/-!
# Two peers understand each other

A client and a server that are set up with the same password and modes decrypt
what the other one encrypts, whatever they encrypted and decrypted before.  The
AES functions keep the key of their first call, so what is kept is an invariant
of the process.

## Main results

* `Process.Kept.step`: the keys that are kept are the right ones.
* `cipher_round`, `auth_round`: each layer is inverted.
* `my_round`: so is a message, in each of the three ways to encrypt one.
* `roundTrips_iff`: the passwords for which two peers understand each other.
-/

namespace Fecraw.Ports.Encrypt

open Fecraw.Verified Fecraw.Verified.Checked

variable {P : Primitives}

/-! ## Layers -/

theorem tagVerify_tagCal {tag : Bytes → Bytes} {n : Nat} {data : Bytes}
    (hlen : (tag data).length = n) : tagVerify n tag (tagCal tag data) = some data := by
  have hcut : (data ++ tag data).length - n = data.length := by
    rw [List.length_append, hlen, Nat.add_sub_cancel]
  unfold tagVerify tagCal
  rw [if_neg (by simp [hlen]), hcut, List.take_left, List.drop_left, if_pos rfl]

/-- The length of the tag. -/
def AuthMode.tagLen : AuthMode → Nat
  | .none => 0
  | .md5 => 16
  | .crc32 => 4
  | .simple => 8
  | .hmacSha1 => 20

theorem length_authCal (hP : P.Lawful) (p : Process) (data : Bytes) :
    (authCal P p data).length = data.length + p.authMode.tagLen := by
  unfold authCal AuthMode.tagLen
  cases p.authMode with
  | none => rfl
  | md5 => simp [authMd5Cal, tagCal, hP.md5_length]
  | crc32 => simp [authCrc32Cal, tagCal, crc32Tag]
  | simple => simp [authSimpleCal, tagCal, simpleHash]
  | hmacSha1 => simp [authHmacSha1Cal, tagCal, hP.sha1Hmac_length]

/-- What one side authenticates, the other verifies. -/
theorem auth_round (hP : P.Lawful) {p q : Process} (hmode : q.authMode = p.authMode)
    (hkey : q.hmacKeyDecrypt = p.hmacKeyEncrypt) (data : Bytes) :
    authVerify P q (authCal P p data) = some data := by
  unfold authVerify authCal
  rw [hmode, hkey]
  cases p.authMode with
  | none => rfl
  | md5 => exact tagVerify_tagCal (hP.md5_length data)
  | crc32 => exact tagVerify_tagCal rfl
  | simple => exact tagVerify_tagCal rfl
  | hmacSha1 => exact tagVerify_tagCal (hP.sha1Hmac_length _ data)

/-- Padding adds up to a block, and its last octet says how much. -/
theorem padding_eq (stack : Mem) (data : Bytes) : ∃ middle k,
    padding stack data 16 = data ++ (middle ++ [UInt8.ofNat k]) ∧ middle.length + 1 = k ∧ k ≤ 16 ∧
      data.length + k = (data.length / 16 + 1) * 16 := by
  unfold padding
  refine ⟨_, _, List.append_assoc _ _ _, ?_⟩
  rw [Mem.length_read]
  split <;> omega

theorem length_padding (stack : Mem) (data : Bytes) :
    (padding stack data 16).length = (data.length / 16 + 1) * 16 := by
  obtain ⟨middle, k, heq, hk, -, hlen⟩ := padding_eq stack data
  rw [heq, ← hlen, ← hk]
  simp

theorem dePadding_padding (stack : Mem) (data : Bytes) :
    dePadding (padding stack data 16) 16 = some data := by
  obtain ⟨middle, k, heq, hk, hle, -⟩ := padding_eq stack data
  have hlen : (padding stack data 16).length = data.length + k := by
    rw [heq, ← hk]
    simp
  have hlast : ((padding stack data 16).getD ((padding stack data 16).length - 1) 0).toNat = k := by
    rw [hlen, heq, ← List.append_assoc, List.getD_eq_getElem?_getD,
      List.getElem?_append_right (by simp; omega),
      show data.length + k - 1 - (data ++ middle).length = 0 by simp; omega]
    simp
    omega
  unfold dePadding
  rw [hlast, if_neg (by omega), if_neg (by omega), if_neg (by omega), hlen, Nat.add_sub_cancel, heq,
    List.take_left]

/-! ## Keys that are kept -/

namespace Process

/-- The key of the ciphers without an AEAD: its own for each direction if there is
an HMAC, else one for both. -/
def encryptKey (p : Process) : Bytes := if p.isHmacUsed then p.cipherKeyEncrypt else p.normalKey

def decryptKey (p : Process) : Bytes := if p.isHmacUsed then p.cipherKeyDecrypt else p.normalKey

/-- The keys that the AES functions keep are those they are called with. -/
structure Kept (p : Process) : Prop where
  ecbEncrypt : ∀ key ∈ p.aes.ecbEncrypt, key = p.cipherKeyEncrypt.take 16
  ecbDecrypt : ∀ key ∈ p.aes.ecbDecrypt, key = p.cipherKeyDecrypt.take 16
  cbcEncrypt : ∀ key ∈ p.aes.cbcEncrypt, key = p.encryptKey.take 16
  cbcDecrypt : ∀ key ∈ p.aes.cbcDecrypt, key = p.decryptKey.take 16
  cfbEncrypt : ∀ key ∈ p.aes.cfbEncrypt, key = p.encryptKey.take 16
  cfbDecrypt : ∀ key ∈ p.aes.cfbDecrypt, key = p.decryptKey.take 16

/-- The process after some calls: only the keys that are kept change. -/
def After (p p' : Process) : Prop := p'.Kept ∧ p' = { p with aes := p'.aes }

/-- A call that returns the process as it was. -/
theorem Kept.after_ok {α : Type} {p p' : Process} {x out : α} (h : p.Kept)
    (hok : (.ok (p, x) : Checked (Process × α)) = .ok (p', out)) : p.After p' := by
  obtain ⟨rfl, -⟩ := Prod.mk.inj (Except.ok.inj hok)
  exact ⟨h, rfl⟩

end Process

theorem getD_of_kept {cache : Option Bytes} {key : Bytes} (h : ∀ k ∈ cache, k = key) :
    cache.getD key = key := by
  cases cache with
  | none => rfl
  | some k => exact h k rfl

section Layers

variable {p p' : Process} {stack : Mem} {data : Bytes}

theorem after_cipherEncrypt {out : Bytes} (h : p.Kept)
    (hok : cipherEncrypt P p stack data p.encryptKey = .ok (p', out)) : p.After p' := by
  unfold cipherEncrypt at hok
  split at hok
  · -- CBC
    obtain ⟨rfl, -⟩ := Prod.mk.inj (Except.ok.inj hok)
    refine ⟨⟨h.ecbEncrypt, h.ecbDecrypt, ?_, h.cbcDecrypt, h.cfbEncrypt, h.cfbDecrypt⟩, rfl⟩
    rintro key ⟨⟩
    exact getD_of_kept h.cbcEncrypt
  · -- CFB
    obtain ⟨-, -, hok⟩ := doBind_eq_ok.mp hok
    obtain ⟨rfl, -⟩ := Prod.mk.inj (Except.ok.inj hok)
    refine ⟨⟨?_, h.ecbDecrypt, h.cbcEncrypt, h.cbcDecrypt, ?_, h.cfbDecrypt⟩, rfl⟩
    · rintro key ⟨⟩
      exact getD_of_kept h.ecbEncrypt
    · rintro key ⟨⟩
      exact getD_of_kept h.cfbEncrypt
  · exact h.after_ok hok
  · exact h.after_ok hok
  · exact absurd hok (by simp)

theorem after_cipherDecrypt {out : Option Bytes} (h : p.Kept)
    (hok : cipherDecrypt P p data p.decryptKey = .ok (p', out)) : p.After p' := by
  unfold cipherDecrypt cipherAes128cbcDecrypt cipherAes128cfbDecrypt at hok
  split at hok
  · -- CBC
    split at hok
    · exact h.after_ok hok
    · obtain ⟨rfl, -⟩ := Prod.mk.inj (Except.ok.inj hok)
      refine ⟨⟨h.ecbEncrypt, h.ecbDecrypt, h.cbcEncrypt, ?_, h.cfbEncrypt, h.cfbDecrypt⟩, rfl⟩
      rintro key ⟨⟩
      exact getD_of_kept h.cbcDecrypt
  · -- CFB
    split at hok
    · exact h.after_ok hok
    · obtain ⟨rfl, -⟩ := Prod.mk.inj (Except.ok.inj hok)
      refine ⟨⟨h.ecbEncrypt, ?_, h.cbcEncrypt, h.cbcDecrypt, h.cfbEncrypt, ?_⟩, rfl⟩
      · rintro key ⟨⟩
        exact getD_of_kept h.ecbDecrypt
      · rintro key ⟨⟩
        exact getD_of_kept h.cfbDecrypt
  · exact h.after_ok hok
  · exact h.after_ok hok
  · exact absurd hok (by simp)

end Layers

/-- One call keeps the right keys. -/
theorem Process.Kept.step {p p' : Process} {call : Call} {out : Option Bytes} (h : p.Kept)
    (hok : p.step P call = .ok (p', out)) : p.After p' := by
  cases call with
  | encrypt env data =>
      simp only [Process.step, myEncrypt, encryptAE] at hok
      split at hok
      · exact h.after_ok hok
      split at hok
      · exact h.after_ok hok
      · exact h.after_ok hok
      split at hok
      · obtain ⟨⟨p₁, output⟩, hcipher, hok⟩ := doBind_eq_ok.mp hok
        obtain ⟨rfl, -⟩ := Prod.mk.inj (Except.ok.inj hok)
        rw [show p.cipherKeyEncrypt = p.encryptKey from (if_pos ‹_›).symm] at hcipher
        exact after_cipherEncrypt h hcipher
      · obtain ⟨⟨p₁, output⟩, hcipher, hok⟩ := doBind_eq_ok.mp hok
        obtain ⟨rfl, -⟩ := Prod.mk.inj (Except.ok.inj hok)
        rw [show p.normalKey = p.encryptKey from (if_neg ‹_›).symm] at hcipher
        exact after_cipherEncrypt h hcipher
  | decrypt data =>
      simp only [Process.step, myDecrypt, decryptAE] at hok
      split at hok
      · exact h.after_ok hok
      split at hok
      · exact h.after_ok hok
      · exact h.after_ok hok
      split at hok
      · split at hok
        · exact h.after_ok hok
        · rw [show p.cipherKeyDecrypt = p.decryptKey from (if_pos ‹_›).symm] at hok
          exact after_cipherDecrypt h hok
      · obtain ⟨⟨p₁, output⟩, hcipher, hok⟩ := doBind_eq_ok.mp hok
        obtain ⟨rfl, -⟩ := Prod.mk.inj (Except.ok.inj hok)
        rw [show p.normalKey = p.decryptKey from (if_neg ‹_›).symm] at hcipher
        exact after_cipherDecrypt h hcipher

/-! ## Peers -/

/-- What `q` receives is decrypted with the keys that `p` encrypts with. -/
structure Paired (p q : Process) : Prop where
  cipherMode : q.cipherMode = p.cipherMode
  authMode : q.authMode = p.authMode
  isHmacUsed : q.isHmacUsed = p.isHmacUsed
  normalKey : q.normalKey = p.normalKey
  hmacKey : q.hmacKeyDecrypt = p.hmacKeyEncrypt
  cipherKey : q.cipherKeyDecrypt = p.cipherKeyEncrypt
  normalKey_length : p.normalKey.length = 16
  cipherKey_length : p.cipherKeyEncrypt.length = 64

/-- The length of a ciphertext without AEAD. -/
def CipherMode.cipherLen (mode : CipherMode) (n : Nat) : Nat :=
  if mode = .aes128cbc then (n / 16 + 1) * 16 else n

/-- The length of what `my_encrypt` makes of `n` octets. -/
def messageLen (cipher : CipherMode) (auth : AuthMode) (n : Nat) : Nat :=
  if cipher.isAead then n + 28
  else if auth = .hmacSha1 then cipher.cipherLen n + 20
  else cipher.cipherLen (n + auth.tagLen)

section Round

variable {p q : Process}

theorem Paired.decryptKey_eq (h : Paired p q) : q.decryptKey = p.encryptKey := by
  unfold Process.decryptKey Process.encryptKey
  rw [h.isHmacUsed, h.cipherKey, h.normalKey]

theorem Paired.length_key (h : Paired p q) : (p.encryptKey.take 16).length = 16 := by
  have hnormal := h.normalKey_length
  have hcipher := h.cipherKey_length
  unfold Process.encryptKey
  rw [List.length_take]
  split <;> omega

theorem cbc_round (hP : P.Lawful) (h : Paired p q) (hp : p.Kept) (hq : q.Kept) (stack : Mem)
    (data : Bytes) :
    (cipherAes128cbcEncrypt P p stack data p.encryptKey).2.length = (data.length / 16 + 1) * 16 ∧
      (cipherAes128cbcDecrypt P q (cipherAes128cbcEncrypt P p stack data p.encryptKey).2
        q.decryptKey).2 = some data := by
  obtain ⟨hlen, hround⟩ := hP.cbc (p.encryptKey.take 16) (padding stack data 16) h.length_key
    (by rw [length_padding]; omega)
  unfold cipherAes128cbcEncrypt cipherAes128cbcDecrypt
  dsimp only
  rw [getD_of_kept hp.cbcEncrypt, hlen, length_padding, if_neg (by omega),
    getD_of_kept hq.cbcDecrypt, h.decryptKey_eq, hround, dePadding_padding]
  exact ⟨rfl, rfl⟩

theorem cfb_round (hP : P.Lawful) (h : Paired p q) (hp : p.Kept) (hq : q.Kept) {data : Bytes}
    (hdata : 16 ≤ data.length) :
    ∃ p' out, cipherAes128cfbEncrypt P p data p.encryptKey = .ok (p', out) ∧
      out.length = data.length ∧ (cipherAes128cfbDecrypt P q out q.decryptKey).2 = some data := by
  have hblock : (data.take 16).length = 16 := by
    rw [List.length_take]
    omega
  have hecbKey : (p.cipherKeyEncrypt.take 16).length = 16 := by
    rw [List.length_take, h.cipherKey_length]
    rfl
  obtain ⟨hecbLen, hecb⟩ := hP.ecb (p.cipherKeyEncrypt.take 16) (data.take 16) hecbKey hblock
  obtain ⟨hlen, hround⟩ := hP.cfb (p.encryptKey.take 16)
    (P.ecbEncrypt (p.cipherKeyEncrypt.take 16) (data.take 16) ++ data.drop 16) h.length_key
  rw [List.length_append, hecbLen, List.length_drop, Nat.add_sub_cancel' hdata] at hlen
  unfold cipherAes128cfbEncrypt cipherAes128cfbDecrypt
  rw [check_of hdata]
  dsimp only
  rw [getD_of_kept hp.cfbEncrypt, getD_of_kept hp.ecbEncrypt]
  refine ⟨_, _, rfl, hlen, ?_⟩
  rw [if_neg (by omega), getD_of_kept hq.cfbDecrypt, getD_of_kept hq.ecbDecrypt, h.decryptKey_eq,
    h.cipherKey, hround, List.take_left' hecbLen, List.drop_left' hecbLen, hecb,
    List.take_append_drop]

private theorem exists_of_snd {x : Process × Option Bytes} {data : Bytes} (h : x.2 = some data) :
    ∃ q', (.ok x : Checked (Process × Option Bytes)) = .ok (q', some data) := by
  refine ⟨x.1, ?_⟩
  rw [← h]

/-- The cipher of one side is inverted by that of the other. -/
theorem cipher_round (hP : P.Lawful) (h : Paired p q) (hp : p.Kept) (hq : q.Kept)
    (haead : p.cipherMode.isAead = false) (stack : Mem) {data : Bytes} (hdata : 16 ≤ data.length) :
    ∃ p' out, cipherEncrypt P p stack data p.encryptKey = .ok (p', out) ∧
      out.length = p.cipherMode.cipherLen data.length ∧
      ∃ q', cipherDecrypt P q out q.decryptKey = .ok (q', some data) := by
  unfold cipherEncrypt cipherDecrypt
  rw [h.cipherMode]
  cases hmode : p.cipherMode with
  | none => exact ⟨p, data, rfl, rfl, q, rfl⟩
  | xor =>
      refine ⟨p, cipherXor p.encryptKey data, rfl, length_xorStream _ _ _ _, q, ?_⟩
      dsimp only
      unfold cipherXor
      rw [h.decryptKey_eq, xorStream_xorStream]
  | aes128cbc =>
      obtain ⟨hlen, hround⟩ := cbc_round hP h hp hq stack data
      exact ⟨_, _, rfl, hlen, exists_of_snd hround⟩
  | aes128cfb =>
      obtain ⟨p', out, hok, hlen, hround⟩ := cfb_round hP h hp hq hdata
      exact ⟨p', out, hok, hlen, exists_of_snd hround⟩
  | aes256gcm | chacha20poly1305 =>
      rw [hmode] at haead
      exact absurd haead (by decide)

/-- A message of an AEAD cipher is opened. -/
theorem aead_round (hP : P.Lawful) (h : Paired p q) (aead : Aead) (env : Env) (data : Bytes) :
    (aeadEncrypt P p aead env data).length = data.length + 28 ∧
      aeadDecrypt P q aead (aeadEncrypt P p aead env data) = some data := by
  have hkey : (p.cipherKeyEncrypt.take 32).length = 32 := by
    rw [List.length_take, h.cipherKey_length]
    rfl
  obtain ⟨hlen, htag, hopen⟩ := hP.aead aead (p.cipherKeyEncrypt.take 32) env.nonce data hkey
    env.nonce_length
  have hnonce := env.nonce_length
  unfold aeadEncrypt
  generalize P.aeadSeal aead (p.cipherKeyEncrypt.take 32) env.nonce data = sealedData at *
  obtain ⟨ciphertext, tag⟩ := sealedData
  dsimp only at *
  have htotal : (env.nonce ++ (ciphertext ++ tag)).length = data.length + 28 := by
    rw [List.length_append, List.length_append, hnonce, hlen, htag]
    omega
  refine ⟨htotal, ?_⟩
  unfold aeadDecrypt
  dsimp only
  rw [if_neg (by omega), htotal, List.drop_left' hnonce, List.take_left' hnonce, h.cipherKey,
    List.take_left' (by omega)]
  rw [show data.length + 28 - 16 = (env.nonce ++ ciphertext).length by
    rw [List.length_append, hnonce, hlen]; omega, ← List.append_assoc, List.drop_left]
  exact hopen

theorem Process.After.authMode_eq {p p' : Process} (h : p.After p') : p'.authMode = p.authMode := by
  rw [h.2]

theorem Process.After.hmacKeys_eq {p p' : Process} (h : p.After p') :
    p'.hmacKeyEncrypt = p.hmacKeyEncrypt ∧ p'.hmacKeyDecrypt = p.hmacKeyDecrypt := by
  rw [h.2]
  exact ⟨rfl, rfl⟩

/-- The ciphertext is authenticated. -/
theorem ae_round (hP : P.Lawful) (h : Paired p q) (hp : p.Kept) (hq : q.Kept)
    (haead : p.cipherMode.isAead = false) (hused : p.isHmacUsed = true) (env : Env) {data : Bytes}
    (hdata : 16 ≤ data.length) :
    ∃ p' out, encryptAE P p env data = .ok (p', some out) ∧
      out.length = p.cipherMode.cipherLen data.length + p.authMode.tagLen ∧
      ∃ q', decryptAE P q out = .ok (q', some data) := by
  have hencrypt : p.cipherKeyEncrypt = p.encryptKey := by
    unfold Process.encryptKey
    rw [if_pos hused]
  have hdecrypt : q.cipherKeyDecrypt = q.decryptKey := by
    unfold Process.decryptKey
    rw [h.isHmacUsed, if_pos hused]
  obtain ⟨p', out, hok, hlen, q', hround⟩ := cipher_round hP h hp hq haead env.stack hdata
  have hafter := after_cipherEncrypt hp hok
  have hverify : authVerify P q (authCal P p' out) = some out := by
    apply auth_round hP
    · rw [hafter.authMode_eq, h.authMode]
    · rw [hafter.hmacKeys_eq.1, h.hmacKey]
  unfold encryptAE decryptAE
  rw [hencrypt, hok, hdecrypt]
  refine ⟨p', authCal P p' out, rfl, ?_, q', ?_⟩
  · rw [length_authCal hP, hlen, hafter.authMode_eq]
  · rw [hverify]
    exact hround

/-- The message is authenticated before it is encrypted. -/
theorem plain_round (hP : P.Lawful) (h : Paired p q) (hp : p.Kept) (hq : q.Kept)
    (haead : p.cipherMode.isAead = false) (hused : p.isHmacUsed = false) (env : Env) {data : Bytes}
    (hdata : 16 ≤ data.length) :
    ∃ p' out, cipherEncrypt P p env.stack (authCal P p data) p.normalKey = .ok (p', out) ∧
      out.length = p.cipherMode.cipherLen (data.length + p.authMode.tagLen) ∧
      ∃ q', cipherDecrypt P q out q.normalKey = .ok (q', some (authCal P p data)) ∧
        authVerify P q' (authCal P p data) = some data := by
  have hencrypt : p.normalKey = p.encryptKey := by
    unfold Process.encryptKey
    rw [hused]
    rfl
  have hdecrypt : q.normalKey = q.decryptKey := by
    unfold Process.decryptKey
    rw [h.isHmacUsed, hused]
    rfl
  have hlen := length_authCal hP p data
  obtain ⟨p', out, hok, hout, q', hround⟩ := @cipher_round P p q hP h hp hq haead env.stack
    (authCal P p data) (by omega)
  rw [hlen] at hout
  rw [hencrypt, hdecrypt]
  refine ⟨p', out, hok, hout, q', hround, ?_⟩
  have hafter := after_cipherDecrypt hq hround
  apply auth_round hP
  · rw [hafter.authMode_eq, h.authMode]
  · rw [hafter.hmacKeys_eq.2, h.hmacKey]

/-- What one side encrypts, the other decrypts, in each of the three ways. -/
theorem my_round (hP : P.Lawful) (h : Paired p q) (hp : p.Kept) (hq : q.Kept)
    (hhmac : p.isHmacUsed = decide (p.authMode = .hmacSha1)) (env : Env) {data : Bytes}
    (hdata : 17 ≤ data.length) (hmax : data.length ≤ maxDataLen) :
    ∃ p' out, myEncrypt P p env data = .ok (p', some out) ∧
      out.length = messageLen p.cipherMode p.authMode data.length ∧
      (out.length ≤ maxDataLen → ∃ q', myDecrypt P q out = .ok (q', some data)) := by
  unfold myEncrypt myDecrypt messageLen
  rw [if_neg (not_lt.mpr hmax), h.cipherMode, h.isHmacUsed]
  by_cases haead : p.cipherMode.isAead
  · rw [if_pos haead]
    cases hmode : p.cipherMode with
    | aes256gcm =>
        obtain ⟨hlen, hopen⟩ := aead_round hP h .aes256gcm env data
        refine ⟨_, _, rfl, hlen, fun hout => ⟨q, ?_⟩⟩
        rw [if_neg (not_lt.mpr hout), hopen]
    | chacha20poly1305 =>
        obtain ⟨hlen, hopen⟩ := aead_round hP h .chacha20poly1305 env data
        refine ⟨_, _, rfl, hlen, fun hout => ⟨q, ?_⟩⟩
        rw [if_neg (not_lt.mpr hout), hopen]
    | none | aes128cbc | xor | aes128cfb =>
        rw [hmode] at haead
        exact absurd haead (by decide)
  · rw [if_neg haead]
    have haead' : p.cipherMode.isAead = false := Bool.eq_false_iff.mpr haead
    have hother : p.cipherMode ≠ .aes256gcm ∧ p.cipherMode ≠ .chacha20poly1305 := by
      constructor <;> exact fun heq => haead (by rw [heq]; rfl)
    split
    · exact absurd ‹_› hother.1
    · exact absurd ‹_› hother.2
    by_cases hused : p.isHmacUsed = true
    · have hmode : p.authMode = .hmacSha1 := of_decide_eq_true (hhmac.symm.trans hused)
      obtain ⟨p', out, hok, hlen, q', hround⟩ := @ae_round P p q hP h hp hq haead' hused env data
        (by omega)
      rw [if_pos hused, if_pos hmode]
      refine ⟨p', out, hok, by rw [hlen, hmode]; rfl, fun hout => ⟨q', ?_⟩⟩
      rw [if_neg (not_lt.mpr hout), if_pos hused]
      exact hround
    · have hmode : p.authMode ≠ .hmacSha1 := by
        intro heq
        rw [hhmac] at hused
        exact hused (decide_eq_true heq)
      obtain ⟨p', out, hok, hlen, q', hround, hverify⟩ := @plain_round P p q hP h hp hq haead'
        (Bool.eq_false_iff.mpr hused) env data (by omega)
      rw [if_neg hused, if_neg hmode, hok]
      refine ⟨p', out, rfl, hlen, fun hout => ⟨q', ?_⟩⟩
      rw [if_neg (not_lt.mpr hout), if_neg hused, hround]
      show (.ok (q', _) : Checked _) = _
      rw [Option.bind_some, hverify]

end Round

/-! ## A whole run -/

theorem Process.After.trans {p p' p'' : Process} (h : p.After p') (h' : p'.After p'') :
    p.After p'' := by
  refine ⟨h'.1, ?_⟩
  rw [h'.2, h.2]

/-- Any number of calls keeps the right keys. -/
theorem Process.Kept.reached {p p' : Process} (h : p.Kept)
    (hreached : Reached (Process.step P) (fun _ _ => True) p p') : p.After p' := by
  refine hreached.invariant ?_ ⟨h, rfl⟩
  intro t t' call out hafter _ hstep
  exact hafter.trans (hafter.1.step hstep)

theorem Paired.after {p p' q q' : Process} (h : Paired p q) (hp : p.After p') (hq : q.After q') :
    Paired p' q' := by
  rw [hp.2, hq.2]
  exact ⟨h.cipherMode, h.authMode, h.isHmacUsed, h.normalKey, h.hmacKey, h.cipherKey,
    h.normalKey_length, h.cipherKey_length⟩

/-! ## Keys from a password -/

section Keys

variable {passwd : Bytes} {isClient : Bool} {modes : CipherMode × AuthMode} {p q : Process}

/-- The keys are set up exactly if the password and `key1` fit `tmp`. -/
theorem exists_myInitKeys : (∃ p, myInitKeys P passwd isClient modes = .ok p) ↔
    passwd.length ≤ 995 := by
  constructor
  · rintro ⟨p, hp⟩
    have hfits := (bounds_bind_eq_ok.mp hp).1
    omega
  · intro hfits
    refine ⟨_, bounds_bind_eq_ok.mpr ⟨?_, rfl⟩⟩
    omega

theorem myInitKeys_overrun (hlong : 995 < passwd.length) :
    myInitKeys P passwd isClient modes = .error .outOfBounds := by
  unfold myInitKeys bounds
  rw [if_neg (by omega)]
  rfl

theorem kept_myInitKeys (hp : myInitKeys P passwd isClient modes = .ok p) : p.Kept := by
  obtain ⟨-, hp⟩ := bounds_bind_eq_ok.mp hp
  obtain rfl := Except.ok.inj hp
  constructor <;> exact fun _ hkey => nomatch hkey

theorem modes_myInitKeys (hp : myInitKeys P passwd isClient modes = .ok p) :
    (p.cipherMode, p.authMode) = modes ∧ p.isHmacUsed = decide (p.authMode = .hmacSha1) := by
  obtain ⟨-, hp⟩ := bounds_bind_eq_ok.mp hp
  obtain rfl := Except.ok.inj hp
  exact ⟨rfl, rfl⟩

/-- The keys of the two sides are swapped. -/
theorem paired_myInitKeys (hP : P.Lawful) (hp : myInitKeys P passwd isClient modes = .ok p)
    (hq : myInitKeys P passwd (!isClient) modes = .ok q) : Paired p q := by
  obtain ⟨-, hp⟩ := bounds_bind_eq_ok.mp hp
  obtain ⟨-, hq⟩ := bounds_bind_eq_ok.mp hq
  obtain rfl := Except.ok.inj hp
  obtain rfl := Except.ok.inj hq
  have hnormal := hP.md5_length (passwd ++ ascii "key1")
  refine ⟨rfl, rfl, rfl, rfl, ?_, ?_, hnormal, ?_⟩
  · cases isClient <;>
      simp only [Bool.not_true, Bool.not_false, Bool.false_eq_true, ite_true, ite_false]
  · cases isClient <;>
      simp only [Bool.not_true, Bool.not_false, Bool.false_eq_true, ite_true, ite_false]
  · dsimp only
    split <;> exact hP.hkdfExpand_length _ _

end Keys

/-! ## Main result -/

/-- A password: `key_string` has 1000 octets with the NUL. -/
structure Passwd where
  bytes : Bytes
  noNul : 0 ∉ bytes
  length_le : bytes.length ≤ 999

variable (P) in
/-- `b` decrypts what `a` encrypts. -/
def Understands (a b : Process) : Prop :=
  ∀ (env : Env) (data : Bytes), 17 ≤ data.length → data.length ≤ maxDataLen →
    ∃ a' out, myEncrypt P a env data = .ok (a', some out) ∧
      (out.length ≤ maxDataLen → ∃ b', myDecrypt P b out = .ok (b', some data))

variable (P) in
/-- In all modes a client and a server with this password are set up, and after
any calls each of them decrypts what the other encrypts. -/
def RoundTrips (passwd : Bytes) : Prop :=
  ∀ cipher auth : Int, ∃ client server,
    myInitKeys P passwd true (rawApiInit cipher auth) = .ok client ∧
    myInitKeys P passwd false (rawApiInit cipher auth) = .ok server ∧
    ∀ client' server', Reached (Process.step P) (fun _ _ => True) client client' →
      Reached (Process.step P) (fun _ _ => True) server server' →
      Understands P client' server' ∧ Understands P server' client'

variable (P) in
/-- A process that was set up with a password and modes, after any calls. -/
def Configured (passwd : Bytes) (isClient : Bool) (modes : CipherMode × AuthMode) (p : Process) :
    Prop :=
  ∃ p₀, myInitKeys P passwd isClient modes = .ok p₀ ∧
    Reached (Process.step P) (fun _ _ => True) p₀ p

/-- Two processes that can exchange messages in the given modes. -/
structure Peers (modes : CipherMode × AuthMode) (p q : Process) : Prop where
  paired : Paired p q
  kept : p.Kept
  kept' : q.Kept
  modes_eq : (p.cipherMode, p.authMode) = modes
  isHmacUsed : p.isHmacUsed = decide (p.authMode = .hmacSha1)

theorem peers_of_configured (hP : P.Lawful) {passwd : Bytes} {isClient : Bool}
    {modes : CipherMode × AuthMode} {p q : Process} (hp : Configured P passwd isClient modes p)
    (hq : Configured P passwd (!isClient) modes q) : Peers modes p q := by
  obtain ⟨p₀, hinitP, hreachedP⟩ := hp
  obtain ⟨q₀, hinitQ, hreachedQ⟩ := hq
  have hafterP := (kept_myInitKeys hinitP).reached hreachedP
  have hafterQ := (kept_myInitKeys hinitQ).reached hreachedQ
  have hpaired := (paired_myInitKeys hP hinitP hinitQ).after hafterP hafterQ
  obtain ⟨hmodes, hused⟩ := modes_myInitKeys hinitP
  refine ⟨hpaired, hafterP.1, hafterQ.1, ?_, ?_⟩
  · rw [hafterP.2]
    exact hmodes
  · rw [hafterP.2]
    exact hused

/-- One direction. -/
theorem Peers.understands (hP : P.Lawful) {modes : CipherMode × AuthMode} {p q : Process}
    (h : Peers modes p q) : Understands P p q := by
  intro env data hdata hmax
  obtain ⟨a', out, hok, -, hround⟩ :=
    my_round hP h.paired h.kept h.kept' h.isHmacUsed env hdata hmax
  exact ⟨a', out, hok, hround⟩

/-- Two peers understand each other exactly if their password leaves room for
`key1`. -/
theorem roundTrips_iff (hP : P.Lawful) (passwd : Passwd) :
    RoundTrips P passwd.bytes ↔ passwd.bytes.length ≤ 995 := by
  constructor
  · intro h
    obtain ⟨client, -, hclient, -⟩ := h 0 0
    exact exists_myInitKeys.mp ⟨client, hclient⟩
  · intro hfits cipher auth
    obtain ⟨client, hclient⟩ := exists_myInitKeys.mpr hfits
    obtain ⟨server, hserver⟩ := exists_myInitKeys.mpr hfits
    refine ⟨client, server, hclient, hserver, fun client' server' hclient' hserver' => ?_⟩
    have hc : Configured P passwd.bytes true (rawApiInit cipher auth) client' :=
      ⟨client, hclient, hclient'⟩
    have hs : Configured P passwd.bytes false (rawApiInit cipher auth) server' :=
      ⟨server, hserver, hserver'⟩
    exact ⟨(peers_of_configured hP hc hs).understands hP,
      (peers_of_configured hP hs hc).understands hP⟩

/-! ### The password `secret key` -/

/-- The `n` octets of a number, the first one on top. -/
def octets (n value : Nat) : Bytes :=
  (List.range n).map fun i => UInt8.ofNat (value >>> (8 * (n - 1 - i)))

def defaultSalt : Bytes := octets 16 0xf61c58814c9b70d0e72af000bf1c1046

def defaultPrk : Bytes :=
  octets 32 0xe85f3ac33076f0f12622c6dc702e0da323ddd97f6c562eac2f27df20515ab0a1

/-- The digests and keys that `my_init_keys` computes for the password that
`key_string` starts with, and ciphers that change nothing. -/
def defaultPrimitives : Primitives where
  md5 data :=
    if data = ascii "secret key" ++ ascii "key1" then octets 16 0x6ead9a3ed55af4058a3b112c2a2cf041
    else if data = ascii "udp2raw_salt1" then defaultSalt
    else List.replicate 16 0
  sha1Hmac _ _ := List.replicate 20 0
  pbkdf2 passwd salt :=
    if (passwd, salt) = (ascii "secret key", defaultSalt) then defaultPrk else List.replicate 32 0
  hkdfExpand prk info :=
    if (prk, info) = (defaultPrk, ascii "hmac_key server-->client") then
      octets 32 0x4d8d5881ca933e39e9bbb35e7607116e2d8ff0955ef77bd19c590c14584b4b6d ++
        octets 32 0xb477e2125ffa34ba4620878f14bfba77b5590e6882361545f4e5c950a755d236
    else if (prk, info) = (defaultPrk, ascii "hmac_key client-->server") then
      octets 32 0x1deef3ad7c1780840adeb0f18b35586c2e5a5cb0d12eaeb1073f7e62daa77775 ++
        octets 32 0x7b2143c3f6f387acc886abbdf116c34f5cc789f92e0490bf6856873b5d3fccab
    else if (prk, info) = (defaultPrk, ascii "cipher_key server-->client") then
      octets 32 0x3866cca763a21a2a3a805c0546e2dce4e8ad9084d9e19f67e09f705429d9f880 ++
        octets 32 0x9e39ca7f84d50a7ba53b7960d402fb8f4cd6f9637a620416e45fccd962f50f94
    else if (prk, info) = (defaultPrk, ascii "cipher_key client-->server") then
      octets 32 0xd1e4fc2d0c165470f18502bcf5a2cf113a84ae8c98d84dfa96cf1f3f0b72087f ++
        octets 32 0x371a9db3d0f22b6a90f4ddb1c4320a32cfbf4e77718bb6258c26e7b965227d4d
    else List.replicate 64 0
  ecbEncrypt _ block := block
  ecbDecrypt _ block := block
  cbcEncrypt _ data := data
  cbcDecrypt _ data := data
  cfbEncrypt _ data := data
  cfbDecrypt _ data := data
  aeadSeal _ _ _ data := (data, List.replicate 16 0)
  aeadOpen _ _ _ data tag := if tag = List.replicate 16 0 then some data else none

theorem lawful_defaultPrimitives : defaultPrimitives.Lawful where
  md5_length data := by
    dsimp only [defaultPrimitives]
    split
    · rfl
    · split <;> rfl
  sha1Hmac_length _ _ := rfl
  hkdfExpand_length prk info := by
    dsimp only [defaultPrimitives]
    split
    · rfl
    · split
      · rfl
      · split
        · rfl
        · split <;> rfl
  ecb _ _ _ hblock := ⟨hblock, rfl⟩
  cbc _ _ _ _ := ⟨rfl, rfl⟩
  cfb _ _ _ := ⟨rfl, rfl⟩
  aead _ _ _ _ _ _ := ⟨rfl, rfl, rfl⟩

/-- The peers of the default password, with the ciphers `xor` and `simple`. -/
theorem roundTrips_secretKey : defaultPrimitives.Lawful ∧ ∃ client server,
    myInitKeys defaultPrimitives (ascii "secret key") true (rawApiInit 2 3) = .ok client ∧
      myInitKeys defaultPrimitives (ascii "secret key") false (rawApiInit 2 3) = .ok server ∧
      Understands defaultPrimitives client server ∧
      Understands defaultPrimitives server client := by
  have hround := (roundTrips_iff lawful_defaultPrimitives
    ⟨ascii "secret key", by decide, by decide⟩).mpr (by decide)
  obtain ⟨client, server, hclient, hserver, h⟩ := hround 2 3
  exact ⟨lawful_defaultPrimitives, client, server, hclient, hserver, h _ _ .start .start⟩

/-- With a password of 996 octets `tmp` is overrun. -/
theorem not_roundTrips_of_long : ∃ passwd : Passwd, passwd.bytes.length = 996 ∧
    (∀ isClient modes, myInitKeys defaultPrimitives passwd.bytes isClient modes =
      .error .outOfBounds) ∧
    ¬ RoundTrips defaultPrimitives passwd.bytes := by
  have hlen : (List.replicate 996 (65 : UInt8)).length = 996 := List.length_replicate
  refine ⟨⟨List.replicate 996 65, ?_, by omega⟩, hlen, ?_, ?_⟩
  · intro hmem
    exact absurd (List.eq_of_mem_replicate hmem) (by decide)
  · intro isClient modes
    exact myInitKeys_overrun (by rw [hlen]; decide)
  · intro h
    obtain ⟨client, -, hclient, -⟩ := h 0 0
    have hfits := exists_myInitKeys.mp ⟨client, hclient⟩
    dsimp only at hfits
    omega

end Fecraw.Ports.Encrypt
