import Fecraw.Verified.Bytes
import Fecraw.Verified.Checked

/-!
# Encryption of the raw transport

A port of `encrypt.cpp` and of the part of `raw_api_init` that sets its modes.

The primitives are parameters: MD5, HMAC, the two key derivations, AES and the
AEAD ciphers of OpenSSL.  `Lawful` is what is known of them.  The two short
hashes are translated.

With `aes_key_optimize` a key is only handed to AES at the first call of each
AES function, which keeps it for all later calls.  These keys are part of the
state of a process.

An octet of padding that is not written, and the nonce of an AEAD cipher, are
arguments.  Calls into OpenSSL do not fail.  `aes128cfb_old` is 0: nothing in
the program sets it.  All buffers but one have `buf_len` octets, which is more
than any length here; `tmp` in `my_init_keys` has 1000.
-/

namespace Fecraw.Ports.Encrypt

open Fecraw.Verified Fecraw.Verified.Checked

/-- `max_data_len` of the raw transport. -/
def maxDataLen : Nat := 1800

/-! ## Modes -/

/-- `cipher_mode_t`. -/
inductive CipherMode where
  | none
  | aes128cbc
  | xor
  | aes128cfb
  | aes256gcm
  | chacha20poly1305
deriving Repr, DecidableEq

/-- `auth_mode_t`. -/
inductive AuthMode where
  | none
  | md5
  | crc32
  | simple
  | hmacSha1
deriving Repr, DecidableEq

/-- The ciphers of OpenSSL. -/
inductive Aead where
  | aes256gcm
  | chacha20poly1305
deriving Repr, DecidableEq

/-- `cipher_is_aead`. -/
def CipherMode.isAead : CipherMode → Bool
  | .aes256gcm | .chacha20poly1305 => true
  | _ => false

/-- `cipher_map` of `raw_api_init`, with its default. -/
def cipherMap (mode : Int) : CipherMode :=
  if mode = 0 then .aes128cfb
  else if mode = 1 then .aes128cbc
  else if mode = 2 then .xor
  else if mode = 3 then .none
  else if mode = 4 then .aes256gcm
  else if mode = 5 then .chacha20poly1305
  else .aes128cbc

/-- `auth_map` of `raw_api_init`, with its default. -/
def authMap (mode : Int) : AuthMode :=
  if mode = 0 then .hmacSha1
  else if mode = 1 then .md5
  else if mode = 2 then .crc32
  else if mode = 3 then .simple
  else if mode = 4 then .none
  else .hmacSha1

/-- The modes after `raw_api_init`. -/
def rawApiInit (cipher auth : Int) : CipherMode × AuthMode :=
  (cipherMap cipher, if (cipherMap cipher).isAead then .none else authMap auth)

/-! ## Primitives -/

/-- The primitives.  AES has 128-bit keys and the iv `zero_iv`. -/
structure Primitives where
  md5 : Bytes → Bytes
  sha1Hmac : (key data : Bytes) → Bytes
  /-- `PKCS5_PBKDF2_HMAC_SHA256` with 10000 rounds and 32 octets of output. -/
  pbkdf2 : (passwd salt : Bytes) → Bytes
  /-- `hkdf_sha256_expand` with 64 octets of output. -/
  hkdfExpand : (prk info : Bytes) → Bytes
  ecbEncrypt : (key block : Bytes) → Bytes
  ecbDecrypt : (key block : Bytes) → Bytes
  cbcEncrypt : (key data : Bytes) → Bytes
  cbcDecrypt : (key data : Bytes) → Bytes
  cfbEncrypt : (key data : Bytes) → Bytes
  cfbDecrypt : (key data : Bytes) → Bytes
  /-- The ciphertext and the tag. -/
  aeadSeal : (aead : Aead) → (key nonce data : Bytes) → Bytes × Bytes
  aeadOpen : (aead : Aead) → (key nonce data tag : Bytes) → Option Bytes

/-- What the program relies on: the sizes of digests and keys, and that
decryption inverts encryption under the same key. -/
structure Primitives.Lawful (P : Primitives) : Prop where
  md5_length : ∀ data, (P.md5 data).length = 16
  sha1Hmac_length : ∀ key data, (P.sha1Hmac key data).length = 20
  hkdfExpand_length : ∀ prk info, (P.hkdfExpand prk info).length = 64
  ecb : ∀ key block, key.length = 16 → block.length = 16 →
    (P.ecbEncrypt key block).length = 16 ∧ P.ecbDecrypt key (P.ecbEncrypt key block) = block
  cbc : ∀ key data, key.length = 16 → data.length % 16 = 0 →
    (P.cbcEncrypt key data).length = data.length ∧
      P.cbcDecrypt key (P.cbcEncrypt key data) = data
  cfb : ∀ key data, key.length = 16 → (P.cfbEncrypt key data).length = data.length ∧
    P.cfbDecrypt key (P.cfbEncrypt key data) = data
  aead : ∀ aead key nonce data, key.length = 32 → nonce.length = 12 →
    (P.aeadSeal aead key nonce data).1.length = data.length ∧
      (P.aeadSeal aead key nonce data).2.length = 16 ∧
      P.aeadOpen aead key nonce (P.aeadSeal aead key nonce data).1
        (P.aeadSeal aead key nonce data).2 = some data

/-! ## Keys -/

/-- The octets of a text. -/
def ascii (text : String) : Bytes := text.toList.map fun c => UInt8.ofNat c.toNat

/-- The keys that the AES functions keep. -/
structure AesKeys where
  ecbEncrypt : Option Bytes := none
  ecbDecrypt : Option Bytes := none
  cbcEncrypt : Option Bytes := none
  cbcDecrypt : Option Bytes := none
  cfbEncrypt : Option Bytes := none
  cfbDecrypt : Option Bytes := none

/-- The modes and keys of a process. -/
structure Process where
  cipherMode : CipherMode
  authMode : AuthMode
  isHmacUsed : Bool
  normalKey : Bytes
  hmacKeyEncrypt : Bytes
  hmacKeyDecrypt : Bytes
  cipherKeyEncrypt : Bytes
  cipherKeyDecrypt : Bytes
  aes : AesKeys := {}

variable (P : Primitives)

/-- `my_init_keys`, after `raw_api_init`.  The password and `key1` are joined in
`tmp`, with a NUL. -/
def myInitKeys (passwd : Bytes) (isClient : Bool) (modes : CipherMode × AuthMode) :
    Checked Process := do
  bounds (passwd.length + 4 < 1000)
  let prk := P.pbkdf2 passwd (P.md5 (ascii "udp2raw_salt1"))
  let hmacToClient := P.hkdfExpand prk (ascii "hmac_key server-->client")
  let hmacToServer := P.hkdfExpand prk (ascii "hmac_key client-->server")
  let cipherToClient := P.hkdfExpand prk (ascii "cipher_key server-->client")
  let cipherToServer := P.hkdfExpand prk (ascii "cipher_key client-->server")
  return {
    cipherMode := modes.1
    authMode := modes.2
    isHmacUsed := modes.2 = .hmacSha1
    normalKey := P.md5 (passwd ++ ascii "key1")
    hmacKeyEncrypt := if isClient then hmacToServer else hmacToClient
    hmacKeyDecrypt := if isClient then hmacToClient else hmacToServer
    cipherKeyEncrypt := if isClient then cipherToServer else cipherToClient
    cipherKeyDecrypt := if isClient then cipherToClient else cipherToServer }

/-! ## Authentication -/

/-- One octet of `crc32h`. -/
def crc32hStep (crc : UInt32) (byte : UInt8) : UInt32 :=
  let g0 : UInt32 := 0xEDB88320
  let g6 := (g0 >>> 6) ^^^ g0
  let crc := crc ^^^ byte.toUInt32
  let mask (bit : UInt32) (g : UInt32) : UInt32 := if crc &&& bit = 0 then 0 else g
  (crc >>> 8) ^^^ (mask 1 (g6 >>> 1) ^^^ mask 2 g6 ^^^ mask 4 (g0 >>> 5) ^^^ mask 8 (g0 >>> 4) ^^^
    mask 16 (g0 >>> 3) ^^^ mask 32 (g0 >>> 2) ^^^ mask 64 (g0 >>> 1) ^^^ mask 128 g0)

/-- `crc32h`. -/
def crc32h (message : Bytes) : UInt32 := ~~~ message.foldl crc32hStep 0xFFFFFFFF

/-- `simple_hash`. -/
def simpleHash (str : Bytes) : Bytes :=
  let hash : UInt32 := str.foldl (fun h c => ((h <<< 5) + h) ^^^ c.toUInt32) 5381
  let hash2 : UInt32 := str.foldl (fun h c => c.toUInt32 + (h <<< 6) + (h <<< 16) - h) 0
  writeU32 hash.toNat ++ writeU32 hash2.toNat

/-- A tag is appended. -/
def tagCal (tag : Bytes → Bytes) (data : Bytes) : Bytes := data ++ tag data

/-- A tag of `n` octets is checked and removed. -/
def tagVerify (n : Nat) (tag : Bytes → Bytes) (data : Bytes) : Option Bytes :=
  if data.length < n then none
  else if tag (data.take (data.length - n)) = data.drop (data.length - n) then
    some (data.take (data.length - n))
  else none

def crc32Tag (data : Bytes) : Bytes := writeU32 (crc32h data).toNat

def authMd5Cal (data : Bytes) : Bytes := tagCal P.md5 data
def authMd5Verify (data : Bytes) : Option Bytes := tagVerify 16 P.md5 data
def authCrc32Cal (data : Bytes) : Bytes := tagCal crc32Tag data
def authCrc32Verify (data : Bytes) : Option Bytes := tagVerify 4 crc32Tag data
def authSimpleCal (data : Bytes) : Bytes := tagCal simpleHash data
def authSimpleVerify (data : Bytes) : Option Bytes := tagVerify 8 simpleHash data

def authHmacSha1Cal (key data : Bytes) : Bytes := tagCal (P.sha1Hmac (key.take 20)) data

def authHmacSha1Verify (key data : Bytes) : Option Bytes :=
  tagVerify 20 (P.sha1Hmac (key.take 20)) data

/-- `auth_cal`. -/
def authCal (p : Process) (data : Bytes) : Bytes :=
  match p.authMode with
  | .crc32 => authCrc32Cal data
  | .md5 => authMd5Cal P data
  | .simple => authSimpleCal data
  | .none => data
  | .hmacSha1 => authHmacSha1Cal P p.hmacKeyEncrypt data

/-- `auth_verify`. -/
def authVerify (p : Process) (data : Bytes) : Option Bytes :=
  match p.authMode with
  | .crc32 => authCrc32Verify data
  | .md5 => authMd5Verify P data
  | .simple => authSimpleVerify data
  | .none => some data
  | .hmacSha1 => authHmacSha1Verify P p.hmacKeyDecrypt data

/-! ## Ciphers -/

/-- `cipher_xor_encrypt` and `cipher_xor_decrypt`. -/
def cipherXor (key data : Bytes) : Bytes := xorStream (wrapAt 16) (fun j => key.getD j 0) 0 data

/-- `padding`; what `stack` has between the data and the last octet stays. -/
def padding (stack : Mem) (data : Bytes) (num : Nat) : Bytes :=
  let len := data.length + 1
  let len := if len % num ≠ 0 then len / num * num + num else len
  data ++ stack.read data.length (len - data.length - 1) ++ [UInt8.ofNat (len - data.length)]

/-- `de_padding`. -/
def dePadding (data : Bytes) (num : Nat) : Option Bytes :=
  let last := (data.getD (data.length - 1) 0).toNat
  if data.length = 0 then none
  else if num < last then none
  else if data.length < last then none
  else some (data.take (data.length - last))

/-- `cipher_aes128cbc_encrypt`. -/
def cipherAes128cbcEncrypt (p : Process) (stack : Mem) (data key : Bytes) : Process × Bytes :=
  let key := p.aes.cbcEncrypt.getD (key.take 16)
  ({ p with aes := { p.aes with cbcEncrypt := some key } },
    P.cbcEncrypt key (padding stack data 16))

/-- `cipher_aes128cbc_decrypt`. -/
def cipherAes128cbcDecrypt (p : Process) (data key : Bytes) : Process × Option Bytes :=
  if data.length % 16 ≠ 0 then (p, none)
  else
    let key := p.aes.cbcDecrypt.getD (key.take 16)
    ({ p with aes := { p.aes with cbcDecrypt := some key } },
      dePadding (P.cbcDecrypt key data) 16)

/-- `cipher_aes128cfb_encrypt`: the first block is encrypted on its own before. -/
def cipherAes128cfbEncrypt (p : Process) (data key : Bytes) : Checked (Process × Bytes) := do
  check (16 ≤ data.length)
  let key := p.aes.cfbEncrypt.getD (key.take 16)
  let ecbKey := p.aes.ecbEncrypt.getD (p.cipherKeyEncrypt.take 16)
  return ({ p with aes := { p.aes with cfbEncrypt := some key, ecbEncrypt := some ecbKey } },
    P.cfbEncrypt key (P.ecbEncrypt ecbKey (data.take 16) ++ data.drop 16))

/-- `cipher_aes128cfb_decrypt`. -/
def cipherAes128cfbDecrypt (p : Process) (data key : Bytes) : Process × Option Bytes :=
  if data.length < 16 then (p, none)
  else
    let key := p.aes.cfbDecrypt.getD (key.take 16)
    let ecbKey := p.aes.ecbDecrypt.getD (p.cipherKeyDecrypt.take 16)
    let output := P.cfbDecrypt key data
    ({ p with aes := { p.aes with cfbDecrypt := some key, ecbDecrypt := some ecbKey } },
      some (P.ecbDecrypt ecbKey (output.take 16) ++ output.drop 16))

/-- `cipher_encrypt`. -/
def cipherEncrypt (p : Process) (stack : Mem) (data key : Bytes) : Checked (Process × Bytes) :=
  match p.cipherMode with
  | .aes128cbc => .ok (cipherAes128cbcEncrypt P p stack data key)
  | .aes128cfb => cipherAes128cfbEncrypt P p data key
  | .xor => .ok (p, cipherXor key data)
  | .none => .ok (p, data)
  | _ => .error .assertion

/-- `cipher_decrypt`. -/
def cipherDecrypt (p : Process) (data key : Bytes) : Checked (Process × Option Bytes) :=
  match p.cipherMode with
  | .aes128cbc => .ok (cipherAes128cbcDecrypt P p data key)
  | .aes128cfb => .ok (cipherAes128cfbDecrypt P p data key)
  | .xor => .ok (p, some (cipherXor key data))
  | .none => .ok (p, some data)
  | _ => .error .assertion

/-! ## Messages -/

/-- What one call of `my_encrypt` finds: the contents of its stack, and the nonce
from `RAND_bytes`. -/
structure Env where
  stack : Mem := fun _ => 0
  nonce : Bytes := List.replicate 12 0
  nonce_length : nonce.length = 12 := by rfl

/-- `encrypt_AE`: the ciphertext is authenticated. -/
def encryptAE (p : Process) (env : Env) (data : Bytes) : Checked (Process × Option Bytes) := do
  let (p, output) ← cipherEncrypt P p env.stack data p.cipherKeyEncrypt
  return (p, some (authCal P p output))

/-- `decrypt_AE`. -/
def decryptAE (p : Process) (data : Bytes) : Checked (Process × Option Bytes) :=
  match authVerify P p data with
  | none => .ok (p, none)
  | some data => cipherDecrypt P p data p.cipherKeyDecrypt

/-- `aead_encrypt_openssl`: the nonce, the ciphertext and the tag. -/
def aeadEncrypt (p : Process) (aead : Aead) (env : Env) (data : Bytes) : Bytes :=
  let (ciphertext, tag) := P.aeadSeal aead (p.cipherKeyEncrypt.take 32) env.nonce data
  env.nonce ++ (ciphertext ++ tag)

/-- `aead_decrypt_openssl`. -/
def aeadDecrypt (p : Process) (aead : Aead) (data : Bytes) : Option Bytes :=
  if data.length < 12 + 16 then none
  else
    let ciphertext := (data.drop 12).take (data.length - 12 - 16)
    P.aeadOpen aead (p.cipherKeyDecrypt.take 32) (data.take 12) ciphertext
      (data.drop (data.length - 16))

/-- `my_encrypt`; `none` is the return value -1. -/
def myEncrypt (p : Process) (env : Env) (data : Bytes) : Checked (Process × Option Bytes) :=
  if maxDataLen < data.length then .ok (p, none)
  else
    match p.cipherMode with
    | .aes256gcm => .ok (p, some (aeadEncrypt P p .aes256gcm env data))
    | .chacha20poly1305 => .ok (p, some (aeadEncrypt P p .chacha20poly1305 env data))
    | _ =>
        if p.isHmacUsed then encryptAE P p env data
        else do
          let (p, output) ← cipherEncrypt P p env.stack (authCal P p data) p.normalKey
          return (p, some output)

/-- `my_decrypt`. -/
def myDecrypt (p : Process) (data : Bytes) : Checked (Process × Option Bytes) :=
  if maxDataLen < data.length then .ok (p, none)
  else
    match p.cipherMode with
    | .aes256gcm => .ok (p, aeadDecrypt P p .aes256gcm data)
    | .chacha20poly1305 => .ok (p, aeadDecrypt P p .chacha20poly1305 data)
    | _ =>
        if p.isHmacUsed then decryptAE P p data
        else do
          let (p, output) ← cipherDecrypt P p data p.normalKey
          return (p, output.bind (authVerify P p))

/-- A call that a process makes. -/
inductive Call where
  | encrypt (env : Env) (data : Bytes)
  | decrypt (data : Bytes)

/-- One call. -/
def Process.step (p : Process) : Call → Checked (Process × Option Bytes)
  | .encrypt env data => myEncrypt P p env data
  | .decrypt data => myDecrypt P p data

end Fecraw.Ports.Encrypt
