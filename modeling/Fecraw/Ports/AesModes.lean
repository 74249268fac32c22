import Fecraw.Ports.Aes
import Fecraw.Ports.EncryptPeers
import Fecraw.Verified.Transducer

/-!
# Modes of AES

A port of `aes_crypt_cbc` and `aes_crypt_cfb128` and of the functions of
`wrapper.cpp`, which keep a context in a static variable and set it up when
they are given a key.  The callers in `encrypt.cpp` give the key once.

Both modes are runs of a transducer: over blocks with the chaining block as its
state, and over octets with the feedback register and the offset in it.

## Main results

* `aesCryptCbc_decrypt_encrypt`: messages in CBC mode round trip.
* `aesCryptCfb128_pieces`: a CFB stream may be cut into calls in one way where it
  is encrypted and in another where it is decrypted.
* `Slot.call_eq`: a static context behaves as the key that was given first.
* `lawful_aes128`: with this AES the primitives keep their laws.
-/

namespace Fecraw.Ports.Aes

open Fecraw.Verified
open Transducer (Undoes)
open Fecraw.Ports.Encrypt

/-! ## Modes -/

/-- `POLARSSL_ERR_AES_INVALID_INPUT_LENGTH`. -/
def invalidInputLength : Int := -0x0022

/-- `a[i] ^ b[i]` for 16 octets. -/
def xorBlock (a b : Bytes) : Bytes := (List.range 16).map fun i => a.getD i 0 ^^^ b.getD i 0

/-- One block in CBC mode; the state is `iv`. -/
def cbcStep (ctx : AesContext) (mode : Mode) (iv input : Bytes) : Bytes × Bytes :=
  match mode with
  | .decrypt => (input, xorBlock (aesCryptEcb ctx .decrypt input) iv)
  | .encrypt =>
      let output := aesCryptEcb ctx .encrypt (xorBlock input iv)
      (output, output)

/-- The first `n` blocks of `input`. -/
def blocks (n : Nat) (input : Bytes) : List Bytes :=
  (List.range n).map fun i => (input.drop (16 * i)).take 16

/-- `aes_crypt_cbc` with the length of `input`: the new `iv` and the output. -/
def aesCryptCbc (ctx : AesContext) (mode : Mode) (iv input : Bytes) : Except Int (Bytes × Bytes) :=
  if input.length % 16 ≠ 0 then .error invalidInputLength
  else
    let out := Transducer.run (cbcStep ctx mode) iv (blocks (input.length / 16) input)
    .ok (out.1, out.2.flatten)

/-- One octet in CFB mode; the state is `n` and `iv`. -/
def cfbStep (ctx : AesContext) (mode : Mode) (s : Nat × Bytes) (c : UInt8) :
    (Nat × Bytes) × UInt8 :=
  let (n, iv) := s
  let iv := if n = 0 then aesCryptEcb ctx .encrypt iv else iv
  let output := iv.getD n 0 ^^^ c
  match mode with
  | .decrypt => ((n + 1 &&& 0x0F, iv.set n c), output)
  | .encrypt => ((n + 1 &&& 0x0F, iv.set n output), output)

/-- `aes_crypt_cfb128` with the length of `input`: the new `*iv_off` and `iv`, and
the output. -/
def aesCryptCfb128 (ctx : AesContext) (mode : Mode) (s : Nat × Bytes) (input : Bytes) :
    (Nat × Bytes) × Bytes :=
  Transducer.run (cfbStep ctx mode) s input

/-! ## Static contexts -/

/-- `AES_KEYSIZE`. -/
def aesKeysize : Nat := 128

/-- What `aes_init` leaves. -/
def aesInit : AesContext := ⟨0, []⟩

/-- A context set up with a key; the result of the schedule is not looked at. -/
def contextOf (setkey : Bytes → Nat → Except Int AesContext) (key : Bytes) : AesContext :=
  match setkey key aesKeysize with
  | .ok ctx => ctx
  | .error _ => aesInit

/-- A function of `wrapper.cpp`. -/
structure Buffer where
  setkey : Bytes → Nat → Except Int AesContext
  crypt : AesContext → Bytes → Except Int Bytes

/-- A call, on the static context: without a key the context stays. -/
def Buffer.call (buffer : Buffer) (ctx : AesContext) (key : Option Bytes) (input : Bytes) :
    Checked (AesContext × Bytes) :=
  let ctx := match key with
    | some key => contextOf buffer.setkey key
    | none => ctx
  match buffer.crypt ctx input with
  | .ok output => .ok (ctx, output)
  | .error _ => .error .assertion

def zeroIv : Bytes := List.replicate 16 0

/-- `AES_ECB_encrypt_buffer`. -/
def ecbEncryptBuffer : Buffer :=
  ⟨aesSetkeyEnc, fun ctx input => .ok (aesCryptEcb ctx .encrypt input)⟩

/-- `AES_ECB_decrypt_buffer`. -/
def ecbDecryptBuffer : Buffer :=
  ⟨aesSetkeyDec, fun ctx input => .ok (aesCryptEcb ctx .decrypt input)⟩

/-- `AES_CBC_encrypt_buffer` with `zero_iv`. -/
def cbcEncryptBuffer : Buffer :=
  ⟨aesSetkeyEnc, fun ctx input => (aesCryptCbc ctx .encrypt zeroIv input).map Prod.snd⟩

/-- `AES_CBC_decrypt_buffer` with `zero_iv`. -/
def cbcDecryptBuffer : Buffer :=
  ⟨aesSetkeyDec, fun ctx input => (aesCryptCbc ctx .decrypt zeroIv input).map Prod.snd⟩

/-- `AES_CFB_encrypt_buffer` with `zero_iv`. -/
def cfbEncryptBuffer : Buffer :=
  ⟨aesSetkeyEnc, fun ctx input => .ok (aesCryptCfb128 ctx .encrypt (0, zeroIv) input).2⟩

/-- `AES_CFB_decrypt_buffer` with `zero_iv`: the schedule is that for encryption. -/
def cfbDecryptBuffer : Buffer :=
  ⟨aesSetkeyEnc, fun ctx input => .ok (aesCryptCfb128 ctx .decrypt (0, zeroIv) input).2⟩

/-- The static variables of a call: `first_time` of its caller and `ctx`. -/
structure Slot where
  firstTime : Bool := true
  ctx : AesContext := aesInit

/-- A call with `aes_key_optimize`: the key is given once. -/
def Slot.call (buffer : Buffer) (s : Slot) (key data : Bytes) : Checked (Slot × Bytes) := do
  let (ctx, output) ← buffer.call s.ctx (if s.firstTime then some key else none) data
  return (⟨false, ctx⟩, output)

/-- The output of a first call. -/
def Buffer.first (buffer : Buffer) (key data : Bytes) : Bytes :=
  match buffer.call aesInit (some key) data with
  | .ok (_, output) => output
  | .error _ => []

/-- The primitives with AES as it is in `lib/aes_faster_c`. -/
def aes128 (P : Primitives) : Primitives := { P with
  ecbEncrypt := ecbEncryptBuffer.first
  ecbDecrypt := ecbDecryptBuffer.first
  cbcEncrypt := cbcEncryptBuffer.first
  cbcDecrypt := cbcDecryptBuffer.first
  cfbEncrypt := cfbEncryptBuffer.first
  cfbDecrypt := cfbDecryptBuffer.first }

/-! ## The modes round trip -/

section Modes

variable {keysize : Nat} {key : Bytes} {enc dec : AesContext}

@[simp] theorem length_xorBlock (a b : Bytes) : (xorBlock a b).length = 16 := by
  simp [xorBlock]

theorem xorBlock_xorBlock {a : Bytes} (ha : a.length = 16) (b : Bytes) :
    xorBlock (xorBlock a b) b = a := by
  refine List.ext_getElem (by simp [ha]) fun i hi hi' => ?_
  have hi : i < 16 := by simpa using hi
  have hback : ∀ x y : UInt8, x ^^^ y ^^^ y = x := by
    intro x y
    rw [UInt8.xor_assoc, UInt8.xor_self, UInt8.xor_zero]
  simp [xorBlock, List.getD_eq_getElem?_getD, hi, hi', hback]

/-- One block of CBC mode is undone. -/
theorem cbc_undoes (henc : aesSetkeyEnc key keysize = .ok enc)
    (hdec : aesSetkeyDec key keysize = .ok dec) :
    Undoes (fun iv : Bytes => iv.length = 16) (fun input : Bytes => input.length = 16)
      (cbcStep enc .encrypt) (cbcStep dec .decrypt) where
  inv iv input _ _ := by
    simp only [cbcStep]
    exact length_aesCryptEcb ..
  undo iv input hiv hinput := by
    simp only [cbcStep]
    rw [aesCryptEcb_decrypt_encrypt henc hdec (length_xorBlock ..), xorBlock_xorBlock hinput]

/-- One octet of CFB mode is undone, with the same schedule. -/
theorem cfb_undoes (ctx : AesContext) :
    Undoes (fun _ => True) (fun _ => True) (cfbStep ctx .encrypt) (cfbStep ctx .decrypt) where
  inv _ _ _ _ := trivial
  undo s c _ _ := by
    simp only [cfbStep, ← UInt8.xor_assoc, UInt8.xor_self, UInt8.zero_xor]

theorem length_of_mem_blocks {n : Nat} {input : Bytes} (hlen : input.length = 16 * n) {b : Bytes}
    (hb : b ∈ blocks n input) : b.length = 16 := by
  obtain ⟨i, hi, rfl⟩ := List.mem_map.1 hb
  have hi := List.mem_range.1 hi
  simp only [List.length_take, List.length_drop]
  omega

theorem flatten_blocks {n : Nat} {input : Bytes} (hlen : input.length = 16 * n) :
    (blocks n input).flatten = input := by
  induction n generalizing input with
  | zero =>
      rw [List.eq_nil_of_length_eq_zero (by omega : input.length = 0)]
      rfl
  | succ n ih =>
      have hrest : blocks (n + 1) input = input.take 16 :: blocks n (input.drop 16) := by
        simp only [blocks, List.range_succ_eq_map, List.map_cons, List.map_map, List.drop_drop]
        refine congrArg₂ _ rfl (List.map_congr_left fun i _ => ?_)
        simp only [Function.comp, Nat.mul_succ, Nat.add_comm]
      have hdrop : (input.drop 16).length = 16 * n := by
        rw [List.length_drop, hlen]
        omega
      rw [hrest, List.flatten_cons, ih hdrop, List.take_append_drop]

/-- Blocks are found again. -/
theorem blocks_flatten {l : List Bytes} (hl : ∀ b ∈ l, b.length = 16) :
    blocks l.length l.flatten = l := by
  induction l with
  | nil => rfl
  | cons b l ih =>
      have hb := hl b (List.mem_cons_self ..)
      have hrest := ih fun b' hb' => hl b' (List.mem_cons_of_mem _ hb')
      have hhead : (b ++ l.flatten).take 16 = b := by
        rw [← hb, List.take_left']
        rfl
      have htail : (b ++ l.flatten).drop 16 = l.flatten := by
        rw [← hb, List.drop_left']
        rfl
      rw [List.flatten_cons, List.length_cons, blocks, List.range_succ_eq_map, List.map_cons,
        List.map_map, Nat.mul_zero, List.drop_zero, hhead]
      conv_rhs => rw [← hrest]
      refine congrArg (b :: ·) (List.map_congr_left fun i _ => ?_)
      simp only [Function.comp, Nat.mul_succ, Nat.add_comm, ← List.drop_drop, htail]

theorem length_blocks (n : Nat) (input : Bytes) : (blocks n input).length = n := by
  simp [blocks]

/-- Blocks of 16 octets put out by CBC mode. -/
theorem length_cbcStep (ctx : AesContext) (iv : Bytes) (l : List Bytes) :
    ∀ b ∈ (Transducer.run (cbcStep ctx .encrypt) iv l).2, b.length = 16 := by
  induction l generalizing iv with
  | nil => simp
  | cons a l ih =>
      rw [Transducer.run_cons]
      intro b hb
      rcases List.mem_cons.1 hb with rfl | hb
      · exact length_aesCryptEcb ..
      · exact ih _ b hb

theorem length_flatten_blocks {l : List Bytes} (hl : ∀ b ∈ l, b.length = 16) :
    l.flatten.length = 16 * l.length := by
  have hmap : l.map List.length = List.replicate l.length 16 := by
    rw [List.eq_replicate_iff]
    exact ⟨List.length_map .., fun n hn => by
      obtain ⟨b, hb, rfl⟩ := List.mem_map.1 hn
      exact hl b hb⟩
  rw [List.length_flatten, hmap, List.sum_replicate, smul_eq_mul, Nat.mul_comm]

/-- **CBC mode round trips**, with the same chaining block afterwards. -/
theorem aesCryptCbc_decrypt_encrypt (henc : aesSetkeyEnc key keysize = .ok enc)
    (hdec : aesSetkeyDec key keysize = .ok dec) {iv input : Bytes} (hiv : iv.length = 16)
    (hinput : input.length % 16 = 0) :
    ∃ iv' output, aesCryptCbc enc .encrypt iv input = .ok (iv', output) ∧
      output.length = input.length ∧ aesCryptCbc dec .decrypt iv output = .ok (iv', input) := by
  have hlen : input.length = 16 * (input.length / 16) := by omega
  have hblocks := fun b => length_of_mem_blocks (b := b) hlen
  have hout := length_cbcStep enc iv (blocks (input.length / 16) input)
  have hlenOut := length_flatten_blocks hout
  rw [Transducer.length_run, length_blocks, ← hlen] at hlenOut
  have hback := Transducer.run_run (cbc_undoes henc hdec) hiv hblocks
  have hfound := blocks_flatten hout
  rw [Transducer.length_run, length_blocks] at hfound
  refine ⟨_, _, by rw [aesCryptCbc, if_neg (by omega)], hlenOut, ?_⟩
  rw [aesCryptCbc, if_neg (by omega), hlenOut, hfound, hback]
  dsimp only
  rw [flatten_blocks hlen]

/-- **A CFB stream in pieces**: what one side encrypts call by call, the other side
decrypts, however the stream is cut into its calls. -/
theorem aesCryptCfb128_pieces (ctx : AesContext) (s : Nat × Bytes) (pieces received : List Bytes)
    (hsame : received.flatten = (Transducer.run (aesCryptCfb128 ctx .encrypt) s pieces).2.flatten) :
    (Transducer.run (aesCryptCfb128 ctx .decrypt) s received).1
        = (Transducer.run (aesCryptCfb128 ctx .encrypt) s pieces).1 ∧
      (Transducer.run (aesCryptCfb128 ctx .decrypt) s received).2.flatten = pieces.flatten :=
  Transducer.runs_runs (cfb_undoes ctx) trivial (fun _ _ _ _ => trivial) hsame

/-- Three octets in two calls, received in one. -/
theorem aesCryptCfb128_pieces_three :
    (Transducer.run (aesCryptCfb128 aesInit .decrypt) (0, zeroIv)
      [(Transducer.run (aesCryptCfb128 aesInit .encrypt) (0, zeroIv)
        [[1, 2], [3]]).2.flatten]).2.flatten = [1, 2, 3] :=
  (aesCryptCfb128_pieces aesInit (0, zeroIv) [[1, 2], [3]] _
    (List.flatten_singleton ..)).2

end Modes

/-! ## Static contexts -/

/-- The state of the static variables after the key `kept` was given. -/
def Slot.Keeps (buffer : Buffer) (s : Slot) : Option Bytes → Prop
  | none => s = {}
  | some key => s = ⟨false, contextOf buffer.setkey key⟩

theorem Buffer.call_some (buffer : Buffer) (ctx : AesContext) (key input : Bytes) :
    buffer.call ctx (some key) input
      = match buffer.crypt (contextOf buffer.setkey key) input with
        | .ok output => .ok (contextOf buffer.setkey key, output)
        | .error _ => .error .assertion := rfl

/-- A call on a static context is a first call with the key that was given first. -/
theorem Slot.call_eq {buffer : Buffer} {s : Slot} {kept : Option Bytes} (h : s.Keeps buffer kept)
    (key data : Bytes) : s.call buffer key data
      = (buffer.call aesInit (some (kept.getD key)) data).map fun r =>
          (⟨false, contextOf buffer.setkey (kept.getD key)⟩, r.2) := by
  have hcall : s.call buffer key data = (buffer.call aesInit (some (kept.getD key)) data).map
      fun r => (⟨false, r.1⟩, r.2) := by
    cases kept with
    | none => obtain rfl := h; rfl
    | some key => obtain rfl := h; rfl
  rw [hcall, Buffer.call_some]
  cases buffer.crypt (contextOf buffer.setkey (kept.getD key)) data <;> rfl

theorem Slot.run_cons {buffer : Buffer} {s : Slot} {kept : Option Bytes} (h : s.Keeps buffer kept)
    (c : Bytes × Bytes) (calls : List (Bytes × Bytes)) {key : Bytes} (hkey : kept.getD c.1 = key) :
    run (fun s c => Slot.call buffer s c.1 c.2) s (c :: calls)
      = (buffer.call aesInit (some key) c.2).bind fun r =>
          (run (fun s c => Slot.call buffer s c.1 c.2) ⟨false, contextOf buffer.setkey key⟩
            calls).map fun t => (t.1, r.2 :: t.2) := by
  rw [run, Slot.call_eq h, hkey]
  cases buffer.call aesInit (some key) c.2 with
  | error e => rfl
  | ok r =>
      dsimp only [Except.map, Except.bind]

/-- **The calls of a process**: each of them is a first call with the key of the
very first one. -/
theorem Slot.run_eq (buffer : Buffer) (key data : Bytes) (calls : List (Bytes × Bytes)) :
    run (fun s c => Slot.call buffer s c.1 c.2) {} ((key, data) :: calls)
      = (((key, data) :: calls).mapM fun c =>
          (buffer.call aesInit (some key) c.2).map Prod.snd).map fun outputs =>
            (⟨false, contextOf buffer.setkey key⟩, outputs) := by
  have hcons : ∀ (s : Slot) (kept : Option Bytes), s.Keeps buffer kept →
      ∀ (calls : List (Bytes × Bytes)) (c : Bytes × Bytes), kept.getD c.1 = key →
        run (fun s c => Slot.call buffer s c.1 c.2) s (c :: calls)
        = ((c :: calls).mapM fun c => (buffer.call aesInit (some key) c.2).map Prod.snd).map
            fun outputs => (⟨false, contextOf buffer.setkey key⟩, outputs) := by
    intro s kept h calls
    induction calls generalizing s kept with
    | nil =>
        intro c hkey
        rw [Slot.run_cons h c [] hkey]
        cases hc : buffer.call aesInit (some key) c.2 <;> simp [hc, Except.map, Except.bind]
    | cons d calls ih =>
        intro c hkey
        rw [Slot.run_cons h c _ hkey, List.mapM_cons, ih _ (some key) rfl d rfl]
        cases buffer.call aesInit (some key) c.2 with
        | error e => rfl
        | ok r =>
            cases (d :: calls).mapM fun c =>
              (buffer.call aesInit (some key) c.2).map Prod.snd <;> rfl
  exact hcons {} none rfl calls (key, data) rfl

/-! ## The primitives -/

section Lawful

variable {key data : Bytes}

theorem aesSetkeyEnc_aesKeysize (key : Bytes) :
    aesSetkeyEnc key aesKeysize = .ok (contextOf aesSetkeyEnc key) := by
  obtain ⟨ctx, hctx⟩ := (aesSetkeyEnc_isOk_iff key aesKeysize).2 (Or.inl rfl)
  rw [contextOf, hctx]

theorem aesSetkeyDec_aesKeysize (key : Bytes) :
    aesSetkeyDec key aesKeysize = .ok (contextOf aesSetkeyDec key) := by
  have hdec : ∃ ctx, aesSetkeyDec key aesKeysize = .ok ctx := by
    rw [aesSetkeyDec, aesSetkeyEnc_aesKeysize]
    exact ⟨_, rfl⟩
  obtain ⟨ctx, hctx⟩ := hdec
  rw [contextOf, hctx]

/-- **The laws hold with this AES**, given those of the other primitives. -/
theorem lawful_aes128 {P : Primitives} (hP : P.Lawful) : (aes128 P).Lawful where
  md5_length := hP.md5_length
  sha1Hmac_length := hP.sha1Hmac_length
  hkdfExpand_length := hP.hkdfExpand_length
  aead := hP.aead
  ecb key block _ hblock :=
    ⟨length_aesCryptEcb .., aesCryptEcb_decrypt_encrypt (aesSetkeyEnc_aesKeysize key)
      (aesSetkeyDec_aesKeysize key) hblock⟩
  cbc key data _ hdata := by
    obtain ⟨iv', output, hout, hlen, hback⟩ := aesCryptCbc_decrypt_encrypt
      (aesSetkeyEnc_aesKeysize key) (aesSetkeyDec_aesKeysize key) (rfl : zeroIv.length = 16)
      hdata
    have hfirst : (aes128 P).cbcEncrypt key data = output := by
      simp only [aes128, Buffer.first, Buffer.call, cbcEncryptBuffer, hout, Except.map]
    have hsecond : (aes128 P).cbcDecrypt key output = data := by
      simp only [aes128, Buffer.first, Buffer.call, cbcDecryptBuffer, hback, Except.map]
    rw [hfirst]
    exact ⟨hlen, hsecond⟩
  cfb key data _ := by
    have hrun := Transducer.run_run (cfb_undoes (contextOf aesSetkeyEnc key)) (s := (0, zeroIv))
      trivial (l := data) fun _ _ => trivial
    exact ⟨Transducer.length_run .., congrArg Prod.snd hrun⟩

end Lawful

/-- **Peers with this AES** understand each other in every mode, after any calls. -/
theorem understands_aes128 {P : Primitives} (hP : P.Lawful) {passwd : Bytes} {isClient : Bool}
    {modes : CipherMode × AuthMode} {p q : Process}
    (hp : Configured (aes128 P) passwd isClient modes p)
    (hq : Configured (aes128 P) passwd (!isClient) modes q) : Understands (aes128 P) p q :=
  (peers_of_configured (lawful_aes128 hP) hp hq).understands (lawful_aes128 hP)

/-- A client and a server with `aes128cbc` and `hmac_sha1`. -/
theorem understands_aes128_cbc : ∃ client server,
    myInitKeys (aes128 defaultPrimitives) (ascii "secret key") true (rawApiInit 1 0) = .ok client ∧
      myInitKeys (aes128 defaultPrimitives) (ascii "secret key") false (rawApiInit 1 0)
        = .ok server ∧ Understands (aes128 defaultPrimitives) client server := by
  have hfits : (ascii "secret key").length ≤ 995 := by decide
  obtain ⟨client, hclient⟩ := exists_myInitKeys.mpr hfits
  obtain ⟨server, hserver⟩ := exists_myInitKeys.mpr hfits
  exact ⟨client, server, hclient, hserver, understands_aes128 lawful_defaultPrimitives
    (⟨client, hclient, .start⟩ : Configured _ _ true _ client) ⟨server, hserver, .start⟩⟩

end Fecraw.Ports.Aes
