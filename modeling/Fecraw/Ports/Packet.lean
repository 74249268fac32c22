import Fecraw.Verified.Bytes

/-!
# Cooking and de-cooking tunnel datagrams

A port of `packet.cpp`.  Every datagram of the tunnel is *cooked* before it
is handed to the raw transport: a CRC-32 is appended, the result is
obscured with a random iv whose length is the last octet, and
the whole is XORed with the key string.  The receiver undoes the three
layers in the opposite order.

The CRC is a parameter of this module: nothing here depends on which
function of the bytes it is.  `crc32Bitwise` is the table-free algorithm of
`Crc32.cpp`, for evaluation.

A receive buffer is longer than the datagram in it.  `deObscure` takes what
the array holds past the datagram as a separate argument, because the code
does not bound the addresses it reads by the datagram's length.

## Main results

* `deCook_doCook`: de-cooking inverts cooking for every key, every iv that
  `do_obscure` can draw and every setting of the three `disable` flags.
* `length_doCook`: what cooking adds to the length.
-/

namespace Fecraw.Ports.Packet

open Fecraw.Verified

/-- `max_data_len` of the FEC side of the program. -/
def maxDataLen : Nat := 3600

/-- `buf_len` of the FEC side of the program. -/
def bufLen : Nat := maxDataLen + 200

/-- `iv_min` and `iv_max`. -/
def ivMin : Nat := 4

/-- Upper bound of the iv length, inclusive. -/
def ivMax : Nat := 32

/-- What one call of `do_obscure` draws: `random_between(iv_min, iv_max)`
octets. -/
structure Iv where
  bytes : Bytes
  min_le : ivMin ≤ bytes.length
  le_max : bytes.length ≤ ivMax

/-- The globals `cook` depends on.  Nothing in this program sets the three
flags. -/
structure CookPar where
  key : Bytes := []
  disableChecksum : Bool := false
  disableObscure : Bool := false
  disableXor : Bool := false

/-! ## The key layer -/

/-- The cursor of `encrypt_0`: back to the first octet of the key when it
stands on the terminating NUL. -/
def keyWrap (key : Bytes) (j : Nat) : Nat :=
  if key.getD j 0 = 0 then 0 else j

/-- The common body of `encrypt_0` and `decrypt_0`: octets past the end of
`key` are the NUL of the C string. -/
def keyXor (key input : Bytes) : Bytes :=
  if key.getD 0 0 = 0 then input
  else xorStream (keyWrap key) (fun j => key.getD j 0) 0 input

def encrypt0 (key input : Bytes) : Bytes := keyXor key input

def decrypt0 (key input : Bytes) : Bytes := keyXor key input

@[simp] theorem length_encrypt0 (key input : Bytes) :
    (encrypt0 key input).length = input.length := by
  unfold encrypt0 keyXor
  split <;> simp

theorem decrypt0_encrypt0 (key input : Bytes) :
    decrypt0 key (encrypt0 key input) = input := by
  unfold decrypt0 encrypt0 keyXor
  split
  · rfl
  · exact xorStream_xorStream _ _ input 0

/-! ## The iv layer -/

/-- `do_obscure`; `none` is the failed assertion on the length. -/
def doObscure (iv : Iv) (data : Bytes) : Option Bytes :=
  if data.length < bufLen then
    some (xorStream (wrapAt iv.bytes.length) (fun j => iv.bytes.getD j 0) 0 data
      ++ iv.bytes ++ [UInt8.ofNat iv.bytes.length])
  else none

/-- Octet `i` of a receive array that holds the datagram `data` and, past
it, the octets `stale`. -/
def byteAt (stale : Mem) (data : Bytes) (i : Nat) : UInt8 :=
  if i < data.length then data.getD i 0 else stale i

/-- `de_obscure`; `none` is the return value `-1`. -/
def deObscure (stale : Mem) (data : Bytes) : Option Bytes :=
  if data.length < 1 then none
  else
    let ivLen := (data.getD (data.length - 1) 0).toNat
    if data.length < 1 + ivLen then none
    else
      let len := data.length - 1 - ivLen
      some (xorStream (wrapAt ivLen) (fun j => byteAt stale data (len + j)) 0
        (data.take len))

private theorem obscured_last (body iv : Bytes) (hiv : iv.length < 256) :
    ((body ++ iv ++ [UInt8.ofNat iv.length]).getD
      ((body ++ iv ++ [UInt8.ofNat iv.length]).length - 1) 0).toNat = iv.length := by
  have hlast : (body ++ iv ++ [UInt8.ofNat iv.length]).length - 1
      = (body ++ iv).length := by simp
  rw [hlast, List.getD_eq_getElem?_getD, List.getElem?_append_right (Nat.le_refl _)]
  simp [Nat.mod_eq_of_lt hiv]

private theorem obscured_iv (stale : Mem) (body iv : Bytes) (t : UInt8) (j : Nat)
    (hj : j < iv.length) :
    byteAt stale (body ++ iv ++ [t]) (body.length + j) = iv.getD j 0 := by
  unfold byteAt
  rw [if_pos (by simp; omega), List.append_assoc, List.getD_eq_getElem?_getD,
    List.getElem?_append_right (by omega), Nat.add_sub_cancel_left,
    List.getElem?_append_left hj, List.getD_eq_getElem?_getD]

/-- The iv layer is inverted whatever the array holds past the datagram: the
iv is at least four octets long, so the cursor never leaves it. -/
theorem deObscure_doObscure (stale : Mem) (iv : Iv) {data out : Bytes}
    (h : doObscure iv data = some out) : deObscure stale out = some data := by
  have hmin : ivMin ≤ iv.bytes.length := iv.min_le
  have hmax : iv.bytes.length ≤ ivMax := iv.le_max
  unfold ivMin at hmin
  unfold ivMax at hmax
  unfold doObscure at h
  split at h
  · obtain rfl := Option.some.inj h
    clear h
    set body := xorStream (wrapAt iv.bytes.length) (fun j => iv.bytes.getD j 0) 0 data
      with hbody
    have hlen : body.length = data.length := by rw [hbody, length_xorStream]
    have hiv := obscured_last body iv.bytes (by omega)
    unfold deObscure
    rw [if_neg (by simp)]
    simp only [hiv]
    rw [if_neg (by simp; omega)]
    have hcut : (body ++ iv.bytes ++ [UInt8.ofNat iv.bytes.length]).length - 1
        - iv.bytes.length = body.length := by
      simp only [List.length_append, List.length_cons, List.length_nil]
      omega
    rw [hcut]
    have htake : (body ++ iv.bytes ++ [UInt8.ofNat iv.bytes.length]).take body.length
        = body := by
      rw [List.append_assoc, List.take_left' rfl]
    rw [htake, xorStream_wrapAt_congr (by omega)
      (fun j hj => obscured_iv stale body iv.bytes _ j hj) body 0 (by omega),
      hbody, xorStream_xorStream]
  · exact absurd h (by simp)

/-! ## The checksum layer -/

section Crc

variable (crc : Bytes → UInt32)

/-- `put_crc32`. -/
def putCrc32 (par : CookPar) (s : Bytes) : Bytes :=
  if par.disableChecksum then s else s ++ writeU32 (crc s).toNat

/-- `rm_crc32`; `none` is the return value `-1`. -/
def rmCrc32 (par : CookPar) (s : Bytes) : Option Bytes :=
  if par.disableChecksum then some s
  else if s.length < 4 then none
  else
    let body := s.take (s.length - 4)
    if UInt32.ofNat (readU32 (s.drop (s.length - 4))) = crc body then some body
    else none

theorem rmCrc32_putCrc32 (par : CookPar) (s : Bytes) :
    rmCrc32 crc par (putCrc32 crc par s) = some s := by
  unfold rmCrc32 putCrc32
  split
  · rfl
  · have hcut : (s ++ writeU32 (crc s).toNat).length - 4 = s.length := by simp
    rw [if_neg (by simp)]
    simp only [hcut, List.take_left' rfl, List.drop_left' rfl]
    have hread := ofNat_readU32_writeU32 (crc s) []
    rw [List.append_nil] at hread
    rw [if_pos hread]

/-! ## The whole stack -/

/-- `do_cook` with the iv that this call draws. -/
def doCook (par : CookPar) (iv : Iv) (data : Bytes) : Option Bytes := do
  let data ← (if par.disableObscure then some (putCrc32 crc par data)
    else doObscure iv (putCrc32 crc par data))
  return if par.disableXor then data else encrypt0 par.key data

/-- `de_cook` on a receive array that holds `stale` past the datagram. -/
def deCook (par : CookPar) (stale : Mem) (s : Bytes) : Option Bytes := do
  let s := if par.disableXor then s else decrypt0 par.key s
  let s ← (if par.disableObscure then some s else deObscure stale s)
  rmCrc32 crc par s

/-- De-cooking inverts cooking. -/
theorem deCook_doCook (par : CookPar) (iv : Iv) (stale : Mem) {data out : Bytes}
    (h : doCook crc par iv data = some out) :
    deCook crc par stale out = some data := by
  unfold doCook at h
  obtain ⟨mid, hmid, hout⟩ := Option.bind_eq_some_iff.mp h
  have hxor : (if par.disableXor then out else decrypt0 par.key out) = mid := by
    cases hx : par.disableXor <;> simp [hx, Option.pure_def] at hout <;> subst hout
    · simp [decrypt0_encrypt0]
    · rfl
  have hiv : (if par.disableObscure then some mid else deObscure stale mid)
      = some (putCrc32 crc par data) := by
    cases ho : par.disableObscure <;> simp [ho] at hmid
    · simpa using deObscure_doObscure stale iv hmid
    · simp [hmid]
  unfold deCook
  simp only [hxor, hiv, Option.bind_eq_bind, Option.bind_some]
  exact rmCrc32_putCrc32 crc par data

/-- With the three layers switched on, cooking adds the checksum, the iv and
the iv length. -/
theorem length_doCook (key : Bytes) (iv : Iv) {data out : Bytes}
    (h : doCook crc { key := key } iv data = some out) :
    out.length = data.length + 4 + iv.bytes.length + 1 := by
  unfold doCook at h
  obtain ⟨mid, hmid, hout⟩ := Option.bind_eq_some_iff.mp h
  simp only [Bool.false_eq_true, if_false, putCrc32, doObscure] at hmid
  split at hmid
  · obtain rfl := Option.some.inj hmid
    obtain rfl := Option.some.inj hout
    simp [Nat.add_assoc]
  · exact absurd hmid (by simp)

/-- Cooking succeeds on everything that leaves room for the checksum. -/
theorem exists_doCook (par : CookPar) (iv : Iv) {data : Bytes} (h : data.length + 4 < bufLen) :
    ∃ out, doCook crc par iv data = some out := by
  have hput : (putCrc32 crc par data).length < bufLen := by
    unfold putCrc32
    split
    · omega
    · rw [List.length_append, length_writeU32]
      exact h
  unfold doCook
  cases par.disableObscure
  · rw [if_neg (by simp), doObscure, if_pos hput]
    exact ⟨_, rfl⟩
  · exact ⟨_, rfl⟩

/-- Whatever is switched on, cooking adds at most the checksum, the iv and the
iv length. -/
theorem length_of_doCook {par : CookPar} {iv : Iv} {data out : Bytes}
    (h : doCook crc par iv data = some out) :
    data.length ≤ out.length ∧ out.length ≤ data.length + 4 + ivMax + 1 := by
  have hmax : iv.bytes.length ≤ ivMax := iv.le_max
  unfold doCook at h
  obtain ⟨mid, hmid, hout⟩ := Option.bind_eq_some_iff.mp h
  have hput : data.length ≤ (putCrc32 crc par data).length ∧
      (putCrc32 crc par data).length ≤ data.length + 4 := by
    unfold putCrc32
    split
    · omega
    · rw [List.length_append, length_writeU32]
      omega
  have hcut : mid.length = out.length := by
    obtain rfl := Option.some.inj hout
    split
    · rfl
    · exact (length_encrypt0 _ _).symm
  unfold doObscure at hmid
  split at hmid
  · obtain rfl := Option.some.inj hmid
    omega
  · split at hmid
    · obtain rfl := Option.some.inj hmid
      simp only [List.length_append, length_xorStream, List.length_singleton] at hcut
      omega
    · exact absurd hmid (by simp)

end Crc

/-! ## A concrete checksum -/

/-- One bit of `crc32_bitwise`. -/
def crc32Bit (crc : UInt32) : UInt32 :=
  (crc >>> 1) ^^^ (if crc &&& 1 = 1 then 0xEDB88320 else 0)

/-- `crc32_bitwise` with `previousCrc32 = 0`. -/
def crc32Bitwise (data : Bytes) : UInt32 :=
  ~~~ data.foldl (fun crc b => Nat.iterate crc32Bit 8 (crc ^^^ b.toUInt32)) (~~~ 0)

end Fecraw.Ports.Packet
