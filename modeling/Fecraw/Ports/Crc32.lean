import Fecraw.Ports.Crc32Table
import Fecraw.Ports.Encrypt
import Fecraw.Ports.Packet

/-!
# The checksums of `Crc32.cpp`

The algorithms of the file, from the bitwise one to the one that takes 64 octets
a pass, `crc32_combine`, and udp2raw's `crc32h`.  The variant that prefetches is
left out.  The machine is little-endian.

## Main results

* `algorithms_agree`: the algorithms compute the bitwise one.
* `crc32Combine_eq`: the checksum of two blocks from theirs.
* `rmCrc32_eq_none`: `rm_crc32` drops a datagram with a burst of errors or two
  wrong bits in front of its checksum.
-/

namespace Fecraw.Ports.Crc32

open Fecraw.Verified

/-! ## The algorithms -/

/-- A pass of the inner loop of `crc32_bitwise`. -/
def bitwiseBit (crc : UInt32) : UInt32 := (crc >>> 1) ^^^ ((0 - (crc &&& 1)) &&& polynomial)

/-- `crc32_bitwise`. -/
def crc32Bitwise (data : Bytes) (previousCrc32 : UInt32) : UInt32 :=
  ~~~ data.foldl (fun crc current => bitwiseBit^[8] (crc ^^^ current.toUInt32)) (~~~ previousCrc32)

/-- `Crc32Lookup16`. -/
def crc32Lookup16 : List UInt32 :=
  [ 0x00000000, 0x1DB71064, 0x3B6E20C8, 0x26D930AC, 0x76DC4190, 0x6B6B51F4, 0x4DB26158, 0x5005713C,
    0xEDB88320, 0xF00F9344, 0xD6D6A3E8, 0xCB61B38C, 0x9B64C2B0, 0x86D3D2D4, 0xA00AE278, 0xBDBDF21C ]

/-- A pass of `crc32_halfbyte`. -/
def halfByteStep (crc : UInt32) (current : UInt8) : UInt32 :=
  let crc := crc32Lookup16.getD ((crc ^^^ current.toUInt32) &&& 0x0F).toNat 0 ^^^ (crc >>> 4)
  crc32Lookup16.getD ((crc ^^^ (current.toUInt32 >>> 4)) &&& 0x0F).toNat 0 ^^^ (crc >>> 4)

/-- `crc32_halfbyte`. -/
def crc32HalfByte (data : Bytes) (previousCrc32 : UInt32) : UInt32 :=
  ~~~ data.foldl halfByteStep (~~~ previousCrc32)

/-- A pass of `crc32_1byte`. -/
def byteStep (crc : UInt32) (current : UInt8) : UInt32 :=
  (crc >>> 8) ^^^ crc32Lookup 0 ((crc &&& 0xFF) ^^^ current.toUInt32)

/-- `crc32_1byte`. -/
def crc321Byte (data : Bytes) (previousCrc32 : UInt32) : UInt32 :=
  ~~~ data.foldl byteStep (~~~ previousCrc32)

/-- What `crc32_1byte_tableless` has in the place of the table. -/
def tableless (s : UInt8) : UInt32 :=
  let low := (s.toUInt32 ^^^ (s.toUInt32 <<< 6)) &&& 0xFF
  let a := low * UInt32.ofNat ((1 <<< 23) + (1 <<< 14) + (1 <<< 2))
  (low * UInt32.ofNat ((1 <<< 24) + (1 <<< 16) + (1 <<< 8))) ^^^ a ^^^ (a >>> 1)
    ^^^ (low * UInt32.ofNat ((1 <<< 20) + (1 <<< 12))) ^^^ (low <<< 19) ^^^ (low <<< 17)
    ^^^ (low >>> 2)

/-- `crc32_1byte_tableless`. -/
def crc321ByteTableless (data : Bytes) (previousCrc32 : UInt32) : UInt32 :=
  ~~~ data.foldl (fun crc current => (crc >>> 8) ^^^ tableless (crc.toUInt8 ^^^ current))
    (~~~ previousCrc32)

/-- A pass of `crc32_1byte_tableless2`.  The register is signed, and its right
shifts repeat the sign. -/
def tableless2Step (crc : Int32) (current : UInt8) : Int32 :=
  let crc := crc ^^^ current.toUInt32.toInt32
  let c := (((crc <<< 31) >>> 31).toUInt32 &&& ((polynomial >>> 7) ^^^ (polynomial >>> 1)))
    ^^^ (((crc <<< 30) >>> 31).toUInt32 &&& ((polynomial >>> 6) ^^^ polynomial))
    ^^^ (((crc <<< 29) >>> 31).toUInt32 &&& (polynomial >>> 5))
    ^^^ (((crc <<< 28) >>> 31).toUInt32 &&& (polynomial >>> 4))
    ^^^ (((crc <<< 27) >>> 31).toUInt32 &&& (polynomial >>> 3))
    ^^^ (((crc <<< 26) >>> 31).toUInt32 &&& (polynomial >>> 2))
    ^^^ (((crc <<< 25) >>> 31).toUInt32 &&& (polynomial >>> 1))
    ^^^ (((crc <<< 24) >>> 31).toUInt32 &&& polynomial)
  ((crc.toUInt32 >>> 8) ^^^ c).toInt32

/-- `crc32_1byte_tableless2`. -/
def crc321ByteTableless2 (data : Bytes) (previousCrc32 : UInt32) : UInt32 :=
  (~~~ data.foldl tableless2Step (~~~ previousCrc32).toInt32).toUInt32

/-! ### Several octets a pass -/

/-- Word `i` of `data`. -/
def current (data : Bytes) (i : Nat) : UInt32 := word fun j => data.getD (4 * i + j.val) 0

/-- The four lookups of a word, from `Crc32Lookup[slice]` for its last octet. -/
def lookupWord (slice : Nat) (w : UInt32) : UInt32 :=
  crc32Lookup slice ((w >>> 24) &&& 0xFF) ^^^ crc32Lookup (slice + 1) ((w >>> 16) &&& 0xFF)
    ^^^ crc32Lookup (slice + 2) ((w >>> 8) &&& 0xFF) ^^^ crc32Lookup (slice + 3) (w &&& 0xFF)

/-- The body of a loop over the octets: how many it takes, and what it makes of
the register. -/
structure Pass where
  bytesAtOnce : Nat
  run : UInt32 → Bytes → UInt32

/-- Four octets. -/
def fourBytes : Pass where
  bytesAtOnce := 4
  run crc data :=
    let one := current data 0 ^^^ crc
    lookupWord 0 one

/-- Eight octets. -/
def eightBytes : Pass where
  bytesAtOnce := 8
  run crc data :=
    let one := current data 0 ^^^ crc
    let two := current data 1
    lookupWord 0 two ^^^ lookupWord 4 one

/-- Sixteen octets. -/
def sixteenBytes : Pass where
  bytesAtOnce := 16
  run crc data :=
    let one := current data 0 ^^^ crc
    let two := current data 1
    let three := current data 2
    let four := current data 3
    lookupWord 0 four ^^^ lookupWord 4 three ^^^ lookupWord 8 two ^^^ lookupWord 12 one

/-- `for (unrolling = 0; unrolling < unroll; unrolling++)`. -/
def Pass.unrolled (p : Pass) (unroll : Nat) : Pass where
  bytesAtOnce := p.bytesAtOnce * unroll
  run crc data :=
    ((fun s : UInt32 × Bytes =>
      (p.run s.1 (s.2.take p.bytesAtOnce), s.2.drop p.bytesAtOnce))^[unroll] (crc, data)).1

/-- `while (length >= bytesAtOnce)`, and the octets that remain one by one. -/
def Pass.loop (p : Pass) (crc : UInt32) (data : Bytes) : UInt32 :=
  if 0 < p.bytesAtOnce ∧ p.bytesAtOnce ≤ data.length then
    p.loop (p.run crc (data.take p.bytesAtOnce)) (data.drop p.bytesAtOnce)
  else data.foldl byteStep crc
termination_by data.length
decreasing_by
  rw [List.length_drop]
  omega

/-- `crc32_4bytes`. -/
def crc324Bytes (data : Bytes) (previousCrc32 : UInt32) : UInt32 :=
  ~~~ fourBytes.loop (~~~ previousCrc32) data

/-- `crc32_8bytes`. -/
def crc328Bytes (data : Bytes) (previousCrc32 : UInt32) : UInt32 :=
  ~~~ eightBytes.loop (~~~ previousCrc32) data

/-- `crc32_4x8bytes`. -/
def crc324x8Bytes (data : Bytes) (previousCrc32 : UInt32) : UInt32 :=
  ~~~ (eightBytes.unrolled 4).loop (~~~ previousCrc32) data

/-- `crc32_16bytes`. -/
def crc3216Bytes (data : Bytes) (previousCrc32 : UInt32) : UInt32 :=
  ~~~ (sixteenBytes.unrolled 4).loop (~~~ previousCrc32) data

/-- `crc32_fast`, with all of the tables. -/
def crc32Fast (data : Bytes) (previousCrc32 : UInt32) : UInt32 :=
  crc3216Bytes data previousCrc32

/-! ## They are one function -/

theorem and_one_cases (c : UInt32) : c &&& 1 = 0 ∨ c &&& 1 = 1 := by
  have hmod : (c &&& 1).toNat = c.toNat % 2 := by
    rw [UInt32.toNat_and]
    exact Nat.and_two_pow_sub_one_eq_mod c.toNat 1
  rcases Nat.mod_two_eq_zero_or_one c.toNat with h | h
  · exact Or.inl (UInt32.toNat_inj.mp (hmod.trans h))
  · exact Or.inr (UInt32.toNat_inj.mp (hmod.trans h))

theorem bitwiseBit_eq : bitwiseBit = Crc.bit polynomial := by
  funext c
  unfold bitwiseBit Crc.bit
  rcases and_one_cases c with h | h <;> rw [h] <;> rfl

/-- The bitwise algorithm is the register. -/
theorem crc32Bitwise_eq_register (data : Bytes) (previousCrc32 : UInt32) :
    crc32Bitwise data previousCrc32 = ~~~ Crc.register polynomial (~~~ previousCrc32) data := by
  rw [crc32Bitwise, bitwiseBit_eq]
  rfl

/-- An algorithm that takes the register through an octet is the bitwise one. -/
theorem foldl_eq_crc32Bitwise {step : UInt32 → UInt8 → UInt32}
    (h : ∀ crc b, step crc b = Crc.step polynomial crc b) (data : Bytes)
    (previousCrc32 : UInt32) :
    ~~~ data.foldl step (~~~ previousCrc32) = crc32Bitwise data previousCrc32 := by
  rw [crc32Bitwise_eq_register, funext₂ h]
  rfl

/-- A function with the entries of the first slice is the table. -/
theorem eq_table {t : UInt8 → UInt32}
    (h : (List.range 256).map (fun n => (t (UInt8.ofNat n)).toNat) = words slice0)
    (s : UInt8) : t s = Crc.table polynomial 0 s := by
  have hget := congrArg (fun l => l.getD s.toNat 0) (h.trans words_slices.1)
  apply UInt32.toNat_inj.mp
  rw [Crc.table, toNat_bits, UInt8.toNat_toUInt32]
  simpa [List.getD_eq_getElem?_getD, s.toNat_lt] using hget

theorem and_octet (w : UInt32) : w &&& 0xFF = (octet w 0).toUInt32 := by
  apply UInt32.toNat_inj.mp
  simpa using and_shiftRight w 0

theorem octet_toUInt32 (b : UInt8) : octet b.toUInt32 0 = b := by
  apply UInt8.toBitVec_inj.mp
  unfold octet
  ext j hj
  rw [BitVec.getElem_extractLsb', UInt8.toBitVec_toUInt32, BitVec.getLsbD_setWidth,
    ← BitVec.getLsbD_eq_getElem]
  simp
  omega

theorem octet_xor_toUInt32 (w : UInt32) (b : UInt8) :
    octet (w ^^^ b.toUInt32) 0 = octet w 0 ^^^ b := by
  rw [octet_xor, octet_toUInt32]

/-- A mask within the last octet. -/
theorem and_eq_octet_and {m : UInt32} (h : 0xFF &&& m = m) (w : UInt32) :
    w &&& m = (octet w 0).toUInt32 &&& m := by
  rw [← and_octet, UInt32.and_assoc, h]

theorem shiftRight_and (a b : UInt32) : (a &&& b) >>> 4 = a >>> 4 &&& b >>> 4 := by
  apply UInt32.toBitVec_inj.mp
  exact BitVec.ushiftRight_and_distrib ..

theorem xor_and (a b m : UInt32) : (a ^^^ b) &&& m = a &&& m ^^^ b &&& m := by
  apply UInt32.toBitVec_inj.mp
  ext j hj
  simp [Bool.and_xor_distrib_right]

theorem shiftRight_xor (a b : UInt32) : (a ^^^ b) >>> 4 = a >>> 4 ^^^ b >>> 4 := by
  apply UInt32.toBitVec_inj.mp
  exact BitVec.ushiftRight_xor_distrib ..

/-- The two lookups of `crc32_halfbyte` for an octet that leaves the register. -/
def halfBytes (s : UInt8) : UInt32 :=
  let first := crc32Lookup16.getD (s.toUInt32 &&& 0x0F).toNat 0
  crc32Lookup16.getD ((first ^^^ (s.toUInt32 >>> 4)) &&& 0x0F).toNat 0 ^^^ (first >>> 4)

/-- The register as one octet leaves it, by a mask for each of its bits. -/
def masks (crc : UInt32) : UInt32 :=
  let g6 := (polynomial >>> 6) ^^^ polynomial
  let mask (bit : UInt32) (g : UInt32) : UInt32 := if crc &&& bit = 0 then 0 else g
  mask 1 (g6 >>> 1) ^^^ mask 2 g6 ^^^ mask 4 (polynomial >>> 5) ^^^ mask 8 (polynomial >>> 4)
    ^^^ mask 16 (polynomial >>> 3) ^^^ mask 32 (polynomial >>> 2) ^^^ mask 64 (polynomial >>> 1)
    ^^^ mask 128 polynomial

/-- The operator for one zero bit. -/
def oddOperator : List UInt32 :=
  polynomial :: (List.range' 1 31).map fun i => UInt32.ofNat (1 <<< (i - 1))

/-- What stands in the place of the first slice has its entries, and the
operator for one zero bit is the bit. -/
theorem byte_tables : (∀ s, tableless s = Crc.table polynomial 0 s)
    ∧ (∀ s, halfBytes s = Crc.table polynomial 0 s)
    ∧ (∀ s : UInt8, masks s.toUInt32 = Crc.table polynomial 0 s)
    ∧ oddOperator = Crc.columns (Crc.bits polynomial 1) := by
  have hentries : (List.range 256).map (fun n => (tableless (UInt8.ofNat n)).toNat) = words slice0
      ∧ (List.range 256).map (fun n => (halfBytes (UInt8.ofNat n)).toNat) = words slice0
      ∧ (List.range 256).map (fun n => (masks (UInt8.ofNat n).toUInt32).toNat) = words slice0
      ∧ oddOperator = Crc.columns (Crc.bits polynomial 1) := by
    decide +kernel
  exact ⟨eq_table hentries.1, eq_table hentries.2.1, eq_table hentries.2.2.1, hentries.2.2.2⟩

/-- Looking up `t` for the octet that leaves the register is a pass. -/
theorem step_eq_of_table {t : UInt8 → UInt32} (h : ∀ s, t s = Crc.table polynomial 0 s)
    (crc : UInt32) (b : UInt8) :
    (crc >>> 8) ^^^ t (octet crc 0 ^^^ b) = Crc.step polynomial crc b := by
  rw [h, Crc.step_table]

theorem byteStep_eq (crc : UInt32) (b : UInt8) :
    byteStep crc b = Crc.step polynomial crc b := by
  rw [byteStep, and_octet, ← UInt8.toUInt32_xor, crc32Lookup_eq (by decide), Crc.step_table]

theorem crc321Byte_eq (data : Bytes) (previousCrc32 : UInt32) :
    crc321Byte data previousCrc32 = crc32Bitwise data previousCrc32 :=
  foldl_eq_crc32Bitwise byteStep_eq data previousCrc32

theorem crc321ByteTableless_eq (data : Bytes) (previousCrc32 : UInt32) :
    crc321ByteTableless data previousCrc32 = crc32Bitwise data previousCrc32 := by
  refine foldl_eq_crc32Bitwise (fun crc b => ?_) data previousCrc32
  have hlow : crc.toUInt8 = octet crc 0 := octet_eq_shiftRight crc 0
  rw [hlow]
  exact step_eq_of_table byte_tables.1 crc b

theorem halfByteStep_eq (crc : UInt32) (b : UInt8) :
    halfByteStep crc b = Crc.step polynomial crc b := by
  rw [← step_eq_of_table byte_tables.2.1, ← octet_xor_toUInt32]
  generalize hx : crc ^^^ b.toUInt32 = x
  have hlow : x &&& 0x0F = (octet x 0).toUInt32 &&& 0x0F := and_eq_octet_and rfl x
  have hhigh : (x >>> 4) &&& (0x0F : UInt32)
      = ((octet x 0).toUInt32 >>> 4) &&& (0x0F : UInt32) := by
    rw [← and_octet, shiftRight_and, UInt32.and_assoc]
    rfl
  have hshift : crc >>> 4 ^^^ b.toUInt32 >>> 4 = x >>> 4 := by rw [← hx, shiftRight_xor]
  have height : crc >>> 4 >>> 4 = crc >>> 8 := by
    apply UInt32.toBitVec_inj.mp
    exact (BitVec.shiftRight_add _ 4 4).symm
  unfold halfByteStep halfBytes
  simp only [hx, hlow]
  generalize crc32Lookup16.getD ((octet x 0).toUInt32 &&& 0x0F).toNat 0 = first
  rw [shiftRight_xor, height, UInt32.xor_assoc first, hshift, xor_and, hhigh, ← xor_and]
  ac_rfl

theorem crc32HalfByte_eq (data : Bytes) (previousCrc32 : UInt32) :
    crc32HalfByte data previousCrc32 = crc32Bitwise data previousCrc32 :=
  foldl_eq_crc32Bitwise halfByteStep_eq data previousCrc32

theorem masks_eq (crc : UInt32) : masks crc = Crc.table polynomial 0 (octet crc 0) := by
  have hlow : masks crc = masks (octet crc 0).toUInt32 := by
    unfold masks
    simp only [and_eq_octet_and (m := 1) rfl crc, and_eq_octet_and (m := 2) rfl crc,
      and_eq_octet_and (m := 4) rfl crc, and_eq_octet_and (m := 8) rfl crc,
      and_eq_octet_and (m := 16) rfl crc, and_eq_octet_and (m := 32) rfl crc,
      and_eq_octet_and (m := 64) rfl crc, and_eq_octet_and (m := 128) rfl crc]
  rw [hlow]
  exact byte_tables.2.2.1 _

/-- A pass that adds the octet to the register first. -/
theorem shift_masks (crc : UInt32) (b : UInt8) :
    ((crc ^^^ b.toUInt32) >>> 8) ^^^ masks (crc ^^^ b.toUInt32) = Crc.step polynomial crc b := by
  have hstep : Crc.step polynomial crc b = Crc.step polynomial (crc ^^^ b.toUInt32) 0 := by
    rw [Crc.step, Crc.step, show (0 : UInt8).toUInt32 = 0 from rfl, UInt32.xor_zero]
  rw [hstep, Crc.step_table, UInt8.xor_zero, masks_eq]

/-- udp2raw's checksum is the one of UDPspeeder. -/
theorem crc32h_eq (message : Bytes) : Encrypt.crc32h message = crc32Bitwise message 0 :=
  foldl_eq_crc32Bitwise (fun crc b => shift_masks crc b) message 0

/-- A shift to the sign and back is a mask. -/
theorem sign_and {n : Int32} {i : Nat} {p : UInt32} (hn : (n.toBitVec.smod 32).toNat = 31 - i)
    (hbit : p.toBitVec = BitVec.twoPow 32 i) (hi : i < 32) (c : Int32) (g : UInt32) :
    ((c <<< n) >>> 31).toUInt32 &&& g = if c.toUInt32 &&& p = 0 then 0 else g := by
  have hsign : ((c <<< n) >>> 31).toUInt32.toBitVec
      = if c.toBitVec.getLsbD i then BitVec.allOnes 32 else 0 := by
    change (c.toBitVec <<< (n.toBitVec.smod 32).toNat).sshiftRight 31 = _
    rw [hn]
    apply BitVec.eq_of_getLsbD_eq
    intro j hj
    have htop : (c.toBitVec <<< (31 - i)).msb = c.toBitVec.getLsbD i := by
      rw [BitVec.msb_eq_getLsbD_last, BitVec.getLsbD_shiftLeft, show 32 - 1 - (31 - i) = i by omega]
      simp
    have hrun : (if 31 + j < 32 then (c.toBitVec <<< (31 - i)).getLsbD (31 + j)
        else (c.toBitVec <<< (31 - i)).msb) = c.toBitVec.getLsbD i := by
      split
      · rw [show j = 0 by omega, ← htop, BitVec.msb_eq_getLsbD_last]
      · exact htop
    rw [BitVec.getLsbD_sshiftRight, hrun]
    cases c.toBitVec.getLsbD i
    · simp
    · rw [if_pos rfl, BitVec.getLsbD_allOnes]
      simp [hj]
  have hzero : c.toUInt32 &&& p = 0 ↔ c.toBitVec.getLsbD i = false := by
    rw [← UInt32.toBitVec_inj, UInt32.toBitVec_and, hbit, BitVec.and_twoPow]
    change (if c.toBitVec.getLsbD i then BitVec.twoPow 32 i else 0#32) = 0#32 ↔ _
    cases c.toBitVec.getLsbD i
    · simp
    · simp [← BitVec.toNat_inj, Nat.mod_eq_of_lt (Nat.pow_lt_pow_right (a := 2) one_lt_two hi)]
  apply UInt32.toBitVec_inj.mp
  rw [UInt32.toBitVec_and, hsign]
  simp only [hzero]
  cases c.toBitVec.getLsbD i
  · simp
  · exact BitVec.allOnes_and

/-- A pass of `crc32_1byte_tableless2` on the register as unsigned. -/
theorem toUInt32_tableless2Step (crc : Int32) (b : UInt8) :
    (tableless2Step crc b).toUInt32 = Crc.step polynomial crc.toUInt32 b := by
  rw [← shift_masks]
  unfold tableless2Step masks
  simp only [sign_and (n := 31) (i := 0) (p := 1) rfl rfl (by decide),
    sign_and (n := 30) (i := 1) (p := 2) rfl rfl (by decide),
    sign_and (n := 29) (i := 2) (p := 4) rfl rfl (by decide),
    sign_and (n := 28) (i := 3) (p := 8) rfl rfl (by decide),
    sign_and (n := 27) (i := 4) (p := 16) rfl rfl (by decide),
    sign_and (n := 26) (i := 5) (p := 32) rfl rfl (by decide),
    sign_and (n := 25) (i := 6) (p := 64) rfl rfl (by decide),
    sign_and (n := 24) (i := 7) (p := 128) rfl rfl (by decide)]
  rfl

theorem crc321ByteTableless2_eq (data : Bytes) (previousCrc32 : UInt32) :
    crc321ByteTableless2 data previousCrc32 = crc32Bitwise data previousCrc32 := by
  have hfold : ∀ crc : Int32, (data.foldl tableless2Step crc).toUInt32
      = Crc.register polynomial crc.toUInt32 data := by
    intro crc
    induction data generalizing crc with
    | nil => rfl
    | cons b data ih => exact (ih _).trans (by rw [toUInt32_tableless2Step]; rfl)
  rw [crc32Bitwise_eq_register]
  exact congrArg (~~~ ·) (hfold _)

/-! ### Several octets a pass -/

theorem lookupWord_eq {slice : Nat} (hslice : slice + 3 < 16) (w : UInt32) :
    lookupWord slice w = Crc.table polynomial (slice + 3) (octet w 0)
      ^^^ Crc.table polynomial (slice + 2) (octet w 1)
      ^^^ Crc.table polynomial (slice + 1) (octet w 2)
      ^^^ Crc.table polynomial slice (octet w 3) := by
  have hlook : ∀ k i, k < 16 → crc32Lookup k ((w >>> UInt32.ofNat (8 * i.val)) &&& 0xFF)
      = Crc.table polynomial k (octet w i) := by
    intro k i hk
    have hindex : (w >>> UInt32.ofNat (8 * i.val)) &&& 0xFF = (octet w i).toUInt32 :=
      UInt32.toNat_inj.mp ((and_shiftRight w i).trans (UInt8.toNat_toUInt32 _).symm)
    rw [hindex, crc32Lookup_eq hk]
  have hzero : crc32Lookup (slice + 3) (w &&& 0xFF)
      = Crc.table polynomial (slice + 3) (octet w 0) := by
    rw [and_octet, crc32Lookup_eq hslice]
  rw [lookupWord, hzero]
  have h1 := hlook (slice + 2) 1 (by omega)
  have h2 := hlook (slice + 1) 2 (by omega)
  have h3 := hlook slice 3 (by omega)
  change crc32Lookup slice ((w >>> UInt32.ofNat (8 * (3 : Fin 4).val)) &&& 0xFF)
    ^^^ crc32Lookup (slice + 1) ((w >>> UInt32.ofNat (8 * (2 : Fin 4).val)) &&& 0xFF)
    ^^^ crc32Lookup (slice + 2) ((w >>> UInt32.ofNat (8 * (1 : Fin 4).val)) &&& 0xFF)
    ^^^ _ = _
  rw [h1, h2, h3]
  ac_rfl

/-- The register after a word and the octets that follow. -/
theorem register_current {data : Bytes} (hlen : 4 ≤ data.length) (hmax : data.length ≤ 16)
    (crc : UInt32) :
    Crc.register polynomial crc data = lookupWord (data.length - 4) (current data 0 ^^^ crc)
      ^^^ Crc.register polynomial 0 (data.drop 4) := by
  match data with
  | a :: b :: c :: d :: rest =>
      have hslice := Crc.register_slice polynomial crc ![a, b, c, d] rest
      have hword : current (a :: b :: c :: d :: rest) 0 = word ![a, b, c, d] := by
        refine congrArg word (funext fun j => ?_)
        fin_cases j <;> rfl
      rw [hword, lookupWord_eq (by simp at hmax ⊢; omega)]
      exact hslice

theorem current_drop (data : Bytes) (i : Nat) : current (data.drop 4) i = current data (i + 1) := by
  refine congrArg word (funext fun j => ?_)
  rw [List.getD_eq_getElem?_getD, List.getElem?_drop, ← List.getD_eq_getElem?_getD]
  congr 1
  omega

/-- The pass takes the register through its octets. -/
def Pass.Sound (p : Pass) : Prop :=
  ∀ crc data, data.length = p.bytesAtOnce → p.run crc data = Crc.register polynomial crc data

theorem fourBytes_sound : fourBytes.Sound := by
  intro crc data hlen
  have hlen : data.length = 4 := hlen
  rw [register_current (by omega) (by omega), List.drop_eq_nil_of_le (by omega), Crc.register_nil,
    UInt32.xor_zero, hlen]
  rfl

theorem eightBytes_sound : eightBytes.Sound := by
  intro crc data hlen
  have hlen : data.length = 8 := hlen
  have hrest : (data.drop 4).length = 4 := by rw [List.length_drop, hlen]
  rw [register_current (by omega) (by omega), ← fourBytes_sound 0 _ hrest, hlen]
  unfold eightBytes fourBytes
  simp only [current_drop, UInt32.xor_zero]
  exact UInt32.xor_comm ..

theorem sixteenBytes_sound : sixteenBytes.Sound := by
  intro crc data hlen
  have hlen : data.length = 16 := hlen
  have htwelve : (data.drop 4).length = 12 := by rw [List.length_drop, hlen]
  have height : ((data.drop 4).drop 4).length = 8 := by rw [List.length_drop, htwelve]
  rw [register_current (by omega) (by omega), register_current (by omega) (by omega),
    ← eightBytes_sound 0 _ height, hlen, htwelve]
  unfold sixteenBytes eightBytes
  simp only [current_drop, UInt32.xor_zero]
  ac_rfl

namespace Pass.Sound

variable {p : Pass}

/-- A pass and the octets after it. -/
theorem register_drop (h : p.Sound) (crc : UInt32) {data : Bytes}
    (hlen : p.bytesAtOnce ≤ data.length) :
    Crc.register polynomial (p.run crc (data.take p.bytesAtOnce)) (data.drop p.bytesAtOnce)
      = Crc.register polynomial crc data := by
  rw [h crc _ (List.length_take_of_le hlen), ← Crc.register_append, List.take_append_drop]

/-- A fixed number of passes is a pass. -/
theorem unrolled (h : p.Sound) (unroll : Nat) : (p.unrolled unroll).Sound := by
  intro crc data hlen
  induction unroll generalizing crc data with
  | zero =>
      rw [List.eq_nil_of_length_eq_zero hlen]
      rfl
  | succ unroll ih =>
      have hlen : data.length = p.bytesAtOnce * (unroll + 1) := hlen
      have hfirst : p.bytesAtOnce ≤ data.length := by
        rw [hlen, Nat.mul_succ]
        exact Nat.le_add_left ..
      have hrest : (data.drop p.bytesAtOnce).length = p.bytesAtOnce * unroll := by
        rw [List.length_drop, hlen, Nat.mul_succ, Nat.add_sub_cancel]
      rw [← h.register_drop crc hfirst, ← ih _ _ hrest]
      rfl

/-- The loop, with the octets that remain. -/
theorem loop_eq (h : p.Sound) (crc : UInt32) (data : Bytes) :
    p.loop crc data = Crc.register polynomial crc data := by
  fun_induction Pass.loop p crc data with
  | case1 crc data hmore ih => rw [ih, h.register_drop crc hmore.2]
  | case2 crc data hdone =>
      rw [funext₂ byteStep_eq]
      rfl

end Pass.Sound

theorem crc324Bytes_eq (data : Bytes) (previousCrc32 : UInt32) :
    crc324Bytes data previousCrc32 = crc32Bitwise data previousCrc32 := by
  rw [crc324Bytes, fourBytes_sound.loop_eq, crc32Bitwise_eq_register]

theorem crc328Bytes_eq (data : Bytes) (previousCrc32 : UInt32) :
    crc328Bytes data previousCrc32 = crc32Bitwise data previousCrc32 := by
  rw [crc328Bytes, eightBytes_sound.loop_eq, crc32Bitwise_eq_register]

theorem crc324x8Bytes_eq (data : Bytes) (previousCrc32 : UInt32) :
    crc324x8Bytes data previousCrc32 = crc32Bitwise data previousCrc32 := by
  rw [crc324x8Bytes, (eightBytes_sound.unrolled 4).loop_eq, crc32Bitwise_eq_register]

theorem crc32Fast_eq (data : Bytes) (previousCrc32 : UInt32) :
    crc32Fast data previousCrc32 = crc32Bitwise data previousCrc32 := by
  rw [crc32Fast, crc3216Bytes, (sixteenBytes_sound.unrolled 4).loop_eq, crc32Bitwise_eq_register]

/-- **The algorithms** compute one function, in UDPspeeder and in udp2raw. -/
theorem algorithms_agree (data : Bytes) (previousCrc32 : UInt32) :
    crc32HalfByte data previousCrc32 = crc32Bitwise data previousCrc32
      ∧ crc321Byte data previousCrc32 = crc32Bitwise data previousCrc32
      ∧ crc321ByteTableless data previousCrc32 = crc32Bitwise data previousCrc32
      ∧ crc321ByteTableless2 data previousCrc32 = crc32Bitwise data previousCrc32
      ∧ crc324Bytes data previousCrc32 = crc32Bitwise data previousCrc32
      ∧ crc328Bytes data previousCrc32 = crc32Bitwise data previousCrc32
      ∧ crc324x8Bytes data previousCrc32 = crc32Bitwise data previousCrc32
      ∧ crc32Fast data previousCrc32 = crc32Bitwise data previousCrc32
      ∧ Encrypt.crc32h data = crc32Bitwise data 0 :=
  ⟨crc32HalfByte_eq data previousCrc32, crc321Byte_eq data previousCrc32,
    crc321ByteTableless_eq data previousCrc32, crc321ByteTableless2_eq data previousCrc32,
    crc324Bytes_eq data previousCrc32, crc328Bytes_eq data previousCrc32,
    crc324x8Bytes_eq data previousCrc32, crc32Fast_eq data previousCrc32, crc32h_eq data⟩

/-! ## Combining -/

/-- `for (j = 0; vec != 0; j++, vec >>= 1) if (vec & 1) sum ^= mat[j]`; `vec` is
zero when all of the 32 words have been passed. -/
def matrixTimes : List UInt32 → UInt32 → UInt32 → UInt32
  | [], sum, _ => sum
  | x :: mat, sum, vec =>
      if vec ≠ 0 then matrixTimes mat (if vec &&& 1 ≠ 0 then sum ^^^ x else sum) (vec >>> 1)
      else sum

/-- `gf2_matrix_square`. -/
def matrixSquare (mat : List UInt32) : List UInt32 := mat.map (matrixTimes mat 0)

/-- The loop of `crc32_combine`: the operator in `b` is squared, and applied
where `lengthB` has a bit. -/
def combineLoop (b : List UInt32) (crcA : UInt32) (lengthB : Nat) : UInt32 :=
  if 0 < lengthB then
    let a := matrixSquare b
    combineLoop a (if lengthB % 2 = 1 then matrixTimes a 0 crcA else crcA) (lengthB / 2)
  else crcA
termination_by lengthB
decreasing_by omega

/-- `crc32_combine`. -/
def crc32Combine (crcA crcB : UInt32) (lengthB : Nat) : UInt32 :=
  if lengthB = 0 then crcA
  else
    let odd := oddOperator
    let even := matrixSquare odd
    let odd := matrixSquare even
    combineLoop odd crcA lengthB ^^^ crcB

theorem matrixTimes_eq (mat : List UInt32) (sum vec : UInt32) :
    matrixTimes mat sum vec = sum ^^^ Crc.pick mat vec := by
  induction mat generalizing sum vec with
  | nil => simp [matrixTimes, Crc.pick]
  | cons x mat ih =>
      rw [matrixTimes]
      by_cases hvec : vec = 0
      · rw [if_neg (by simpa using hvec), hvec, Crc.pick_zero, UInt32.xor_zero]
      · rw [if_pos hvec, ih, Crc.pick]
        rcases and_one_cases vec with h | h <;> simp [h, UInt32.xor_assoc]

/-- The columns of a linear map make it. -/
theorem matrixTimes_columns {f : UInt32 → UInt32} (hf : ∀ a b, f (a ^^^ b) = f a ^^^ f b)
    (vec : UInt32) : matrixTimes (Crc.columns f) 0 vec = f vec := by
  rw [matrixTimes_eq, UInt32.zero_xor, Crc.pick_columns hf]

theorem matrixSquare_columns (n : Nat) :
    matrixSquare (Crc.columns (Crc.bits polynomial n))
      = Crc.columns (Crc.bits polynomial (2 * n)) := by
  have hlinear := Crc.bits_xor polynomial n
  rw [matrixSquare, Crc.columns, List.map_map]
  refine List.map_congr_left fun i _ => ?_
  rw [Function.comp_apply, ← Crc.columns, matrixTimes_columns hlinear, ← Crc.bits_add, Nat.two_mul]

/-- The loop shifts in `2 * n` bits for each of `lengthB`. -/
theorem combineLoop_eq (n : Nat) (crcA : UInt32) (lengthB : Nat) :
    combineLoop (Crc.columns (Crc.bits polynomial n)) crcA lengthB
      = Crc.bits polynomial (2 * n * lengthB) crcA := by
  induction lengthB using Nat.strong_induction_on generalizing n crcA with
  | h lengthB ih =>
      rw [combineLoop]
      by_cases hmore : 0 < lengthB
      · have happly := matrixTimes_columns (Crc.bits_xor polynomial (2 * n)) crcA
        simp only [if_pos hmore, matrixSquare_columns, happly]
        rw [ih (lengthB / 2) (by omega)]
        rcases Nat.mod_two_eq_zero_or_one lengthB with h | h
        · have hlength : 2 * (2 * n) * (lengthB / 2) = 2 * n * lengthB := by
            conv_rhs => rw [← Nat.div_add_mod lengthB 2, h]
            ring
          rw [if_neg (by omega), hlength]
        · have hlength : 2 * (2 * n) * (lengthB / 2) + 2 * n = 2 * n * lengthB := by
            conv_rhs => rw [← Nat.div_add_mod lengthB 2, h]
            ring
          rw [if_pos h, ← Crc.bits_add, hlength]
      · obtain rfl : lengthB = 0 := by omega
        rfl

/-- **Combining**: the checksum of two blocks from theirs. -/
theorem crc32Combine_eq (dataA dataB : Bytes) (previousCrc32 : UInt32) :
    crc32Combine (crc32Fast dataA previousCrc32) (crc32Fast dataB 0) dataB.length
      = crc32Fast (dataA ++ dataB) previousCrc32 := by
  simp only [crc32Fast_eq, crc32Bitwise_eq_register]
  rw [crc32Combine]
  by_cases hlen : dataB.length = 0
  · rw [if_pos hlen, List.eq_nil_of_length_eq_zero hlen, List.append_nil]
  · have hfour : matrixSquare (matrixSquare oddOperator)
        = Crc.columns (Crc.bits polynomial 4) := by
      rw [byte_tables.2.2.2, matrixSquare_columns, matrixSquare_columns]
    have hnot : ∀ x : UInt32, ~~~ x = x ^^^ ~~~ 0 := fun x => by simp
    have hcancel : ∀ x y : UInt32, x ^^^ (x ^^^ y) = y := fun x y => by
      rw [← UInt32.xor_assoc, UInt32.xor_self, UInt32.zero_xor]
    simp only [if_neg hlen, hfour]
    rw [combineLoop_eq, Crc.register_append, Crc.register_eq polynomial (~~~ 0) dataB,
      Crc.register_eq polynomial (Crc.register polynomial _ _) dataB]
    generalize Crc.register polynomial (~~~ previousCrc32) dataA = a
    generalize Crc.register polynomial 0 dataB = b
    -- What the complement of `a` leaves is what the register starts with for `dataB`.
    rw [hnot a, Crc.bits_xor, hnot (_ ^^^ b), hnot (_ ^^^ b), UInt32.xor_assoc,
      UInt32.xor_assoc (Crc.bits polynomial _ (~~~ 0)), hcancel, UInt32.xor_assoc]

/-! ## What the checksum finds -/

/-- How octets are changed in transit: in at most 32 consecutive bits, or in two
bits anywhere. -/
inductive Hit (sent received : Bytes) : Prop
  | burst (before x y after : List Bool) (hsent : Crc.messageBits sent = before ++ x ++ after)
      (hreceived : Crc.messageBits received = before ++ y ++ after) (hlen : x.length = y.length)
      (hx : x.length ≤ 32) (hne : x ≠ y)
  | twoBits (before : List Bool) (a : Bool) (between : List Bool) (b : Bool) (after : List Bool)
      (hsent : Crc.messageBits sent = before ++ a :: between ++ b :: after)
      (hreceived : Crc.messageBits received = before ++ (!a) :: between ++ (!b) :: after)

/-- The order of `x` is `2 ^ 32 - 1`, the product of 3, 5, 17, 257 and 65537. -/
theorem power_quotients : Crc.power polynomial (2 ^ 32 - 1) = Crc.one
    ∧ ∀ q ∈ [3, 5, 17, 257, 65537], Crc.power polynomial ((2 ^ 32 - 1) / q) ≠ Crc.one := by
  decide +kernel

theorem bits_ne_one {n : Nat} (hn : 0 < n) (hlt : n < 2 ^ 32 - 1) :
    Crc.bits polynomial n Crc.one ≠ Crc.one := by
  refine Crc.bits_ne_one power_quotients.1 (fun q hq hdvd => ?_) hn hlt
  have hproduct : (2 ^ 32 - 1 : Nat) = 3 * (5 * (17 * (257 * 65537))) := by decide
  rw [hproduct, hq.dvd_mul, hq.dvd_mul, hq.dvd_mul, hq.dvd_mul] at hdvd
  have hprime : ∀ p, p.Prime → q ∣ p → q = p :=
    fun p hp h => (Nat.prime_dvd_prime_iff_eq hq hp).mp h
  refine power_quotients.2 q ?_
  rcases hdvd with h | h | h | h | h
  · simp [hprime 3 (by norm_num) h]
  · simp [hprime 5 (by norm_num) h]
  · simp [hprime 17 (by norm_num) h]
  · simp [hprime 257 (by norm_num) h]
  · simp [hprime 65537 (by norm_num) h]

theorem length_messageBits (d : Bytes) : (Crc.messageBits d).length = 8 * d.length := by
  simp [Crc.messageBits, Crc.octetBits, List.length_flatMap, Nat.mul_comm]

/-- Octets that differ so have another checksum. -/
theorem crc32Fast_ne {sent received : Bytes} (hlen : sent.length < 2 ^ 29)
    (h : Hit sent received) (previousCrc32 : UInt32) :
    crc32Fast received previousCrc32 ≠ crc32Fast sent previousCrc32 := by
  have hmsb : polynomial.toBitVec.msb = true := by decide
  have hregister : Crc.register polynomial (~~~ previousCrc32) sent
      ≠ Crc.register polynomial (~~~ previousCrc32) received := by
    cases h with
    | burst before x y after hsent hreceived hxy hx hne =>
        exact Crc.register_ne_of_burst hmsb hsent hreceived hxy hx hne _
    | twoBits before a between b after hsent hreceived =>
        have hbits := length_messageBits sent
        rw [hsent] at hbits
        simp only [List.length_append, List.length_cons] at hbits
        exact Crc.register_ne_of_two hmsb (fun n hn hlt => bits_ne_one hn hlt) hsent hreceived
          (by omega) _
  rw [crc32Fast_eq, crc32Fast_eq, crc32Bitwise_eq_register, crc32Bitwise_eq_register]
  intro heq
  exact hregister (UInt32.not_inj.mp heq).symm

/-- **`rm_crc32` finds errors**: a datagram is dropped when the octets in front
of its checksum were hit by a burst, or two of their bits were. -/
theorem rmCrc32_eq_none {par : Packet.CookPar} (hpar : par.disableChecksum = false)
    {sent received : Bytes} (hlen : sent.length < 2 ^ 29)
    (h : Hit sent received) :
    Packet.rmCrc32 (crc32Fast · 0) par
      (received ++ (Packet.putCrc32 (crc32Fast · 0) par sent).drop sent.length) = none := by
  have hfield : (Packet.putCrc32 (crc32Fast · 0) par sent).drop sent.length
      = writeU32 (crc32Fast sent 0).toNat := by
    rw [Packet.putCrc32, hpar]
    exact List.drop_left' rfl
  have hread := ofNat_readU32_writeU32 (crc32Fast sent 0) []
  rw [List.append_nil] at hread
  rw [hfield]
  unfold Packet.rmCrc32
  simp [hpar, hread, (crc32Fast_ne hlen h 0).symm]

/-- One octet, of which the lowest bit was flipped. -/
theorem rmCrc32_eq_none_flip : Packet.rmCrc32 (crc32Fast · 0) { key := [] }
    ([1] ++ (Packet.putCrc32 (crc32Fast · 0) { key := [] } [0]).drop [(0 : UInt8)].length)
      = none := by
  have hburst : Hit [0] [1] :=
    .burst [] [false] [true] (List.replicate 7 false) (by decide) (by decide) rfl (by decide)
      (by decide)
  exact rmCrc32_eq_none rfl (by decide) hburst

end Fecraw.Ports.Crc32
