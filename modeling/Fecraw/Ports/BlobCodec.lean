import Fecraw.Verified.Bytes
import Fecraw.Verified.Checked

/-!
# Blobs: several packets in one piece of memory

A port of `blob_encode_t` and `blob_decode_t`.  A blob is a count in four
octets followed by one record per packet, a length in two octets and the
packet's bytes.  The encoder cuts the blob into `n` shards of equal length;
the last one runs past the blob into whatever the buffer held before.  The
decoder joins `n` shards and reads the records back.

`Holds b ps` says that the encoder's buffer holds the packets `ps`; it is
established by `clear` and kept by `input`, whatever the buffer held.

## Main results

* `holds_input`: appending a packet to a blob that holds `ps`.
* `length_shards`, `flatten_shards`: what `output` cuts the blob into.
* `BlobDecode.output_flatten`: the shards of a blob that holds `ps`, joined,
  are read back as `ps`.
-/

namespace Fecraw.Ports.BlobCodec

open Fecraw.Verified

/-- `max_blob_packet_num`. -/
def maxBlobPacketNum : Nat := 30000

/-- `sizeof(input_buf)` of both blobs: `(max_fec_packet_num + 5) * buf_len`. -/
def blobBufSize : Nat := 260 * 3800

/-- `round_up_div`. -/
def roundUpDiv (a b : Nat) : Nat := (a + b - 1) / b

theorem le_roundUpDiv_mul {a n : Nat} (hn : 0 < n) : a ≤ n * roundUpDiv a n := by
  unfold roundUpDiv
  have h := Nat.div_add_mod (a + n - 1) n
  have hmod := Nat.mod_lt (a + n - 1) hn
  omega

theorem roundUpDiv_le_iff {a n m : Nat} (hn : 0 < n) :
    roundUpDiv a n ≤ m ↔ a ≤ n * m := by
  unfold roundUpDiv
  rw [← Nat.lt_succ_iff, Nat.div_lt_iff_lt_mul hn, Nat.succ_mul, Nat.mul_comm m n]
  omega

theorem roundUpDiv_mono {a b : Nat} (n : Nat) (h : a ≤ b) :
    roundUpDiv a n ≤ roundUpDiv b n :=
  Nat.div_le_div_right (by omega)

/-! ## Encoding -/

/-- `blob_encode_t`.  Nothing is known about the octets of `inputBuf` that
were not written since the last `clear`. -/
structure BlobEncode where
  inputBuf : Mem
  currentLen : Nat
  counter : Nat

namespace BlobEncode

def clear (b : BlobEncode) : BlobEncode := { b with currentLen := 4, counter := 0 }

/-- `get_shard_len(n)`. -/
def getShardLen (b : BlobEncode) (n : Nat) : Nat := roundUpDiv b.currentLen n

/-- `get_shard_len(n, next_packet_len)`. -/
def getShardLenNext (b : BlobEncode) (n nextPacketLen : Nat) : Nat :=
  roundUpDiv (b.currentLen + 2 + nextPacketLen) n

/-- One record: a length and the packet. -/
def record (s : Bytes) : Bytes := writeU16 s.length ++ s

def input (b : BlobEncode) (s : Bytes) : Checked BlobEncode := do
  Checked.check (b.currentLen + s.length + 2 + 100 < blobBufSize)
  Checked.check (s.length ≤ 65535)
  Checked.check (b.counter + 1 ≤ maxBlobPacketNum)
  return {
    inputBuf := (b.inputBuf.write b.currentLen (writeU16 s.length)).write
      (b.currentLen + 2) s
    currentLen := b.currentLen + 2 + s.length
    counter := b.counter + 1 }

/-- `output`: the count is written to the front of the buffer, and the
shards are `n` consecutive pieces of it. -/
def output (b : BlobEncode) (n : Nat) : BlobEncode × List Bytes × Nat :=
  let len := roundUpDiv b.currentLen n
  let buf := b.inputBuf.write 0 (writeU32 b.counter)
  ({ b with inputBuf := buf }, (List.range n).map fun i => buf.read (len * i) len, len)

/-! ## What a blob holds -/

/-- The records of a list of packets. -/
def records (ps : List Bytes) : Bytes := (ps.map record).flatten

@[simp] theorem length_record (s : Bytes) : (record s).length = 2 + s.length := by
  simp [record]

theorem records_append (ps : List Bytes) (s : Bytes) :
    records (ps ++ [s]) = records ps ++ record s := by
  simp [records]

/-- The buffer holds the packets `ps`, in order. -/
structure Holds (b : BlobEncode) (ps : List Bytes) : Prop where
  counter : b.counter = ps.length
  currentLen : b.currentLen = 4 + (records ps).length
  read : b.inputBuf.read 4 (records ps).length = records ps
  bounded : ∀ p ∈ ps, p.length ≤ 65535
  few : ps.length ≤ maxBlobPacketNum

theorem holds_clear (b : BlobEncode) : Holds b.clear [] where
  counter := rfl
  currentLen := rfl
  read := rfl
  bounded := by simp
  few := by simp

/-- What `input` does when it returns. -/
theorem input_eq_ok {b b' : BlobEncode} {s : Bytes} (h : b.input s = .ok b') :
    s.length ≤ 65535 ∧ b.counter + 1 ≤ maxBlobPacketNum ∧
      b.currentLen + s.length + 2 + 100 < blobBufSize ∧
      b' = {
        inputBuf := (b.inputBuf.write b.currentLen (writeU16 s.length)).write
          (b.currentLen + 2) s
        currentLen := b.currentLen + 2 + s.length
        counter := b.counter + 1 } := by
  unfold input at h
  simp only [Checked.doBind_eq_ok, Checked.check_eq_ok] at h
  obtain ⟨_, hbuf, _, hlen, _, hcnt, hb'⟩ := h
  exact ⟨hlen, hcnt, hbuf, (Except.ok.inj hb').symm⟩

/-- A packet that is accepted is appended. -/
theorem holds_input {b b' : BlobEncode} {ps : List Bytes} {s : Bytes}
    (hb : Holds b ps) (h : b.input s = .ok b') : Holds b' (ps ++ [s]) := by
  obtain ⟨hlen, hcnt, -, rfl⟩ := input_eq_ok h
  have hcur := hb.currentLen
  refine ⟨?_, ?_, ?_, ?_, ?_⟩
  · simp [hb.counter]
  · rw [records_append, List.length_append, length_record]
    show b.currentLen + 2 + s.length = _
    omega
  · rw [records_append, List.length_append, Mem.read_add, length_record, Mem.read_add]
    show Mem.read _ 4 _ ++ (Mem.read _ _ 2 ++ Mem.read _ _ _) = _
    have hold : ((b.inputBuf.write b.currentLen (writeU16 s.length)).write
        (b.currentLen + 2) s).read 4 (records ps).length = records ps := by
      rw [Mem.read_write_before _ _ _ _ _ (by omega),
        Mem.read_write_before _ _ _ _ _ (by omega), hb.read]
    have hlen2 : ((b.inputBuf.write b.currentLen (writeU16 s.length)).write
        (b.currentLen + 2) s).read (4 + (records ps).length) 2
          = writeU16 s.length := by
      rw [Mem.read_write_before _ _ _ _ _ (by omega), ← hcur]
      exact Mem.read_write_self _ _ (writeU16 s.length)
    have hbody : ((b.inputBuf.write b.currentLen (writeU16 s.length)).write
        (b.currentLen + 2) s).read (4 + (records ps).length + 2) s.length = s := by
      rw [← hcur]
      exact Mem.read_write_self _ _ s
    rw [hold, hlen2, hbody]
    rfl
  · intro p hp
    rcases List.mem_append.mp hp with hp | hp
    · exact hb.bounded p hp
    · obtain rfl := List.mem_singleton.mp hp
      exact hlen
  · simpa [hb.counter] using hcnt

/-! ## The shards -/

theorem length_shards (b : BlobEncode) (n : Nat) :
    (b.output n).2.1.length = n := by
  simp [output]

theorem length_of_mem_shards (b : BlobEncode) (n : Nat) :
    ∀ d ∈ (b.output n).2.1, d.length = roundUpDiv b.currentLen n := by
  intro d hd
  simp only [output, List.mem_map] at hd
  obtain ⟨i, -, rfl⟩ := hd
  simp

/-- Joined, the shards are the count, the records and some stale octets. -/
theorem flatten_shards {b : BlobEncode} {ps : List Bytes} (hb : Holds b ps)
    {n : Nat} (hn : 0 < n) :
    ∃ stale, (b.output n).2.1.flatten
      = writeU32 ps.length ++ records ps ++ stale := by
  set len := roundUpDiv b.currentLen n with hlen
  set buf := b.inputBuf.write 0 (writeU32 b.counter) with hbuf
  have hcur := hb.currentLen
  have hle : b.currentLen ≤ n * len := le_roundUpDiv_mul hn
  have hflat : (b.output n).2.1.flatten = buf.read 0 (n * len) := by
    have h := Mem.flatten_read_pieces buf 0 len n
    simp only [Nat.zero_add] at h
    exact h
  have hcount : buf.read 0 4 = writeU32 ps.length := by
    rw [hbuf, hb.counter]
    exact Mem.read_write_self _ _ (writeU32 ps.length)
  have hrecords : buf.read (0 + 4) (records ps).length = records ps := by
    rw [hbuf, Mem.read_write_after _ _ _ _ _ (by simp)]
    exact hb.read
  obtain ⟨d, hd⟩ := Nat.exists_eq_add_of_le (hcur ▸ hle)
  refine ⟨buf.read (0 + 4 + (records ps).length) d, ?_⟩
  rw [hflat, hd, Mem.read_add, ← Nat.zero_add 4, Nat.zero_add 4,
    Mem.read_add, hcount, hrecords]
  simp

end BlobEncode

/-! ## Decoding -/

/-- `blob_decode_t`: the octets copied so far, the length of the last shard
and how many there were. -/
structure BlobDecode where
  inputBuf : Bytes := []
  lastLen : Option Nat := none
  counter : Nat := 0
deriving Repr, DecidableEq

namespace BlobDecode

def input (b : BlobDecode) (s : Bytes) : Checked BlobDecode := do
  Checked.check (∀ l ∈ b.lastLen, l = s.length)
  Checked.check (b.counter + 1 ≤ 255)
  Checked.check (b.inputBuf.length + s.length + 100 < blobBufSize)
  return {
    inputBuf := b.inputBuf ++ s
    lastLen := some s.length
    counter := b.counter + 1 }

/-- The loop of `output`: `n` records from the front of `bs`. -/
def parse : Nat → Bytes → Option (List Bytes)
  | 0, _ => some []
  | n + 1, bs =>
      if bs.length < 2 then none
      else
        let len := readU16 bs
        if bs.length < 2 + len then none
        else (parse n (bs.drop (2 + len))).map (((bs.drop 2).take len) :: ·)

/-- `output`; `none` is the return value `-1`.  The count is read as an
`int`, so from `2 ^ 31` on it is negative and no record is read. -/
def output (b : BlobDecode) : Option (List Bytes) :=
  if b.inputBuf.length < 4 then none
  else
    let n := readU32 b.inputBuf
    if 2 ^ 31 ≤ n then some []
    else if n > maxBlobPacketNum then none
    else parse n (b.inputBuf.drop 4)

theorem parse_records : ∀ (ps : List Bytes) (rest : Bytes),
    (∀ p ∈ ps, p.length ≤ 65535) →
    parse ps.length (BlobEncode.records ps ++ rest) = some ps := by
  intro ps
  induction ps with
  | nil => intro rest _; rfl
  | cons p ps ih =>
      intro rest hps
      have hp : p.length ≤ 65535 := hps p (by simp)
      have hsplit : BlobEncode.records (p :: ps) ++ rest
          = writeU16 p.length ++ (p ++ (BlobEncode.records ps ++ rest)) := by
        simp [BlobEncode.records, BlobEncode.record]
      have hread : readU16 (BlobEncode.records (p :: ps) ++ rest) = p.length := by
        rw [hsplit, readU16_writeU16, Nat.mod_eq_of_lt (by omega)]
      have hdrop2 : (BlobEncode.records (p :: ps) ++ rest).drop 2
          = p ++ (BlobEncode.records ps ++ rest) := by
        rw [hsplit, List.drop_left' (length_writeU16 _)]
      have hdrop : (BlobEncode.records (p :: ps) ++ rest).drop (2 + p.length)
          = BlobEncode.records ps ++ rest := by
        rw [← List.drop_drop, hdrop2, List.drop_left' rfl]
      have hlen : (BlobEncode.records (p :: ps) ++ rest).length
          = 2 + p.length + (BlobEncode.records ps ++ rest).length := by
        rw [hsplit]
        simp only [List.length_append, length_writeU16]
        omega
      rw [List.length_cons, parse, if_neg (by omega)]
      simp only [hread]
      rw [if_neg (by omega), hdrop, ih rest (fun q hq => hps q (List.mem_cons_of_mem _ hq)),
        hdrop2, List.take_left' rfl]
      rfl

/-- A buffer that starts with a count and as many records is read back. -/
theorem output_records {b : BlobDecode} {ps : List Bytes} {rest : Bytes}
    (hb : b.inputBuf = writeU32 ps.length ++ BlobEncode.records ps ++ rest)
    (hps : ∀ p ∈ ps, p.length ≤ 65535) (hfew : ps.length ≤ maxBlobPacketNum) :
    b.output = some ps := by
  unfold maxBlobPacketNum at hfew
  rw [List.append_assoc] at hb
  have hread : readU32 b.inputBuf = ps.length := by
    rw [hb, readU32_writeU32, Nat.mod_eq_of_lt (by omega)]
  have hdrop : b.inputBuf.drop 4 = BlobEncode.records ps ++ rest := by
    rw [hb, List.drop_left' (length_writeU32 _)]
  unfold output
  rw [if_neg (by rw [hb]; simp)]
  simp only [hread]
  rw [if_neg (by omega), if_neg (by unfold maxBlobPacketNum; omega), hdrop]
  exact parse_records ps rest hps

/-- Feeding shards of one length, few enough to fit, joins them. -/
theorem input_shards {len : Nat} : ∀ (shards : List Bytes) (b : BlobDecode),
    (∀ d ∈ shards, d.length = len) → (∀ l ∈ b.lastLen, l = len) →
    b.counter + shards.length ≤ 255 →
    b.inputBuf.length + shards.length * len + 100 < blobBufSize →
    ∃ b', shards.foldlM input b = .ok b' ∧
      b'.inputBuf = b.inputBuf ++ shards.flatten := by
  intro shards
  induction shards with
  | nil => intro b _ _ _ _; exact ⟨b, rfl, by simp⟩
  | cons d ds ih =>
      intro b hlen hlast hcnt hbuf
      have hd : d.length = len := hlen d (by simp)
      rw [List.length_cons] at hcnt hbuf
      rw [Nat.succ_mul] at hbuf
      have hone : b.input d = .ok {
          inputBuf := b.inputBuf ++ d
          lastLen := some d.length
          counter := b.counter + 1 } := by
        unfold input
        rw [Checked.check_of (fun l hl => (hlast l hl).trans hd.symm),
          Checked.check_of (by omega), Checked.check_of (by omega)]
        rfl
      have hlast' : ∀ l ∈ some d.length, l = len := by
        intro l hl
        obtain rfl := Option.some.inj hl
        exact hd
      have hbuf' : (b.inputBuf ++ d).length + ds.length * len + 100 < blobBufSize := by
        rw [List.length_append]
        omega
      obtain ⟨b', hb', hjoin⟩ := ih ⟨b.inputBuf ++ d, some d.length, b.counter + 1⟩
        (fun e he => hlen e (List.mem_cons_of_mem _ he)) hlast' (by simp; omega) hbuf'
      refine ⟨b', ?_, ?_⟩
      · rw [List.foldlM_cons, hone]
        exact hb'
      · rw [hjoin]
        simp

end BlobDecode

end Fecraw.Ports.BlobCodec
