import Fecraw.Verified.Erasure
import Fecraw.Ports.BlobCodec
import Fecraw.Ports.Packet
import Fecraw.Ports.RsTable

/-!
# The FEC encoder

A port of `fec_encode_manager_t`.  The encoder collects packets into a
group and, when the group is full, too long or flushed by its timer, emits
data and redundant packets for it.

* In mode 0 the packets of a group form one blob, which is cut into as many
  shards as gives the least traffic (`short_packet_optimize`).
* In mode 1 every packet is a shard of its own and is sent at once; the
  redundant packets follow when the group is closed.

Every packet starts with the sequence number of its group in four octets,
the mode, the two numbers of the group and the index in the group.

The Reed-Solomon code is a parameter.  `first_packet_time` is left out: it is
only read by the artificial latency of `from_normal_to_fec`.

## Main results

* `inputSynced_cases`, `inputSynced_of_call`: all that one call of `input` can
  do.
-/

namespace Fecraw.Ports.FecEncode

open Fecraw.Verified Fecraw.Ports.Packet Fecraw.Ports.RsTable Fecraw.Ports.BlobCodec

/-- `header_overhead`. -/
def headerOverhead : Nat := 40

/-- The pair `(k, n)` is within the 256 by 256 entries of the table of
`get_code`, which is one block, and `fec_new` makes a code of `n` packets. -/
def HasCode (k n : Nat) : Prop := 256 * k + n < 256 * 256 ∧ n ≤ 256

instance (k n : Nat) : Decidable (HasCode k n) := by
  unfold HasCode
  infer_instance

theorem HasCode.le {k n : Nat} (h : HasCode k n) : n ≤ 256 := h.2

/-- Up to `max_fec_packet_num` packets there is always a code. -/
theorem hasCode_of_le {k n : Nat} (hkn : k ≤ n) (hn : n ≤ maxFecPacketNum) : HasCode k n := by
  unfold maxFecPacketNum at hn
  exact ⟨by omega, by omega⟩

/-- `fec_encode_manager_t`. -/
structure FecEncodeManager where
  seq : UInt32
  fecPar : FecParameter
  blob : BlobEncode
  /-- `input_buf[i]` from its ninth octet on, `input_len[i]` octets. -/
  inputBuf : Nat → Bytes := fun _ => []
  counter : Nat := 0
  readyForOutput : Bool := false
  /-- `output_buf` and `output_len`, `output_n` of them. -/
  outputBuf : List Bytes := []
  /-- The flush timer is running. -/
  timer : Bool := false

namespace FecEncodeManager

/-! ## The packet header -/

/-- The eight octets in front of every packet. -/
def packetHeader (seq : UInt32) (mode : Int) (x y i : Nat) : Bytes :=
  writeU32 seq.toNat ++
    [UInt8.ofNat (mode % 2 ^ 8).toNat, UInt8.ofNat x, UInt8.ofNat y, UInt8.ofNat i]

@[simp] theorem length_packetHeader (seq : UInt32) (mode : Int) (x y i : Nat) :
    (packetHeader seq mode x y i).length = 8 := rfl

/-! ## Appending -/

/-- `append`.  The first packet of a group starts the timer. -/
def append (e : FecEncodeManager) (s : Bytes) : Checked FecEncodeManager :=
  let timer := e.timer || decide (e.counter = 0)
  if e.fecPar.mode = 0 then do
    let blob ← e.blob.input s
    return { e with blob := blob, counter := e.counter + 1, timer := timer }
  else if e.fecPar.mode = 1 then do
    Checked.check (s.length ≤ 65535)
    Checked.bounds (10 + s.length ≤ bufLen ∧ e.counter < maxFecPacketNum + 5)
    return { e with
      inputBuf := Function.update e.inputBuf e.counter (writeU16 s.length ++ s)
      counter := e.counter + 1
      timer := timer }
  else .error .assertion

/-- `append` of the argument of `input`, which may be the null pointer. -/
def appendArg (e : FecEncodeManager) : Option Bytes → Checked FecEncodeManager
  | some s => e.append s
  | none => pure e

/-! ## Closing a group -/

/-- One round of the `short_packet_optimize` loop: the best traffic so far
and the group size that has it. -/
def tryRow (par : FecParameter) (blob : BlobEncode) (best : Nat × Nat) (i : Nat) :
    Checked (Nat × Nat) := do
  Checked.check ((par.rsPar (i - 1)).x = i)
  let shardLen := blob.getShardLenNext i 0
  if shardLen > (par.mtu % 2 ^ 32).toNat then return best
  else
    let newLen := (shardLen + headerOverhead) * (i + (par.rsPar (i - 1)).y) % 2 ^ 32
    return if newLen < best.1 then (newLen, i) else best

/-- The number of data shards of a blob. -/
def chooseDataNum (par : FecParameter) (blob : BlobEncode) (tail : RsParameter) :
    Checked Nat := do
  let bestLen := (blob.getShardLenNext tail.x 0 + headerOverhead) * (tail.x + tail.y)
    % 2 ^ 32
  Checked.check (tail.x ≤ par.rsCnt)
  let best ← (List.range' 1 (tail.x - 1)).foldlM (tryRow par blob) (bestLen, tail.x)
  Checked.check (1 ≤ best.2 ∧ best.2 ≤ par.rsCnt)
  return best.2

/-- The arrays that hold a group of `n` packets of `fecLen` octets each:
`input_buf` and `tmp_output_buf`. -/
def fits (n fecLen : Nat) : Checked Unit :=
  Checked.bounds (n ≤ maxFecPacketNum + 5 ∧ 8 + fecLen ≤ bufLen)

/-- `rs_encode2` on `k` of `n` packets gets a descriptor: the pair is in the
table of `get_code`, and `fec_new` gives no null pointer. -/
def coded (k n : Nat) : Checked Unit := Checked.bounds (HasCode k n)

/-- Packet `i` of a closed group in mode 0. -/
def blobPacket (c : Code) (seq : UInt32) (x y fecLen : Nat) (data : List Bytes)
    (i : Nat) : Bytes :=
  packetHeader seq 0 x y i ++ c.shard x (x + y) fecLen data i

theorem length_blobPacket (c : Code) (seq : UInt32) (b : BlobEncode) (x y i : Nat) :
    (blobPacket c seq x y (b.getShardLen x) (b.output x).2.1 i).length = 8 + b.getShardLen x := by
  unfold blobPacket
  rw [List.length_append, length_packetHeader]
  exact congrArg (8 + ·) (c.length_shard (b.length_shards x) (b.length_of_mem_shards x) i)

/-- A packet of mode 1 with its length, as it is stored and sent. -/
def dataPacket (seq : UInt32) (body : Bytes) (i : Nat) : Bytes :=
  packetHeader seq 1 0 0 i ++ body

/-- Zero padding to the group's length. -/
def pad (fecLen : Nat) (body : Bytes) : Bytes :=
  body ++ List.replicate (fecLen - body.length) 0

/-- The longest stored packet of the group. -/
def groupLen (bodies : List Bytes) : Nat := (bodies.map List.length).foldl max 0

theorem foldl_max_le_iff {m : Nat} : ∀ {ls : List Nat} {a : Nat},
    ls.foldl max a ≤ m ↔ a ≤ m ∧ ∀ l ∈ ls, l ≤ m := by
  intro ls
  induction ls with
  | nil => simp
  | cons l ls ih =>
      intro a
      rw [List.foldl_cons, ih, Nat.max_le, List.forall_mem_cons, and_assoc]

/-- Redundant packet `i` of a closed group in mode 1. -/
def redundantPacket (c : Code) (seq : UInt32) (y : Nat) (bodies : List Bytes)
    (i : Nat) : Bytes :=
  packetHeader seq 1 bodies.length y i ++
    c.shard bodies.length (bodies.length + y) (groupLen bodies)
      (bodies.map (pad (groupLen bodies))) i

/-- Packet `i` of a closed group in mode 1. -/
def groupPacket (c : Code) (seq : UInt32) (y : Nat) (bodies : List Bytes) (i : Nat) :
    Bytes :=
  if i < bodies.length then dataPacket seq (bodies.getD i []) i
  else redundantPacket c seq y bodies i

/-- The stored packets of the open group. -/
def bodies (e : FecEncodeManager) : List Bytes := (List.range e.counter).map e.inputBuf

/-- What closing a group leaves behind. -/
def finish (e : FecEncodeManager) (out : List Bytes) : Checked FecEncodeManager := do
  Checked.check (e.readyForOutput = false)
  return { e with
    readyForOutput := true
    outputBuf := out
    seq := e.seq + 1
    counter := 0
    blob := e.blob.clear
    timer := false }

/-- The branch `about_to_fec`, for `counter != 0`. -/
def closeGroup (c : Code) (e : FecEncodeManager) (hasPacket : Bool) : Checked FecEncodeManager := do
  if e.fecPar.mode = 0 then
    let tail ← Checked.ofOption e.fecPar.getTail
    let x ← chooseDataNum e.fecPar e.blob tail
    let y := (e.fecPar.rsPar (x - 1)).y
    let out := e.blob.output x
    fits (x + y) out.2.2
    coded x (x + y)
    finish { e with blob := out.1 }
      ((List.range (x + y)).map (blobPacket c e.seq x y out.2.2 out.2.1))
  else
    Checked.check (e.counter ≤ e.fecPar.rsCnt)
    let y := (e.fecPar.rsPar (e.counter - 1)).y
    fits (e.counter + y) (groupLen e.bodies)
    coded e.counter (e.counter + y)
    let packetToSend := (if hasPacket then [e.counter - 1] else []) ++
      List.range' e.counter y
    finish e (compact (groupPacket c e.seq y e.bodies) packetToSend)

/-- The branch without `about_to_fec`: in mode 1 a packet is sent at once. -/
def fastSend (e : FecEncodeManager) (hasPacket : Bool) : Checked FecEncodeManager := do
  if hasPacket ∧ e.fecPar.mode = 1 then
    Checked.check (1 ≤ e.counter ∧ e.counter ≤ 255)
    Checked.check (e.readyForOutput = false)
    return { e with
      readyForOutput := true
      outputBuf := [dataPacket e.seq (e.inputBuf (e.counter - 1)) (e.counter - 1)] }
  else return e

/-! ## Input and output -/

/-- New parameters are taken over between two groups. -/
def syncPar (g : FecParameter) (e : FecEncodeManager) : Checked FecEncodeManager :=
  if e.counter = 0 ∧ e.fecPar.version ≠ g.version then do
    Checked.check (1 ≤ g.rsCnt)
    return { e with fecPar := e.fecPar.clone g }
  else pure e

/-- The argument does not fit the open group any more. -/
def tooLong (e : FecEncodeManager) (len : Nat) : Checked Bool := do
  let tail ← Checked.ofOption e.fecPar.getTail
  return decide ((e.blob.getShardLenNext tail.x len : Int) > e.fecPar.mtu)

/-- The return value `-1` in front of `append`: a packet that is too long
for an empty group, or nothing to flush. -/
def rejects (e : FecEncodeManager) : Option Bytes → Checked Bool
  | some p => if e.fecPar.mode = 0 ∧ e.counter = 0 then e.tooLong p.length else .ok false
  | none => .ok (decide (e.counter = 0))

/-- `delayed_append`. -/
def delays (e : FecEncodeManager) (s : Option Bytes) : Checked Bool :=
  if e.fecPar.mode = 0 then e.tooLong (s.getD []).length else .ok false

/-- The assertions in front of `append`: the open group is not full. -/
def room (e : FecEncodeManager) : Checked Unit :=
  if e.fecPar.mode = 0 then Checked.check ((e.counter : Int) < e.fecPar.queueLen)
  else do
    let tail ← Checked.ofOption e.fecPar.getTail
    Checked.check (e.counter < tail.x)

/-- `about_to_fec` after `append`: the group is full now. -/
def full (e : FecEncodeManager) : Checked Bool :=
  if e.fecPar.mode = 0 then .ok (decide ((e.counter : Int) = e.fecPar.queueLen))
  else do
    let tail ← Checked.ofOption e.fecPar.getTail
    return decide (e.counter = tail.x)

/-- The rest of `input` once `delayed_append` is known. -/
def proceed (c : Code) (e : FecEncodeManager) (s : Option Bytes) (delayed : Bool) :
    Checked (Int × FecEncodeManager) := do
  let e ← (if delayed then pure e else e.appendArg s)
  let isFull ← e.full
  if s = none ∨ delayed ∨ isFull then
    if e.counter = 0 then return (-1, e)
    else do
      let e ← e.closeGroup c s.isSome
      let e ← (if delayed then e.appendArg s else pure e)
      return (0, e)
  else do
    let e ← e.fastSend s.isSome
    return (0, e)

/-- `input` with the parameters in place. -/
def inputSynced (c : Code) (e : FecEncodeManager) (s : Option Bytes) :
    Checked (Int × FecEncodeManager) := do
  Checked.check (e.fecPar.mode = 0 ∨ e.fecPar.mode = 1)
  let reject ← e.rejects s
  if reject then return (-1, e)
  else do
    let delayed ← e.delays s
    e.room
    e.proceed c s delayed

/-- `input`, with the return value; `none` is the null pointer that the
timer passes to flush the group. -/
def input (c : Code) (g : FecParameter) (e : FecEncodeManager) (s : Option Bytes) :
    Checked (Int × FecEncodeManager) := do
  let e ← e.syncPar g
  e.inputSynced c s

/-- `output`: the packets that are ready, if any. -/
def output (e : FecEncodeManager) : FecEncodeManager × List Bytes :=
  if e.readyForOutput then ({ e with readyForOutput := false }, e.outputBuf)
  else (e, [])

/-- `clear_data` with the sequence number it draws, on a fresh object. -/
def init (g : FecParameter) (seq : UInt32) (buf : Mem) : FecEncodeManager where
  seq := seq
  fecPar := g
  blob := { inputBuf := buf, currentLen := 4, counter := 0 }

/-! ## What one call can do -/

/-- All that a call of `input` can do once the parameters are in place. -/
inductive Call (c : Code) (e : FecEncodeManager) :
    Option Bytes → Int → FecEncodeManager → Prop where
  /-- Nothing to flush, or a packet that is too long for any group. -/
  | rejected {s} (hempty : e.counter = 0)
      (hlong : ∀ p, s = some p → e.fecPar.mode = 0 ∧ e.tooLong p.length = .ok true) :
      Call c e s (-1) e
  /-- The packet joins the group, which stays open. -/
  | queued {p e₁ e'} (hroom : e.room = .ok ()) (hfits : e.delays (some p) = .ok false)
      (happend : e.append p = .ok e₁) (hopen : e₁.full = .ok false)
      (hsend : e₁.fastSend true = .ok e') : Call c e (some p) 0 e'
  /-- The packet completes the group. -/
  | completed {p e₁ e'} (hroom : e.room = .ok ()) (hfits : e.delays (some p) = .ok false)
      (happend : e.append p = .ok e₁) (hfull : e₁.full = .ok true)
      (hclose : e₁.closeGroup c true = .ok e') : Call c e (some p) 0 e'
  /-- The timer closes the group. -/
  | flushed {e'} (hroom : e.room = .ok ()) (hpending : e.counter ≠ 0)
      (hclose : e.closeGroup c false = .ok e') : Call c e none 0 e'
  /-- The packet does not fit: the group is closed and a new one begins. -/
  | delayed {p e₁ e'} (hroom : e.room = .ok ()) (hpending : e.counter ≠ 0)
      (hlong : e.delays (some p) = .ok true) (hclose : e.closeGroup c true = .ok e₁)
      (happend : e₁.append p = .ok e') : Call c e (some p) 0 e'

theorem delays_true {e : FecEncodeManager} {s : Option Bytes}
    (h : e.delays s = .ok true) :
    e.fecPar.mode = 0 ∧ e.tooLong (s.getD []).length = .ok true := by
  unfold delays at h
  split at h
  · next hmode => exact ⟨hmode, h⟩
  · exact absurd h (by simp)

/-- What `append` does in mode 0. -/
theorem append_blob {e e' : FecEncodeManager} {p : Bytes} (hmode : e.fecPar.mode = 0)
    (h : e.append p = .ok e') :
    ∃ blob, e.blob.input p = .ok blob ∧
      e' = { e with
        blob := blob
        counter := e.counter + 1
        timer := e.timer || decide (e.counter = 0) } := by
  unfold append at h
  rw [if_pos hmode] at h
  obtain ⟨blob, hblob, h⟩ := Checked.doBind_eq_ok.mp h
  exact ⟨blob, hblob, (Except.ok.inj h).symm⟩

theorem append_of_blob {e : FecEncodeManager} {p : Bytes} {blob : BlobEncode}
    (hmode : e.fecPar.mode = 0) (h : e.blob.input p = .ok blob) :
    e.append p = .ok { e with
      blob := blob
      counter := e.counter + 1
      timer := e.timer || decide (e.counter = 0) } := by
  unfold append
  rw [if_pos hmode, h]
  rfl

/-- What `append` does in mode 1. -/
theorem append_packet {e e' : FecEncodeManager} {p : Bytes} (hmode : e.fecPar.mode = 1)
    (h : e.append p = .ok e') :
    p.length ≤ 65535 ∧ 10 + p.length ≤ bufLen ∧
      e' = { e with
        inputBuf := Function.update e.inputBuf e.counter (writeU16 p.length ++ p)
        counter := e.counter + 1
        timer := e.timer || decide (e.counter = 0) } := by
  unfold append at h
  rw [if_neg (by simp [hmode]), if_pos hmode] at h
  obtain ⟨hlen, h⟩ := Checked.check_bind_eq_ok.mp h
  obtain ⟨hbuf, h⟩ := Checked.bounds_bind_eq_ok.mp h
  exact ⟨hlen, hbuf.1, (Except.ok.inj h).symm⟩

theorem counter_append {e e' : FecEncodeManager} {p : Bytes}
    (hmode : e.fecPar.mode = 0 ∨ e.fecPar.mode = 1) (h : e.append p = .ok e') :
    e'.counter = e.counter + 1 := by
  rcases hmode with hmode | hmode
  · obtain ⟨blob, -, rfl⟩ := append_blob hmode h
    rfl
  · obtain ⟨-, -, rfl⟩ := append_packet hmode h
    rfl

private theorem proceed_cases {c : Code} {e e' : FecEncodeManager} {s : Option Bytes}
    {delayed : Bool} {r : Int} (hmode : e.fecPar.mode = 0 ∨ e.fecPar.mode = 1)
    (hreject : e.rejects s = .ok false) (hroom : e.room = .ok ())
    (hdelay : e.delays s = .ok delayed)
    (h : e.proceed c s delayed = .ok (r, e')) : Call c e s r e' := by
  unfold proceed at h
  obtain ⟨e₁, happend, h⟩ := Checked.doBind_eq_ok.mp h
  obtain ⟨isFull, hfull, h⟩ := Checked.doBind_eq_ok.mp h
  cases s with
  | none =>
      have hpending : e.counter ≠ 0 := by simpa [rejects] using hreject
      obtain rfl : e = e₁ := by
        cases delayed <;> simpa [appendArg, pure, Except.pure] using happend
      rw [if_pos (.inl rfl), if_neg hpending] at h
      obtain ⟨e₂, hclose, h⟩ := Checked.doBind_eq_ok.mp h
      obtain ⟨e₃, hrest, h⟩ := Checked.doBind_eq_ok.mp h
      obtain rfl : e₂ = e₃ := by
        cases delayed <;> simpa [appendArg, pure, Except.pure] using hrest
      obtain ⟨rfl, rfl⟩ := Prod.mk.inj (Except.ok.inj h)
      exact .flushed hroom hpending hclose
  | some p =>
      cases delayed with
      | true =>
          obtain rfl : e = e₁ := Except.ok.inj happend
          obtain ⟨hblob, hlong⟩ := delays_true hdelay
          have hpending : e.counter ≠ 0 := by
            intro h0
            rw [rejects, if_pos ⟨hblob, h0⟩] at hreject
            exact absurd (hlong.symm.trans hreject) (by simp)
          rw [if_pos (.inr (.inl rfl)), if_neg hpending] at h
          obtain ⟨e₂, hclose, h⟩ := Checked.doBind_eq_ok.mp h
          obtain ⟨e₃, hrest, h⟩ := Checked.doBind_eq_ok.mp h
          obtain ⟨rfl, rfl⟩ := Prod.mk.inj (Except.ok.inj h)
          exact .delayed hroom hpending hdelay hclose hrest
      | false =>
          have happend' : e.append p = .ok e₁ := happend
          have hcnt := counter_append hmode happend'
          cases isFull with
          | true =>
              rw [if_pos (.inr (.inr rfl)), if_neg (by omega)] at h
              obtain ⟨e₂, hclose, h⟩ := Checked.doBind_eq_ok.mp h
              obtain ⟨e₃, hrest, h⟩ := Checked.doBind_eq_ok.mp h
              obtain rfl : e₂ = e₃ := Except.ok.inj hrest
              obtain ⟨rfl, rfl⟩ := Prod.mk.inj (Except.ok.inj h)
              exact .completed hroom hdelay happend' hfull hclose
          | false =>
              rw [if_neg (by simp)] at h
              obtain ⟨e₂, hsend, h⟩ := Checked.doBind_eq_ok.mp h
              obtain ⟨rfl, rfl⟩ := Prod.mk.inj (Except.ok.inj h)
              exact .queued hroom hdelay happend' hfull hsend

/-- Every call that returns is one of the cases of `Call`. -/
theorem inputSynced_cases {c : Code} {e e' : FecEncodeManager} {s : Option Bytes}
    {r : Int} (h : e.inputSynced c s = .ok (r, e')) :
    (e.fecPar.mode = 0 ∨ e.fecPar.mode = 1) ∧ Call c e s r e' := by
  unfold inputSynced at h
  obtain ⟨hmode, h⟩ := Checked.check_bind_eq_ok.mp h
  obtain ⟨reject, hreject, h⟩ := Checked.doBind_eq_ok.mp h
  refine ⟨hmode, ?_⟩
  cases reject with
  | true =>
      obtain ⟨rfl, rfl⟩ := Prod.mk.inj (Except.ok.inj h)
      cases s with
      | none => exact .rejected (by simpa [rejects] using hreject) (by simp)
      | some p =>
          rw [rejects] at hreject
          split at hreject
          · next hguard =>
              refine .rejected hguard.2 ?_
              rintro q ⟨⟩
              exact ⟨hguard.1, hreject⟩
          · exact absurd hreject (by simp)
  | false =>
      obtain ⟨delayed, hdelay, h⟩ := Checked.doBind_eq_ok.mp h
      obtain ⟨_, hroom, h⟩ := Checked.doBind_eq_ok.mp h
      exact proceed_cases hmode hreject hroom hdelay h

theorem syncPar_of_version {g : FecParameter} {e : FecEncodeManager}
    (h : e.fecPar.version = g.version) : e.syncPar g = .ok e := by
  unfold syncPar
  rw [if_neg (by simp [h])]
  rfl

theorem input_cases {c : Code} {g : FecParameter} {e e' : FecEncodeManager}
    {s : Option Bytes} {r : Int} (h : e.input c g s = .ok (r, e')) :
    ∃ e₀, e.syncPar g = .ok e₀ ∧ (e₀.fecPar.mode = 0 ∨ e₀.fecPar.mode = 1) ∧
      Call c e₀ s r e' := by
  obtain ⟨e₀, hsync, h⟩ := Checked.doBind_eq_ok.mp h
  exact ⟨e₀, hsync, inputSynced_cases h⟩

/-! ## Closing a group, mode by mode -/

/-- The loop looks at rows `1, …, tail.x - 1` only. -/
theorem foldlM_tryRow {par : FecParameter} {blob : BlobEncode} :
    ∀ {is : List Nat} {best best' : Nat × Nat},
      is.foldlM (tryRow par blob) best = .ok best' →
      best'.2 = best.2 ∨
        (best'.2 ∈ is ∧ blob.getShardLenNext best'.2 0 ≤ (par.mtu % 2 ^ 32).toNat) := by
  intro is
  induction is with
  | nil =>
      intro best best' h
      obtain rfl := Except.ok.inj h
      exact .inl rfl
  | cons i is ih =>
      intro best best' h
      rw [List.foldlM_cons] at h
      obtain ⟨mid, hmid, h⟩ := Checked.doBind_eq_ok.mp h
      have hstep : mid.2 = best.2 ∨
          (mid.2 = i ∧ blob.getShardLenNext i 0 ≤ (par.mtu % 2 ^ 32).toNat) := by
        unfold tryRow at hmid
        obtain ⟨-, hmid⟩ := Checked.check_bind_eq_ok.mp hmid
        dsimp only at hmid
        split at hmid
        · obtain rfl := Except.ok.inj hmid
          exact .inl rfl
        · next hfit =>
            obtain rfl := Except.ok.inj hmid
            split
            · exact .inr ⟨rfl, by omega⟩
            · exact .inl rfl
      rcases ih h with hkeep | ⟨hmem, hfit⟩
      · rw [hkeep]
        rcases hstep with hkeep' | ⟨hi, hfit⟩
        · exact .inl hkeep'
        · rw [hi]
          exact .inr ⟨by simp, hfit⟩
      · exact .inr ⟨List.mem_cons_of_mem _ hmem, hfit⟩

/-- The chosen size is a row of the table: the last one, or an earlier one
whose shards are at most `mtu` octets long. -/
theorem chooseDataNum_eq_ok {par : FecParameter} {blob : BlobEncode}
    {tail : RsParameter} {x : Nat} (h : chooseDataNum par blob tail = .ok x) :
    1 ≤ x ∧ x ≤ par.rsCnt ∧
      (x = tail.x ∨ blob.getShardLenNext x 0 ≤ (par.mtu % 2 ^ 32).toNat) := by
  unfold chooseDataNum at h
  obtain ⟨-, h⟩ := Checked.check_bind_eq_ok.mp h
  obtain ⟨best, hbest, h⟩ := Checked.doBind_eq_ok.mp h
  obtain ⟨hrange, h⟩ := Checked.check_bind_eq_ok.mp h
  obtain rfl := Except.ok.inj h
  refine ⟨hrange.1, hrange.2, ?_⟩
  rcases foldlM_tryRow hbest with hkeep | ⟨-, hfit⟩
  · exact .inl hkeep
  · exact .inr hfit

/-- What closing a group does in mode 0. -/
theorem closeGroup_blob {c : Code} {e e' : FecEncodeManager} {hasPacket : Bool}
    (hmode : e.fecPar.mode = 0) (h : e.closeGroup c hasPacket = .ok e') :
    ∃ tail x, e.fecPar.getTail = some tail ∧ chooseDataNum e.fecPar e.blob tail = .ok x ∧
      HasCode x (x + (e.fecPar.rsPar (x - 1)).y) ∧
      8 + e.blob.getShardLen x ≤ bufLen ∧ e.readyForOutput = false ∧
      e' = { e with
        readyForOutput := true
        outputBuf := (List.range (x + (e.fecPar.rsPar (x - 1)).y)).map
          (blobPacket c e.seq x (e.fecPar.rsPar (x - 1)).y (e.blob.getShardLen x)
            (e.blob.output x).2.1)
        seq := e.seq + 1
        counter := 0
        blob := (e.blob.output x).1.clear
        timer := false } := by
  unfold closeGroup at h
  rw [if_pos hmode] at h
  obtain ⟨tail, htail, h⟩ := Checked.doBind_eq_ok.mp h
  obtain ⟨x, hx, h⟩ := Checked.doBind_eq_ok.mp h
  obtain ⟨hfit, h⟩ := Checked.bounds_bind_eq_ok.mp h
  obtain ⟨hcode, h⟩ := Checked.bounds_bind_eq_ok.mp h
  unfold finish at h
  obtain ⟨hready, h⟩ := Checked.check_bind_eq_ok.mp h
  exact ⟨tail, x, Checked.ofOption_eq_ok.mp htail, hx, hcode, hfit.2, hready,
    (Except.ok.inj h).symm⟩

/-- A group of mode 0 that fits the arrays and has a code can be closed. -/
theorem closeGroup_of_blob {c : Code} {e : FecEncodeManager} (hasPacket : Bool)
    {tail : RsParameter} {x : Nat} (hmode : e.fecPar.mode = 0)
    (htail : e.fecPar.getTail = some tail)
    (hx : chooseDataNum e.fecPar e.blob tail = .ok x)
    (hcode : HasCode x (x + (e.fecPar.rsPar (x - 1)).y))
    (hlen : 8 + e.blob.getShardLen x ≤ bufLen) (hready : e.readyForOutput = false) :
    ∃ e', e.closeGroup c hasPacket = .ok e' := by
  have hle := hcode.le
  unfold closeGroup fits coded finish
  rw [if_pos hmode, htail]
  simp only [Checked.ofOption_some, Checked.ok_bind, hx]
  rw [Checked.bounds_of ⟨by unfold maxFecPacketNum; omega, hlen⟩, Checked.bounds_of hcode,
    Checked.check_of hready]
  exact ⟨_, rfl⟩

/-- The packets that are still to be sent, in ascending order. -/
private theorem packetToSend_ascending {n y : Nat} {hasPacket : Bool} (hn : n ≠ 0) :
    ((if hasPacket then [n - 1] else []) ++ List.range' n y).Pairwise (· < ·) := by
  have hrange : (List.range' n y).Pairwise (· < ·) := List.pairwise_lt_range'
  cases hasPacket with
  | false => simpa using hrange
  | true =>
      simp only [if_true, List.cons_append, List.nil_append, List.pairwise_cons]
      refine ⟨?_, hrange⟩
      intro k hk
      have := (List.mem_range'_1.mp hk).1
      omega

/-- What closing a group does in mode 1. -/
theorem closeGroup_packets {c : Code} {e e' : FecEncodeManager} {hasPacket : Bool}
    (hmode : e.fecPar.mode = 1) (hpending : e.counter ≠ 0)
    (h : e.closeGroup c hasPacket = .ok e') :
    e.counter ≤ e.fecPar.rsCnt ∧
      HasCode e.counter (e.counter + (e.fecPar.rsPar (e.counter - 1)).y) ∧
      e.readyForOutput = false ∧
      e' = { e with
        readyForOutput := true
        outputBuf :=
          ((if hasPacket then [e.counter - 1] else []) ++
            List.range' e.counter (e.fecPar.rsPar (e.counter - 1)).y).map
            (groupPacket c e.seq (e.fecPar.rsPar (e.counter - 1)).y e.bodies)
        seq := e.seq + 1
        counter := 0
        blob := e.blob.clear
        timer := false } := by
  unfold closeGroup at h
  rw [if_neg (by simp [hmode])] at h
  obtain ⟨hcnt, h⟩ := Checked.check_bind_eq_ok.mp h
  obtain ⟨-, h⟩ := Checked.bounds_bind_eq_ok.mp h
  obtain ⟨hcode, h⟩ := Checked.bounds_bind_eq_ok.mp h
  unfold finish at h
  obtain ⟨hready, h⟩ := Checked.check_bind_eq_ok.mp h
  rw [compact_eq_map (packetToSend_ascending hpending)] at h
  exact ⟨hcnt, hcode, hready, (Except.ok.inj h).symm⟩

/-- What the branch without `about_to_fec` does in mode 0. -/
theorem fastSend_blob {e e' : FecEncodeManager} {hasPacket : Bool}
    (hmode : e.fecPar.mode = 0) (h : e.fastSend hasPacket = .ok e') : e' = e := by
  unfold fastSend at h
  rw [if_neg (by simp [hmode])] at h
  exact (Except.ok.inj h).symm

/-- What the branch without `about_to_fec` does with a packet in mode 1. -/
theorem fastSend_packet {e e' : FecEncodeManager} (hmode : e.fecPar.mode = 1)
    (h : e.fastSend true = .ok e') :
    1 ≤ e.counter ∧ e.counter ≤ 255 ∧ e.readyForOutput = false ∧
      e' = { e with
        readyForOutput := true
        outputBuf := [dataPacket e.seq (e.inputBuf (e.counter - 1)) (e.counter - 1)] } := by
  unfold fastSend at h
  rw [if_pos ⟨rfl, hmode⟩] at h
  obtain ⟨hcnt, h⟩ := Checked.check_bind_eq_ok.mp h
  obtain ⟨hready, h⟩ := Checked.check_bind_eq_ok.mp h
  exact ⟨hcnt.1, hcnt.2, hready, (Except.ok.inj h).symm⟩

/-- The last row, where there is one. -/
theorem getTail_eq_some {g : FecParameter} {tail : RsParameter} (h : g.getTail = some tail) :
    1 ≤ g.rsCnt ∧ tail = g.rsPar (g.rsCnt - 1) := by
  unfold FecParameter.getTail at h
  split at h
  · next hpos => exact ⟨hpos, (Option.some.inj h).symm⟩
  · exact absurd h (by simp)

/-- In mode 1 there is room while the group is smaller than the last row. -/
theorem room_packet {e : FecEncodeManager} (hmode : e.fecPar.mode = 1)
    (h : e.room = .ok ()) :
    ∃ tail, e.fecPar.getTail = some tail ∧ e.counter < tail.x := by
  unfold room at h
  rw [if_neg (by simp [hmode])] at h
  obtain ⟨tail, htail, h⟩ := Checked.doBind_eq_ok.mp h
  exact ⟨tail, Checked.ofOption_eq_ok.mp htail, Checked.check_eq_ok.mp h⟩

/-! ## Every case returns -/

private theorem rejects_of_delays {e : FecEncodeManager} {p : Bytes}
    (h : e.delays (some p) = .ok false) : e.rejects (some p) = .ok false := by
  unfold delays at h
  show (if e.fecPar.mode = 0 ∧ e.counter = 0 then e.tooLong p.length else .ok false) = _
  split
  · next hmode =>
      rw [if_pos hmode.1] at h
      exact h
  · rfl

/-- A call that finds a packet to join the group. -/
private theorem inputSynced_of_fits {c : Code} {e e₁ : FecEncodeManager} {p : Bytes}
    (hmode : e.fecPar.mode = 0 ∨ e.fecPar.mode = 1) (hroom : e.room = .ok ())
    (hfits : e.delays (some p) = .ok false) (happend : e.append p = .ok e₁) :
    e.inputSynced c (some p) = (do
      let isFull ← e₁.full
      if isFull then do
        let e' ← e₁.closeGroup c true
        return (0, e')
      else do
        let e' ← e₁.fastSend true
        return (0, e')) := by
  have hcnt := counter_append hmode happend
  unfold inputSynced proceed
  rw [Checked.check_of hmode, rejects_of_delays hfits, hfits, hroom]
  simp only [Checked.ok_bind, Bool.false_eq_true, if_false, appendArg, happend, reduceCtorEq,
    false_or, hcnt, Nat.add_one_ne_zero, Option.isSome_some]
  congr 1

private theorem getTail_of_closes {c : Code} {e e' : FecEncodeManager} {hasPacket : Bool}
    (hmode : e.fecPar.mode = 0 ∨ e.fecPar.mode = 1) (hroom : e.room = .ok ())
    (hclose : e.closeGroup c hasPacket = .ok e') : ∃ tail, e.fecPar.getTail = some tail := by
  rcases hmode with hmode | hmode
  · obtain ⟨tail, -, htail, -⟩ := closeGroup_blob hmode hclose
    exact ⟨tail, htail⟩
  · obtain ⟨tail, htail, -⟩ := room_packet hmode hroom
    exact ⟨tail, htail⟩

/-- Every case of `Call` is a call that returns. -/
theorem inputSynced_of_call {c : Code} {e e' : FecEncodeManager} {s : Option Bytes} {r : Int}
    (hmode : e.fecPar.mode = 0 ∨ e.fecPar.mode = 1) (h : Call c e s r e') :
    e.inputSynced c s = .ok (r, e') := by
  cases h with
  | rejected hempty hlong =>
      have hreject : e.rejects s = .ok true := by
        cases s with
        | none => simp [rejects, hempty]
        | some p =>
            obtain ⟨hblob, htoo⟩ := hlong p rfl
            rw [rejects, if_pos ⟨hblob, hempty⟩, htoo]
      unfold inputSynced
      rw [Checked.check_of hmode, hreject]
      rfl
  | queued hroom hfits happend hopen hsend =>
      rw [inputSynced_of_fits hmode hroom hfits happend, hopen]
      simp only [Checked.ok_bind, Bool.false_eq_true, if_false, hsend]
      rfl
  | completed hroom hfits happend hfull hclose =>
      rw [inputSynced_of_fits hmode hroom hfits happend, hfull]
      simp only [Checked.ok_bind, if_true, hclose]
      rfl
  | flushed hroom hpending hclose =>
      obtain ⟨tail, htail⟩ := getTail_of_closes hmode hroom hclose
      obtain ⟨delayed, hdelay⟩ : ∃ b, e.delays none = .ok b := by
        unfold delays tooLong
        rw [htail]
        split
        · exact ⟨_, rfl⟩
        · exact ⟨_, rfl⟩
      obtain ⟨isFull, hfull⟩ : ∃ b, e.full = .ok b := by
        unfold full
        rw [htail]
        split
        · exact ⟨_, rfl⟩
        · exact ⟨_, rfl⟩
      have hreject : e.rejects none = .ok false := by simp [rejects, hpending]
      unfold inputSynced proceed
      rw [Checked.check_of hmode, hreject, hdelay, hroom]
      cases delayed <;>
        simp [Checked.ok_bind, appendArg, hfull, hpending, hclose, pure, Except.pure]
  | @delayed p e₁ _ hroom hpending hlong hclose happend =>
      have hreject : e.rejects (some p) = .ok false := by
        show (if e.fecPar.mode = 0 ∧ e.counter = 0 then _ else _) = _
        rw [if_neg (fun h => hpending h.2)]
      have hfull : e.full = .ok (decide ((e.counter : Int) = e.fecPar.queueLen)) := by
        unfold full
        rw [if_pos (delays_true hlong).1]
      unfold inputSynced proceed
      rw [Checked.check_of hmode, hreject, hlong, hroom]
      simp [Checked.ok_bind, appendArg, hfull, hpending, hclose, happend, pure, Except.pure]

theorem input_of_call {c : Code} {g : FecParameter} {e e' : FecEncodeManager}
    {s : Option Bytes} {r : Int} (hversion : e.fecPar.version = g.version)
    (hmode : e.fecPar.mode = 0 ∨ e.fecPar.mode = 1) (h : Call c e s r e') :
    e.input c g s = .ok (r, e') := by
  unfold input
  rw [syncPar_of_version hversion]
  exact inputSynced_of_call hmode h

/-! ## One call with its output -/

/-- `from_normal_to_fec`: one call of `input`, then `output`. -/
def step (c : Code) (g : FecParameter) (e : FecEncodeManager) (s : Option Bytes) :
    Checked (FecEncodeManager × Int × List Bytes) := do
  let (ret, e) ← e.input c g s
  let (e, out) := e.output
  return (e, ret, out)

theorem step_eq_ok {c : Code} {g : FecParameter} {e e' : FecEncodeManager}
    {s : Option Bytes} {ret : Int} {out : List Bytes} :
    e.step c g s = .ok (e', ret, out) ↔
      ∃ e₁, e.input c g s = .ok (ret, e₁) ∧ e₁.output = (e', out) := by
  unfold step
  rw [Checked.doBind_eq_ok]
  constructor
  · rintro ⟨⟨r, e₁⟩, hin, h⟩
    obtain ⟨rfl, hrest⟩ := Prod.mk.inj (Except.ok.inj h)
    obtain ⟨rfl, rfl⟩ := Prod.mk.inj hrest
    exact ⟨e₁, hin, rfl⟩
  · rintro ⟨e₁, hin, hout⟩
    refine ⟨(ret, e₁), hin, ?_⟩
    simp only [hout]
    rfl

/-! ## Every packet carries the number of its group -/

/-- A packet of the group with sequence number `seq`. -/
def Numbered (seq : UInt32) (q : Bytes) : Prop :=
  ∃ mode x y i body, q = packetHeader seq mode x y i ++ body

theorem syncPar_eq_ok {g : FecParameter} {e e' : FecEncodeManager}
    (h : e.syncPar g = .ok e') : e' = e ∨ e' = { e with fecPar := e.fecPar.clone g } := by
  unfold syncPar at h
  split at h
  · obtain ⟨-, h⟩ := Checked.check_bind_eq_ok.mp h
    exact .inr (Except.ok.inj h).symm
  · exact .inl (Except.ok.inj h).symm

/-- `append` leaves the output alone. -/
theorem append_output {e e' : FecEncodeManager} {p : Bytes}
    (hmode : e.fecPar.mode = 0 ∨ e.fecPar.mode = 1) (h : e.append p = .ok e') :
    e'.seq = e.seq ∧ e'.fecPar = e.fecPar ∧ e'.readyForOutput = e.readyForOutput ∧
      e'.outputBuf = e.outputBuf := by
  rcases hmode with hmode | hmode
  · obtain ⟨blob, -, rfl⟩ := append_blob hmode h
    exact ⟨rfl, rfl, rfl, rfl⟩
  · obtain ⟨-, -, rfl⟩ := append_packet hmode h
    exact ⟨rfl, rfl, rfl, rfl⟩

private theorem closeGroup_numbered {c : Code} {e e' : FecEncodeManager}
    {hasPacket : Bool} (hmode : e.fecPar.mode = 0 ∨ e.fecPar.mode = 1)
    (hpending : e.counter ≠ 0) (h : e.closeGroup c hasPacket = .ok e') :
    e'.fecPar = e.fecPar ∧ ∀ q ∈ e'.outputBuf, Numbered e.seq q := by
  rcases hmode with hmode | hmode
  · obtain ⟨tail, x, -, -, -, -, -, rfl⟩ := closeGroup_blob hmode h
    refine ⟨rfl, ?_⟩
    intro q hq
    obtain ⟨i, -, rfl⟩ := List.mem_map.mp hq
    exact ⟨_, _, _, _, _, rfl⟩
  · obtain ⟨-, -, -, rfl⟩ := closeGroup_packets hmode hpending h
    refine ⟨rfl, ?_⟩
    intro q hq
    obtain ⟨i, -, rfl⟩ := List.mem_map.mp hq
    unfold groupPacket
    split
    · exact ⟨_, _, _, _, _, rfl⟩
    · exact ⟨_, _, _, _, _, rfl⟩

private theorem fastSend_numbered {e e' : FecEncodeManager}
    (hmode : e.fecPar.mode = 0 ∨ e.fecPar.mode = 1) (h : e.fastSend true = .ok e') :
    e' = e ∨ ∀ q ∈ e'.outputBuf, Numbered e.seq q := by
  rcases hmode with hmode | hmode
  · exact .inl (fastSend_blob hmode h)
  · obtain ⟨-, -, -, rfl⟩ := fastSend_packet hmode h
    refine .inr fun q hq => ?_
    obtain rfl := List.mem_singleton.mp hq
    exact ⟨_, _, _, _, _, rfl⟩

/-- A call of `input` leaves nothing to send, or packets of the open group. -/
theorem input_numbered {c : Code} {g : FecParameter} {e e' : FecEncodeManager}
    {s : Option Bytes} {r : Int} (hready : e.readyForOutput = false)
    (h : e.input c g s = .ok (r, e')) :
    e'.readyForOutput = false ∨ ∀ q ∈ e'.outputBuf, Numbered e.seq q := by
  obtain ⟨e₀, hsync, hmode, hcall⟩ := input_cases h
  have hseq : e₀.seq = e.seq ∧ e₀.readyForOutput = false := by
    rcases syncPar_eq_ok hsync with rfl | rfl
    · exact ⟨rfl, hready⟩
    · exact ⟨rfl, hready⟩
  rw [← hseq.1]
  cases hcall with
  | rejected _ _ => exact .inl hseq.2
  | queued _ _ happend _ hsend =>
      obtain ⟨hs, hpar, hr, -⟩ := append_output hmode happend
      rw [← hs]
      rcases fastSend_numbered (hpar ▸ hmode) hsend with rfl | hq
      · exact .inl (hr.trans hseq.2)
      · exact .inr hq
  | completed _ _ happend _ hclose =>
      obtain ⟨hs, hpar, -, -⟩ := append_output hmode happend
      have hcnt := counter_append hmode happend
      rw [← hs]
      exact .inr (closeGroup_numbered (hpar ▸ hmode) (by omega) hclose).2
  | flushed _ hpending hclose => exact .inr (closeGroup_numbered hmode hpending hclose).2
  | delayed _ hpending _ hclose happend =>
      obtain ⟨hpar, hnum⟩ := closeGroup_numbered hmode hpending hclose
      obtain ⟨-, -, -, hout⟩ := append_output (hpar ▸ hmode) happend
      rw [hout]
      exact .inr hnum

/-- What one call sends belongs to the group that was open before it. -/
theorem step_numbered {c : Code} {g : FecParameter} {e e' : FecEncodeManager}
    {s : Option Bytes} {r : Int} {out : List Bytes} (hready : e.readyForOutput = false)
    (h : e.step c g s = .ok (e', r, out)) :
    e'.readyForOutput = false ∧ ∀ q ∈ out, Numbered e.seq q := by
  obtain ⟨e₁, hin, hout⟩ := step_eq_ok.mp h
  unfold output at hout
  split at hout
  · next hr =>
      obtain ⟨rfl, rfl⟩ := Prod.mk.inj hout
      refine ⟨rfl, ?_⟩
      rcases input_numbered hready hin with hno | hq
      · exact absurd (hno.symm.trans hr) (by simp)
      · exact hq
  · next hr =>
      obtain ⟨rfl, rfl⟩ := Prod.mk.inj hout
      exact ⟨by simpa using hr, by simp⟩

end FecEncodeManager

end Fecraw.Ports.FecEncode
