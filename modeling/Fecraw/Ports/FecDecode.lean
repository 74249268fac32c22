import Fecraw.Ports.AntiReplay
import Fecraw.Ports.FecEncode

/-!
# The FEC decoder

A port of `fec_decode_manager_t`.  Packets are kept in a ring of slots; a
map from sequence numbers to groups says which slots hold which packets of
a group.  When a slot is needed again, the whole group that uses it is given
up.  A group is decoded as soon as enough of its packets are there, and its
number then goes to the anti-replay window.

In mode 1 the data packets carry no group numbers and are output when they
arrive; the numbers are learnt from the first redundant packet.

Slots keep their octets: the code lets `rs_decode2` overwrite them, but only
for a group that is marked done and never looked at again.  A length field
larger than its shard makes the code output octets that the slot's array
holds past the shard; these are the argument `stale`.
-/

namespace Fecraw.Ports.FecDecode

open Fecraw.Verified Fecraw.Ports.Packet Fecraw.Ports.RsTable Fecraw.Ports.BlobCodec

/-- `fec_buff_num`. -/
def fecBuffNum : Nat := 2000

/-- `fec_data_t`; `len` is the length of `buf`. -/
structure FecData where
  used : Bool := false
  seq : UInt32 := 0
  type : Nat := 0
  dataNum : Nat := 0
  redundantNum : Nat := 0
  idx : Nat := 0
  buf : Bytes := []
deriving Repr, DecidableEq

/-- `fec_group_t`; `none` is the initial value `-1`. -/
structure FecGroup where
  type : Option Nat := none
  dataNum : Option Nat := none
  redundantNum : Option Nat := none
  len : Option Nat := none
  fecDone : Bool := false
  /-- From an index in the group to the slot that holds the packet. -/
  groupMp : List (Nat × Nat) := []
deriving Repr, DecidableEq

/-- `fec_decode_manager_t`. -/
structure FecDecodeManager where
  antiReplay : AntiReplay := {}
  fecData : Nat → FecData := fun _ => {}
  mp : UInt32 → Option FecGroup := fun _ => none
  index : Nat := 0
  readyForOutput : Bool := false
  outputBuf : List Bytes := []

/-! ## The packet header -/

/-- A packet, taken apart. -/
structure Header where
  seq : UInt32
  type : Nat
  dataNum : Nat
  redundantNum : Nat
  innerIndex : Nat
  body : Bytes
deriving Repr, DecidableEq

/-- The header checks of `input`; `none` is the return value `-1`. -/
def parseHeader (s : Bytes) : Option Header :=
  if s.length < 8 then none
  else
    let h : Header := {
      seq := UInt32.ofNat (readU32 s)
      type := (s.getD 4 0).toNat
      dataNum := (s.getD 5 0).toNat
      redundantNum := (s.getD 6 0).toNat
      innerIndex := (s.getD 7 0).toNat
      body := s.drop 8 }
    if h.type = 1 ∧ h.body.length < 2 then none
    else if h.type = 1 ∧ h.dataNum = 0 ∧ readU16 h.body + 2 ≠ h.body.length then none
    else if h.type = 0 ∧ h.dataNum = 0 then none
    else if h.dataNum + h.redundantNum ≥ maxFecPacketNum then none
    else some h

/-! ## Placing a packet -/

namespace FecGroup

/-- The slot of a packet of the group. -/
def slot (g : FecGroup) (i : Nat) : Option Nat := g.groupMp.lookup i

/-- The checks of a packet against its group, which learns its numbers from
the first packet that has them; `false` is the return value `-1`. -/
def join (g : FecGroup) (h : Header) : FecGroup × Bool :=
  let g := if g.type = none then { g with type := some h.type } else g
  if g.type ≠ some h.type then (g, false)
  else if h.dataNum = 0 then (g, true)
  else if g.dataNum = none then
    ({ g with
      dataNum := some h.dataNum
      redundantNum := some h.redundantNum
      len := some h.body.length }, true)
  else
    (g, decide (g.dataNum = some h.dataNum ∧ g.redundantNum = some h.redundantNum ∧
      g.len = some h.body.length))

end FecGroup

namespace FecDecodeManager

/-- Give up the group whose packet is in the slot at the cursor; `false` is
the return value `-1`, when that is the group of the packet itself. -/
def recycle (d : FecDecodeManager) (now : UInt64) (seq : UInt32) :
    Checked (FecDecodeManager × Bool) :=
  let old := d.fecData d.index
  if old.used then do
    let antiReplay ← d.antiReplay.setInvaild now old.seq
    return ({ d with antiReplay := antiReplay, mp := Function.update d.mp old.seq none },
      decide (old.seq ≠ seq))
  else pure (d, true)

/-- Copy the packet to the slot at the cursor and enter it in its group. -/
def store (d : FecDecodeManager) (h : Header) : Checked FecDecodeManager := do
  Checked.check (d.index < fecBuffNum)
  Checked.check (h.body.length + 100 < bufLen)
  let g := (d.mp h.seq).getD {}
  return { d with
    fecData := Function.update d.fecData d.index {
      used := true
      seq := h.seq
      type := h.type
      dataNum := h.dataNum
      redundantNum := h.redundantNum
      idx := h.innerIndex
      buf := h.body }
    mp := Function.update d.mp h.seq
      (some { g with groupMp := (h.innerIndex, d.index) :: g.groupMp }) }

/-- `store` for a packet whose group is in the map. -/
theorem store_eq_ok {d : FecDecodeManager} {h : Header} {g : FecGroup}
    (hindex : d.index < fecBuffNum) (hlen : h.body.length + 100 < bufLen)
    (hmp : d.mp h.seq = some g) :
    d.store h = .ok { d with
      fecData := Function.update d.fecData d.index
        ⟨true, h.seq, h.type, h.dataNum, h.redundantNum, h.innerIndex, h.body⟩
      mp := Function.update d.mp h.seq
        (some { g with groupMp := (h.innerIndex, d.index) :: g.groupMp }) } := by
  unfold store
  rw [Checked.check_of hindex, Checked.check_of hlen, hmp]
  rfl

/-- The outcome of the first half of `input`. -/
inductive Placed where
  /-- `input` returns. -/
  | returned (ret : Int) (d : FecDecodeManager)
  /-- The packet is in a slot. -/
  | stored (h : Header) (d : FecDecodeManager)

/-- A packet that is new to its group finds a slot. -/
def placeNew (d : FecDecodeManager) (now : UInt64) (h : Header) (g : FecGroup) :
    Checked Placed := do
  let d := { d with mp := Function.update d.mp h.seq (some g) }
  let (d, other) ← d.recycle now h.seq
  if other then do
    let d ← d.store h
    return .stored h d
  else return .returned (-1) d

/-- The checks of a packet whose number is not in the anti-replay window. -/
def placeValid (d : FecDecodeManager) (now : UInt64) (h : Header) : Checked Placed :=
  let g := (d.mp h.seq).getD {}
  if g.fecDone ∨ (g.slot h.innerIndex).isSome then
    pure (.returned (-1) { d with mp := Function.update d.mp h.seq (some g) })
  else
    match g.join h with
    | (g, false) => pure (.returned (-1) { d with mp := Function.update d.mp h.seq (some g) })
    | (g, true) => d.placeNew now h g

/-- `input` up to the point where the packet is in its slot. -/
def place (d : FecDecodeManager) (now : UInt64) (s : Bytes) : Checked Placed := do
  Checked.check (s.length + 100 < bufLen)
  match parseHeader s with
  | none => return .returned (-1) d
  | some h =>
      match d.antiReplay.isVaild now h.seq with
      | (false, a) => return .returned 0 { d with antiReplay := a }
      | (true, a) => placeValid { d with antiReplay := a } now h

/-! ## Decoding a group -/

/-- The stored packets of a group, by index. -/
def got (d : FecDecodeManager) (g : FecGroup) (i : Nat) : Option Bytes :=
  (g.slot i).map fun k => (d.fecData k).buf

/-- Make packets ready for `output`. -/
def ready (d : FecDecodeManager) (out : List Bytes) : Checked FecDecodeManager := do
  Checked.check (d.readyForOutput = false)
  return { d with readyForOutput := true, outputBuf := out }

/-- Enter a number in the anti-replay window. -/
def retire (d : FecDecodeManager) (now : UInt64) (seq : UInt32) :
    Checked FecDecodeManager := do
  let antiReplay ← d.antiReplay.setInvaild now seq
  return { d with antiReplay := antiReplay }

/-- Mark a group as done. -/
def markDone (d : FecDecodeManager) (seq : UInt32) (g : FecGroup) : FecDecodeManager :=
  { d with mp := Function.update d.mp seq (some { g with fecDone := true }) }

/-- Decode a group of mode 0. -/
def decodeBlob (c : Code) (d : FecDecodeManager) (now : UInt64) (h : Header)
    (g : FecGroup) : Checked FecDecodeManager := do
  let x := g.dataNum.getD 0
  let y := g.redundantNum.getD 0
  let data ← Checked.ofOption (c.decode x (x + y) h.body.length (d.got g))
  let d := d.markDone h.seq g
  let blob ← data.foldlM BlobDecode.input {}
  match blob.output with
  | none => d.retire now h.seq
  | some out => do
      let d ← d.ready out
      d.retire now h.seq

/-- The lengths of the stored packets of a group. -/
def lens (d : FecDecodeManager) (g : FecGroup) : List Nat :=
  g.groupMp.map fun e => (d.fecData e.2).buf.length

/-- The packet in a decoded shard of mode 1: a length and as many octets. -/
def unpack (stale : Mem) (shard : Bytes) : Bytes :=
  (List.range (readU16 shard)).map fun j => byteAt stale shard (2 + j)

/-- Decode a group of mode 1: the packets that were missing, and the one
that just arrived. -/
def decodePackets (c : Code) (d : FecDecodeManager) (now : UInt64) (stale : Mem)
    (h : Header) (g : FecGroup) : Checked FecDecodeManager := do
  let x := g.dataNum.getD 0
  let y := g.redundantNum.getD 0
  let maxLen := (d.lens g).foldl max 0
  if (∀ l ∈ d.lens g, 2 ≤ l) ∧ some maxLen = g.len then do
    let padded := fun i => (d.got g i).map (FecEncode.FecEncodeManager.pad maxLen)
    let missed := (List.range x).filter fun i => (d.got g i).isNone || i == h.innerIndex
    let data ← Checked.ofOption (c.decode x (x + y) maxLen padded)
    let d := d.markDone h.seq g
    if ∀ i < x, readU16 (data.getD i []) ≤ maxDataLen then do
      let d ← d.ready (compact (fun i => unpack stale (data.getD i [])) missed)
      d.retire now h.seq
    else retire { d with readyForOutput := false } now h.seq
  else d.retire now h.seq

/-- The second half of `input`, after the packet was stored. -/
def finish (c : Code) (d : FecDecodeManager) (now : UInt64) (stale : Mem) (h : Header) :
    Checked FecDecodeManager :=
  let g := (d.mp h.seq).getD {}
  let size := g.groupMp.length
  if h.type = 0 then
    if size > h.dataNum then d.retire now h.seq
    else if size = h.dataNum then d.decodeBlob c now h g
    else pure d
  else
    match g.dataNum with
    | some x =>
        if size > x + 1 then d.retire now h.seq
        else if size ≥ x then d.decodePackets c now stale h g
        else if h.type = 1 ∧ h.dataNum = 0 then d.ready [h.body.drop 2]
        else pure d
    | none => if h.type = 1 ∧ h.dataNum = 0 then d.ready [h.body.drop 2] else pure d

/-! ## Input and output -/

/-- `input`, with the return value. -/
def input (c : Code) (d : FecDecodeManager) (now : UInt64) (stale : Mem) (s : Bytes) :
    Checked (Int × FecDecodeManager) := do
  match ← d.place now s with
  | .returned ret d => return (ret, d)
  | .stored h d => do
      let d ← d.finish c now stale h
      return (0, { d with index := Ring.next fecBuffNum d.index })

/-- `output`: the packets that are ready, if any. -/
def output (d : FecDecodeManager) : FecDecodeManager × List Bytes :=
  if d.readyForOutput then ({ d with readyForOutput := false }, d.outputBuf)
  else (d, [])

/-- `output` leaves nothing ready, and does not look at the cursor. -/
theorem output_with_index (d : FecDecodeManager) (k : Nat) :
    output { d with index := k }
      = ({ d with index := k, readyForOutput := false }, d.output.2) := by
  obtain ⟨a, slots, mp, index, ready, out⟩ := d
  cases ready <;> rfl

end FecDecodeManager

end Fecraw.Ports.FecDecode
