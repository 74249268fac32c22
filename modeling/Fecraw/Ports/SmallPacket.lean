import Fecraw.Verified.Bytes
import Mathlib.Data.List.Sort
import Mathlib.Data.Rat.Defs

/-!
# Small packets

A port of `small_packet.h`.  Packets below a threshold bypass the FEC
encoder: they are framed with a marker and a sequence number, sent several
times, and deduplicated by a window of recently seen sequence numbers.

The loss average is a `double` in the source and a rational number here.
The window is a `std::map` whose values are all `true`; it is the ascending
list of its keys here.
-/

namespace Fecraw.Ports.SmallPacket

open Fecraw.Verified

/-- `SMALL_PKT_MARKER`. -/
def marker : UInt8 := 0xFE

/-- `SMALL_PKT_HEADER`. -/
def smallPktHeader : Nat := 5

/-- `SMALL_PKT_MAX_SEEN`. -/
def maxSeen : Nat := 1000

/-- `SMALL_PKT_EVICT_TO`. -/
def evictTo : Nat := 500

/-! ## Sending -/

/-- `small_packet_sender_t`; `alpha` is a constant. -/
structure Sender where
  seq : UInt32
  threshold : Int
  baseRedundancy : Int
  smoothedLoss : ℚ
deriving DecidableEq

namespace Sender

def init (thresh redundancy : Int) : Sender := ⟨0, thresh, redundancy, 0⟩

/-- `update_loss`, with `alpha = 0.28`. -/
def updateLoss (s : Sender) (currentLossRate : ℚ) : Sender :=
  { s with smoothedLoss := (1 - 28 / 100) * s.smoothedLoss + 28 / 100 * currentLossRate }

def getRedundancy (s : Sender) : Int :=
  if s.smoothedLoss > 50 / 100 then 5
  else if s.smoothedLoss > 35 / 100 then 4
  else if s.smoothedLoss > 20 / 100 then 3
  else s.baseRedundancy

/-- The frame of one packet. -/
def frame (seq : UInt32) (payload : Bytes) : Bytes :=
  marker :: (writeU32 seq.toNat ++ payload)

/-- `build_frame`; `none` is the return value `0`. -/
def buildFrame (s : Sender) (payload : Bytes) (outCap : Nat) : Option Bytes × Sender :=
  if (payload.length : Int) ≥ s.threshold then (none, s)
  else if smallPktHeader + payload.length > outCap then (none, s)
  else (some (frame s.seq payload), { s with seq := s.seq + 1 })

/-- At least as many copies as configured are sent, if that is one or more. -/
theorem one_le_getRedundancy {s : Sender} (h : 1 ≤ s.baseRedundancy) :
    1 ≤ s.getRedundancy := by
  unfold getRedundancy
  split
  · decide
  · split
    · decide
    · split
      · decide
      · exact h

theorem length_frame (seq : UInt32) (payload : Bytes) :
    (frame seq payload).length = smallPktHeader + payload.length := by
  simp [frame, smallPktHeader]
  omega

end Sender

/-! ## Receiving -/

/-- `is_small_packet`. -/
def isSmallPacket (data : Bytes) : Bool :=
  smallPktHeader ≤ data.length && data.getD 0 0 == marker

/-- `small_packet_receiver_t`. -/
structure Receiver where
  seen : List UInt32 := []
deriving Repr, DecidableEq

namespace Receiver

/-- Record a sequence number; a full window is cut to its largest keys. -/
def remember (r : Receiver) (seq : UInt32) : Receiver :=
  let seen := r.seen.orderedInsert (· ≤ ·) seq
  if seen.length > maxSeen then { seen := seen.drop (seen.length - evictTo) }
  else { seen := seen }

/-- `receive`; `none` is the return value `-1`. -/
def receive (r : Receiver) (data : Bytes) (outCap : Nat) : Option Bytes × Receiver :=
  if isSmallPacket data then
    let seq := UInt32.ofNat (readU32 (data.drop 1))
    if seq ∈ r.seen then (none, r)
    else (some ((data.drop smallPktHeader).take outCap), r.remember seq)
  else (none, r)

end Receiver

theorem isSmallPacket_frame (seq : UInt32) (payload : Bytes) :
    isSmallPacket (Sender.frame seq payload) := by
  unfold isSmallPacket
  rw [Sender.length_frame]
  simp [Sender.frame]

/-- A new frame is read back. -/
theorem receive_frame {r : Receiver} {seq : UInt32} {payload : Bytes} {outCap : Nat}
    (hcap : payload.length ≤ outCap) :
    (r.receive (Sender.frame seq payload) outCap).1
      = if seq ∈ r.seen then none else some payload := by
  have hseq : UInt32.ofNat (readU32 ((Sender.frame seq payload).drop 1)) = seq :=
    ofNat_readU32_writeU32 seq payload
  have hbody : ((Sender.frame seq payload).drop smallPktHeader).take outCap = payload :=
    List.take_of_length_le hcap
  unfold Receiver.receive
  rw [if_pos (isSmallPacket_frame seq payload)]
  simp only [hseq, hbody]
  split <;> rfl

end Fecraw.Ports.SmallPacket
