import Fecraw.Verified.Bytes
import Fecraw.Verified.Checked
import Fecraw.Ports.ConvManager

/-!
# One raw connection

A port of `conn_info_t`, of its anti-replay window, and of the two kinds of
messages: bare ones, which carry the handshakes, and records, which name both
ends and have a number.  Both are encrypted with the same cipher and told
apart by the octet at offset 16.

Messages appear as their plaintext.  Of a received packet the model has what
`recv_raw0` makes of it, with the plaintext if `my_decrypt` accepts it; the
fields of the TCP and ICMP headers and `send_info` are left out.

`reserved_parse_bare` and `reserved_parse_safer` decrypt into static buffers.
What earlier messages left behind the plaintext there is `stale`, and any
octets can be there.

## Main results

* `parseBare_bareMessage`, `parseBare_saferMessage`: a bare message is read
  back, and a record is never taken for one.
* `parseSafer_spec`: what a record must carry to be accepted.
-/

namespace Fecraw.Ports.Raw

open Fecraw.Verified

def maxDataLen : Nat := 1800
def antiReplayWindowSize : Nat := 4000
def heartbeatInterval : Nat := 600

/-- An address with its port. -/
structure Address where
  ip : Nat
  port : Nat
deriving Repr, DecidableEq, Inhabited

/-- The settings that the connection layer reads; `hb_mode` is 0 or 1. -/
structure Params where
  hbMode0 : Bool := false
  hbBuf : Bytes := List.replicate 1200 0
  disableAntiReplay : Bool := false
  /-- `const_id`, the identity of this process. -/
  constId : UInt32 := 1

/-- What a heartbeat carries. -/
def Params.hb (par : Params) : Bytes := if par.hbMode0 then [] else par.hbBuf

/-! ## The anti-replay window -/

/-- `anti_replay_t`. -/
structure AntiReplay where
  maxPacketReceived : Nat := 0
  antiReplaySeq : Nat := 0
  window : Nat → Bool := fun _ => false

/-- `get_new_seq_for_send`. -/
def AntiReplay.getNewSeqForSend (r : AntiReplay) : Nat × AntiReplay :=
  (r.antiReplaySeq, { r with antiReplaySeq := (r.antiReplaySeq + 1) % 2 ^ 64 })

/-- `re_init`. -/
def AntiReplay.reInit (r : AntiReplay) : AntiReplay := { r with maxPacketReceived := 0 }

/-- `is_vaild`. -/
def AntiReplay.isVaild (disable : Bool) (r : AntiReplay) (seq : Nat) : Bool × AntiReplay :=
  let mark (w : Nat → Bool) := Function.update w (seq % antiReplayWindowSize) true
  if disable then (true, r)
  else if seq = r.maxPacketReceived then (false, r)
  else if seq > r.maxPacketReceived then
    let passed := seq - r.maxPacketReceived
    let window :=
      if antiReplayWindowSize ≤ passed then fun _ => false
      else (List.range' (r.maxPacketReceived + 1) (passed - 1)).foldl
        (fun w i => Function.update w (i % antiReplayWindowSize) false) r.window
    (true, { r with maxPacketReceived := seq, window := mark window })
  else if antiReplayWindowSize ≤ r.maxPacketReceived - seq then (false, r)
  else if r.window (seq % antiReplayWindowSize) then (false, r)
  else (true, { r with window := mark r.window })

/-! ## The connection -/

/-- `blob_t`. -/
structure Blob (δ : Type) where
  convManager : ConvManager δ := {}
  antiReplay : AntiReplay := {}

/-- `conn_info_t`, with the states of a server or of a client, and the data of
its conversations.  `recv` is the source address in `raw_info.recv_info`, and
a `timerFd64` of 0 is none. -/
structure ConnInfo (σ δ : Type) where
  state : σ
  recv : Address := default
  lastStateTime : Nat := 0
  lastHbSentTime : Nat := 0
  lastHbRecvTime : Nat := 0
  myId : UInt32 := 0
  oppsiteId : UInt32 := 0
  timerFd64 : Nat := 0
  oppsiteConstId : UInt32 := 0
  blob : Option (Blob δ) := none
  myRoller : UInt8 := 0
  oppsiteRoller : UInt8 := 0
  lastOppsiteRollerTime : Nat := 0

variable {σ δ : Type}

/-- The 8 octets of an unsigned 64-bit number. -/
def writeU64 (n : Nat) : Bytes := writeU32 (n / 2 ^ 32) ++ writeU32 n

/-- The number in the first 8 octets. -/
def readU64 (bs : Bytes) : Nat := readU32 bs * 2 ^ 32 + readU32 (bs.drop 4)

/-- The identity in the first 4 octets. -/
def readId (bs : Bytes) : UInt32 := UInt32.ofNat (readU32 bs)

/-- The type octets of the messages. -/
def tagBare : UInt8 := 98
def tagHeartbeat : UInt8 := 104
def tagData : UInt8 := 100

/-! ## Bare messages -/

/-- The plaintext of `send_handshake`; `nonce` are the `iv` and the padding. -/
def bareMessage (nonce : Nat × Nat) (id1 id2 id3 : UInt32) : Bytes :=
  writeU64 nonce.1 ++ writeU64 nonce.2 ++ tagBare ::
    (writeU32 id1.toNat ++ writeU32 id2.toNat ++ writeU32 id3.toNat)

/-- `reserved_parse_bare`, after `my_decrypt`, on the static buffer. -/
def parseBare (buf : Bytes) (len : Nat) : Option Bytes :=
  if buf.getD 16 0 ≠ tagBare then none
  else if len < 17 then none
  else some ((buf.take len).drop 17)

/-! ## Records -/

/-- The plaintext of a record. -/
def saferMessage (myId oppsiteId : UInt32) (seq : Nat) (type roller : UInt8) (data : Bytes) :
    Bytes :=
  writeU32 myId.toNat ++ writeU32 oppsiteId.toNat ++ writeU64 seq ++ type :: roller :: data

/-- `send_safer`, up to `my_encrypt`. -/
def ConnInfo.sendSafer (c : ConnInfo σ δ) (type : UInt8) (data : Bytes) :
    Except Fault (ConnInfo σ δ × Bytes) := do
  let b ← expect c.blob .pointer
  let (seq, antiReplay) := b.antiReplay.getNewSeqForSend
  return ({ c with blob := some { b with antiReplay } },
    saferMessage c.myId c.oppsiteId seq type c.myRoller data)

theorem sendSafer_eq {c : ConnInfo σ δ} {b : Blob δ} (hb : c.blob = some b) (type : UInt8)
    (data : Bytes) : c.sendSafer type data = .ok
      ({ c with blob := some { b with antiReplay := b.antiReplay.getNewSeqForSend.2 } },
        saferMessage c.myId c.oppsiteId b.antiReplay.antiReplaySeq type c.myRoller data) := by
  unfold ConnInfo.sendSafer
  rw [hb]
  rfl

/-- The plaintext of a record that the connection sends. -/
def Record (c : ConnInfo σ δ) (plain : Bytes) : Prop :=
  ∃ seq type roller data, (type = tagHeartbeat ∨ type = tagData) ∧
    plain = saferMessage c.myId c.oppsiteId seq type roller data

/-- `send_data_safer`. -/
def ConnInfo.sendDataSafer (c : ConnInfo σ δ) (data : Bytes) (conv : UInt32) :
    Except Fault (ConnInfo σ δ × Bytes) :=
  c.sendSafer tagData (writeU32 conv.toNat ++ data)

/-- The rollers after a record was accepted. -/
def ConnInfo.rolled (par : Params) (c : ConnInfo σ δ) (now : Nat) (type roller : UInt8) :
    ConnInfo σ δ :=
  let c := if roller ≠ c.oppsiteRoller then
      { c with oppsiteRoller := roller, lastOppsiteRollerTime := now } else c
  if par.hbMode0 ∨ type = tagHeartbeat then { c with myRoller := c.myRoller + 1 } else c

/-- `reserved_parse_safer`, after `my_decrypt`, on the static buffer. -/
def ConnInfo.parseSafer (par : Params) (c : ConnInfo σ δ) (now : Nat) (buf : Bytes) (len : Nat) :
    Except Fault (ConnInfo σ δ × Option (UInt8 × Bytes)) :=
  if readId buf ≠ c.oppsiteId ∨ readId (buf.drop 4) ≠ c.myId then .ok (c, none)
  else do
    let b ← expect c.blob .pointer
    let (valid, antiReplay) := b.antiReplay.isVaild par.disableAntiReplay (readU64 (buf.drop 8))
    let c := { c with blob := some { b with antiReplay } }
    let type := buf.getD 16 0
    if ¬ valid then return (c, none)
    else if type ≠ tagHeartbeat ∧ type ≠ tagData then return (c, none)
    else if len < 18 then return (c, none)
    else return (c.rolled par now type (buf.getD 17 0), some (type, (buf.take len).drop 18))

/-! ## Received packets -/

/-- What `recv_raw0` makes of a packet. -/
inductive Recv where
  /-- It is rejected, before or after its port was read. -/
  | rejected (port : Bool)
  /-- It has a payload.  `bare` says if `recv_bare` takes a packet of this length
  with these flags, and `plain` is the plaintext if the payload is authentic. -/
  | payload (bare : Bool) (plain : Option Bytes) (stale : Bytes)

/-- `recv_info` after `recv_raw0` of a packet from `src`. -/
def Recv.address (r : Recv) (old src : Address) : Address :=
  match r with
  | .rejected false => ⟨src.ip, old.port⟩
  | _ => src

/-- `recv_bare`. -/
def Recv.bare (r : Recv) : Option Bytes :=
  match r with
  | .payload true (some plain) stale => parseBare (plain ++ stale) plain.length
  | _ => none

/-- `recv_safer_multi`; `g_fix_gro` is 0. -/
def ConnInfo.recvSafer (par : Params) (c : ConnInfo σ δ) (now : Nat) (r : Recv) :
    Except Fault (ConnInfo σ δ × Option (UInt8 × Bytes)) :=
  match r with
  | .payload _ (some plain) stale => c.parseSafer par now (plain ++ stale) plain.length
  | _ => .ok (c, none)

/-! ## What reading a bare message does -/

/-- The octet that tells bare messages and records apart. -/
theorem getD_bareMessage (nonce : Nat × Nat) (id1 id2 id3 : UInt32) (stale : Bytes) :
    (bareMessage nonce id1 id2 id3 ++ stale).getD 16 0 = tagBare := rfl

/-- A bare message is read back. -/
theorem parseBare_bareMessage (nonce : Nat × Nat) (id1 id2 id3 : UInt32) (stale : Bytes) :
    parseBare (bareMessage nonce id1 id2 id3 ++ stale) (bareMessage nonce id1 id2 id3).length
      = some (writeU32 id1.toNat ++ writeU32 id2.toNat ++ writeU32 id3.toNat) := by
  have htag := getD_bareMessage nonce id1 id2 id3 stale
  have hlen : ¬ (bareMessage nonce id1 id2 id3).length < 17 := by
    show ¬ 29 < 17
    omega
  unfold parseBare
  rw [if_neg (not_not.mpr htag), if_neg hlen, List.take_left]
  rfl

theorem getD_saferMessage (myId oppsiteId : UInt32) (seq : Nat) (type roller : UInt8)
    (data stale : Bytes) :
    (saferMessage myId oppsiteId seq type roller data ++ stale).getD 16 0 = type := rfl

/-- A record is never taken for a bare message. -/
theorem parseBare_saferMessage {myId oppsiteId : UInt32} {seq : Nat} {type roller : UInt8}
    {data : Bytes} (htype : type ≠ tagBare) (stale : Bytes) (len : Nat) :
    parseBare (saferMessage myId oppsiteId seq type roller data ++ stale) len = none := by
  unfold parseBare
  rw [getD_saferMessage, if_pos htype]

/-- The identities of a record. -/
theorem readId_saferMessage (myId oppsiteId : UInt32) (seq : Nat) (type roller : UInt8)
    (data stale : Bytes) :
    readId (saferMessage myId oppsiteId seq type roller data ++ stale) = myId ∧
      readId ((saferMessage myId oppsiteId seq type roller data ++ stale).drop 4) = oppsiteId :=
  ⟨ofNat_readU32_writeU32 myId _, ofNat_readU32_writeU32 oppsiteId _⟩

/-- The identities of a handshake. -/
theorem readId_handshake (id1 id2 id3 : UInt32) :
    let data := writeU32 id1.toNat ++ writeU32 id2.toNat ++ writeU32 id3.toNat
    readId data = id1 ∧ readId (data.drop 4) = id2 ∧ readId (data.drop 8) = id3 :=
  ⟨ofNat_readU32_writeU32 id1 _, ofNat_readU32_writeU32 id2 _, ofNat_readU32_writeU32 id3 []⟩

/-! ## What reading a record does -/

/-- Fields of a connection that records do not change. -/
structure Keeps (c c' : ConnInfo σ δ) : Prop where
  state : c'.state = c.state
  recv : c'.recv = c.recv
  timer : c'.timerFd64 = c.timerFd64
  constId : c'.oppsiteConstId = c.oppsiteConstId
  myId : c'.myId = c.myId
  oppsiteId : c'.oppsiteId = c.oppsiteId

theorem Keeps.refl (c : ConnInfo σ δ) : Keeps c c := ⟨rfl, rfl, rfl, rfl, rfl, rfl⟩

theorem Keeps.trans {c c' c'' : ConnInfo σ δ} (h : Keeps c c') (h' : Keeps c' c'') : Keeps c c'' :=
  ⟨h'.state.trans h.state, h'.recv.trans h.recv, h'.timer.trans h.timer,
    h'.constId.trans h.constId, h'.myId.trans h.myId, h'.oppsiteId.trans h.oppsiteId⟩

theorem keeps_rolled (par : Params) (c : ConnInfo σ δ) (now : Nat) (type roller : UInt8) :
    Keeps c (c.rolled par now type roller) ∧ (c.rolled par now type roller).blob = c.blob := by
  unfold ConnInfo.rolled
  dsimp only
  split
  · split <;> exact ⟨⟨rfl, rfl, rfl, rfl, rfl, rfl⟩, rfl⟩
  · split <;> exact ⟨⟨rfl, rfl, rfl, rfl, rfl, rfl⟩, rfl⟩

/-- A record that was accepted names both ends and has its type. -/
structure Accepts (c : ConnInfo σ δ) (buf : Bytes) (len : Nat) (type : UInt8) (data : Bytes) :
    Prop where
  oppsiteId : readId buf = c.oppsiteId
  myId : readId (buf.drop 4) = c.myId
  type_eq : buf.getD 16 0 = type
  type_mem : type = tagHeartbeat ∨ type = tagData
  len_le : 18 ≤ len
  data_eq : data = (buf.take len).drop 18

/-- Reading a record changes the anti-replay window and the rollers only. -/
theorem parseSafer_spec {c : ConnInfo σ δ} {b : Blob δ} (hb : c.blob = some b) (par : Params)
    (now : Nat) (buf : Bytes) (len : Nat) :
    ∃ c' record b', c.parseSafer par now buf len = .ok (c', record) ∧ Keeps c c' ∧
      c'.blob = some b' ∧ b'.convManager = b.convManager ∧
      ∀ type data, record = some (type, data) → Accepts c buf len type data := by
  unfold ConnInfo.parseSafer
  by_cases hid : readId buf ≠ c.oppsiteId ∨ readId (buf.drop 4) ≠ c.myId
  · rw [if_pos hid]
    exact ⟨c, none, b, rfl, Keeps.refl c, hb, rfl, by simp⟩
  · rw [if_neg hid, hb]
    simp only [expect, Checked.ok_bind]
    generalize hseen : { c with blob := some { b with antiReplay := _ } } = c₁
    have hkeep : Keeps c c₁ := by
      rw [← hseen]
      exact ⟨rfl, rfl, rfl, rfl, rfl, rfl⟩
    have hblob : c₁.blob = some { b with antiReplay :=
        (AntiReplay.isVaild par.disableAntiReplay b.antiReplay (readU64 (buf.drop 8))).2 } := by
      rw [← hseen]
    split
    · exact ⟨c₁, none, _, rfl, hkeep, hblob, rfl, by simp⟩
    split
    · exact ⟨c₁, none, _, rfl, hkeep, hblob, rfl, by simp⟩
    · next htype =>
        split
        · exact ⟨c₁, none, _, rfl, hkeep, hblob, rfl, by simp⟩
        · next hlen =>
            obtain ⟨hroll, hsame⟩ := keeps_rolled par c₁ now (buf.getD 16 0) (buf.getD 17 0)
            refine ⟨_, _, _, rfl, hkeep.trans hroll, hsame.trans hblob, rfl, ?_⟩
            intro type data heq
            obtain ⟨rfl, rfl⟩ := Prod.mk.inj (Option.some.inj heq)
            refine ⟨?_, ?_, rfl, ?_, not_lt.mp hlen, rfl⟩
            · exact not_not.mp fun hne => hid (.inl hne)
            · exact not_not.mp fun hne => hid (.inr hne)
            · exact or_iff_not_and_not.mpr htype

theorem recvSafer_spec {c : ConnInfo σ δ} {b : Blob δ} (hb : c.blob = some b) (par : Params)
    (now : Nat) (r : Recv) :
    ∃ c' record b', c.recvSafer par now r = .ok (c', record) ∧ Keeps c c' ∧
      c'.blob = some b' ∧ b'.convManager = b.convManager ∧
      ∀ type data, record = some (type, data) → ∃ bare plain stale,
        r = .payload bare (some plain) stale ∧
          Accepts c (plain ++ stale) plain.length type data := by
  cases r with
  | rejected port => exact ⟨c, none, b, rfl, Keeps.refl c, hb, rfl, by simp⟩
  | payload bare plain stale =>
      cases plain with
      | none => exact ⟨c, none, b, rfl, Keeps.refl c, hb, rfl, by simp⟩
      | some plain =>
          obtain ⟨c', record, b', hok, hkeep, hblob, hconvs, hacc⟩ :=
            parseSafer_spec hb par now (plain ++ stale) plain.length
          exact ⟨c', record, b', hok, hkeep, hblob, hconvs, fun type data heq =>
            ⟨bare, plain, stale, rfl, hacc type data heq⟩⟩

end Fecraw.Ports.Raw
