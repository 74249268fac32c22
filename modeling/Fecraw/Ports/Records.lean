import Fecraw.Ports.EncryptPeers
import Fecraw.Ports.Framing
import Fecraw.Ports.ReplayWindow
import Mathlib.Data.List.GetD

/-!
# What rejecting a record leaves behind

`reserved_parse_safer` decrypts a record into a static buffer and takes it
through four tests.  The second one, `is_vaild`, already enters the number of the
record into the anti-replay window, so that a record which fails a later test
has used up its number.  All fields are read before the length is looked at, but
no record is completed from what an earlier one left in the buffer.

## Main results

* `parseSafer_append`: what is accepted depends on the plaintext only.
* `reservedParseSafer_untouched_iff`: a rejected record changes nothing exactly
  if it does not pass the window first.
-/

namespace Fecraw.Ports.Raw

open Fecraw.Verified
open Fecraw.Ports.Network (IpVersion Conf RawInfo PacketInfo)
open Fecraw.Ports.Encrypt (Primitives Process myDecrypt)

/-! ## Acknowledging a packet -/

/-- `larger_than_u32`. -/
def largerThanU32 (a b : UInt32) : Bool := decide (0 < (a - b).toNat ∧ (a - b).toNat < 2 ^ 31)

/-- `larger_than_u16`. -/
def largerThanU16 (a b : UInt16) : Bool := decide (0 < (a - b).toNat ∧ (a - b).toNat < 2 ^ 15)

variable {ver : IpVersion} {σ δ : Type}

/-- The acknowledged sequence number after a packet, by `seq_mode`. -/
def ackedSeq (seqMode : Nat) (send recv : PacketInfo ver) : UInt32 :=
  let next := recv.seq + UInt32.ofNat recv.dataLen
  if recv.syn = false ∧ recv.ack ∧ recv.dataLen ≠ 0 then
    if seqMode = 0 ∨ seqMode = 1 ∨ seqMode = 2 then
      if largerThanU32 next send.ackSeq then next else send.ackSeq
    else if seqMode = 3 ∨ seqMode = 4 then
      if recv.seq = send.ackSeq then next else send.ackSeq
    else send.ackSeq
  else send.ackSeq

/-- `after_recv_raw0`, which always returns 0. -/
def afterRecvRaw0 (conf : Conf ver) (seqMode : Nat) (raw : RawInfo ver) : RawInfo ver :=
  let send := raw.sendInfo
  let recv := raw.recvInfo
  match conf.rawMode with
  | .faketcp => { raw with sendInfo := { send with
      tsAck := if recv.hasTs then recv.ts else send.tsAck
      ackSeq := ackedSeq seqMode send recv } }
  | .udp => raw
  | .icmp =>
      if conf.programMode = .server ∧ largerThanU16 recv.myIcmpSeq send.myIcmpSeq then
        { raw with sendInfo := { send with myIcmpSeq := recv.myIcmpSeq } }
      else raw

/-! ## Records -/

/-- A connection with its `raw_info`. -/
structure Connection (ver : IpVersion) (σ δ : Type) where
  info : ConnInfo σ δ
  raw : RawInfo ver

/-- `reserved_parse_safer`; `stale` is what follows the plaintext in `recv_data_buf`,
and no record is the return value -1. -/
def reservedParseSafer (P : Primitives) (par : Params) (conf : Conf ver) (seqMode now : Nat)
    (p : Process) (c : Connection ver σ δ) (input stale : Bytes) :
    Except Fault (Process × Connection ver σ δ × Option (UInt8 × Bytes)) :=
  match myDecrypt P p input with
  | .error _ => .error .assertion
  | .ok (p, none) => .ok (p, c, none)
  | .ok (p, some plain) => do
      let (info, record) ← c.info.parseSafer par now (plain ++ stale) plain.length
      match record with
      | none => return (p, { c with info }, none)
      | some record => return (p, { info, raw := afterRecvRaw0 conf seqMode c.raw }, some record)

/-- The record that is returned with 0. -/
def outputs {α β : Type} : Except Fault (α × β × Option (UInt8 × Bytes)) → Option (UInt8 × Bytes)
  | .ok (_, _, record) => record
  | .error _ => none

/-- A record that passes the window and fails a later test. -/
structure Burns (par : Params) (c : ConnInfo σ δ) (buf : Bytes) (len : Nat) : Prop where
  enabled : par.disableAntiReplay = false
  oppsiteId : readId buf = c.oppsiteId
  myId : readId (buf.drop 4) = c.myId
  fresh : ∃ b, c.blob = some b ∧ b.antiReplay.Fresh (readU64 (buf.drop 8))
  unfit : (buf.getD 16 0 ≠ tagHeartbeat ∧ buf.getD 16 0 ≠ tagData) ∨ len < 18

/-! ## What is accepted -/

theorem readU32_append {xs : Bytes} (h : 4 ≤ xs.length) (ys : Bytes) :
    readU32 (xs ++ ys) = readU32 xs := by
  unfold readU32
  rw [List.getD_append _ _ _ _ (by omega), List.getD_append _ _ _ _ (by omega),
    List.getD_append _ _ _ _ (by omega), List.getD_append _ _ _ _ (by omega)]

theorem readU64_append {xs : Bytes} (h : 8 ≤ xs.length) (ys : Bytes) :
    readU64 (xs ++ ys) = readU64 xs := by
  unfold readU64
  rw [List.drop_append_of_le_length (by omega), readU32_append (by omega),
    readU32_append (by rw [List.length_drop]; omega)]

theorem readId_append {xs : Bytes} (h : 4 ≤ xs.length) (ys : Bytes) :
    readId (xs ++ ys) = readId xs := by
  unfold readId
  rw [readU32_append h]

/-- The fields of a record of at least 18 octets are its own. -/
theorem parseSafer_append (par : Params) (c : ConnInfo σ δ) (now : Nat) {plain : Bytes}
    (h : 18 ≤ plain.length) (stale : Bytes) :
    c.parseSafer par now (plain ++ stale) plain.length =
      c.parseSafer par now plain plain.length := by
  have h4 : 4 ≤ plain.length := by omega
  have hid : 4 ≤ (plain.drop 4).length := by
    rw [List.length_drop]
    omega
  have hseq : 8 ≤ (plain.drop 8).length := by
    rw [List.length_drop]
    omega
  unfold ConnInfo.parseSafer
  rw [readId_append h4, List.drop_append_of_le_length h4, readId_append hid,
    List.drop_append_of_le_length (by omega), readU64_append hseq,
    List.getD_append _ _ _ _ (by omega), List.getD_append _ _ _ _ (by omega),
    List.take_left, List.take_length]

/-- A connection after `is_vaild`. -/
def ConnInfo.entered (par : Params) (c : ConnInfo σ δ) (b : Blob δ) (seq : Nat) : ConnInfo σ δ :=
  { c with blob := some { b with
    antiReplay := (b.antiReplay.isVaild par.disableAntiReplay seq).2 } }

theorem entered_eq_iff {par : Params} {c : ConnInfo σ δ} {b : Blob δ} (hb : c.blob = some b)
    (seq : Nat) : c.entered par b seq = c ↔
      (b.antiReplay.isVaild par.disableAntiReplay seq).2 = b.antiReplay := by
  unfold ConnInfo.entered
  cases c
  cases b
  simp_all

/-- What becomes of a record that names both ends. -/
theorem parseSafer_of_ids {c : ConnInfo σ δ} {b : Blob δ} (hb : c.blob = some b) {buf : Bytes}
    (hopp : readId buf = c.oppsiteId) (hmy : readId (buf.drop 4) = c.myId) (par : Params)
    (now len : Nat) :
    c.parseSafer par now buf len =
      if (b.antiReplay.isVaild par.disableAntiReplay (readU64 (buf.drop 8))).1 = true ∧
          (buf.getD 16 0 = tagHeartbeat ∨ buf.getD 16 0 = tagData) ∧ 18 ≤ len then
        .ok ((c.entered par b (readU64 (buf.drop 8))).rolled par now (buf.getD 16 0)
          (buf.getD 17 0), some (buf.getD 16 0, (buf.take len).drop 18))
      else .ok (c.entered par b (readU64 (buf.drop 8)), none) := by
  unfold ConnInfo.parseSafer
  rw [if_neg (by simp [hopp, hmy]), hb]
  simp only [expect, Checked.ok_bind]
  by_cases hvalid :
      (b.antiReplay.isVaild par.disableAntiReplay (readU64 (buf.drop 8))).1 = true
  · rw [if_neg (not_not.mpr hvalid)]
    by_cases htype : buf.getD 16 0 = tagHeartbeat ∨ buf.getD 16 0 = tagData
    · rw [if_neg fun hnot => htype.elim hnot.1 hnot.2]
      by_cases hlen : len < 18
      · rw [if_pos hlen, if_neg (by omega)]
        rfl
      · rw [if_neg hlen, if_pos ⟨hvalid, htype, not_lt.mp hlen⟩]
        rfl
    · rw [if_pos (not_or.mp htype), if_neg fun hacc => htype hacc.2.1]
      rfl
  · rw [if_pos hvalid, if_neg fun hacc => hvalid hacc.1]
    rfl

/-- A record that does not name both ends is rejected at once. -/
theorem parseSafer_of_not_ids {c : ConnInfo σ δ} {buf : Bytes}
    (h : ¬ (readId buf = c.oppsiteId ∧ readId (buf.drop 4) = c.myId)) (par : Params)
    (now len : Nat) : c.parseSafer par now buf len = .ok (c, none) := by
  unfold ConnInfo.parseSafer
  rw [if_pos (not_and_or.mp h)]

theorem parseSafer_of_no_blob {c : ConnInfo σ δ} {buf : Bytes} (hb : c.blob = none)
    (hopp : readId buf = c.oppsiteId) (hmy : readId (buf.drop 4) = c.myId) (par : Params)
    (now len : Nat) : c.parseSafer par now buf len = .error .pointer := by
  unfold ConnInfo.parseSafer
  rw [if_neg (by simp [hopp, hmy]), hb]
  rfl

/-- How a record can be read. -/
theorem parseSafer_cases (par : Params) (c : ConnInfo σ δ) (now : Nat) (buf : Bytes) (len : Nat) :
    c.parseSafer par now buf len = .ok (c, none) ∨
    c.parseSafer par now buf len = .error .pointer ∨
    ∃ b, c.blob = some b ∧ readId buf = c.oppsiteId ∧ readId (buf.drop 4) = c.myId := by
  by_cases hid : readId buf = c.oppsiteId ∧ readId (buf.drop 4) = c.myId
  · cases hb : c.blob with
    | none => exact .inr (.inl (parseSafer_of_no_blob hb hid.1 hid.2 par now len))
    | some b => exact .inr (.inr ⟨b, rfl, hid.1, hid.2⟩)
  · exact .inl (parseSafer_of_not_ids hid par now len)

/-- A record of fewer than 18 octets is never accepted. -/
theorem le_of_parseSafer {par : Params} {c c' : ConnInfo σ δ} {now : Nat} {buf : Bytes}
    {len : Nat} {record : UInt8 × Bytes}
    (h : c.parseSafer par now buf len = .ok (c', some record)) : 18 ≤ len := by
  rcases parseSafer_cases par c now buf len with hc | hc | ⟨b, hb, hopp, hmy⟩
  · rw [hc] at h
    cases h
  · rw [hc] at h
    cases h
  · rw [parseSafer_of_ids hb hopp hmy] at h
    split at h
    next hacc => exact hacc.2.2
    · cases h

/-! ## What is rejected -/

/-- A number that is accepted changes the window. -/
theorem AntiReplay.Fresh.isVaild_ne {r : AntiReplay} {seq : Nat} (h : r.Fresh seq) :
    (r.isVaild false seq).2 ≠ r := by
  intro heq
  rcases h with hlt | ⟨hlt, hin, hdown⟩
  · rw [isVaild_ahead hlt] at heq
    have hmax := congrArg AntiReplay.maxPacketReceived heq
    exact absurd hmax (by dsimp only; omega)
  · rw [isVaild_behind hlt hin hdown] at heq
    have hflag := congrFun (congrArg AntiReplay.window heq) (seq % antiReplayWindowSize)
    dsimp only at hflag
    rw [Function.update_self, hdown] at hflag
    exact Bool.false_ne_true hflag.symm

/-- A rejected record that did not pass the window changes nothing. -/
theorem parseSafer_untouched {par : Params} {c c' : ConnInfo σ δ} {now : Nat} {buf : Bytes}
    {len : Nat} (hburns : ¬ Burns par c buf len)
    (h : c.parseSafer par now buf len = .ok (c', none)) : c' = c := by
  rcases parseSafer_cases par c now buf len with hc | hc | ⟨b, hb, hopp, hmy⟩
  · rw [hc] at h
    cases h
    rfl
  · rw [hc] at h
    cases h
  · rw [parseSafer_of_ids hb hopp hmy] at h
    split at h
    · cases h
    next hreject =>
      have hsame : (b.antiReplay.isVaild par.disableAntiReplay (readU64 (buf.drop 8))).2 =
          b.antiReplay := by
        cases hdis : par.disableAntiReplay with
        | true => rfl
        | false =>
            by_cases hfresh : b.antiReplay.Fresh (readU64 (buf.drop 8))
            · rw [hdis, AntiReplay.isVaild_eq_true] at hreject
              refine absurd ⟨hdis, hopp, hmy, ⟨b, hb, hfresh⟩, ?_⟩ hburns
              by_cases hlen : len < 18
              · exact .inr hlen
              · exact .inl (not_or.mp fun htype => hreject ⟨hfresh, htype, not_lt.mp hlen⟩)
            · rw [AntiReplay.isVaild_of_not_fresh hfresh]
      cases h
      exact (entered_eq_iff hb _).mpr hsame

/-- A record that passed the window and is rejected has changed it. -/
theorem Burns.parseSafer {par : Params} {c : ConnInfo σ δ} {buf : Bytes} {len : Nat}
    (h : Burns par c buf len) (now : Nat) :
    ∃ c', c.parseSafer par now buf len = .ok (c', none) ∧ c' ≠ c := by
  obtain ⟨b, hb, hfresh⟩ := h.fresh
  have hunfit : ¬ ((buf.getD 16 0 = tagHeartbeat ∨ buf.getD 16 0 = tagData) ∧ 18 ≤ len) := by
    rintro ⟨htype, hlen⟩
    rcases h.unfit with hunfit | hshort
    · exact htype.elim hunfit.1 hunfit.2
    · omega
  have hparse := parseSafer_of_ids hb h.oppsiteId h.myId par now len
  rw [if_neg fun hacc => hunfit hacc.2] at hparse
  refine ⟨_, hparse, fun heq => ?_⟩
  have hsame := (entered_eq_iff hb _).mp heq
  rw [h.enabled] at hsame
  exact hfresh.isVaild_ne hsame

/-! ## The whole record -/

section record

variable {P : Primitives} {par : Params} {conf : Conf ver} {seqMode now : Nat} {p : Process}
  {c : Connection ver σ δ} {input : Bytes}

/-- The record of `reserved_parse_safer` is that of the plaintext. -/
theorem outputs_reservedParseSafer {p' : Process} {plain : Bytes}
    (hplain : myDecrypt P p input = .ok (p', some plain)) (stale : Bytes) :
    outputs (reservedParseSafer P par conf seqMode now p c input stale) =
      match c.info.parseSafer par now (plain ++ stale) plain.length with
      | .ok (_, record) => record
      | .error _ => none := by
  unfold reservedParseSafer
  rw [hplain]
  dsimp only
  cases c.info.parseSafer par now (plain ++ stale) plain.length with
  | error e => rfl
  | ok got =>
      obtain ⟨info, record⟩ := got
      cases record <;> rfl

theorem outputs_short {p' : Process} {plain : Bytes}
    (hplain : myDecrypt P p input = .ok (p', some plain)) (hshort : plain.length < 18)
    (stale : Bytes) :
    outputs (reservedParseSafer P par conf seqMode now p c input stale) = none := by
  rw [outputs_reservedParseSafer hplain]
  split
  next info record hok =>
    cases record with
    | none => rfl
    | some record => exact absurd (le_of_parseSafer hok) (by omega)
  · rfl

/-- What is accepted, and with which outputs, does not depend on the buffer. -/
theorem outputs_congr (stale stale' : Bytes) :
    outputs (reservedParseSafer P par conf seqMode now p c input stale') =
      outputs (reservedParseSafer P par conf seqMode now p c input stale) := by
  cases hdecrypt : myDecrypt P p input with
  | error e =>
      unfold reservedParseSafer
      rw [hdecrypt]
  | ok got =>
      obtain ⟨p', plain⟩ := got
      cases plain with
      | none =>
          unfold reservedParseSafer
          rw [hdecrypt]
      | some plain =>
          by_cases hshort : plain.length < 18
          · rw [outputs_short hdecrypt hshort, outputs_short hdecrypt hshort]
          · rw [outputs_reservedParseSafer hdecrypt, outputs_reservedParseSafer hdecrypt,
              parseSafer_append par c.info now (not_lt.mp hshort),
              parseSafer_append par c.info now (not_lt.mp hshort)]

/-- How `reserved_parse_safer` returns -1. -/
theorem reservedParseSafer_eq_none {stale : Bytes} {p' : Process} {c' : Connection ver σ δ}
    (h : reservedParseSafer P par conf seqMode now p c input stale = .ok (p', c', none)) :
    c' = c ∨ ∃ plain info, myDecrypt P p input = .ok (p', some plain) ∧
      c.info.parseSafer par now (plain ++ stale) plain.length = .ok (info, none) ∧
      c' = { c with info } := by
  unfold reservedParseSafer at h
  cases hdecrypt : myDecrypt P p input with
  | error e =>
      rw [hdecrypt] at h
      cases h
  | ok got =>
      obtain ⟨q, plain⟩ := got
      rw [hdecrypt] at h
      cases plain with
      | none =>
          cases h
          exact .inl rfl
      | some plain =>
          dsimp only at h
          cases hparse : c.info.parseSafer par now (plain ++ stale) plain.length with
          | error e =>
              rw [hparse] at h
              cases h
          | ok got =>
              obtain ⟨info, record⟩ := got
              rw [hparse] at h
              cases record with
              | some record => cases h
              | none =>
                  cases h
                  exact .inr ⟨plain, info, rfl, hparse, rfl⟩

end record

/-- Rejecting a record leaves the connection untouched, and what is accepted
depends on the plaintext only, exactly if the record does not pass the window and
then fails the test of its type or of its length. -/
theorem reservedParseSafer_untouched_iff (P : Primitives) (par : Params) (conf : Conf ver)
    (seqMode now : Nat) (p : Process) (c : Connection ver σ δ) (input stale : Bytes) :
    let parse := reservedParseSafer P par conf seqMode now p c input
    ((∀ p' c', parse stale = .ok (p', c', none) → c' = c) ∧
      (∀ p' plain, myDecrypt P p input = .ok (p', some plain) → plain.length < 18 →
        outputs (parse stale) = none) ∧
      ∀ stale', outputs (parse stale') = outputs (parse stale)) ↔
    ¬ ∃ p' plain, myDecrypt P p input = .ok (p', some plain) ∧
      Burns par c.info (plain ++ stale) plain.length := by
  intro parse
  constructor
  · rintro ⟨huntouched, -⟩ ⟨p', plain, hdecrypt, hburns⟩
    obtain ⟨info, hparse, hne⟩ := hburns.parseSafer now
    have hok : parse stale = .ok (p', { c with info }, none) := by
      unfold parse reservedParseSafer
      rw [hdecrypt]
      dsimp only
      rw [hparse]
      rfl
    exact hne (congrArg Connection.info (huntouched p' _ hok))
  · intro hburns
    refine ⟨fun p' c' hok => ?_,
      fun p' plain hdecrypt hshort => outputs_short hdecrypt hshort stale, outputs_congr stale⟩
    rcases reservedParseSafer_eq_none hok with rfl | ⟨plain, info, hdecrypt, hparse, rfl⟩
    · rfl
    · have hsame := parseSafer_untouched
        (fun hburn => hburns ⟨p', plain, hdecrypt, hburn⟩) hparse
      rw [hsame]

/-- A fresh connection between the ends 7 and 9. -/
def freshConnection : Connection .v4 Unit Unit where
  info := { state := (), myId := 9, oppsiteId := 7, blob := some {} }
  raw := ⟨Network.exampleInfo, Network.exampleInfo, false, 0, false⟩

/-- A record of 17 octets: both ends, the number 1 and the type of a heartbeat. -/
def shortRecord : Bytes := writeU32 7 ++ writeU32 9 ++ writeU64 1 ++ [tagHeartbeat]

/-- The short record is rejected, and 1 is now the largest number received: the
record with this number will be dropped as a replay. -/
theorem shortRecord_burns : ∃ p' c' b b',
    reservedParseSafer Encrypt.defaultPrimitives {} ⟨.udp, .server, 4096, none, 0, -1⟩ 3 0
      ⟨.none, .none, false, [], [], [], [], [], {}⟩ freshConnection shortRecord [0] =
        .ok (p', c', none) ∧
    freshConnection.info.blob = some b ∧ b.antiReplay.maxPacketReceived = 0 ∧
    c'.info.blob = some b' ∧ b'.antiReplay.maxPacketReceived = 1 :=
  ⟨_, _, _, _, rfl, rfl, rfl, rfl, rfl⟩

end Fecraw.Ports.Raw
