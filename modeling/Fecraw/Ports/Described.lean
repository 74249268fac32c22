import Fecraw.Ports.Framing

/-!
# What a received packet is described by

`recv_raw0` returns -1, or 0 with a pointer and a length that its caller goes on
to read.  In one place it does neither: for a TCP header whose data offset is 0
or points behind the segment, `recv_raw_tcp` returns 0 as well and leaves both
unassigned.  Everything else that is accepted lies within the packet.

## Main results

* `recvRawIp_eq_some`: what the IP layer accepts.
* `described_recvRaw0_iff`: a packet is rejected or its payload lies within it,
  unless its data offset is bad.
-/

namespace Fecraw.Ports.Network

open Fecraw.Verified

variable {ver : IpVersion}

/-! ## The IP layer -/

/-- The packet behind the link level header. -/
def ipBegin (conf : Conf ver) (buf : Mem) : Mem := buf.shift conf.linkLevelHeaderLen

def ipHeaderOf (conf : Conf ver) (buf : Mem) : IpHeader ver := readIpHeader (ipBegin conf buf) ver

/-- The packets in `g_packet_buf` that `recv_raw_ip` accepts. -/
structure IpAccepted (conf : Conf ver) (peek : Bool) (buf : Mem) (len : Nat) : Prop where
  link : conf.linkLevelHeaderLen ≤ len
  ether : conf.linkLevelHeaderLen = 14 →
    buf 12 = 0x08 ∧ buf 13 = 0x00 ∨ buf 12 = 0x86 ∧ buf 13 = 0xdd
  version : (ipBegin conf buf 0).toNat / 16 = ver.number
  header : ver.headerLen ≤ len - conf.linkLevelHeaderLen
  bind : ∀ bindAddr ∈ conf.bindAddr, (ipHeaderOf conf buf).dst = bindAddr
  complete : (ipHeaderOf conf buf).ipLen ≤ len - conf.linkLevelHeaderLen
  check : ver = .v4 → peek = false →
    csum ((ipBegin conf buf).read 0 (ipHeaderOf conf buf).hdrLen) = 0
  hdrLen_le : (ipHeaderOf conf buf).hdrLen ≤ (ipHeaderOf conf buf).ipLen

theorem recvRawPacket_eq_some {conf : Conf ver} {buf : Mem} {len : Nat} {got : Mem × Nat}
    (h : recvRawPacket conf buf len = some got) :
    conf.linkLevelHeaderLen ≤ len ∧
      (conf.linkLevelHeaderLen = 14 →
        buf 12 = 0x08 ∧ buf 13 = 0x00 ∨ buf 12 = 0x86 ∧ buf 13 = 0xdd) ∧
      got = (ipBegin conf buf, len - conf.linkLevelHeaderLen) := by
  unfold recvRawPacket at h
  split at h
  · cases h
  next hlink =>
    split at h
    · cases h
    next hether =>
      refine ⟨not_lt.mp hlink, fun h14 => ?_, (Option.some.inj h).symm⟩
      exact not_not.mp fun hnot => hether ⟨h14, hnot⟩

/-- What the IP layer accepts, and the segment that it returns. -/
theorem recvRawIp_eq_some {conf : Conf ver} {raw raw' : RawInfo ver} {buf : Mem} {len : Nat}
    {got : Mem × Nat} (h : recvRawIp conf raw buf len = (raw', some got)) :
    IpAccepted conf raw.peek buf len ∧
      raw' = raw.heard (ipHeaderOf conf buf).src (ipHeaderOf conf buf).dst
        (ipHeaderOf conf buf).protocol ∧
      got = ((ipBegin conf buf).shift (ipHeaderOf conf buf).hdrLen,
        (ipHeaderOf conf buf).ipLen - (ipHeaderOf conf buf).hdrLen) := by
  unfold recvRawIp at h
  cases hpacket : recvRawPacket conf buf len with
  | none =>
      rw [hpacket] at h
      cases h
  | some packet =>
      obtain ⟨hlink, hether, rfl⟩ := recvRawPacket_eq_some hpacket
      rw [hpacket] at h
      dsimp only at h
      split at h
      · cases h
      split at h
      · cases h
      next hver =>
        split at h
        · cases h
        next hheader =>
          split at h
          · cases h
          next hbind =>
            split at h
            · cases h
            next hcomplete =>
              split at h
              · cases h
              next hcheck =>
                split at h
                · cases h
                next hle =>
                  cases h
                  refine ⟨⟨hlink, hether, not_not.mp hver, not_lt.mp hheader, ?_,
                    not_lt.mp hcomplete, ?_, not_lt.mp hle⟩, rfl, rfl⟩
                  · intro bindAddr hmem
                    by_contra hne
                    exact hbind ((Option.any_eq_true _ _).mpr ⟨bindAddr, hmem, decide_eq_true hne⟩)
                  · intro hv4 hpeek
                    by_contra hne
                    exact hcheck ⟨hv4, hpeek, hne⟩

theorem recvRawPacket_of_accepted {conf : Conf ver} {peek : Bool} {buf : Mem} {len : Nat}
    (h : IpAccepted conf peek buf len) :
    recvRawPacket conf buf len = some (ipBegin conf buf, len - conf.linkLevelHeaderLen) := by
  unfold recvRawPacket
  rw [if_neg (not_lt.mpr h.link), if_neg fun hnot => hnot.2 (h.ether hnot.1)]
  rfl

theorem recvRawIp_of_accepted {conf : Conf ver} {raw : RawInfo ver} {buf : Mem} {len : Nat}
    (h : IpAccepted conf raw.peek buf len) :
    recvRawIp conf raw buf len =
      (raw.heard (ipHeaderOf conf buf).src (ipHeaderOf conf buf).dst
        (ipHeaderOf conf buf).protocol,
      some ((ipBegin conf buf).shift (ipHeaderOf conf buf).hdrLen,
        (ipHeaderOf conf buf).ipLen - (ipHeaderOf conf buf).hdrLen)) := by
  have hpos : 1 ≤ ver.headerLen := by
    cases ver <;> decide
  have hbind : ¬ (conf.bindAddr.any fun bindAddr =>
      decide ((ipHeaderOf conf buf).dst ≠ bindAddr)) = true := by
    intro hany
    obtain ⟨bindAddr, hmem, hne⟩ := (Option.any_eq_true _ _).mp hany
    exact of_decide_eq_true hne (h.bind bindAddr hmem)
  unfold recvRawIp
  rw [recvRawPacket_of_accepted h]
  dsimp only
  rw [show readIpHeader (ipBegin conf buf) ver = ipHeaderOf conf buf from rfl]
  rw [if_neg (by have := h.header; omega), if_neg (not_not.mpr h.version),
    if_neg (not_lt.mpr h.header), if_neg hbind, if_neg (not_lt.mpr h.complete),
    if_neg fun hnot => hnot.2.2 (h.check hnot.1 hnot.2.1), if_neg (not_lt.mpr h.hdrLen_le)]
  rfl

/-! ## Payloads -/

/-- `tcphdrlen`. -/
def tcphdrlen (conf : Conf ver) (buf : Mem) : Nat :=
  ((ipBegin conf buf).shift (ipHeaderOf conf buf).hdrLen 12).toNat / 16 * 4

/-- Where the receivers let `payload` point to in `g_packet_buf`. -/
def payloadBegin (conf : Conf ver) (buf : Mem) : Nat :=
  conf.linkLevelHeaderLen + ((ipHeaderOf conf buf).hdrLen +
    match conf.rawMode with
    | .faketcp => tcphdrlen conf buf
    | .udp | .icmp => 8)

/-- A packet is rejected, or its payload was assigned and lies within the packet. -/
def Described (conf : Conf ver) (buf : Mem) (len : Nat) : Received → Prop
  | .error => True
  | .unset => False
  | .payload _ bytes => payloadBegin conf buf + bytes.length ≤ len ∧
      bytes = buf.read (payloadBegin conf buf) bytes.length

/-- A TCP segment whose data offset is 0 or points behind it. -/
structure BadOffset (conf : Conf ver) (peek : Bool) (buf : Mem) (len : Nat) : Prop where
  mode : conf.rawMode = .faketcp
  accepted : IpAccepted conf peek buf len
  protocol : (ipHeaderOf conf buf).protocol = ipprotoTcp
  offset : tcphdrlen conf buf = 0 ∨
    (ipHeaderOf conf buf).ipLen - (ipHeaderOf conf buf).hdrLen < tcphdrlen conf buf

/-- A payload behind a header of the segment is described. -/
theorem described_payload {conf : Conf ver} {peek : Bool} {buf : Mem} {len hdr : Nat}
    (h : IpAccepted conf peek buf len)
    (hbegin : payloadBegin conf buf
      = conf.linkLevelHeaderLen + ((ipHeaderOf conf buf).hdrLen + hdr))
    (hle : hdr ≤ (ipHeaderOf conf buf).ipLen - (ipHeaderOf conf buf).hdrLen) (check : Nat) :
    Described conf buf len (.payload check
      (((ipBegin conf buf).shift (ipHeaderOf conf buf).hdrLen).read hdr
        ((ipHeaderOf conf buf).ipLen - (ipHeaderOf conf buf).hdrLen - hdr))) := by
  have hlink := h.link
  have hcomplete := h.complete
  have hhdr := h.hdrLen_le
  refine ⟨?_, ?_⟩
  · rw [hbegin, Mem.length_read]
    omega
  · rw [hbegin, Mem.length_read, Mem.read_shift, ipBegin, Mem.read_shift]

section receivers

variable {conf : Conf ver} {raw : RawInfo ver} {buf : Mem} {len : Nat}

/-- A receiver that rejects what the IP layer rejects. -/
theorem described_of_recvRawIp {recv : RawInfo ver → Mem → Nat → RawInfo ver × Received}
    (hseg : IpAccepted conf raw.peek buf len →
      Described conf buf len (recv (raw.heard (ipHeaderOf conf buf).src (ipHeaderOf conf buf).dst
          (ipHeaderOf conf buf).protocol)
        ((ipBegin conf buf).shift (ipHeaderOf conf buf).hdrLen)
        ((ipHeaderOf conf buf).ipLen - (ipHeaderOf conf buf).hdrLen)).2) :
    Described conf buf len (match recvRawIp conf raw buf len with
      | (raw, none) => (raw, Received.error)
      | (raw, some (segment, n)) => recv raw segment n).2 := by
  cases hip : recvRawIp conf raw buf len with
  | mk raw' got =>
      cases got with
      | none => trivial
      | some got =>
          obtain ⟨haccepted, rfl, rfl⟩ := recvRawIp_eq_some hip
          exact hseg haccepted

theorem described_recvRawIcmp (hmode : conf.rawMode = .icmp) :
    Described conf buf len (recvRawIcmp conf raw buf len).2 := by
  have hbegin : payloadBegin conf buf =
      conf.linkLevelHeaderLen + ((ipHeaderOf conf buf).hdrLen + 8) := by
    unfold payloadBegin
    rw [hmode]
  unfold recvRawIcmp
  refine described_of_recvRawIp fun haccepted => ?_
  split
  · trivial
  split
  · trivial
  next hlen =>
    split
    · trivial
    dsimp only
    split
    · trivial
    split
    · trivial
    split
    · trivial
    · exact described_payload haccepted hbegin (not_lt.mp hlen) _

theorem described_recvRawUdp (hmode : conf.rawMode = .udp) :
    Described conf buf len (recvRawUdp conf raw buf len).2 := by
  have hbegin : payloadBegin conf buf =
      conf.linkLevelHeaderLen + ((ipHeaderOf conf buf).hdrLen + 8) := by
    unfold payloadBegin
    rw [hmode]
  unfold recvRawUdp
  refine described_of_recvRawIp fun haccepted => ?_
  split
  · trivial
  split
  · trivial
  next hlen =>
    split
    · trivial
    split
    · trivial
    dsimp only
    split
    · trivial
    · exact described_payload haccepted hbegin (not_lt.mp hlen) _

theorem described_recvRawTcp (hmode : conf.rawMode = .faketcp)
    (hoffset : ¬ BadOffset conf raw.peek buf len) :
    Described conf buf len (recvRawTcp conf raw buf len).2 := by
  have hbegin : payloadBegin conf buf =
      conf.linkLevelHeaderLen + ((ipHeaderOf conf buf).hdrLen + tcphdrlen conf buf) := by
    unfold payloadBegin
    rw [hmode]
  unfold recvRawTcp
  refine described_of_recvRawIp fun haccepted => ?_
  dsimp only
  split
  · trivial
  next hproto =>
    have hgood : ∀ P : Prop, (tcphdrlen conf buf = 0 ∨ (ipHeaderOf conf buf).ipLen -
        (ipHeaderOf conf buf).hdrLen < tcphdrlen conf buf) → P := fun P hbad =>
      absurd ⟨hmode, haccepted, not_not.mp hproto, hbad⟩ hoffset
    split
    next hrange =>
      have hle : tcphdrlen conf buf ≤ 60 := by
        have := (((ipBegin conf buf).shift (ipHeaderOf conf buf).hdrLen) 12).toNat_lt
        unfold tcphdrlen
        omega
      exact hgood _ (.inl (by unfold tcphdrlen at hle ⊢; omega))
    next hrange =>
      split
      next hlt => exact hgood _ (.inr hlt)
      next hle =>
        split
        · trivial
        · exact described_payload haccepted hbegin (not_lt.mp hle) _

/-- With a bad data offset `recv_raw_tcp` returns 0 and assigns nothing. -/
theorem recvRawTcp_of_badOffset (h : BadOffset conf raw.peek buf len) :
    (recvRawTcp conf raw buf len).2 = .unset := by
  have hproto : (raw.heard (ipHeaderOf conf buf).src (ipHeaderOf conf buf).dst
      (ipHeaderOf conf buf).protocol).recvInfo.protocol = ipprotoTcp := h.protocol
  unfold recvRawTcp
  rw [recvRawIp_of_accepted h.accepted]
  dsimp only
  rw [if_neg (not_not.mpr hproto)]
  rcases h.offset with hzero | hlt
  · rw [if_pos (by unfold tcphdrlen at hzero; omega)]
  · unfold tcphdrlen at hlt
    rw [if_pos hlt]
    split <;> rfl

end receivers

/-- `recv_raw0` rejects a packet or assigns a payload that lies within it, except
for TCP segments with a bad data offset. -/
theorem described_recvRaw0_iff (conf : Conf ver) (raw : RawInfo ver) (buf : Mem) (len : Nat) :
    Described conf buf len (recvRaw0 conf raw buf len).2 ↔ ¬ BadOffset conf raw.peek buf len := by
  constructor
  · intro hdesc hbad
    unfold recvRaw0 at hdesc
    rw [hbad.mode] at hdesc
    dsimp only at hdesc
    rw [recvRawTcp_of_badOffset hbad] at hdesc
    exact hdesc
  · intro hoffset
    unfold recvRaw0
    cases hmode : conf.rawMode with
    | faketcp => exact described_recvRawTcp hmode hoffset
    | udp => exact described_recvRawUdp hmode
    | icmp => exact described_recvRawIcmp hmode

/-- A TCP segment without options, with a data offset of 0. -/
def badSegment : Bytes :=
  [0x45, 0, 0, 40, 0, 0, 0x40, 0, 64, 6, 0x26, 0xce, 10, 0, 0, 1, 10, 0, 0, 2,
    0x30, 0x39, 0x10, 0xe1, 0, 0, 0, 1, 0, 0, 0, 0, 0, 0x10, 0xff, 0xff, 0, 0, 0, 0]

/-- A server that listens on port 4321. -/
def badSegmentConf : Conf .v4 where
  rawMode := .faketcp
  programMode := .server
  filterPort := 4321

/-- The server gets 0 from `recv_raw0` for this packet, and no payload. -/
theorem not_described_badSegment :
    ¬ Described badSegmentConf (Mem.ofBytes badSegment) badSegment.length
      (recvRaw0 badSegmentConf ⟨exampleInfo, exampleInfo, false, 0, false⟩
        (Mem.ofBytes badSegment) badSegment.length).2 := by
  have hunset : (recvRaw0 badSegmentConf ⟨exampleInfo, exampleInfo, false, 0, false⟩
      (Mem.ofBytes badSegment) badSegment.length).2 = .unset := by
    decide
  rw [hunset]
  exact id

end Fecraw.Ports.Network
