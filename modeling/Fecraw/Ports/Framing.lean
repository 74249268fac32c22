import Fecraw.Ports.Network

/-!
# Raw packets round trip

What a sender frames, a receiver in the opposite role takes apart again.  The
segment travels in an IP packet with any correct header, behind any link level
header and before anything else that is in the buffer.

## Main results

* `recvRawIp_of_carries`: the receiver finds the segment.
* `segmentCsum_sealed`, `icmpCsum_sealed`: its checksum is 0.
* `parseTcpOption_tcpOptions`: the option loop finds the timestamps.
* `recvRaw0_rawSegment`: the payload and the fields of the header arrive.
-/

namespace Fecraw.Ports.Network

open Fecraw.Verified

variable {ver : IpVersion}

/-! ## Packets -/

/-- A correct header for a segment of `n` octets: in version 4 with options, in
version 6 with any traffic class and flow label. -/
def CorrectHeader : {ver : IpVersion} → (src dst : IpAddress ver) → UInt8 → Nat → Bytes → Prop
  | .v4, src, dst, protocol, n, hdr =>
      ∃ (tos ttl : UInt8) (idFrag options : Bytes) (check : Nat),
        hdr = [UInt8.ofNat (64 + (20 + options.length) / 4), tos] ++
          (writeU16 (20 + options.length + n) ++ (idFrag ++ ([ttl, protocol] ++
            (writeWord check ++ (src.bytes ++ (dst.bytes ++ options)))))) ∧
        idFrag.length = 4 ∧ options.length % 4 = 0 ∧ options.length ≤ 40 ∧ csum hdr = 0
  | .v6, src, dst, protocol, n, hdr =>
      ∃ (class' hop : UInt8) (flow : Bytes), class' < 16 ∧ flow.length = 3 ∧
        hdr = [96 + class'] ++ (flow ++ (writeU16 n ++ ([protocol, hop] ++
          (src.bytes ++ dst.bytes))))

/-- The type of the packets of a version in an Ethernet header. -/
def etherType : IpVersion → Bytes
  | .v4 => [0x08, 0x00]
  | .v6 => [0x86, 0xdd]

/-- The buffer of a receiver holds a packet with this segment. -/
def Carries (conf : Conf ver) (src dst : IpAddress ver) (protocol : UInt8) (segment : Bytes)
    (buf : Mem) (len : Nat) : Prop :=
  ∃ link hdr, link.length = conf.linkLevelHeaderLen ∧
    (link.length = 14 → link.drop 12 = etherType ver) ∧
    CorrectHeader src dst protocol segment.length hdr ∧
    buf.Holds 0 (link ++ (hdr ++ segment)) ∧ (link ++ (hdr ++ segment)).length ≤ len

theorem IpAddress.ext {a b : IpAddress ver} (h : a.bytes = b.bytes) : a = b := by
  cases a
  cases b
  congr

/-- What the receiver reads from a correct header. -/
structure Reads (ip : Mem) (src dst : IpAddress ver) (protocol : UInt8) (n : Nat) (hdr : Bytes) :
    Prop where
  fields : readIpHeader ip ver = ⟨src, dst, protocol, hdr.length, hdr.length + n⟩
  version : (ip 0).toNat / 16 = ver.number
  length : ver.headerLen ≤ hdr.length
  check : ver = .v4 → csum (ip.read 0 hdr.length) = 0

theorem reads_v4 {src dst : IpAddress .v4} {protocol : UInt8} {n : Nat} {hdr : Bytes} {ip : Mem}
    (h : CorrectHeader src dst protocol n hdr) (hn : n < 2 ^ 15) (hip : ip.Holds 0 hdr) :
    Reads ip src dst protocol n hdr := by
  obtain ⟨tos, ttl, idFrag, options, check, hhdr, hid, hoptions, hle, hcsum⟩ := h
  have hlen : hdr.length = 20 + options.length := by
    rw [hhdr]
    simp [hid, src.length_eq, dst.length_eq, IpVersion.addressLen]
    omega
  have hfirst : (UInt8.ofNat (64 + (20 + options.length) / 4)).toNat =
      64 + (20 + options.length) / 4 := by
    rw [UInt8.toNat_ofNat']
    omega
  have hread := hip.read_eq rfl
  rw [hhdr] at hip
  simp only [Mem.holds_append, List.cons_append, List.nil_append, Mem.holds_cons, hid,
    src.length_eq, dst.length_eq, IpVersion.addressLen, length_writeU16, length_writeWord] at hip
  obtain ⟨hver, -, htot, -, -, hproto, -, hsrc, hdst, -⟩ := hip
  have hsrc' : (⟨ip.read 12 4, Mem.length_read ip 12 4⟩ : IpAddress .v4) = src :=
    IpAddress.ext (hsrc.read_eq src.length_eq)
  have hdst' : (⟨ip.read 16 4, Mem.length_read ip 16 4⟩ : IpAddress .v4) = dst :=
    IpAddress.ext (hdst.read_eq dst.length_eq)
  refine ⟨?_, ?_, ?_, fun _ => by rw [hread, hcsum]⟩
  · have hhdrLen : (ip 0).toNat % 16 * 4 = hdr.length := by
      rw [hver, hfirst]
      omega
    have hipLen : ip.u16 2 = hdr.length + n := by
      rw [htot.u16]
      omega
    show (⟨_, _, _, _, _⟩ : IpHeader .v4) = _
    rw [hsrc', hdst', hproto, hhdrLen, hipLen]
  · rw [hver, hfirst]
    show _ = 4
    omega
  · rw [hlen]
    exact Nat.le_add_right 20 _

theorem reads_v6 {src dst : IpAddress .v6} {protocol : UInt8} {n : Nat} {hdr : Bytes} {ip : Mem}
    (h : CorrectHeader src dst protocol n hdr) (hn : n < 2 ^ 15) (hip : ip.Holds 0 hdr) :
    Reads ip src dst protocol n hdr := by
  obtain ⟨class', hop, flow, hclass, hflow, hhdr⟩ := h
  have hlen : hdr.length = 40 := by
    rw [hhdr]
    simp [hflow, src.length_eq, dst.length_eq, IpVersion.addressLen]
  rw [hhdr] at hip
  simp only [Mem.holds_append, List.cons_append, List.nil_append, Mem.holds_cons, hflow,
    src.length_eq, IpVersion.addressLen, length_writeU16] at hip
  obtain ⟨hver, -, htot, hproto, -, hsrc, hdst⟩ := hip
  have hsrc' : (⟨ip.read 8 16, Mem.length_read ip 8 16⟩ : IpAddress .v6) = src :=
    IpAddress.ext (hsrc.read_eq src.length_eq)
  have hdst' : (⟨ip.read 24 16, Mem.length_read ip 24 16⟩ : IpAddress .v6) = dst :=
    IpAddress.ext (hdst.read_eq dst.length_eq)
  refine ⟨?_, ?_, ?_, fun heq => absurd heq (by decide)⟩
  · have hipLen : ip.u16 4 + 40 = 40 + n := by
      rw [htot.u16]
      omega
    show (⟨_, _, _, _, _⟩ : IpHeader .v6) = _
    rw [hsrc', hdst', hproto, hipLen, hlen]
  · rw [hver, UInt8.toNat_add]
    have hclass' : class'.toNat < 16 := hclass
    show (96 + class'.toNat) % 2 ^ 8 / 16 = 6
    omega
  · rw [hlen]
    exact le_rfl

theorem CorrectHeader.reads {src dst : IpAddress ver} {protocol : UInt8} {n : Nat} {hdr : Bytes}
    {ip : Mem} (h : CorrectHeader src dst protocol n hdr) (hn : n < 2 ^ 15)
    (hip : ip.Holds 0 hdr) : Reads ip src dst protocol n hdr := by
  cases ver with
  | v4 => exact reads_v4 h hn hip
  | v6 => exact reads_v6 h hn hip

/-- What the receiver notes of the packet. -/
def RawInfo.heard (raw : RawInfo ver) (src dst : IpAddress ver) (protocol : UInt8) : RawInfo ver :=
  { raw with recvInfo := { raw.recvInfo with
    newSrcIp := src, newDstIp := dst, protocol := protocol } }

/-- The segment is found behind the link level header. -/
theorem recvRawPacket_of_carries {conf : Conf ver} {src dst : IpAddress ver} {protocol : UInt8}
    {segment : Bytes} {buf : Mem} {len : Nat} (h : Carries conf src dst protocol segment buf len) :
    ∃ hdr ip packetLen, recvRawPacket conf buf len = some (ip, packetLen) ∧
      CorrectHeader src dst protocol segment.length hdr ∧ ip.Holds 0 (hdr ++ segment) ∧
      (hdr ++ segment).length ≤ packetLen := by
  obtain ⟨link, hdr, hlink, hether, hcorrect, hholds, hlen⟩ := h
  rw [List.length_append] at hlen
  obtain ⟨hfirst, hrest⟩ := Mem.holds_append.mp hholds
  refine ⟨hdr, buf.shift link.length, len - link.length, ?_, hcorrect, ?_, by omega⟩
  · unfold recvRawPacket
    rw [← hlink, if_neg (by omega), if_neg]
    rintro ⟨h14, hnot⟩
    apply hnot
    have hsplit : link = link.take 12 ++ etherType ver := by
      rw [← hether h14, List.take_append_drop]
    rw [hsplit] at hfirst
    have htail := (Mem.holds_append.mp hfirst).2
    rw [List.length_take, h14] at htail
    cases ver with
    | v4 =>
        simp only [etherType, Mem.holds_cons] at htail
        exact .inl ⟨htail.1, htail.2.1⟩
    | v6 =>
        simp only [etherType, Mem.holds_cons] at htail
        exact .inr ⟨htail.1, htail.2.1⟩
  · rw [Mem.holds_shift]
    simpa using hrest

/-- The receiver finds the segment. -/
theorem recvRawIp_of_carries {conf : Conf ver} {src dst : IpAddress ver} {protocol : UInt8}
    {segment : Bytes} {buf : Mem} {len : Nat} (raw : RawInfo ver)
    (h : Carries conf src dst protocol segment buf len) (hsegment : segment.length < 2 ^ 15)
    (hbind : ∀ bindAddr ∈ conf.bindAddr, dst = bindAddr) :
    ∃ ip, recvRawIp conf raw buf len = (raw.heard src dst protocol, some (ip, segment.length)) ∧
      ip.Holds 0 segment := by
  obtain ⟨hdr, ip, packetLen, hpacket, hcorrect, hholds, hlen⟩ := recvRawPacket_of_carries h
  obtain ⟨hhdr, hseg⟩ := Mem.holds_append.mp hholds
  have hreads := hcorrect.reads hsegment hhdr
  have hmin := hreads.length
  rw [List.length_append] at hlen
  have hpos : 1 ≤ packetLen := by
    have : 20 ≤ ver.headerLen := by cases ver <;> decide
    omega
  refine ⟨ip.shift hdr.length, ?_, ?_⟩
  · unfold recvRawIp
    simp only [hpacket]
    rw [if_neg (by omega), if_neg (not_not.mpr hreads.version), if_neg (by omega), hreads.fields]
    dsimp only
    rw [if_neg, if_neg (by omega), if_neg, if_neg (by omega), Nat.add_sub_cancel_left]
    · rfl
    · rintro ⟨hver, -, hcsum⟩
      exact hcsum (hreads.check hver)
    · rw [Option.any_eq_true]
      rintro ⟨bindAddr, hsome, hne⟩
      exact of_decide_eq_true hne (hbind bindAddr hsome)
  · rw [Mem.holds_shift]
    simpa using hseg

/-! ## Checksums -/

theorem wordSum_pseudoHeader_le (src dst : IpAddress ver) (protocol : UInt8) (n : Nat) :
    wordSum (pseudoHeader src dst protocol n) ≤ 2 ^ 29 := by
  have hle := wordSum_le (pseudoHeader src dst protocol n)
  have hlen : (pseudoHeader src dst protocol n).length ≤ 40 := by
    cases ver with
    | v4 => simp [pseudoHeader, src.length_eq, dst.length_eq, IpVersion.addressLen]
    | v6 => simp [pseudoHeader, src.length_eq, dst.length_eq, IpVersion.addressLen]
  have hhalf : ((pseudoHeader src dst protocol n).length + 1) / 2 * (2 ^ 16 - 1) ≤
      20 * (2 ^ 16 - 1) := Nat.mul_le_mul_right _ (by omega)
  omega

/-- The receiver computes 0 over the pseudo header and a sealed segment. -/
theorem segmentCsum_sealed {build : Nat → Bytes} (src dst : IpAddress ver) (protocol : UInt8)
    (h : HasCheck build) (hlen : (build 0).length ≤ 2 ^ 16) :
    segmentCsum src dst protocol (sealed (segmentCsum src dst protocol) build) = 0 := by
  have hsum := wordSum_pseudoHeader_le src dst protocol (build 0).length
  -- the length in the pseudo header does not depend on the checksum
  show complement (wordSum (pseudoHeader src dst protocol
    (sealed (segmentCsum src dst protocol) build).length)) _ = 0
  rw [length_sealed h]
  exact complement_sealed h hsum hlen

theorem icmpCsum_sealed {build : Nat → Bytes} (src dst : IpAddress ver) (h : HasCheck build)
    (hlen : (build 0).length ≤ 2 ^ 16) :
    icmpCsum src dst (sealed (icmpCsum src dst) build) = 0 := by
  cases ver with
  | v4 => exact complement_sealed h (Nat.zero_le _) hlen
  | v6 => exact segmentCsum_sealed src dst ipprotoIcmpv6 h hlen

/-! ## ICMP -/

theorem toNat_mod16 (n : UInt16) : n.toNat % 2 ^ 16 = n.toNat := Nat.mod_eq_of_lt n.toNat_lt

theorem toNat_mod32 (n : UInt32) : n.toNat % 2 ^ 32 = n.toNat := Nat.mod_eq_of_lt n.toNat_lt

/-- What is read from an ICMP message. -/
structure IcmpFields (icmph : Mem) (type : UInt8) (info : PacketInfo ver) (payload : Bytes) :
    Prop where
  type : icmph 0 = type
  code : icmph 1 = 0
  id : icmph.u16 4 = info.srcPort.toNat
  seq : icmph.u16 6 = info.myIcmpSeq.toNat
  payload : icmph.Holds 8 payload

theorem icmpFields_of_holds {icmph : Mem} {type : UInt8} {info : PacketInfo ver} {check : Nat}
    {payload : Bytes} (h : icmph.Holds 0 (icmpHeader type info check ++ payload)) :
    IcmpFields icmph type info payload := by
  simp only [icmpHeader, Mem.holds_append, List.cons_append, List.nil_append, Mem.holds_cons,
    List.length_append, length_writeU16, length_writeWord] at h
  obtain ⟨htype, hcode, ⟨-, hid, hseq⟩, hpayload⟩ := h
  refine ⟨htype, hcode, ?_, ?_, hpayload⟩
  · rw [hid.u16, toNat_mod16]
  · rw [hseq.u16, toNat_mod16]

theorem hasCheck_icmp (type : UInt8) (info : PacketInfo ver) (payload : Bytes) :
    HasCheck fun check => icmpHeader type info check ++ payload := by
  refine ⟨[type, 0], writeU16 info.srcPort.toNat ++ (writeU16 info.myIcmpSeq.toNat ++ payload), ?_,
    by simp⟩
  intro check
  simp [icmpHeader]

theorem length_sendRawIcmp (conf : Conf ver) (info : PacketInfo ver) (payload : Bytes) :
    (sendRawIcmp conf info payload).length = payload.length + 8 := by
  unfold sendRawIcmp
  rw [length_sealed (hasCheck_icmp _ info payload)]
  simp [icmpHeader]
  omega

/-- The type that one side sends, the other expects. -/
theorem icmpExpectedType_eq {mode mode' : ProgramMode} (h : mode ≠ mode') :
    icmpExpectedType ver mode' = icmpType ver mode := by
  cases ver <;> cases mode <;> cases mode' <;> first | rfl | exact absurd rfl h

/-- An ICMP message arrives. -/
theorem recvRawIcmp_sendRawIcmp {snd rcv : Conf ver} {info : PacketInfo ver} {raw : RawInfo ver}
    {payload : Bytes} {buf : Mem} {len : Nat} (hrole : snd.programMode ≠ rcv.programMode)
    (hid : raw.sendInfo.srcPort = info.srcPort) (hlen : payload.length ≤ maxDataLen)
    (hbind : ∀ bindAddr ∈ rcv.bindAddr, info.newDstIp = bindAddr)
    (h : Carries rcv info.newSrcIp info.newDstIp (RawMode.icmp.protocol ver)
      (sendRawIcmp snd info payload) buf len) :
    recvRawIcmp rcv raw buf len = ({ raw with recvInfo := { raw.recvInfo with
      newSrcIp := info.newSrcIp
      newDstIp := info.newDstIp
      protocol := RawMode.icmp.protocol ver
      srcPort := info.srcPort
      dstPort := info.srcPort
      myIcmpSeq := info.myIcmpSeq } }, .payload 0 payload) := by
  unfold maxDataLen at hlen
  have hlength := length_sendRawIcmp snd info payload
  obtain ⟨icmph, hip, hholds⟩ := recvRawIp_of_carries raw h (by omega) hbind
  have hfields := icmpFields_of_holds hholds
  have hcheck : icmpCsum info.newSrcIp info.newDstIp (icmph.read 0 (payload.length + 8)) = 0 := by
    rw [hholds.read_eq hlength]
    apply icmpCsum_sealed _ _ (hasCheck_icmp _ info payload)
    simp [icmpHeader]
    omega
  unfold recvRawIcmp
  rw [hip, hlength]
  dsimp only [RawInfo.heard]
  rw [if_neg (by simp), if_neg (by omega), hfields.id, if_neg (by rw [hid]; simp), hfields.code,
    if_neg (by simp), hfields.type, if_neg (by rw [icmpExpectedType_eq hrole]; simp), hcheck,
    if_neg (by simp), hfields.seq, Nat.add_sub_cancel, hfields.payload.read_eq rfl,
    UInt16.ofNat_toNat, UInt16.ofNat_toNat]

/-! ## UDP -/

/-- What is read from a UDP segment. -/
structure UdpFields (udph : Mem) (info : PacketInfo ver) (payload : Bytes) : Prop where
  source : udph.u16 0 = info.srcPort.toNat
  dest : udph.u16 2 = info.dstPort.toNat
  len : udph.u16 4 = (payload.length + 8) % 2 ^ 16
  payload : udph.Holds 8 payload

theorem udpFields_of_holds {udph : Mem} {info : PacketInfo ver} {check : Nat} {payload : Bytes}
    (h : udph.Holds 0 (udpHeader info (payload.length + 8) check ++ payload)) :
    UdpFields udph info payload := by
  simp only [udpHeader, Mem.holds_append, List.length_append, length_writeU16,
    length_writeWord] at h
  obtain ⟨⟨hsource, hdest, hlen, -⟩, hpayload⟩ := h
  refine ⟨?_, ?_, hlen.u16, hpayload⟩
  · rw [hsource.u16, toNat_mod16]
  · rw [hdest.u16, toNat_mod16]

theorem hasCheck_udp (info : PacketInfo ver) (len : Nat) (payload : Bytes) :
    HasCheck fun check => udpHeader info len check ++ payload := by
  refine ⟨writeU16 info.srcPort.toNat ++ (writeU16 info.dstPort.toNat ++ writeU16 len), payload, ?_,
    by simp⟩
  intro check
  simp [udpHeader]

/-- A UDP segment arrives. -/
theorem recvRawUdp_sendRawUdp {rcv : Conf ver} {info : PacketInfo ver} {raw : RawInfo ver}
    {payload segment : Bytes} {buf : Mem} {len : Nat} (hport : rcv.filterPort = info.dstPort)
    (hlen : payload.length ≤ maxDataLen)
    (hbind : ∀ bindAddr ∈ rcv.bindAddr, info.newDstIp = bindAddr)
    (hsegment : sendRawUdp info payload = some segment)
    (h : Carries rcv info.newSrcIp info.newDstIp ipprotoUdp segment buf len) :
    recvRawUdp rcv raw buf len = ({ raw with recvInfo := { raw.recvInfo with
      newSrcIp := info.newSrcIp
      newDstIp := info.newDstIp
      protocol := ipprotoUdp
      srcPort := info.srcPort
      dstPort := info.dstPort } }, .payload 0 payload) := by
  unfold maxDataLen at hlen
  unfold sendRawUdp at hsegment
  rw [if_neg (by omega)] at hsegment
  obtain rfl := Option.some.inj hsegment
  have hcheck := hasCheck_udp info (payload.length + 8) payload
  have hbuild : (udpHeader info (payload.length + 8) 0 ++ payload).length = payload.length + 8 := by
    simp [udpHeader]
    omega
  have hlength := (length_sealed hcheck (segmentCsum info.newSrcIp info.newDstIp ipprotoUdp)).trans
    hbuild
  obtain ⟨udph, hip, hholds⟩ := recvRawIp_of_carries raw h (by omega) hbind
  have hfields := udpFields_of_holds hholds
  have hcsum : segmentCsum info.newSrcIp info.newDstIp ipprotoUdp
      (udph.read 0 (payload.length + 8)) = 0 := by
    rw [hholds.read_eq hlength]
    exact segmentCsum_sealed _ _ _ hcheck (by rw [hbuild]; omega)
  unfold recvRawUdp
  rw [hip, hlength]
  dsimp only [RawInfo.heard]
  rw [if_neg (by simp), if_neg (by omega), if_neg (by rw [hfields.len]; omega), hfields.dest,
    if_neg (by rw [hport]; simp), hcsum, if_neg (by simp), hfields.source, Nat.add_sub_cancel,
    hfields.payload.read_eq rfl, UInt16.ofNat_toNat, UInt16.ofNat_toNat]

/-! ## TCP options -/

section Options

variable {tcph : Mem} {optionEnd ptr : Nat} {info : PacketInfo ver}

theorem tcpOptionLoop_end (h : optionEnd ≤ ptr) :
    tcpOptionLoop tcph optionEnd ptr info = (info, 0) := by
  rw [tcpOptionLoop, dif_neg (by omega)]

/-- One octet of padding. -/
theorem tcpOptionLoop_nop (hptr : ptr < optionEnd) (hkind : tcph ptr = 1) :
    tcpOptionLoop tcph optionEnd ptr info = tcpOptionLoop tcph optionEnd (ptr + 1) info := by
  rw [tcpOptionLoop, dif_pos hptr, hkind, if_neg (by decide), if_pos rfl]

/-- The timestamps. -/
theorem tcpOptionLoop_ts (hptr : ptr + 10 ≤ optionEnd) (hkind : tcph ptr = 8)
    (hlen : tcph (ptr + 1) = 10) :
    tcpOptionLoop tcph optionEnd ptr info = tcpOptionLoop tcph optionEnd (ptr + 10) { info with
      hasTs := true
      ts := UInt32.ofNat (tcph.u32 (ptr + 2))
      tsAck := UInt32.ofNat (tcph.u32 (ptr + 6)) } := by
  rw [tcpOptionLoop, dif_pos (by omega), hkind, if_neg (by decide), if_neg (by decide), if_pos rfl,
    if_neg (by omega), hlen, if_neg (by decide), if_neg (by omega)]

/-- An option that the receiver does not use. -/
theorem tcpOptionLoop_skip {kind len : UInt8} (hptr : ptr + 1 < optionEnd) (hkind : tcph ptr = kind)
    (hlen : tcph (ptr + 1) = len) (hother : kind ≠ 0 ∧ kind ≠ 1 ∧ kind ≠ 8)
    (hlong : 1 < len.toNat) :
    tcpOptionLoop tcph optionEnd ptr info =
      tcpOptionLoop tcph optionEnd (ptr + len.toNat) info := by
  rw [tcpOptionLoop, dif_pos (by omega), hkind, if_neg hother.1, if_neg hother.2.1,
    if_neg hother.2.2, if_neg (by omega), hlen, if_neg (by omega)]

/-- The loop finds the timestamps in either block of options. -/
theorem parseTcpOption_tcpOptions {syn : Bool} {ts tsAck : UInt32}
    (h : tcph.Holds 20 (tcpOptions syn ts tsAck)) :
    (parseTcpOption tcph 20 (20 + (tcpOptions syn ts tsAck).length) info).1 =
      { info with hasTs := true, ts := ts, tsAck := tsAck } := by
  have hofNat : ∀ n : UInt32, UInt32.ofNat (n.toNat % 2 ^ 32) = n := by
    intro n
    rw [toNat_mod32, UInt32.ofNat_toNat]
  unfold parseTcpOption
  cases syn with
  | true =>
      simp only [tcpOptions, if_true, Mem.holds_append, List.cons_append, List.nil_append,
        Mem.holds_cons, length_writeU32] at h
      obtain ⟨hmss, hmssLen, -, -, hsack, hsackLen, hkind, hlen, hts, htsAck, hnop, hscale,
        hscaleLen, -⟩ := h
      show (tcpOptionLoop tcph 40 20 _).1 = _
      rw [tcpOptionLoop_skip (by omega) hmss hmssLen (by decide) (by decide)]
      show (tcpOptionLoop tcph 40 24 _).1 = _
      rw [tcpOptionLoop_skip (by omega) hsack hsackLen (by decide) (by decide)]
      show (tcpOptionLoop tcph 40 26 _).1 = _
      rw [tcpOptionLoop_ts (by omega) hkind hlen, tcpOptionLoop_nop (by omega) hnop,
        tcpOptionLoop_skip (by omega) hscale hscaleLen (by decide) (by decide)]
      show (tcpOptionLoop tcph 40 40 _).1 = _
      rw [tcpOptionLoop_end (by omega), hts.u32, htsAck.u32, hofNat, hofNat]
  | false =>
      simp only [tcpOptions, Bool.false_eq_true, if_false, Mem.holds_append, List.cons_append,
        List.nil_append, Mem.holds_cons, length_writeU32] at h
      obtain ⟨hnop, hnop', hkind, hlen, hts, htsAck⟩ := h
      show (tcpOptionLoop tcph 32 20 _).1 = _
      rw [tcpOptionLoop_nop (by omega) hnop, tcpOptionLoop_nop (by omega) hnop',
        tcpOptionLoop_ts (by omega) hkind hlen, tcpOptionLoop_end (by omega), hts.u32, htsAck.u32,
        hofNat, hofNat]

end Options

/-! ## TCP -/

/-- What is read from a TCP segment. -/
structure TcpFields (tcph : Mem) (info : PacketInfo ver) (env : TcpEnv) (payload : Bytes) :
    Prop where
  source : tcph.u16 0 = info.srcPort.toNat
  dest : tcph.u16 2 = info.dstPort.toNat
  seq : tcph.u32 4 = info.seq.toNat
  ackSeq : tcph.u32 8 = info.ackSeq.toNat
  doff : (tcph 12).toNat / 16 * 4 = 20 + (tcpOptions info.syn env.now info.tsAck).length
  flags : tcph 13 = tcpFlags info
  options : tcph.Holds 20 (tcpOptions info.syn env.now info.tsAck)
  payload : tcph.Holds (20 + (tcpOptions info.syn env.now info.tsAck).length) payload

theorem tcpFields_of_holds {tcph : Mem} {info : PacketInfo ver} {env : TcpEnv} {check : Nat}
    {payload : Bytes} (h : tcph.Holds 0 (tcpHeader info env check ++ payload)) :
    TcpFields tcph info env payload := by
  obtain ⟨hheader, hpayload⟩ := Mem.holds_append.mp h
  simp only [tcpHeader, Mem.holds_append, List.cons_append, List.nil_append, Mem.holds_cons,
    length_writeU16, length_writeU32, length_writeWord] at hheader
  obtain ⟨hsource, hdest, hseq, hackSeq, hdoff, hflags, -, -, -, hoptions⟩ := hheader
  refine ⟨?_, ?_, ?_, ?_, ?_, hflags, hoptions, ?_⟩
  · rw [hsource.u16, toNat_mod16]
  · rw [hdest.u16, toNat_mod16]
  · rw [hseq.u32, toNat_mod32]
  · rw [hackSeq.u32, toNat_mod32]
  · have hdoff' : tcph 12 = if info.syn then 0xa0 else 0x80 := hdoff
    rw [hdoff']
    unfold tcpOptions
    split <;> rfl
  · have hlen : (tcpHeader info env check).length =
        20 + (tcpOptions info.syn env.now info.tsAck).length := by
      simp only [tcpHeader, List.length_append, List.length_cons, List.length_nil, length_writeU16,
        length_writeU32, length_writeWord]
      omega
    rw [hlen, Nat.zero_add] at hpayload
    exact hpayload

theorem testBit_tcpFlags (info : PacketInfo ver) :
    (tcpFlags info).toNat.testBit 1 = info.syn ∧ (tcpFlags info).toNat.testBit 2 = false ∧
      (tcpFlags info).toNat.testBit 3 = info.psh ∧ (tcpFlags info).toNat.testBit 4 = info.ack := by
  unfold tcpFlags
  cases info.syn <;> cases info.psh <;> cases info.ack <;> decide

theorem hasCheck_tcp (info : PacketInfo ver) (env : TcpEnv) (payload : Bytes) :
    HasCheck fun check => tcpHeader info env check ++ payload := by
  refine ⟨writeU16 info.srcPort.toNat ++ (writeU16 info.dstPort.toNat ++ (writeU32 info.seq.toNat ++
    (writeU32 info.ackSeq.toNat ++ ([if info.syn then 0xa0 else 0x80, tcpFlags info] ++
      writeU16 env.window)))),
    writeU16 0 ++ (tcpOptions info.syn env.now info.tsAck ++ payload), ?_, by simp⟩
  intro check
  simp [tcpHeader]

theorem length_tcpOptions_le (syn : Bool) (ts tsAck : UInt32) :
    (tcpOptions syn ts tsAck).length ≤ 20 := by
  unfold tcpOptions
  split <;> simp

/-- A TCP segment arrives. -/
theorem recvRawTcp_sendRawTcp {rcv : Conf ver} {info : PacketInfo ver} {raw : RawInfo ver}
    {env : TcpEnv} {payload : Bytes} {buf : Mem} {len : Nat} (hport : rcv.filterPort = info.dstPort)
    (hlen : payload.length ≤ maxDataLen)
    (hbind : ∀ bindAddr ∈ rcv.bindAddr, info.newDstIp = bindAddr)
    (h : Carries rcv info.newSrcIp info.newDstIp ipprotoTcp (sendRawTcp info env payload) buf len) :
    recvRawTcp rcv raw buf len = ({ raw with recvInfo := { raw.recvInfo with
      newSrcIp := info.newSrcIp
      newDstIp := info.newDstIp
      protocol := ipprotoTcp
      srcPort := info.srcPort
      dstPort := info.dstPort
      syn := info.syn
      ack := info.ack
      psh := info.psh
      rst := false
      seq := info.seq
      ackSeq := info.ackSeq
      ackSeqCounter := if info.ackSeq = raw.recvInfo.ackSeq then raw.recvInfo.ackSeqCounter + 1
        else 0
      hasTs := true
      ts := env.now
      tsAck := info.tsAck
      dataLen := payload.length } }, .payload 0 payload) := by
  unfold maxDataLen at hlen
  have hcheck := hasCheck_tcp info env payload
  have hbuild : (tcpHeader info env 0 ++ payload).length =
      20 + (tcpOptions info.syn env.now info.tsAck).length + payload.length := by
    simp only [tcpHeader, List.length_append, List.length_cons, List.length_nil, length_writeU16,
      length_writeU32, length_writeWord]
    omega
  have hoptions := length_tcpOptions_le info.syn env.now info.tsAck
  have hlength := (length_sealed hcheck (segmentCsum info.newSrcIp info.newDstIp ipprotoTcp)).trans
    hbuild
  obtain ⟨tcph, hip, hholds⟩ := recvRawIp_of_carries raw h (by unfold sendRawTcp; omega) hbind
  have hfields := tcpFields_of_holds hholds
  obtain ⟨hsyn, hrst, hpsh, hack⟩ := testBit_tcpFlags info
  have hcsum : segmentCsum info.newSrcIp info.newDstIp ipprotoTcp (tcph.read 0
      (20 + (tcpOptions info.syn env.now info.tsAck).length + payload.length)) = 0 := by
    rw [hholds.read_eq hlength]
    exact segmentCsum_sealed _ _ _ hcheck (by rw [hbuild]; omega)
  unfold recvRawTcp
  rw [hip]
  unfold sendRawTcp
  rw [hlength]
  dsimp only [RawInfo.heard]
  rw [hfields.doff, if_neg (by simp), if_neg (by omega), if_neg (by omega), hfields.dest,
    if_neg (by rw [hport]; simp), hcsum, parseTcpOption_tcpOptions hfields.options, hfields.flags,
    hsyn, hrst, hpsh, hack, hfields.source, hfields.seq, hfields.ackSeq, Nat.add_sub_cancel_left,
    hfields.payload.read_eq rfl, UInt16.ofNat_toNat, UInt16.ofNat_toNat, UInt32.ofNat_toNat,
    UInt32.ofNat_toNat]
  rfl

/-! ## Round trip -/

/-- A receiver in the opposite role, for what the sender sends: it listens on the
port, or has the ICMP id. -/
structure Listens (snd rcv : Conf ver) (info : PacketInfo ver) (raw : RawInfo ver) : Prop where
  mode : rcv.rawMode = snd.rawMode
  role : snd.programMode ≠ rcv.programMode
  port : snd.rawMode ≠ .icmp → rcv.filterPort = info.dstPort
  id : snd.rawMode = .icmp → raw.sendInfo.srcPort = info.srcPort
  bind : ∀ bindAddr ∈ rcv.bindAddr, info.newDstIp = bindAddr

/-- The fields of `recv_info` are as they were sent.  An ICMP message has one
number for both ports. -/
def Arrived (info : PacketInfo ver) (env : TcpEnv) (got : PacketInfo ver) : RawMode → Prop
  | .faketcp => got.srcPort = info.srcPort ∧ got.dstPort = info.dstPort ∧ got.syn = info.syn ∧
      got.ack = info.ack ∧ got.psh = info.psh ∧ got.rst = false ∧ got.seq = info.seq ∧
      got.ackSeq = info.ackSeq ∧ got.hasTs = true ∧ got.ts = env.now ∧ got.tsAck = info.tsAck
  | .udp => got.srcPort = info.srcPort ∧ got.dstPort = info.dstPort
  | .icmp => got.srcPort = info.srcPort ∧ got.dstPort = info.srcPort ∧
      got.myIcmpSeq = info.myIcmpSeq

/-- Every payload that is sent arrives in every mode and version: the receiver
returns 0, computes checksum 0, and has the payload and the fields that were
sent. -/
theorem recvRaw0_rawSegment {snd rcv : Conf ver} {info : PacketInfo ver} {raw : RawInfo ver}
    (env : TcpEnv) {payload : Bytes} (hpeer : Listens snd rcv info raw)
    (hlen : payload.length ≤ maxDataLen) :
    ∃ segment, rawSegment snd info env payload = some segment ∧ ∀ buf len,
      Carries rcv info.newSrcIp info.newDstIp (snd.rawMode.protocol ver) segment buf len →
      ∃ raw', recvRaw0 rcv raw buf len = (raw', .payload 0 payload) ∧
        Arrived info env raw'.recvInfo snd.rawMode := by
  obtain ⟨hmode, hrole, hport, hid, hbind⟩ := hpeer
  unfold rawSegment recvRaw0
  rw [hmode]
  cases hsnd : snd.rawMode with
  | faketcp =>
      refine ⟨_, rfl, fun buf len hcarries => ⟨_,
        recvRawTcp_sendRawTcp (hport (by simp [hsnd])) hlen hbind hcarries, ?_⟩⟩
      exact ⟨rfl, rfl, rfl, rfl, rfl, rfl, rfl, rfl, rfl, rfl, rfl⟩
  | udp =>
      have hsome : ∃ segment, sendRawUdp info payload = some segment := by
        unfold sendRawUdp
        unfold maxDataLen at hlen
        rw [if_neg (by omega)]
        exact ⟨_, rfl⟩
      obtain ⟨segment, hsegment⟩ := hsome
      refine ⟨segment, hsegment, fun buf len hcarries => ⟨_, recvRawUdp_sendRawUdp
        (hport (by simp [hsnd])) hlen hbind hsegment hcarries, ?_⟩⟩
      exact ⟨rfl, rfl⟩
  | icmp =>
      refine ⟨_, rfl, fun buf len hcarries => ⟨_,
        recvRawIcmp_sendRawIcmp hrole (hid hsnd) hlen hbind hcarries, ?_⟩⟩
      exact ⟨rfl, rfl, rfl⟩

/-! ## The packets of the program -/

theorem hasCheck_iphdr (info : PacketInfo .v4) (env : IpEnv) (n : Nat) :
    HasCheck (iphdr info env n) := by
  refine ⟨[0x45, 0] ++ (writeU16 (20 + n) ++ ((writeU16 env.id.toNat ++ writeU16 0x4000) ++
    [env.ttl, info.protocol])), info.newSrcIp.bytes ++ info.newDstIp.bytes, ?_, by simp⟩
  intro check
  simp [iphdr]

theorem correctHeader_ipHeader (info : PacketInfo ver) (env : IpEnv) (n : Nat) :
    CorrectHeader info.newSrcIp info.newDstIp info.protocol n (ipHeader info env n) := by
  cases ver with
  | v4 =>
      refine ⟨0, env.ttl, writeU16 env.id.toNat ++ writeU16 0x4000, [],
        csum (iphdr info env n 0), ?_, rfl, rfl, by simp, ?_⟩
      · simp [ipHeader, sealed, iphdr]
      · apply complement_sealed (hasCheck_iphdr info env n) (Nat.zero_le _)
        simp [iphdr, info.newSrcIp.length_eq, info.newDstIp.length_eq, IpVersion.addressLen]
  | v6 => exact ⟨0, env.ttl, [0, 0, 0], by decide, rfl, rfl⟩

/-- The packet that `send_raw_ip` builds carries the segment. -/
theorem carries_sendRawIp {conf : Conf ver} (info : PacketInfo ver) (env : IpEnv) (segment : Bytes)
    (hlink : conf.linkLevelHeaderLen = 0) :
    Carries conf info.newSrcIp info.newDstIp info.protocol segment
      (Mem.ofBytes (sendRawIp info env segment)) (sendRawIp info env segment).length :=
  ⟨[], ipHeader info env segment.length, hlink.symm, by simp,
    correctHeader_ipHeader info env segment.length, Mem.holds_ofBytes _, le_rfl⟩

/-- A client that sends three octets from 10.0.0.1 to 10.0.0.2, with PSH and ACK. -/
def exampleInfo : PacketInfo .v4 where
  protocol := ipprotoTcp
  newSrcIp := ⟨[10, 0, 0, 1], rfl⟩
  newDstIp := ⟨[10, 0, 0, 2], rfl⟩
  srcPort := 40000
  dstPort := 4096
  ack := true
  psh := true
  seq := 7
  ackSeq := 9
  tsAck := 5

/-- In a packet of the program, the three octets arrive. -/
theorem recvRaw0_rawSegment_example : ∃ segment raw',
    rawSegment ⟨.faketcp, .client, 40000, none, 0, -1⟩ exampleInfo ⟨11, 3⟩ [1, 2, 3] =
      some segment ∧
    recvRaw0 ⟨.faketcp, .server, 4096, none, 0, -1⟩ ⟨exampleInfo, exampleInfo, false, 0, false⟩
      (Mem.ofBytes (sendRawIp exampleInfo ⟨1, 64⟩ segment))
      (sendRawIp exampleInfo ⟨1, 64⟩ segment).length = (raw', .payload 0 [1, 2, 3]) ∧
    Arrived exampleInfo ⟨11, 3⟩ raw'.recvInfo .faketcp := by
  obtain ⟨segment, hsegment, harrives⟩ := @recvRaw0_rawSegment .v4
    ⟨.faketcp, .client, 40000, none, 0, -1⟩ ⟨.faketcp, .server, 4096, none, 0, -1⟩ exampleInfo
    ⟨exampleInfo, exampleInfo, false, 0, false⟩ ⟨11, 3⟩ [1, 2, 3]
    ⟨rfl, by decide, fun _ => rfl, fun h => absurd h (by decide), by simp⟩ (by decide)
  obtain ⟨raw', hrecv, harrived⟩ := harrives _ _ (carries_sendRawIp exampleInfo ⟨1, 64⟩ segment rfl)
  exact ⟨segment, raw', hsegment, hrecv, harrived⟩

end Fecraw.Ports.Network
