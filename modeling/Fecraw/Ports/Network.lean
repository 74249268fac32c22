import Fecraw.Verified.Layout
import Fecraw.Verified.OnesComplement

/-!
# Raw packets

A port of the framing in `network.cpp`: the TCP, UDP and ICMP segments that
`send_raw_tcp`, `send_raw_udp` and `send_raw_icmp` build, and how a packet is
taken apart by `recv_raw_ip` and the three receivers.

The machine is little-endian.  Only `csum` and the checksum fields depend on it:
all other fields are in network order.  Received data is a pointer and a length
into `g_packet_buf`; the receivers read some fields without looking at the
length, so what follows the packet in the buffer is part of the model.

Clocks and random numbers are arguments.  Left out are the counter of
`g_packet_buf`, the link level address and what is logged.
-/

namespace Fecraw.Ports.Network

open Fecraw.Verified

/-- `max_data_len` of the raw transport. -/
def maxDataLen : Nat := 1800

/-- `raw_ip_version`. -/
inductive IpVersion where
  | v4
  | v6
deriving Repr, DecidableEq

/-- `raw_mode`. -/
inductive RawMode where
  | faketcp
  | udp
  | icmp
deriving Repr, DecidableEq

/-- `program_mode`. -/
inductive ProgramMode where
  | client
  | server
deriving Repr, DecidableEq

def IpVersion.addressLen : IpVersion → Nat
  | .v4 => 4
  | .v6 => 16

/-- The number in the first four bits of a packet. -/
def IpVersion.number : IpVersion → Nat
  | .v4 => 4
  | .v6 => 6

/-- The size of `my_iphdr` or `my_ip6hdr`. -/
def IpVersion.headerLen : IpVersion → Nat
  | .v4 => 20
  | .v6 => 40

/-- `my_ip_t`, in network order. -/
structure IpAddress (ver : IpVersion) where
  bytes : Bytes
  length_eq : bytes.length = ver.addressLen
deriving DecidableEq

def ipprotoIcmp : UInt8 := 1
def ipprotoTcp : UInt8 := 6
def ipprotoUdp : UInt8 := 17
def ipprotoIcmpv6 : UInt8 := 58

/-- The protocol of the packets of a mode. -/
def RawMode.protocol : RawMode → IpVersion → UInt8
  | .faketcp, _ => ipprotoTcp
  | .udp, _ => ipprotoUdp
  | .icmp, .v4 => ipprotoIcmp
  | .icmp, .v6 => ipprotoIcmpv6

/-- The globals that the framing depends on. -/
structure Conf (ver : IpVersion) where
  rawMode : RawMode
  programMode : ProgramMode
  filterPort : UInt16
  /-- `bind_addr`, if `bind_addr_used` is set. -/
  bindAddr : Option (IpAddress ver) := none
  linkLevelHeaderLen : Nat := 0
  maxRstAllowed : Int := -1

/-- `packet_info_t`. -/
structure PacketInfo (ver : IpVersion) where
  protocol : UInt8 := 0
  newSrcIp : IpAddress ver
  newDstIp : IpAddress ver
  srcPort : UInt16 := 0
  dstPort : UInt16 := 0
  syn : Bool := false
  ack : Bool := false
  psh : Bool := false
  rst : Bool := false
  seq : UInt32 := 0
  ackSeq : UInt32 := 0
  ackSeqCounter : UInt32 := 0
  ts : UInt32 := 0
  tsAck : UInt32 := 0
  myIcmpSeq : UInt16 := 0
  hasTs : Bool := false
  dataLen : Nat := 0

/-- `raw_info_t`. -/
structure RawInfo (ver : IpVersion) where
  sendInfo : PacketInfo ver
  recvInfo : PacketInfo ver
  peek : Bool := false
  rstReceived : Int := 0
  disabled : Bool := false

variable {ver : IpVersion}

/-! ## Checksums -/

/-- `csum`. -/
def csum (bs : Bytes) : Nat := complement 0 bs

/-- `csum_with_header`; both headers it is called with have even length. -/
def csumWithHeader (header bs : Bytes) : Nat := complement (wordSum header) bs

/-- `pseudo_header` and `pseudo_header6`.  The length of the latter is
`htons` in a field of 32 bits. -/
def pseudoHeader : {ver : IpVersion} → (src dst : IpAddress ver) → UInt8 → Nat → Bytes
  | .v4, src, dst, protocol, len => src.bytes ++ (dst.bytes ++ ([0, protocol] ++ writeU16 len))
  | .v6, src, dst, protocol, len =>
      src.bytes ++ (dst.bytes ++ (writeU16 len ++ [0, 0, 0, 0, 0, protocol]))

/-- The checksum of a TCP or UDP segment. -/
def segmentCsum (src dst : IpAddress ver) (protocol : UInt8) (segment : Bytes) : Nat :=
  csumWithHeader (pseudoHeader src dst protocol segment.length) segment

/-- The checksum of an ICMP message, which has a pseudo header in version 6 only. -/
def icmpCsum : {ver : IpVersion} → (src dst : IpAddress ver) → Bytes → Nat
  | .v4, _, _, segment => csum segment
  | .v6, src, dst, segment => segmentCsum src dst ipprotoIcmpv6 segment

/-! ## Sending -/

/-- The type of the messages that a side sends. -/
def icmpType : IpVersion → ProgramMode → UInt8
  | .v4, .client => 8
  | .v4, .server => 0
  | .v6, .client => 128
  | .v6, .server => 129

/-- `my_icmphdr`. -/
def icmpHeader (type : UInt8) (info : PacketInfo ver) (check : Nat) : Bytes :=
  [type, 0] ++ (writeWord check ++ (writeU16 info.srcPort.toNat ++ writeU16 info.myIcmpSeq.toNat))

/-- `send_raw_icmp`. -/
def sendRawIcmp (conf : Conf ver) (info : PacketInfo ver) (payload : Bytes) : Bytes :=
  sealed (icmpCsum info.newSrcIp info.newDstIp) fun check =>
    icmpHeader (icmpType ver conf.programMode) info check ++ payload

/-- `my_udphdr`. -/
def udpHeader (info : PacketInfo ver) (len check : Nat) : Bytes :=
  writeU16 info.srcPort.toNat ++ (writeU16 info.dstPort.toNat ++ (writeU16 len ++ writeWord check))

/-- `send_raw_udp`. -/
def sendRawUdp (info : PacketInfo ver) (payload : Bytes) : Option Bytes :=
  if 65535 < payload.length + 8 then none
  else some (sealed (segmentCsum info.newSrcIp info.newDstIp ipprotoUdp) fun check =>
    udpHeader info (payload.length + 8) check ++ payload)

def wscale : UInt8 := 5

/-- The options of a TCP header: the maximum segment size, SACK, the timestamps
and the window scale in a packet that opens a connection, the timestamps in any
other. -/
def tcpOptions (syn : Bool) (ts tsAck : UInt32) : Bytes :=
  if syn then
    [2, 4, 5, 0xb4, 4, 2, 8, 10] ++
      (writeU32 ts.toNat ++ (writeU32 tsAck.toNat ++ [1, 3, 3, wscale]))
  else [1, 1, 8, 10] ++ (writeU32 ts.toNat ++ writeU32 tsAck.toNat)

/-- The octet with the flags. -/
def tcpFlags (info : PacketInfo ver) : UInt8 :=
  (if info.syn then 2 else 0) + (if info.psh then 8 else 0) + (if info.ack then 16 else 0)

/-- What `send_raw_tcp` reads from the clock and from the random numbers. -/
structure TcpEnv where
  now : UInt32
  random : UInt32

def TcpEnv.window (env : TcpEnv) : Nat := 40960 + env.random.toNat % 512

/-- `my_tcphdr`, with the options. -/
def tcpHeader (info : PacketInfo ver) (env : TcpEnv) (check : Nat) : Bytes :=
  writeU16 info.srcPort.toNat ++ (writeU16 info.dstPort.toNat ++ (writeU32 info.seq.toNat ++
    (writeU32 info.ackSeq.toNat ++ ([if info.syn then 0xa0 else 0x80, tcpFlags info] ++
    (writeU16 env.window ++ (writeWord check ++ (writeU16 0 ++
      tcpOptions info.syn env.now info.tsAck)))))))

/-- `send_raw_tcp`. -/
def sendRawTcp (info : PacketInfo ver) (env : TcpEnv) (payload : Bytes) : Bytes :=
  sealed (segmentCsum info.newSrcIp info.newDstIp ipprotoTcp) fun check =>
    tcpHeader info env check ++ payload

/-- The segment that `send_raw0` has sent, by the mode. -/
def rawSegment (conf : Conf ver) (info : PacketInfo ver) (env : TcpEnv) (payload : Bytes) :
    Option Bytes :=
  match conf.rawMode with
  | .faketcp => some (sendRawTcp info env payload)
  | .udp => sendRawUdp info payload
  | .icmp => some (sendRawIcmp conf info payload)

/-- What `send_raw_ip` depends on besides. -/
structure IpEnv where
  id : UInt16
  ttl : UInt8 := 64

/-- `my_iphdr`, before a segment of `n` octets. -/
def iphdr (info : PacketInfo .v4) (env : IpEnv) (n check : Nat) : Bytes :=
  [0x45, 0] ++ (writeU16 (20 + n) ++ ((writeU16 env.id.toNat ++ writeU16 0x4000) ++
    ([env.ttl, info.protocol] ++
      (writeWord check ++ (info.newSrcIp.bytes ++ info.newDstIp.bytes)))))

/-- `my_ip6hdr`, before a segment of `n` octets. -/
def ip6hdr (info : PacketInfo .v6) (env : IpEnv) (n : Nat) : Bytes :=
  [0x60, 0, 0, 0] ++ (writeU16 n ++ ([info.protocol, env.ttl] ++
    (info.newSrcIp.bytes ++ info.newDstIp.bytes)))

/-- The header that `send_raw_ip` builds with `lower_level`, where no field is left
to the kernel. -/
def ipHeader : {ver : IpVersion} → PacketInfo ver → IpEnv → Nat → Bytes
  | .v4, info, env, n => sealed csum (iphdr info env n)
  | .v6, info, env, n => ip6hdr info env n

/-- `send_raw_ip` on a connection that is not disabled. -/
def sendRawIp (info : PacketInfo ver) (env : IpEnv) (segment : Bytes) : Bytes :=
  ipHeader info env segment.length ++ segment

/-! ## Receiving -/

/-- How a receiver returns: with -1, with 0 but without a payload, or with 0, the
checksum it computed and the payload. -/
inductive Received where
  | error
  | unset
  | payload (check : Nat) (bytes : Bytes)
deriving Repr, DecidableEq

/-- `huge_data_len`. -/
def hugeDataLen : Nat := 65535 + 100

/-- `pre_recv_raw_packet`: a packet is read into `g_packet_buf`.  `g_fix_gro` is 0. -/
def preRecvRawPacket (buf : Mem) (packet : Bytes) : Option (Mem × Nat) :=
  let packet := packet.take (hugeDataLen + 1)
  if packet.length = hugeDataLen + 1 then none
  else if maxDataLen + 1 ≤ packet.length then none
  else some (buf.write 0 packet, packet.length)

/-- `recv_raw_packet`. -/
def recvRawPacket (conf : Conf ver) (buf : Mem) (len : Nat) : Option (Mem × Nat) :=
  if len < conf.linkLevelHeaderLen then none
  else if conf.linkLevelHeaderLen = 14 ∧
      ¬ (buf 12 = 0x08 ∧ buf 13 = 0x00 ∨ buf 12 = 0x86 ∧ buf 13 = 0xdd) then none
  else some (buf.shift conf.linkLevelHeaderLen, len - conf.linkLevelHeaderLen)

/-- What `recv_raw_ip` reads from the header of a packet. -/
structure IpHeader (ver : IpVersion) where
  src : IpAddress ver
  dst : IpAddress ver
  protocol : UInt8
  hdrLen : Nat
  ipLen : Nat

def readIpHeader (ip : Mem) : (ver : IpVersion) → IpHeader ver
  | .v4 => {
      src := ⟨ip.read 12 4, Mem.length_read ip 12 4⟩
      dst := ⟨ip.read 16 4, Mem.length_read ip 16 4⟩
      protocol := ip 9
      hdrLen := (ip 0).toNat % 16 * 4
      ipLen := ip.u16 2 }
  | .v6 => {
      src := ⟨ip.read 8 16, Mem.length_read ip 8 16⟩
      dst := ⟨ip.read 24 16, Mem.length_read ip 24 16⟩
      protocol := ip 6
      hdrLen := 40
      ipLen := ip.u16 4 + 40 }

/-- `recv_raw_ip`; the payload is a pointer and a length.  Where the header is
longer than the packet, what `csum` reads behind it does not matter: the packet
is dropped at the last test at the latest. -/
def recvRawIp (conf : Conf ver) (raw : RawInfo ver) (buf : Mem) (len : Nat) :
    RawInfo ver × Option (Mem × Nat) :=
  match recvRawPacket conf buf len with
  | none => (raw, none)
  | some (ip, packetLen) =>
      if packetLen < 1 then (raw, none)
      else if (ip 0).toNat / 16 ≠ ver.number then (raw, none)
      else if packetLen < ver.headerLen then (raw, none)
      else
        let header := readIpHeader ip ver
        let raw := { raw with recvInfo := { raw.recvInfo with
          newSrcIp := header.src, newDstIp := header.dst, protocol := header.protocol } }
        if conf.bindAddr.any fun bindAddr => decide (header.dst ≠ bindAddr) then (raw, none)
        else if packetLen < header.ipLen then (raw, none)
        else if ver = .v4 ∧ raw.peek = false ∧ csum (ip.read 0 header.hdrLen) ≠ 0 then (raw, none)
        else if header.ipLen < header.hdrLen then (raw, none)
        else (raw, some (ip.shift header.hdrLen, header.ipLen - header.hdrLen))

/-- The type of the messages that a side accepts. -/
def icmpExpectedType : IpVersion → ProgramMode → UInt8
  | .v4, .client => 0
  | .v4, .server => 8
  | .v6, .client => 129
  | .v6, .server => 128

/-- `recv_raw_icmp`. -/
def recvRawIcmp (conf : Conf ver) (raw : RawInfo ver) (buf : Mem) (len : Nat) :
    RawInfo ver × Received :=
  match recvRawIp conf raw buf len with
  | (raw, none) => (raw, .error)
  | (raw, some (icmph, len)) =>
      if raw.recvInfo.protocol ≠ RawMode.icmp.protocol ver then (raw, .error)
      else if len < 8 then (raw, .error)
      else if icmph.u16 4 ≠ raw.sendInfo.srcPort.toNat then (raw, .error)
      else
        let id := UInt16.ofNat (icmph.u16 4)
        let raw := { raw with recvInfo := { raw.recvInfo with
          srcPort := id, dstPort := id, myIcmpSeq := UInt16.ofNat (icmph.u16 6) } }
        if icmph 1 ≠ 0 then (raw, .error)
        else if icmph 0 ≠ icmpExpectedType ver conf.programMode then (raw, .error)
        else
          let check := icmpCsum raw.recvInfo.newSrcIp raw.recvInfo.newDstIp (icmph.read 0 len)
          if check ≠ 0 then (raw, .error)
          else (raw, .payload check (icmph.read 8 (len - 8)))

/-- `recv_raw_udp`. -/
def recvRawUdp (conf : Conf ver) (raw : RawInfo ver) (buf : Mem) (len : Nat) :
    RawInfo ver × Received :=
  match recvRawIp conf raw buf len with
  | (raw, none) => (raw, .error)
  | (raw, some (udph, len)) =>
      if raw.recvInfo.protocol ≠ ipprotoUdp then (raw, .error)
      else if len < 8 then (raw, .error)
      else if udph.u16 4 ≠ len then (raw, .error)
      else if udph.u16 2 ≠ conf.filterPort.toNat then (raw, .error)
      else
        let check := segmentCsum raw.recvInfo.newSrcIp raw.recvInfo.newDstIp ipprotoUdp
          (udph.read 0 len)
        if check ≠ 0 then (raw, .error)
        else
          let raw := { raw with recvInfo := { raw.recvInfo with
            srcPort := UInt16.ofNat (udph.u16 0), dstPort := UInt16.ofNat (udph.u16 2) } }
          (raw, .payload check (udph.read 8 (len - 8)))

/-- The loop of `parse_tcp_option`, at `ptr`. -/
def tcpOptionLoop (tcph : Mem) (optionEnd ptr : Nat) (info : PacketInfo ver) :
    PacketInfo ver × Int :=
  if _h : ptr < optionEnd then
    if tcph ptr = 0 then (info, 0)
    else if tcph ptr = 1 then tcpOptionLoop tcph optionEnd (ptr + 1) info
    else if tcph ptr = 8 then
      if optionEnd ≤ ptr + 1 then (info, -1)
      else if tcph (ptr + 1) ≠ 10 then (info, -1)
      else if optionEnd < ptr + 10 then (info, -1)
      else tcpOptionLoop tcph optionEnd (ptr + 10) { info with
        hasTs := true
        ts := UInt32.ofNat (tcph.u32 (ptr + 2))
        tsAck := UInt32.ofNat (tcph.u32 (ptr + 6)) }
    else if optionEnd ≤ ptr + 1 then (info, -1)
    else if (tcph (ptr + 1)).toNat ≤ 1 then (info, -1)
    else tcpOptionLoop tcph optionEnd (ptr + (tcph (ptr + 1)).toNat) info
  else (info, 0)
termination_by optionEnd - ptr

/-- `parse_tcp_option`. -/
def parseTcpOption (tcph : Mem) (optionBegin optionEnd : Nat) (info : PacketInfo ver) :
    PacketInfo ver × Int :=
  tcpOptionLoop tcph optionEnd optionBegin { info with hasTs := false, ts := 0 }

/-- A packet with RST is counted, and one too many disables the connection. -/
def countRst (conf : Conf ver) (raw : RawInfo ver) : RawInfo ver :=
  let rstReceived := raw.rstReceived + 1
  { raw with
    rstReceived
    disabled := raw.disabled ||
      decide (0 ≤ conf.maxRstAllowed ∧ rstReceived = conf.maxRstAllowed + 1) }

/-- `recv_raw_tcp`.  A wrong checksum is only logged. -/
def recvRawTcp (conf : Conf ver) (raw : RawInfo ver) (buf : Mem) (len : Nat) :
    RawInfo ver × Received :=
  match recvRawIp conf raw buf len with
  | (raw, none) => (raw, .error)
  | (raw, some (tcph, len)) =>
      let hdrLen := (tcph 12).toNat / 16 * 4
      if raw.recvInfo.protocol ≠ ipprotoTcp then (raw, .error)
      else if ¬ (0 < hdrLen ∧ hdrLen ≤ 60) then (raw, .unset)
      else if len < hdrLen then (raw, .unset)
      else if tcph.u16 2 ≠ conf.filterPort.toNat then (raw, .error)
      else
        let check := segmentCsum raw.recvInfo.newSrcIp raw.recvInfo.newDstIp ipprotoTcp
          (tcph.read 0 len)
        let info := (parseTcpOption tcph 20 hdrLen raw.recvInfo).1
        let flags := (tcph 13).toNat
        let ackSeq := UInt32.ofNat (tcph.u32 8)
        let info := { info with
          ack := flags.testBit 4
          syn := flags.testBit 1
          rst := flags.testBit 2
          psh := flags.testBit 3
          srcPort := UInt16.ofNat (tcph.u16 0)
          dstPort := UInt16.ofNat (tcph.u16 2)
          seq := UInt32.ofNat (tcph.u32 4)
          ackSeq
          ackSeqCounter := if ackSeq = info.ackSeq then info.ackSeqCounter + 1 else 0
          dataLen := len - hdrLen }
        let raw := { raw with recvInfo := info }
        let raw := if info.rst then countRst conf raw else raw
        (raw, .payload check (tcph.read hdrLen (len - hdrLen)))

/-- `recv_raw0`. -/
def recvRaw0 (conf : Conf ver) (raw : RawInfo ver) (buf : Mem) (len : Nat) :
    RawInfo ver × Received :=
  match conf.rawMode with
  | .faketcp => recvRawTcp conf raw buf len
  | .udp => recvRawUdp conf raw buf len
  | .icmp => recvRawIcmp conf raw buf len

end Fecraw.Ports.Network
