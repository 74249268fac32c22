import Fecraw.Ports.Client
import Fecraw.Ports.EncryptPeers
import Fecraw.Ports.Framing
import Fecraw.Ports.Server

/-!
# How long a datagram of the bridge may be

Both ends admit datagrams of up to `max_data_len` octets.  On the way, the same
limit is applied to the record with its header, to the ciphertext and to the
whole packet, and what is longer is dropped with a warning.  So the headers, the
padding and the tag are to be taken off the limit.

## Main results

* `Link.transfer_eq`: the payloads that a raw packet can have.
* `Link.deliver_eq`: the plaintexts that arrive.
* `deliver_of_admitted`: the datagrams of the bridge that do.
-/

namespace Fecraw.Ports.Network

open Fecraw.Verified

variable {ver : IpVersion}

/-! ## The length of a packet -/

/-- The length of the header of a segment. -/
def RawMode.headerLen : RawMode → (syn : Bool) → Nat
  | .faketcp, true => 40
  | .faketcp, false => 32
  | .udp, _ => 8
  | .icmp, _ => 8

theorem length_sendRawTcp (info : PacketInfo ver) (env : TcpEnv) (payload : Bytes) :
    (sendRawTcp info env payload).length =
      RawMode.headerLen .faketcp info.syn + payload.length := by
  unfold sendRawTcp
  rw [length_sealed (hasCheck_tcp info env payload)]
  unfold tcpHeader tcpOptions RawMode.headerLen
  cases info.syn <;> simp <;> omega

theorem sendRawUdp_eq_some {info : PacketInfo ver} {payload segment : Bytes}
    (h : sendRawUdp info payload = some segment) : segment.length = 8 + payload.length := by
  unfold sendRawUdp at h
  split at h
  · exact absurd h (by simp)
  · obtain rfl := Option.some.inj h
    rw [length_sealed (hasCheck_udp info _ payload)]
    simp [udpHeader]
    omega

theorem length_rawSegment {conf : Conf ver} {info : PacketInfo ver} {env : TcpEnv}
    {payload segment : Bytes} (h : rawSegment conf info env payload = some segment) :
    segment.length = conf.rawMode.headerLen info.syn + payload.length := by
  unfold rawSegment at h
  cases hmode : conf.rawMode with
  | faketcp =>
      rw [hmode] at h
      obtain rfl := Option.some.inj h
      exact length_sendRawTcp info env payload
  | udp =>
      rw [hmode] at h
      exact sendRawUdp_eq_some h
  | icmp =>
      rw [hmode] at h
      obtain rfl := Option.some.inj h
      rw [length_sendRawIcmp, Nat.add_comm]
      rfl

/-- A segment is built for each payload that is not too long for UDP. -/
theorem exists_rawSegment (conf : Conf ver) (info : PacketInfo ver) (env : TcpEnv) {payload : Bytes}
    (h : payload.length ≤ maxDataLen) :
    ∃ segment, rawSegment conf info env payload = some segment := by
  unfold rawSegment
  cases conf.rawMode with
  | faketcp => exact ⟨_, rfl⟩
  | udp =>
      unfold sendRawUdp
      unfold maxDataLen at h
      rw [if_neg (by omega)]
      exact ⟨_, rfl⟩
  | icmp => exact ⟨_, rfl⟩

theorem length_ipHeader (info : PacketInfo ver) (env : IpEnv) (n : Nat) :
    (ipHeader info env n).length = ver.headerLen := by
  cases ver with
  | v4 =>
      show (sealed csum (iphdr info env n)).length = 20
      rw [length_sealed (hasCheck_iphdr info env n)]
      simp [iphdr, info.newSrcIp.length_eq, info.newDstIp.length_eq, IpVersion.addressLen]
  | v6 =>
      show (ip6hdr info env n).length = 40
      simp [ip6hdr, info.newSrcIp.length_eq, info.newDstIp.length_eq, IpVersion.addressLen]

/-! ## The raw transport between two ends -/

/-- The two ends, and what is around the payload of one packet between them. -/
structure Link (ver : IpVersion) where
  snd : Conf ver
  rcv : Conf ver
  info : PacketInfo ver
  raw : RawInfo ver
  tcp : TcpEnv
  ip : IpEnv
  /-- The link level header. -/
  header : Bytes := []
  /-- `g_packet_buf`, before. -/
  buf : Mem := fun _ => 0
  listens : Listens snd rcv info raw
  protocol_eq : info.protocol = snd.rawMode.protocol ver
  length_header : header.length = rcv.linkLevelHeaderLen
  type_header : header.length = 14 → header.drop 12 = etherType ver

namespace Link

/-- What `recv_raw0` returns of the packet that `send_raw0` sends. -/
def transfer (l : Link ver) (payload : Bytes) : Option Bytes := do
  let segment ← rawSegment l.snd l.info l.tcp payload
  let (buf, len) ← preRecvRawPacket l.buf (l.header ++ sendRawIp l.info l.ip segment)
  match (recvRaw0 l.rcv l.raw buf len).2 with
  | .payload _ bytes => some bytes
  | _ => none

/-- The length of the packet with a payload of `n` octets. -/
def packetLen (l : Link ver) (n : Nat) : Nat :=
  l.header.length + ver.headerLen + l.snd.rawMode.headerLen l.info.syn + n

variable {l : Link ver}

/-- `pre_recv_raw_packet` keeps the packets of up to `max_data_len` octets. -/
theorem preRecvRawPacket_eq (buf : Mem) (packet : Bytes) : preRecvRawPacket buf packet =
    if packet.length ≤ maxDataLen then some (buf.write 0 packet, packet.length) else none := by
  unfold preRecvRawPacket hugeDataLen maxDataLen
  by_cases hlen : packet.length ≤ 1800
  · rw [List.take_of_length_le (by omega), if_neg (by omega), if_neg (by omega), if_pos hlen]
  · rw [if_neg hlen]
    have htake : 1801 ≤ (packet.take (65535 + 100 + 1)).length := by
      rw [List.length_take]
      omega
    dsimp only
    rw [if_pos htake, ite_self]

/-- The packet carries its segment. -/
theorem carries (l : Link ver) (segment : Bytes) :
    Carries l.rcv l.info.newSrcIp l.info.newDstIp (l.snd.rawMode.protocol ver) segment
      (l.buf.write 0 (l.header ++ sendRawIp l.info l.ip segment))
      (l.header ++ sendRawIp l.info l.ip segment).length := by
  rw [← l.protocol_eq]
  exact ⟨l.header, ipHeader l.info l.ip segment.length, l.length_header, l.type_header,
    correctHeader_ipHeader l.info l.ip segment.length, Mem.read_write_self _ _ _, le_rfl⟩

/-- The receiver finds the payload in the packet. -/
theorem recvRaw0_eq {payload segment : Bytes} (hlen : payload.length ≤ maxDataLen)
    (hsegment : rawSegment l.snd l.info l.tcp payload = some segment) :
    (recvRaw0 l.rcv l.raw (l.buf.write 0 (l.header ++ sendRawIp l.info l.ip segment))
      (l.header ++ sendRawIp l.info l.ip segment).length).2 = .payload 0 payload := by
  have hcarries := l.carries segment
  obtain ⟨hmode, hrole, hport, hid, hbind⟩ := l.listens
  unfold recvRaw0
  unfold rawSegment at hsegment
  rw [hmode]
  cases hsnd : l.snd.rawMode with
  | faketcp =>
      rw [hsnd] at hsegment hcarries
      obtain rfl := Option.some.inj hsegment
      dsimp only
      rw [recvRawTcp_sendRawTcp (hport (by simp [hsnd])) hlen hbind hcarries]
  | udp =>
      rw [hsnd] at hsegment hcarries
      dsimp only
      rw [recvRawUdp_sendRawUdp (hport (by simp [hsnd])) hlen hbind hsegment hcarries]
  | icmp =>
      rw [hsnd] at hsegment hcarries
      obtain rfl := Option.some.inj hsegment
      dsimp only
      rw [recvRawIcmp_sendRawIcmp hrole (hid hsnd) hlen hbind hcarries]

/-- A payload arrives exactly if its packet is not longer than `max_data_len`. -/
theorem transfer_eq (l : Link ver) (payload : Bytes) : l.transfer payload =
    if l.packetLen payload.length ≤ maxDataLen then some payload else none := by
  unfold transfer
  cases hsegment : rawSegment l.snd l.info l.tcp payload with
  | none =>
      rw [if_neg]
      · rfl
      · intro hlen
        unfold packetLen at hlen
        obtain ⟨segment, hsome⟩ := @exists_rawSegment _ l.snd l.info l.tcp payload (by omega)
        exact Option.some_ne_none segment (hsome.symm.trans hsegment)
  | some segment =>
      have hlen :
          (l.header ++ sendRawIp l.info l.ip segment).length = l.packetLen payload.length := by
        unfold sendRawIp packetLen
        rw [List.length_append, List.length_append, length_ipHeader, length_rawSegment hsegment]
        omega
      show (preRecvRawPacket l.buf (l.header ++ sendRawIp l.info l.ip segment)).bind _ = _
      rw [preRecvRawPacket_eq, hlen]
      split
      · have hpayload : payload.length ≤ maxDataLen := by
          have hfits := ‹_›
          unfold packetLen at hfits
          omega
        rw [← hlen, Option.bind_some]
        dsimp only
        rw [recvRaw0_eq hpayload hsegment]
      · rfl

end Link

/-! ## Encrypted messages -/

section Messages

open Encrypt

variable {P : Primitives} {modes : CipherMode × AuthMode} {a b : Process}

/-- A message is not shorter than its plaintext. -/
theorem le_messageLen (cipher : CipherMode) (auth : AuthMode) (n : Nat) :
    n ≤ messageLen cipher auth n := by
  have hcipher : ∀ n, n ≤ cipher.cipherLen n := by
    intro n
    unfold CipherMode.cipherLen
    split <;> omega
  unfold messageLen
  split
  · omega
  · split
    · have hn := hcipher n
      omega
    · have hn := hcipher (n + auth.tagLen)
      omega

variable (P) in
/-- A plaintext on its way: `my_encrypt` at the sender, a raw packet, and
`my_decrypt` at the receiver. -/
def Link.deliver (l : Link ver) (a b : Process) (env : Env) (plain : Bytes) : Option Bytes :=
  match myEncrypt P a env plain with
  | .ok (_, some message) =>
      (l.transfer message).bind fun received =>
        match myDecrypt P b received with
        | .ok (_, plain) => plain
        | .error _ => none
  | _ => none

/-- A plaintext arrives exactly if the packet with its message is not longer than
`max_data_len`. -/
theorem Link.deliver_eq (l : Link ver) (hP : P.Lawful) (h : Peers modes a b) (env : Env)
    {plain : Bytes} (hplain : 17 ≤ plain.length) : l.deliver P a b env plain =
      if l.packetLen (messageLen modes.1 modes.2 plain.length) ≤ Network.maxDataLen then some plain
      else none := by
  unfold Link.deliver
  by_cases hmax : plain.length ≤ Encrypt.maxDataLen
  · obtain ⟨a', message, hok, hlen, hround⟩ :=
      my_round hP h.paired h.kept h.kept' h.isHmacUsed env hplain hmax
    rw [← h.modes_eq, ← hlen, hok]
    dsimp only
    rw [l.transfer_eq]
    split
    · have hshort : message.length ≤ Encrypt.maxDataLen := by
        have hfits := ‹_›
        unfold packetLen Network.maxDataLen at hfits
        unfold Encrypt.maxDataLen
        omega
      obtain ⟨b', hdecrypt⟩ := hround hshort
      rw [Option.bind_some, hdecrypt]
    · rfl
  · have hle := le_messageLen modes.1 modes.2 plain.length
    have hlong : ¬ l.packetLen (messageLen modes.1 modes.2 plain.length) ≤ Network.maxDataLen := by
      unfold Encrypt.maxDataLen at hmax
      unfold packetLen Network.maxDataLen
      omega
    have hnone : myEncrypt P a env plain = .ok (a, none) := if_pos (not_le.mp hmax)
    rw [hnone, if_neg hlong]

end Messages

/-! ## Datagrams of the bridge -/

section Bridge

open Raw

/-- A datagram that `client_on_udp_recv` or the bridge's branch of
`server_event_loop` accepts on a connection that is ready, and the plaintext
that `send_data_safer` makes of it. -/
inductive Admitted (datagram plain : Bytes) : Prop where
  | client {s s' : Client} {convs : List UInt32} {sent : List ClientSent} {conv : UInt32}
      (hok : s.onUdpRecv datagram convs = .ok (s', sent)) (hsent : .data conv plain ∈ sent)
  | server {s s' : Server} {info : Option Nat} {sent : List Sent} {p : Nat} {conv : UInt32}
      (hok : s.onBridge info (some datagram) = .ok (s', sent)) (hsent : .data p conv plain ∈ sent)

variable {datagram plain : Bytes}

theorem length_sendDataSafer {σ δ : Type} {c c' : ConnInfo σ δ} {conv : UInt32}
    (h : c.sendDataSafer datagram conv = .ok (c', plain)) :
    plain.length = datagram.length + 22 := by
  unfold ConnInfo.sendDataSafer ConnInfo.sendSafer at h
  obtain ⟨b, -, h⟩ := Checked.doBind_eq_ok.mp h
  obtain ⟨-, rfl⟩ := Prod.mk.inj (Except.ok.inj h)
  simp [saferMessage, writeU64]
  omega

private theorem not_mem_of_ok {σ α : Type} {s s' : σ} {sent : List α} {x : α}
    (hok : (.ok (s, []) : Except Fault (σ × List α)) = .ok (s', sent)) : x ∉ sent := by
  obtain ⟨-, rfl⟩ := Prod.mk.inj (Except.ok.inj hok)
  exact List.not_mem_nil

/-- A record has 22 octets more than its datagram. -/
theorem Admitted.length_eq (h : Admitted datagram plain) : plain.length = datagram.length + 22 := by
  cases h with
  | client hok hsent =>
      unfold Client.onUdpRecv at hok
      split at hok
      · exact absurd hsent (not_mem_of_ok hok)
      obtain ⟨b, -, hok⟩ := Checked.doBind_eq_ok.mp hok
      obtain ⟨⟨s₁, m⟩, -, hok⟩ := Checked.doBind_eq_ok.mp hok
      obtain ⟨m', -, hok⟩ := Checked.doBind_eq_ok.mp hok
      dsimp only at hok
      split at hok
      · obtain ⟨⟨c, plain'⟩, hsend, hok⟩ := Checked.doBind_eq_ok.mp hok
        obtain ⟨-, rfl⟩ := Prod.mk.inj (Except.ok.inj hok)
        obtain ⟨-, rfl⟩ := ClientSent.data.inj (List.mem_singleton.mp hsent)
        exact length_sendDataSafer hsend
      · exact absurd hsent (not_mem_of_ok hok)
  | @server s s' info sent p conv hok hsent =>
      unfold Server.onBridge at hok
      obtain ⟨fd, -, hok⟩ := Checked.doBind_eq_ok.mp hok
      cases info with
      | none =>
          exact absurd hsent (not_mem_of_ok hok)
      | some q =>
          dsimp only at hok
          split at hok
          · obtain ⟨c, -, hok⟩ := Checked.doBind_eq_ok.mp hok
            split at hok
            · obtain ⟨⟨c', plain'⟩, hsend, hok⟩ := Checked.doBind_eq_ok.mp hok
              obtain ⟨-, rfl⟩ := Prod.mk.inj (Except.ok.inj hok)
              obtain ⟨-, -, rfl⟩ := Sent.data.inj (List.mem_singleton.mp hsent)
              exact length_sendDataSafer hsend
            · exact absurd hsent (not_mem_of_ok hok)
          · exact absurd hsent (not_mem_of_ok hok)

/-- A datagram that is admitted arrives exactly if the packet with its message is
not longer than `max_data_len`, else it is lost. -/
theorem deliver_of_admitted {P : Encrypt.Primitives} (hP : P.Lawful) {passwd : Bytes}
    {isClient : Bool} {cipher auth : Int} {a b : Encrypt.Process}
    (ha : Encrypt.Configured P passwd isClient (Encrypt.rawApiInit cipher auth) a)
    (hb : Encrypt.Configured P passwd (!isClient) (Encrypt.rawApiInit cipher auth) b)
    (l : Link ver) (env : Encrypt.Env) (h : Admitted datagram plain) :
    l.deliver P a b env plain =
      if l.packetLen (Encrypt.messageLen (Encrypt.rawApiInit cipher auth).1
        (Encrypt.rawApiInit cipher auth).2 (datagram.length + 22)) ≤ Network.maxDataLen
      then some plain else none := by
  have hlen := h.length_eq
  rw [l.deliver_eq hP (Encrypt.peers_of_configured hP ha hb) env (by omega), hlen]

/-! ### A client that is ready -/

/-- The packets of a client of the mode `udp`. -/
def exampleLink : Link .v4 where
  snd := ⟨.udp, .client, 40000, none, 0, -1⟩
  rcv := ⟨.udp, .server, 4096, none, 0, -1⟩
  info := { exampleInfo with protocol := ipprotoUdp }
  raw := ⟨exampleInfo, exampleInfo, false, 0, false⟩
  tcp := ⟨11, 3⟩
  ip := ⟨1, 64⟩
  listens := ⟨rfl, by decide, fun _ => rfl, fun h => absurd h (by decide), by simp⟩
  protocol_eq := rfl
  length_header := rfl
  type_header := fun h => absurd h (by decide)

def exampleStart : Client := Client.start { state := .idle } 1 0 0 fun _ => false

/-- The timer opens the connection, and the server answers the two messages of
the handshake. -/
def exampleEvents : List Client.Event :=
  [⟨1, .timer {}⟩,
    ⟨2, .raw ⟨.payload true (some (bareMessage (0, 0) 7 1 1)) [], true, false, true, false⟩ {}⟩,
    ⟨3, .raw ⟨.payload false (some (saferMessage 7 1 1 tagHeartbeat 0 [])) [], true, false, true,
      false⟩ {}⟩]

def exampleParams : ClientParams := { rawMode := .udp, hbMode0 := true }

/-- A datagram is accepted and sent. -/
def sends (datagram : Bytes) (s : Client) : Bool :=
  match s.onUdpRecv datagram [5] with
  | .ok (_, [.data _ _]) => true
  | _ => false

theorem exists_of_sends {s : Client} (h : sends datagram s) : ∃ s' conv plain,
    s.onUdpRecv datagram [5] = .ok (s', [.data conv plain]) ∧ Admitted datagram plain := by
  unfold sends at h
  split at h
  · rename_i s' conv plain hok
    exact ⟨s', conv, plain, hok, .client hok (List.mem_singleton.mpr rfl)⟩
  · exact absurd h (by simp)

theorem exists_configured (isClient : Bool) : ∃ p, Encrypt.Configured Encrypt.defaultPrimitives
    (Encrypt.ascii "secret key") isClient (Encrypt.rawApiInit 2 3) p := by
  have hfits : (Encrypt.ascii "secret key").length ≤ 995 := by decide
  obtain ⟨p, hp⟩ := Encrypt.exists_myInitKeys.mpr hfits
  exact ⟨p, p, hp, .start⟩

/-- After the handshake, a datagram of one octet arrives. -/
theorem deliver_of_admitted_short : ∃ s outs s' conv plain a b,
    run (Client.step exampleParams) exampleStart exampleEvents = .ok (s, outs) ∧
      s.onUdpRecv [65] [5] = .ok (s', [.data conv plain]) ∧
      exampleLink.deliver Encrypt.defaultPrimitives a b {} plain = some plain := by
  obtain ⟨⟨s, outs⟩, hrun, hsends⟩ := @Checked.exists_of_any _ _
    (run (Client.step exampleParams) exampleStart exampleEvents) (fun r => sends [65] r.1)
    (by decide)
  obtain ⟨s', conv, plain, hok, hadmitted⟩ := exists_of_sends hsends
  obtain ⟨a, ha⟩ := exists_configured true
  obtain ⟨b, hb⟩ := exists_configured false
  refine ⟨s, outs, s', conv, plain, a, b, hrun, hok, ?_⟩
  rw [deliver_of_admitted Encrypt.lawful_defaultPrimitives ha hb exampleLink {} hadmitted]
  exact if_pos (by decide)

/-- One of 1800 octets is accepted and lost. -/
theorem deliver_of_admitted_long : ∃ s outs s' conv plain a b,
    run (Client.step exampleParams) exampleStart exampleEvents = .ok (s, outs) ∧
      s.conn.state = .ready ∧
      s.onUdpRecv (List.replicate 1800 65) [5] = .ok (s', [.data conv plain]) ∧
      Encrypt.Configured Encrypt.defaultPrimitives (Encrypt.ascii "secret key") true
        (Encrypt.rawApiInit 2 3) a ∧
      Encrypt.Configured Encrypt.defaultPrimitives (Encrypt.ascii "secret key") false
        (Encrypt.rawApiInit 2 3) b ∧
      exampleLink.deliver Encrypt.defaultPrimitives a b {} plain = none := by
  obtain ⟨⟨s, outs⟩, hrun, hs⟩ := @Checked.exists_of_any _ _
    (run (Client.step exampleParams) exampleStart exampleEvents)
    (fun r => r.1.conn.state = .ready ∧ sends (List.replicate 1800 65) r.1) (by decide +kernel)
  obtain ⟨hready, hsends⟩ := of_decide_eq_true hs
  obtain ⟨s', conv, plain, hok, hadmitted⟩ := exists_of_sends hsends
  have hlen := hadmitted.length_eq
  rw [List.length_replicate] at hlen
  obtain ⟨a, ha⟩ := exists_configured true
  obtain ⟨b, hb⟩ := exists_configured false
  have hpeers := Encrypt.peers_of_configured Encrypt.lawful_defaultPrimitives ha hb
  refine ⟨s, outs, s', conv, plain, a, b, hrun, hready, hok, ha, hb, ?_⟩
  rw [exampleLink.deliver_eq Encrypt.lawful_defaultPrimitives hpeers {} (by omega), hlen]
  exact if_neg (by decide)

end Bridge

end Fecraw.Ports.Network
