import Fecraw.Verified.Slot
import Fecraw.Ports.Bridge
import Fecraw.Ports.Client
import Fecraw.Ports.Framing

/-!
# The packet in `g_packet_buf`

A raw packet is read into a global buffer by `pre_recv_raw_packet` and taken out
of it by `recv_raw_packet` or `discard_raw_packet`; `g_packet_buf_cnt` counts
what is in the buffer, and all three assert what it must be.  The server looks at
a packet before it receives it, with a `raw_info_t` of its own that has `peek`
set.

The handlers are those of `Client` and `Server`, with the accesses to the buffer
and with packets as octets.  The `raw_info` of a connection is any with `peek`
clear, which is the default and which no statement changes.

## Main results

* `does_serverOnRawRecvMulti`, `does_clientOnRawRecv`: the accesses of the
  handlers.
* `packet_slot`: over any events, no assertion about the buffer fails.
-/

namespace Fecraw.Ports.Raw

open Fecraw.Verified
open Fecraw.Ports.Network (IpVersion Conf RawInfo PacketInfo Received)

variable {ver : IpVersion}

/-! ## Receiving a packet -/

/-- A `raw_info_t` with `peek` clear. -/
structure ConnRaw (ver : IpVersion) where
  info : RawInfo ver
  peek_eq : info.peek = false

/-- With the identifier of the ICMP messages of a connection. -/
def ConnRaw.withPort (raw : ConnRaw ver) (port : UInt16) : ConnRaw ver where
  info := { raw.info with sendInfo := { raw.info.sendInfo with srcPort := port, dstPort := port } }
  peek_eq := raw.peek_eq

/-- What a handler finds: the packet, unless `recvfrom` fails, and what was in
the buffer before; `raw_info_t` of the connection and of a local variable; and
how the payload decrypts, into a buffer with `stale` in it.  `garbage` is what an
unassigned pointer and length refer to. -/
structure Arrival (ver : IpVersion) where
  packet : Option Bytes
  before : Mem
  raw : ConnRaw ver
  tmpRawInfo : ConnRaw ver
  decrypt : Bytes → Option Bytes
  stale : Bytes
  garbage : Bytes

/-- `pre_recv_raw_packet` accepts the packet. -/
def Arrival.accepted (a : Arrival ver) : Bool :=
  (a.packet.bind (Network.preRecvRawPacket a.before)).isSome

/-- `pre_recv_raw_packet`. -/
def preRecvRawPacket (a : Arrival ver) : SlotM Fault (Option (Mem × Nat)) := do
  Slot.empty
  match a.packet.bind (Network.preRecvRawPacket a.before) with
  | none => return none
  | some got =>
      Slot.fill
      return some got

/-- `discard_raw_packet`. -/
def discardRawPacket : SlotM Fault Unit := Slot.take

/-- The access of `recv_raw_packet`, the first thing that `recv_raw_ip` does. -/
def recvRawPacket (peek : Bool) : SlotM Fault Unit := if peek then Slot.look else Slot.take

/-- `recv_raw0`, whose three receivers call `recv_raw_ip` first. -/
def recvRaw0 (conf : Conf ver) (raw : RawInfo ver) (buf : Mem) (len : Nat) :
    SlotM Fault (RawInfo ver × Received) := do
  recvRawPacket raw.peek
  return Network.recvRaw0 conf raw buf len

/-- The size of the header that `peek_raw` reads; for ICMP it is that of
`my_udphdr`. -/
def peekHeaderLen : Network.RawMode → Nat
  | .faketcp => 20
  | .udp | .icmp => 8

/-- `peek_raw`; no packet is the return value -1. -/
def peekRaw (conf : Conf ver) (raw : RawInfo ver) (buf : Mem) (len : Nat) :
    SlotM Fault (Option (PacketInfo ver)) := do
  recvRawPacket raw.peek
  match Network.recvRawIp conf raw buf len with
  | (_, none) => return none
  | (raw, some (payload, n)) =>
      if raw.recvInfo.protocol ≠ conf.rawMode.protocol ver then return none
      else if n < peekHeaderLen conf.rawMode then return none
      else
        match conf.rawMode with
        | .faketcp => return some { raw.recvInfo with
            srcPort := UInt16.ofNat (payload.u16 0)
            syn := (payload 13).toNat.testBit 1 }
        | .udp => return some { raw.recvInfo with srcPort := UInt16.ofNat (payload.u16 0) }
        | .icmp => return some { raw.recvInfo with srcPort := UInt16.ofNat (payload.u16 4) }

/-- The payload of a packet for which `recv_raw0` returns 0. -/
def Arrival.payload (a : Arrival ver) : Received → Option Bytes
  | .error => none
  | .unset => some a.garbage
  | .payload _ bytes => some bytes

/-- If `recv_raw_icmp` reads the port of a packet; the other receivers do so only
when they return 0. -/
def portRead (conf : Conf ver) (raw : RawInfo ver) (buf : Mem) (len : Nat) : Bool :=
  match conf.rawMode, Network.recvRawIp conf raw buf len with
  | .icmp, (raw, some (icmph, n)) =>
      decide (raw.recvInfo.protocol = Network.RawMode.icmp.protocol ver ∧ 8 ≤ n ∧
        icmph.u16 4 = raw.sendInfo.srcPort.toNat)
  | _, _ => false

/-- What a connection makes of a packet: `recv_bare` wants a payload that is not
too long and, with fake TCP, an ACK without SYN. -/
def Arrival.recv (a : Arrival ver) (conf : Conf ver) (port : Bool) (raw : RawInfo ver)
    (got : Received) : Recv :=
  match a.payload got with
  | none => .rejected port
  | some bytes =>
      let bare := decide (bytes.length ≤ Network.maxDataLen ∧
        ¬ (conf.rawMode = .faketcp ∧ (raw.recvInfo.syn = true ∨ raw.recvInfo.ack = false)))
      .payload bare (a.decrypt bytes) a.stale

/-- `recv_bare` and `recv_safer_multi`, up to the plaintext. -/
def receive (conf : Conf ver) (a : Arrival ver) (raw : ConnRaw ver) (buf : Mem) (len : Nat) :
    SlotM Fault (RawInfo ver × Received × Recv) := do
  let (raw', got) ← recvRaw0 conf raw.info buf len
  return (raw', got, a.recv conf (portRead conf raw.info buf len) raw' got)

/-! ## The server -/

/-- The source of a packet. -/
def sourceOf (info : PacketInfo ver) : Address where
  ip := info.newSrcIp.bytes.foldl (fun n b => n * 256 + b.toNat) 0
  port := info.srcPort.toNat

/-- If a packet that opens a TCP connection is answered: the connection is unknown
or not ready. -/
def answersSyn (s : Server) (src : Address) : Except Fault Bool :=
  match s.mp.lookup src with
  | none => .ok true
  | some p => do
      let c ← s.deref p
      return c.state ≠ .ready

/-- `server_on_raw_recv_multi` once the packet was looked at.  The answer to a
packet that opens a TCP connection is outside of what is modelled here. -/
def serverOnPeeked (conf : Conf ver) (par : Params) (s : Server) (a : Arrival ver) (fr : Fresh)
    (buf : Mem) (len : Nat) (peek : PacketInfo ver) : SlotM Fault (Server × List Sent) := do
  let src := sourceOf peek
  if conf.rawMode = .faketcp ∧ peek.syn = true then
    if ← Slot.aside (answersSyn s src) then
      let _ ← recvRaw0 conf a.tmpRawInfo.info buf len
      return (s, [])
    else
      discardRawPacket
      return (s, [])
  else
    match s.mp.lookup src with
    | none =>
        if maxHandshakeConnNum ≤ s.mp.size then
          discardRawPacket
          return (s, [])
        else
          let tmpRawInfo :=
            if conf.rawMode = .icmp then a.tmpRawInfo.withPort peek.srcPort else a.tmpRawInfo
          let (_, _, recv) ← receive conf a tmpRawInfo buf len
          Slot.aside (s.onRawRecv par { src, recv } fr)
    | some p =>
        let c ← Slot.aside (s.deref p)
        match c.state with
        | .handshake1 | .ready =>
            let (_, _, recv) ← receive conf a a.raw buf len
            Slot.aside (s.onRawRecv par { src, recv } fr)
        | .idle =>
            discardRawPacket
            return (s, [])

/-- `server_on_raw_recv_multi`. -/
def serverOnRawRecvMulti (conf : Conf ver) (par : Params) (s : Server) (a : Arrival ver)
    (fr : Fresh) : SlotM Fault (Server × List Sent) := do
  match ← preRecvRawPacket a with
  | none => return (s, [])
  | some (buf, len) =>
      match ← peekRaw conf { a.tmpRawInfo.info with peek := true } buf len with
      | none =>
          discardRawPacket
          return (s, [])
      | some peek => serverOnPeeked conf par s a fr buf len peek

/-- What `epoll_wait` reports to the server. -/
inductive ServerInput (ver : IpVersion) where
  | sweep (visits : List Address)
  | raw (a : Arrival ver) (fr : Fresh)
  | fd (fd64 : Nat) (datagram : Option Bytes)

/-- One event of `server_event_loop`. -/
def serverStep (conf : Conf ver) (par : Params) (s : Server) (now : Nat) :
    ServerInput ver → SlotM Fault (Server × List Sent)
  | .sweep visits => Slot.aside (s.step serverClearFunction par ⟨now, .sweep visits⟩)
  | .raw a fr => serverOnRawRecvMulti conf par { s with now } a fr
  | .fd fd64 datagram => Slot.aside (s.step serverClearFunction par ⟨now, .fd fd64 datagram⟩)

/-! ## The client -/

/-- The settings of the client, with the `raw_mode` of the packets. -/
def ClientParams.withMode (par : ClientParams) (mode : Network.RawMode) : ClientParams :=
  { par with
    rawMode :=
      match mode with
      | .faketcp => .faketcp
      | .udp => .udp
      | .icmp => .icmp }

/-- What the client's handler tests of a packet. -/
def clientPacket (a : Arrival ver) (state : ClientState) (raw : RawInfo ver) (got : Received)
    (recv : Recv) : Client.Packet where
  recv
  expected := decide (raw.recvInfo.newSrcIp = raw.sendInfo.newDstIp ∧
    raw.recvInfo.srcPort = raw.sendInfo.dstPort)
  synAck := decide (a.payload got = some [] ∧ raw.recvInfo.syn = true ∧ raw.recvInfo.ack = true)
  ackSeq :=
    match state with
    | .tcpHandshake => decide (raw.recvInfo.ackSeq = raw.sendInfo.seq + 1)
    | _ => decide (raw.recvInfo.ackSeq = raw.sendInfo.seq ∧
        raw.recvInfo.seq = raw.sendInfo.ackSeq)
  disables := raw.disabled && !a.raw.info.disabled

/-- `client_on_raw_recv`. -/
def clientOnRawRecv (conf : Conf ver) (par : ClientParams) (s : Client) (a : Arrival ver)
    (fr : Draws) : SlotM Fault (Client × List ClientSent) := do
  let par := par.withMode conf.rawMode
  match ← preRecvRawPacket a with
  | none => return (s, [])
  | some (buf, len) =>
      match s.conn.state with
      | .idle =>
          discardRawPacket
          return (s, [])
      | .tcpHandshake | .tcpHandshakeDummy =>
          Slot.aside (require (conf.rawMode = .faketcp) .assertion)
          let (raw, got, recv) ← receive conf a a.raw buf len
          Slot.aside (s.onRawRecv par (clientPacket a s.conn.state raw got recv) fr)
      | .handshake1 | .handshake2 | .ready =>
          let (raw, got, recv) ← receive conf a a.raw buf len
          Slot.aside (s.onRawRecv par (clientPacket a s.conn.state raw got recv) fr)

/-- What the client's loop waits for. -/
inductive ClientInput (ver : IpVersion) where
  | timer (fr : Draws)
  | raw (a : Arrival ver) (fr : Draws)
  | udp (datagram : Bytes) (convs : List UInt32)
  | reconnect (myId : UInt32)

/-- One event of `client_event_loop`. -/
def clientStep (conf : Conf ver) (par : ClientParams) (s : Client) (now : Nat) :
    ClientInput ver → SlotM Fault (Client × List ClientSent)
  | .timer fr => Slot.aside (s.step (par.withMode conf.rawMode) ⟨now, .timer fr⟩)
  | .raw a fr => clientOnRawRecv conf par { s with now } a fr
  | .udp datagram convs =>
      Slot.aside (s.step (par.withMode conf.rawMode) ⟨now, .udp datagram convs⟩)
  | .reconnect myId => Slot.aside (s.step (par.withMode conf.rawMode) ⟨now, .reconnect myId⟩)

/-! ## The accesses of the handlers -/

/-- A packet that is peeked at stays in the buffer. -/
theorem does_peekRaw (conf : Conf ver) {raw : RawInfo ver} (hpeek : raw.peek = true) (buf : Mem)
    (len : Nat) : Slot.Does 1 1 [.look] (peekRaw conf raw buf len) := by
  have hlook : Slot.Does 1 1 [.look] (recvRawPacket raw.peek) := by
    rw [hpeek]
    exact Slot.does_look
  refine hlook.bind fun _ => ?_
  split
  · exact Slot.does_pure 1 _
  · refine Slot.Does.ite (fun _ => Slot.does_pure 1 _) fun _ => ?_
    refine Slot.Does.ite (fun _ => Slot.does_pure 1 _) fun _ => ?_
    split <;> exact Slot.does_pure 1 _

/-- A packet that is received is taken, however the receivers return. -/
theorem does_recvRaw0 (conf : Conf ver) (raw : ConnRaw ver) (buf : Mem) (len : Nat) :
    Slot.Does 1 0 [.take] (recvRaw0 conf raw.info buf len) := by
  have htake : Slot.Does 1 0 [.take] (recvRawPacket raw.info.peek) := by
    rw [raw.peek_eq]
    exact Slot.does_take
  exact htake.map _

theorem does_receive (conf : Conf ver) (a : Arrival ver) (raw : ConnRaw ver) (buf : Mem)
    (len : Nat) : Slot.Does 1 0 [.take] (receive conf a raw buf len) :=
  (does_recvRaw0 conf raw buf len).map _

theorem does_discard {α : Type} (v : α) :
    Slot.Does 1 0 [.take] (discardRawPacket >>= fun _ => pure v) :=
  Slot.does_take.map fun _ => v

/-- A handler that takes the packet takes it once. -/
theorem does_preRecvRawPacket {α : Type} {a : Arrival ver}
    {f : Option (Mem × Nat) → SlotM Fault α} {uses : List SlotUse}
    (hnone : ∃ v, f none = pure v) (hsome : ∀ got, Slot.Does 1 0 uses (f (some got))) :
    Slot.Does 0 0 (if a.accepted then .fill :: uses else []) (preRecvRawPacket a >>= f) := by
  unfold preRecvRawPacket Arrival.accepted
  rw [bind_assoc]
  cases a.packet.bind (Network.preRecvRawPacket a.before) with
  | none =>
      obtain ⟨v, hv⟩ := hnone
      refine Slot.does_empty.bind fun _ => ?_
      rw [pure_bind, hv]
      exact Slot.does_pure 0 v
  | some got =>
      refine Slot.does_empty.bind fun _ => ?_
      rw [bind_assoc]
      refine Slot.does_fill.bind fun _ => ?_
      rw [pure_bind]
      exact hsome got

theorem does_serverOnPeeked (conf : Conf ver) (par : Params) (s : Server) (a : Arrival ver)
    (fr : Fresh) (buf : Mem) (len : Nat) (peek : PacketInfo ver) :
    Slot.Does 1 0 [.take] (serverOnPeeked conf par s a fr buf len peek) := by
  unfold serverOnPeeked
  refine Slot.Does.ite (fun _ => ?_) fun _ => ?_
  · refine (Slot.does_aside 1 (answersSyn s (sourceOf peek))).bind fun answers => ?_
    refine Slot.Does.ite (fun _ => ?_) fun _ => does_discard _
    exact (does_recvRaw0 conf a.tmpRawInfo buf len).map _
  · cases s.mp.lookup (sourceOf peek) with
    | none =>
        refine Slot.Does.ite (fun _ => does_discard _) fun _ => ?_
        exact (does_receive conf a _ buf len).bind fun got => Slot.does_aside 0 _
    | some p =>
        refine (Slot.does_aside 1 (s.deref p)).bind fun c => ?_
        cases c.state with
        | idle => exact does_discard _
        | handshake1 =>
            exact (does_receive conf a a.raw buf len).bind fun got => Slot.does_aside 0 _
        | ready =>
            exact (does_receive conf a a.raw buf len).bind fun got => Slot.does_aside 0 _

/-- The server looks at a packet and takes it. -/
theorem does_serverOnRawRecvMulti (conf : Conf ver) (par : Params) (s : Server) (a : Arrival ver)
    (fr : Fresh) : Slot.Does 0 0 (if a.accepted then [.fill, .look, .take] else [])
      (serverOnRawRecvMulti conf par s a fr) := by
  unfold serverOnRawRecvMulti
  refine does_preRecvRawPacket ⟨_, rfl⟩ fun got => ?_
  refine (does_peekRaw conf rfl got.1 got.2).bind fun peek => ?_
  cases peek with
  | none => exact does_discard _
  | some peek => exact does_serverOnPeeked conf par s a fr got.1 got.2 peek

/-- The client takes a packet. -/
theorem does_clientOnRawRecv (conf : Conf ver) (par : ClientParams) (s : Client)
    (a : Arrival ver) (fr : Draws) : Slot.Does 0 0 (if a.accepted then [.fill, .take] else [])
      (clientOnRawRecv conf par s a fr) := by
  unfold clientOnRawRecv
  refine does_preRecvRawPacket ⟨_, rfl⟩ fun got => ?_
  have hreceive : Slot.Does 1 0 [.take] (do
      let (raw, got, recv) ← receive conf a a.raw got.1 got.2
      Slot.aside (s.onRawRecv (par.withMode conf.rawMode)
        (clientPacket a s.conn.state raw got recv) fr)) :=
    (does_receive conf a a.raw got.1 got.2).bind fun got => Slot.does_aside 0 _
  dsimp only
  split
  · exact does_discard _
  · exact (Slot.does_aside 1 _).bind fun _ => hreceive
  · exact (Slot.does_aside 1 _).bind fun _ => hreceive
  all_goals exact hreceive

/-! ## Runs -/

/-- The accesses while an event is handled. -/
def ServerInput.uses : ServerInput ver → List SlotUse
  | .raw a _ => if a.accepted then [.fill, .look, .take] else []
  | .sweep _ | .fd _ _ => []

def ClientInput.uses : ClientInput ver → List SlotUse
  | .raw a _ => if a.accepted then [.fill, .take] else []
  | .timer _ | .udp _ _ | .reconnect _ => []

def runServer (conf : Conf ver) (par : Params) :
    Server → List (Nat × ServerInput ver) → SlotM Fault Server :=
  Slot.runAll fun s ev => do
    let (s, _) ← serverStep conf par s ev.1 ev.2
    return s

def runClient (conf : Conf ver) (par : ClientParams) :
    Client → List (Nat × ClientInput ver) → SlotM Fault Client :=
  Slot.runAll fun s ev => do
    let (s, _) ← clientStep conf par s ev.1 ev.2
    return s

theorem does_serverStep (conf : Conf ver) (par : Params) (s : Server) (now : Nat)
    (input : ServerInput ver) : Slot.Does 0 0 input.uses (serverStep conf par s now input) := by
  cases input with
  | sweep visits => exact Slot.does_aside 0 _
  | raw a fr => exact does_serverOnRawRecvMulti conf par { s with now } a fr
  | fd fd64 datagram => exact Slot.does_aside 0 _

theorem does_clientStep (conf : Conf ver) (par : ClientParams) (s : Client) (now : Nat)
    (input : ClientInput ver) : Slot.Does 0 0 input.uses (clientStep conf par s now input) := by
  cases input with
  | timer fr => exact Slot.does_aside 0 _
  | raw a fr => exact does_clientOnRawRecv conf par { s with now } a fr
  | udp datagram convs => exact Slot.does_aside 0 _
  | reconnect myId =>
      exact Slot.does_aside 0 (s.step (par.withMode conf.rawMode) ⟨now, .reconnect myId⟩)

/-- In every role and mode, from any state, over any events: each packet that
`pre_recv_raw_packet` accepts is put into the buffer once and taken out once, the
buffer is empty after each event, and no assertion about it fails. -/
theorem packet_slot (conf : Conf ver) :
    (∀ par s (events : List (Nat × ServerInput ver)),
      Slot.Does 0 0 (events.flatMap fun ev => ev.2.uses) (runServer conf par s events)) ∧
    ∀ par s (events : List (Nat × ClientInput ver)),
      Slot.Does 0 0 (events.flatMap fun ev => ev.2.uses) (runClient conf par s events) := by
  constructor
  · intro par s events
    exact Slot.does_runAll (fun s ev => (does_serverStep conf par s ev.1 ev.2).map _) s events
  · intro par s events
    exact Slot.does_runAll (fun s ev => (does_clientStep conf par s ev.1 ev.2).map _) s events

end Fecraw.Ports.Raw
