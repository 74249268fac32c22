import Fecraw.Ports.Conn

/-!
# The client of the raw tunnel

A port of the handlers of `client_event_loop` in bridge mode.  The client has
one connection, and one conversation for all datagrams of the bridge, whose
number `client_on_udp_recv` keeps in static variables.

`client_on_raw_recv` calls `client_on_timer` when the state changes, so the
conversations are also cleared then.

Of the fake TCP connection the model has what the handlers test: whether a
packet is from the address that the client sends to, whether it acknowledges
the opening packet, whether its sequence numbers are the expected ones, and
whether it is a reset that disables the connection.  `max_fail_time` is 0, so
failures are not counted.

## Main results

* `ends_onTimer`, `ends_onRawRecv`, `ends_onUdpRecv`: what the handlers do.
* `bridge_conv_of_run`: when the conversation of the bridge stays known.
-/

namespace Fecraw.Ports.Raw

open Fecraw.Verified

def clientHandshakeTimeout : Nat := 5000
def clientRetryInterval : Nat := 1000
def clientConnTimeout : Nat := 10000
def clientConnUplinkTimeout : Nat := clientConnTimeout + 2000

/-- `client_current_state_t`. -/
inductive ClientState where
  | idle
  | tcpHandshake
  | handshake1
  | handshake2
  | ready
  | tcpHandshakeDummy
deriving Repr, DecidableEq

/-- `raw_mode_t`. -/
inductive RawMode where
  | faketcp
  | udp
  | icmp
deriving Repr, DecidableEq

/-- The connection of the client; the data of a conversation is an address. -/
abbrev ClientConn := ConnInfo ClientState Address

/-- The settings that the client reads. -/
structure ClientParams extends Params where
  rawMode : RawMode := .faketcp
  useTcpDummySocket : Bool := false

/-- What the environment supplies to `client_on_timer`: random numbers, and if
`get_src_adress2` finds the address to send from. -/
structure Draws where
  myId : UInt32 := 1
  newId : UInt32 := 1
  nonce : Nat × Nat := (0, 0)
  src : Bool := true

/-- What the client sends: bare messages and records to the server, and
datagrams to the bridge. -/
inductive ClientSent where
  | bare (plain : Bytes)
  | safer (plain : Bytes)
  /-- A call of `send_data_safer`. -/
  | data (conv : UInt32) (plain : Bytes)
  | bridge (datagram : Bytes)
deriving Repr, DecidableEq

/-- The client: its connection, `raw_info.disabled`, and the static variables of
`client_on_udp_recv`. -/
structure Client where
  now : Nat := 0
  conn : ClientConn
  disabled : Bool := false
  bridgeConv : UInt32 := 0
  bridgeConvInit : Bool := false

namespace Client

/-- The client when the loop starts; what the constructors do not set is
`memory`, `lastClearTime` and `window`. -/
def start (memory : ClientConn) (myId : UInt32) (lastClearTime seq : Nat) (window : Nat → Bool) :
    Client where
  conn := { memory with
    state := .idle
    lastStateTime := 0
    oppsiteConstId := 0
    timerFd64 := 0
    myRoller := 0
    oppsiteRoller := 0
    lastOppsiteRollerTime := 0
    myId := myId
    blob := some {
      convManager := { lastClearTime }
      antiReplay := { antiReplaySeq := seq, window } } }

/-! ## The timer -/

/-- The client has no `additional_clear_function`. -/
def clear (_ : Unit) (_ : Address) : Except Fault Unit := .ok ()

/-- `client_on_timer` where the state is `client_idle`, up to the choice of a
source address. -/
def reopen (par : ClientParams) (now : Nat) (c : ClientConn) : ClientConn :=
  { c with
    state := if par.rawMode = .faketcp then
        if par.useTcpDummySocket then .tcpHandshakeDummy else .tcpHandshake
      else .handshake1
    lastStateTime := now
    lastHbSentTime := 0 }

/-- The second part of `client_on_timer`: what is due in a state. -/
def attend (par : ClientParams) (now : Nat) (c : ClientConn) (fr : Draws) :
    Except Fault (ClientConn × List ClientSent) :=
  let late := clientHandshakeTimeout < elapsed now c.lastStateTime
  let retry := clientRetryInterval < elapsed now c.lastHbSentTime
  match c.state with
  | .tcpHandshake => do
      require (par.rawMode = .faketcp) .assertion
      if late then return ({ c with state := .idle }, [])
      else if retry then return ({ c with lastHbSentTime := now }, [])
      else return (c, [])
  | .tcpHandshakeDummy => do
      require (par.rawMode = .faketcp) .assertion
      if late then return ({ c with state := .idle }, []) else return (c, [])
  | .handshake1 =>
      if late then .ok ({ c with state := .idle }, [])
      else if retry then .ok ({ c with lastHbSentTime := now },
        [.bare (bareMessage fr.nonce c.myId 0 par.constId)])
      else .ok (c, [])
  | .handshake2 =>
      if late then .ok ({ c with state := .idle }, [])
      else if retry then .ok ({ c with lastHbSentTime := now },
        [.bare (bareMessage fr.nonce c.myId c.oppsiteId par.constId)])
      else .ok (c, [])
  | .ready =>
      if clientConnTimeout < elapsed now c.lastHbRecvTime then
        .ok ({ c with state := .idle, myId := fr.myId }, [])
      else
        -- the source does not return after this change
        let c := if clientConnUplinkTimeout < elapsed now c.lastOppsiteRollerTime then
            { c with state := .idle, myId := fr.myId } else c
        if elapsed now c.lastHbSentTime < heartbeatInterval then .ok (c, [])
        else do
          let (c, plain) ← c.sendSafer tagHeartbeat par.hb
          return ({ c with lastHbSentTime := now }, [.safer plain])
  | .idle => .error .assertion

/-- `client_on_timer`. -/
def onTimer (par : ClientParams) (s : Client) (fr : Draws) :
    Except Fault (Client × List ClientSent) := do
  let b ← expect s.conn.blob .pointer
  let (m, _) ← b.convManager.clearInactive clear () s.now
  let c : ClientConn := { s.conn with blob := some { b with convManager := m } }
  let c := if s.disabled then { c with state := .idle, myId := fr.myId } else c
  if c.state = .idle then
    let c : ClientConn := { c with
      blob := some { b with convManager := m, antiReplay := b.antiReplay.reInit }
      myId := fr.newId }
    let s := { s with conn := c, disabled := false }
    if ¬ fr.src then return (s, [])
    else
      let (c, out) ← attend par s.now (reopen par s.now c) fr
      return ({ s with conn := c }, out)
  else
    let (c, out) ← attend par s.now c fr
    return ({ s with conn := c }, out)

/-! ## Raw packets -/

/-- The second part of `client_on_raw_recv_hs2_or_ready`: what is done with a
record. -/
def deliver (par : ClientParams) (s : Client) (type : UInt8) (data : Bytes) :
    Except Fault (Client × List ClientSent) :=
  if type = tagHeartbeat then .ok ({ s with conn := { s.conn with lastHbRecvTime := s.now } }, [])
  else if type = tagData ∧ 4 ≤ data.length then do
    let conv := readId data
    let c := if par.hbMode0 then { s.conn with lastHbRecvTime := s.now } else s.conn
    let b ← expect c.blob .pointer
    if ¬ b.convManager.isConvUsed conv then return ({ s with conn := c }, [])
    else
      let m ← b.convManager.updateActiveTime conv s.now
      return ({ s with conn := { c with blob := some { b with convManager := m } } },
        [.bridge (data.drop 4)])
  else .ok (s, [])

/-- `client_on_raw_recv_hs2_or_ready`. -/
def onHs2OrReady (par : ClientParams) (s : Client) (expected : Bool) (type : UInt8) (data : Bytes)
    (fr : Draws) : Except Fault (Client × List ClientSent) :=
  if ¬ expected then .ok (s, [])
  else do
    let (s, out) ←
      if s.conn.state = .handshake2 then
        onTimer par { s with conn := { s.conn with
          state := .ready
          lastHbSentTime := 0
          lastHbRecvTime := s.now
          lastOppsiteRollerTime := s.now } } fr
      else .ok (s, [])
    let (s, delivered) ← deliver par s type data
    return (s, out ++ delivered)

/-- A raw packet. -/
structure Packet where
  recv : Recv
  /-- It is from the address that the client sends to. -/
  expected : Bool := true
  /-- It has no payload, and `syn` and `ack` are set. -/
  synAck : Bool := false
  /-- The sequence numbers are the expected ones. -/
  ackSeq : Bool := true
  /-- With it more resets than `max_rst_allowed` were received. -/
  disables : Bool := false

/-- `client_on_raw_recv`. -/
def onRawRecv (par : ClientParams) (s : Client) (pkt : Packet) (fr : Draws) :
    Except Fault (Client × List ClientSent) :=
  let c := s.conn
  let seen := { s with disabled := s.disabled || pkt.disables }
  let turned (c : ClientConn) (state : ClientState) : Client := { seen with
    conn := { c with state, lastStateTime := s.now, lastHbSentTime := 0 } }
  match c.state with
  | .idle => .ok (s, [])
  | .tcpHandshake | .tcpHandshakeDummy => do
      require (par.rawMode = .faketcp) .assertion
      if ¬ (pkt.synAck ∧ pkt.expected) then return (seen, [])
      else if c.state = .tcpHandshake ∧ ¬ pkt.ackSeq then return (seen, [])
      else onTimer par (turned c .handshake1) fr
  | .handshake1 =>
      match pkt.recv.bare with
      | none => .ok (seen, [])
      | some data =>
          if ¬ pkt.expected then .ok (seen, [])
          else if data.length < 12 then .ok (seen, [])
          else if readId (data.drop 4) ≠ c.myId then .ok (seen, [])
          else if par.rawMode = .faketcp ∧ ¬ pkt.ackSeq then .ok (seen, [])
          else onTimer par (turned { c with oppsiteId := readId data } .handshake2) fr
  | .handshake2 | .ready => do
      let (c, record) ← c.recvSafer par.toParams s.now pkt.recv
      let s := { seen with conn := c }
      match record with
      | none => return (s, [])
      | some (type, data) => onHs2OrReady par s pkt.expected type data fr

/-! ## Datagrams from the bridge -/

/-- The data of the bridge's conversation. -/
def dummy : Address := ⟨0x7f000001, 1⟩

/-- The conversation of the bridge, which is created when there is none.
`get_new_conv` draws until it finds a number that is not in use. -/
def bridgeConvFor (s : Client) (m : ConvManager Address) (convs : List UInt32) :
    Except Fault (Client × ConvManager Address) :=
  if s.bridgeConvInit then .ok (s, m)
  else do
    let conv ← expect (convs.find? fun k => ¬ m.isConvUsed k) .stopped
    let m ← m.insertConv conv dummy s.now
    return ({ s with bridgeConv := conv, bridgeConvInit := true }, m)

/-- `client_on_udp_recv`. -/
def onUdpRecv (s : Client) (datagram : Bytes) (convs : List UInt32) :
    Except Fault (Client × List ClientSent) :=
  if maxDataLen < datagram.length then .ok (s, [])
  else do
    let b ← expect s.conn.blob .pointer
    let (s, m) ← bridgeConvFor s b.convManager convs
    let m ← m.updateActiveTime s.bridgeConv s.now
    let c : ClientConn := { s.conn with blob := some { b with convManager := m } }
    if c.state = .ready then
      let (c, plain) ← c.sendDataSafer datagram s.bridgeConv
      return ({ s with conn := c }, [.data s.bridgeConv plain])
    else return ({ s with conn := c }, [])

/-! ## The loop -/

/-- What the loop waits for. -/
inductive Action where
  | timer (fr : Draws)
  | raw (pkt : Packet) (fr : Draws)
  | udp (datagram : Bytes) (convs : List UInt32)
  /-- The command `reconnect`, with the new `my_id`. -/
  | reconnect (myId : UInt32)

/-- An event and the time at which it is handled. -/
structure Event where
  now : Nat
  action : Action

/-- One event of `client_event_loop`. -/
def step (par : ClientParams) (s : Client) (ev : Event) : Except Fault (Client × List ClientSent) :=
  let s := { s with now := ev.now }
  match ev.action with
  | .timer fr => s.onTimer par fr
  | .raw pkt fr => s.onRawRecv par pkt fr
  | .udp datagram convs => s.onUdpRecv datagram convs
  | .reconnect myId => .ok ({ s with conn := { s.conn with state := .idle, myId } }, [])

end Client

end Fecraw.Ports.Raw
