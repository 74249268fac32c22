import Fecraw.Ports.Conn

/-!
# The server of the raw tunnel

A port of `conn_manager_t` and of the handlers of `server_event_loop` in bridge
mode, the only mode that `raw_api_server_loop` uses.

Connections are objects on a heap: the table by address, the table by
`const_id` and the descriptors hold pointers to them, and a pointer can outlive
its object.  `erase`, `recover` and the exchange of two entries of the table
are as in the source.

One event is one round of the loop over the events of `epoll_wait`, at one
time.  The environment supplies random numbers, the descriptor of a new timer,
the address of a new object and the contents of fresh memory; of addresses and
descriptors it may return any that are not in use.  The iteration order of a
hash map is not specified, so the event says which entries `clear_inactive0`
meets.

`server_clear_function` is a parameter of the step, `serverClearFunction` in
the program.
-/

namespace Fecraw.Ports.Raw

open Fecraw.Verified

def maxHandshakeConnNum : Nat := 10000
def maxReadyConnNum : Nat := 1000
def serverHandshakeTimeout : Nat := 10000
def serverConnTimeout : Nat := convTimeout + 60000
def connClearRatio : Nat := 50
def connClearMin : Nat := 1
def connClearInterval : Nat := 1000

/-- `server_current_state_t`. -/
inductive ServerState where
  | idle
  | handshake1
  | ready
deriving Repr, DecidableEq

/-- A connection of the server; the data of a conversation is a descriptor's
number. -/
abbrev ServerConn := ConnInfo ServerState Nat

/-- What the environment supplies to the handler of a raw packet. -/
structure Fresh where
  conn : Nat := 0
  fd : Nat := 0
  myId : UInt32 := 1
  nonce : Nat × Nat := (0, 0)
  lastClearTime : Nat := 0
  seq : Nat := 0
  window : Nat → Bool := fun _ => false

/-- What the server sends: bare messages and records to clients, and datagrams
to the bridge. -/
inductive Sent where
  | bare (plain : Bytes)
  | safer (conn : Nat) (plain : Bytes)
  /-- A call of `send_data_safer`. -/
  | data (conn : Nat) (conv : UInt32) (plain : Bytes)
  | bridge (fd : Nat) (datagram : Bytes)
deriving Repr, DecidableEq

/-- The server: `conn_manager_t`, `fd_manager_t` and the variables of the
bridge. -/
structure Server where
  now : Nat := 0
  /-- The connections on the heap. -/
  conns : Table Nat ServerConn := ∅
  mp : Table Address Nat := ∅
  constIdMp : Table UInt32 Nat := ∅
  readyNum : Nat := 0
  lastClearTime : Nat := 0
  fds : FdManager
  bridgeFd64 : Nat
  bridgeConv : UInt32 := 0
  bridgeConvValid : Bool := false

/-- The server when the loop starts, with the bridge on descriptor `fd`. -/
def Server.start (fd : Nat) : Server :=
  let fds : FdManager := {}
  { fds := { fds.added fd with fdInfo := fds.fdInfo.insert fds.counter none }
    bridgeFd64 := fds.counter }

namespace Server

/-- Follow a pointer. -/
def deref (s : Server) (p : Nat) : Except Fault ServerConn := expect (s.conns.lookup p) .pointer

/-- Write through a pointer. -/
def store (s : Server) (p : Nat) (c : ServerConn) : Server :=
  { s with conns := s.conns.insert p c }

/-! ## Handshakes -/

/-- The `blob_t` that `prepare` allocates. -/
def newBlob (fr : Fresh) : Blob Nat where
  convManager := { lastClearTime := fr.lastClearTime }
  antiReplay := { antiReplaySeq := fr.seq, window := fr.window }

/-- The bridge's datagrams go to the connection `p` from now on. -/
def bridgeTo (s : Server) (p : Nat) : Except Fault Server := do
  let fds ← s.fds.setInfo s.bridgeFd64 (some p)
  return { s with fds }

/-- The first branch of `server_on_raw_recv_pre_ready`: the connection becomes
ready. -/
def becomeReady (par : Params) (s : Server) (p : Nat) (constId : UInt32) (fr : Fresh) :
    Except Fault (Server × List Sent) := do
  let c ← s.deref p
  require c.blob.isNone .assertion
  let (c, plain) ← ({ c with
    blob := some (newBlob fr)
    state := .ready
    oppsiteConstId := constId
    lastHbRecvTime := s.now
    lastHbSentTime := s.now } : ServerConn).sendSafer tagHeartbeat par.hb
  let b ← expect c.blob .pointer
  let (fds, fd64) ← s.fds.create (pick s.fds.fdToFd64.keys fr.fd)
  let fds ← fds.setInfo fd64 (some p)
  let c : ServerConn := { c with
    blob := some { b with antiReplay := b.antiReplay.reInit }
    timerFd64 := fd64 }
  let s : Server := { s.store p c with
    readyNum := s.readyNum + 1
    constIdMp := s.constIdMp.insert constId p
    fds }
  if s.bridgeFd64 ≠ 0 then
    let s ← s.bridgeTo p
    return ({ s with bridgeConvValid := false }, [.safer p plain])
  else return (s, [.safer p plain])

/-- `conn_info_t::recover`. -/
def recover (ori c : ServerConn) : Except Fault ServerConn := do
  let b ← expect ori.blob .pointer
  return { ori with
    recv := c.recv
    lastStateTime := c.lastStateTime
    lastHbRecvTime := c.lastHbRecvTime
    lastHbSentTime := c.lastHbSentTime
    myId := c.myId
    oppsiteId := c.oppsiteId
    blob := some { b with antiReplay := b.antiReplay.reInit }
    myRoller := 0
    oppsiteRoller := 0
    lastOppsiteRollerTime := 0 }

/-- The second branch: a client that is known under `q` comes back from another
address as `p`, and its old connection is taken over. -/
def grab (par : Params) (s : Server) (p q : Nat) : Except Fault (Server × List Sent) := do
  let c ← s.deref p
  let ori ← s.deref q
  let pOri ← expect (s.mp.lookup ori.recv) .assertion
  let pNew ← expect (s.mp.lookup c.recv) .assertion
  let mp := (s.mp.insert c.recv pOri).insert ori.recv pNew
  let ori' ← recover ori c
  let (ori', plain) ← ori'.sendSafer tagHeartbeat par.hb
  let s : Server := { s.store q { ori' with lastHbRecvTime := s.now } with mp }
  let s ← if s.bridgeFd64 ≠ 0 then s.bridgeTo q else .ok s
  let c ← s.deref p
  return (s.store p { c with state := .idle, oppsiteConstId := 0 }, [.safer q plain])

/-- `server_on_raw_recv_pre_ready`. -/
def preReady (par : Params) (s : Server) (p : Nat) (constId : UInt32) (fr : Fresh) :
    Except Fault (Server × List Sent) := do
  let c ← s.deref p
  match s.constIdMp.lookup constId with
  | none =>
      if maxReadyConnNum ≤ s.readyNum then return (s.store p { c with state := .idle }, [])
      else becomeReady par s p constId fr
  | some q =>
      let ori ← s.deref q
      require (ori.state = .ready) .assertion
      if c.lastStateTime < ori.lastStateTime then
        return (s.store p { c with state := .idle, oppsiteConstId := 0 }, [])
      else grab par s p q

/-- `server_on_raw_recv_handshake1`. -/
def onHandshake1 (par : Params) (s : Server) (p : Nat) (data : Bytes) (fr : Fresh) :
    Except Fault (Server × List Sent) :=
  if data.length < 12 then .ok (s, [])
  else do
    let c ← s.deref p
    let tmpOppsiteId := readId data
    let tmpMyId := readId (data.drop 4)
    if tmpMyId = 0 then
      return (s, [.bare (bareMessage fr.nonce c.myId tmpOppsiteId par.constId)])
    else if tmpMyId = c.myId then
      preReady par (s.store p { c with oppsiteId := tmpOppsiteId }) p (readId (data.drop 8)) fr
    else return (s, [])

/-! ## Records -/

/-- The conversation of a data record, which is created when it is new. -/
def convFor (s : Server) (m : ConvManager Nat) (conv : UInt32) :
    Except Fault (Server × ConvManager Nat) :=
  if m.isConvUsed conv then .ok (s, m)
  else do
    let m ← m.insertConv conv s.bridgeFd64 s.now
    if ¬ s.bridgeConvValid then
      return ({ s with bridgeConv := conv, bridgeConvValid := true }, m)
    else return (s, m)

/-- `server_on_raw_recv_ready`. -/
def onReady (par : Params) (s : Server) (p : Nat) (type : UInt8) (data : Bytes) :
    Except Fault (Server × List Sent) := do
  let c ← s.deref p
  if type = tagHeartbeat then return (s.store p { c with lastHbRecvTime := s.now }, [])
  else if type = tagData ∧ 4 ≤ data.length then
    let conv := readId data
    let c := if par.hbMode0 then { c with lastHbRecvTime := s.now } else c
    let b ← expect c.blob .pointer
    if ¬ b.convManager.isConvUsed conv ∧ maxConvNum ≤ b.convManager.getSize then
      return (s.store p c, [])
    else
      let (s, m) ← s.convFor b.convManager conv
      let fd64 := (m.convToData.lookup conv).getD 0
      let m ← m.updateActiveTime conv s.now
      let fd ← s.fds.toFd fd64
      return (s.store p { c with blob := some { b with convManager := m } },
        [.bridge fd (data.drop 4)])
  else return (s, [])

/-! ## Raw packets -/

/-- A raw packet; `syn` says if it opens a fake TCP connection. -/
structure Packet where
  src : Address
  syn : Bool := false
  recv : Recv

/-- `server_on_raw_recv_multi`.  A packet that opens a TCP connection is at most
answered, outside of what is modelled here. -/
def onRawRecv (par : Params) (s : Server) (pkt : Packet) (fr : Fresh) :
    Except Fault (Server × List Sent) :=
  if pkt.syn then .ok (s, [])
  else
    match s.mp.lookup pkt.src with
    | none =>
        if maxHandshakeConnNum ≤ s.mp.size then .ok (s, [])
        else
          match pkt.recv.bare with
          | none => .ok (s, [])
          | some data =>
              if data.length < 12 then .ok (s, [])
              else if readId (data.drop 4) ≠ 0 then .ok (s, [])
              else
                let p := pick s.conns.keys fr.conn
                let c : ServerConn := { state := .handshake1, recv := pkt.src, myId := fr.myId
                                        lastStateTime := s.now }
                onHandshake1 par { s.store p c with mp := s.mp.insert pkt.src p } p data fr
    | some p => do
        let c ← s.deref p
        let recv := pkt.recv.address c.recv pkt.src
        match c.state with
        | .handshake1 =>
            let s := s.store p { c with recv }
            match pkt.recv.bare with
            | none => return (s, [])
            | some data => onHandshake1 par s p data fr
        | .ready =>
            let (c, record) ← ({ c with recv } : ServerConn).recvSafer par s.now pkt.recv
            let s := s.store p c
            match record with
            | none => return (s, [])
            | some (type, data) => onReady par s p type data
        | .idle => return (s, [])

/-! ## Clearing -/

variable (clear : FdManager → Nat → Except Fault FdManager)

/-- `delete`: the destructors of `conn_info_t`, `blob_t` and `conv_manager_t`. -/
def delete (s : Server) (p : Nat) : Except Fault Server := do
  let c ← s.deref p
  require (if c.state = .ready then c.blob.isSome ∧ c.oppsiteConstId ≠ 0
    else c.blob.isNone ∧ c.oppsiteConstId = 0) .assertion
  require (c.timerFd64 = 0) .assertion
  let fds ← match c.blob with
    | none => pure s.fds
    | some b => b.convManager.clearAll clear s.fds
  return { s with conns := s.conns.erase p, fds }

/-- `conn_manager_t::erase`. -/
def erase (s : Server) (a : Address) (p : Nat) : Except Fault Server := do
  let c ← s.deref p
  if c.state = .ready then
    require (s.readyNum ≠ 0) .assertion
    require (c.timerFd64 ≠ 0) .assertion
    require (s.fds.exist c.timerFd64) .assertion
    require (c.oppsiteConstId ≠ 0) .assertion
    require (s.constIdMp.lookup c.oppsiteConstId).isSome .assertion
    let fds ← s.fds.fd64Close c.timerFd64
    let s := { s.store p { c with timerFd64 := 0 } with
      readyNum := s.readyNum - 1
      constIdMp := s.constIdMp.erase c.oppsiteConstId
      fds }
    let s ← s.delete clear p
    return { s with mp := s.mp.erase a }
  else
    require c.blob.isNone .assertion
    require (c.timerFd64 = 0) .assertion
    require (c.oppsiteConstId = 0) .assertion
    let s ← s.delete clear p
    return { s with mp := s.mp.erase a }

/-- The conversations of a connection. -/
def convs (c : ServerConn) : Nat := (c.blob.map fun b => b.convManager.getSize).getD 0

/-- One round of `clear_inactive0`, at the entry for `a`. -/
def visit (s : Server) (a : Address) : Except Fault Server :=
  match s.mp.lookup a with
  | none => .ok s
  | some p => do
      let c ← s.deref p
      if c.state = .ready ∧ elapsed s.now c.lastHbRecvTime ≤ serverConnTimeout then return s
      else if c.state ≠ .ready ∧ elapsed s.now c.lastStateTime ≤ serverHandshakeTimeout then
        return s
      else if 0 < convs c then
        require (c.state = .ready) .assertion
        return s
      else s.erase clear a p

/-- `conn_manager_t::clear_inactive`. -/
def clearInactive (s : Server) (visits : List Address) : Except Fault Server :=
  if connClearInterval < elapsed s.now s.lastClearTime then
    let size := s.mp.size
    (visits.take (min (size / connClearRatio + connClearMin) size)).foldlM (visit clear)
      { s with lastClearTime := s.now }
  else .ok s

/-! ## The loop -/

/-- `server_on_timer_multi`. -/
def onTimer (par : Params) (s : Server) (p : Nat) : Except Fault (Server × List Sent) := do
  let c ← s.deref p
  require (c.state = .ready) .assertion
  let b ← expect c.blob .pointer
  let (m, fds) ← b.convManager.clearInactive clear s.fds s.now
  let c : ServerConn := { c with blob := some { b with convManager := m } }
  let s := { s with fds }
  if elapsed s.now c.lastHbSentTime < heartbeatInterval then return (s.store p c, [])
  else
    let (c, plain) ← c.sendSafer tagHeartbeat par.hb
    return (s.store p { c with lastHbSentTime := s.now }, [.safer p plain])

/-- A datagram from the bridge, if `recv` returned one. -/
def onBridge (s : Server) (info : Option Nat) (datagram : Option Bytes) :
    Except Fault (Server × List Sent) := do
  let _ ← s.fds.toFd s.bridgeFd64
  match info, datagram with
  | some p, some d =>
      if s.bridgeConvValid ∧ 0 < d.length ∧ d.length ≤ maxDataLen then
        let c ← expect (s.conns.lookup p) .bridge
        if c.state = .ready then
          let (c, plain) ← c.sendDataSafer d s.bridgeConv
          return (s.store p c, [.data p s.bridgeConv plain])
        else return (s, [])
      else return (s, [])
  | _, _ => return (s, [])

/-- An event on a numbered descriptor.  In bridge mode only the bridge and the
timers have a number; for any other, `server_on_udp_recv` would fail its
assertion. -/
def onFd (par : Params) (s : Server) (fd64 : Nat) (datagram : Option Bytes) :
    Except Fault (Server × List Sent) := do
  require (s.fds.exist fd64) .stopped
  require (s.fds.existInfo fd64) .assertion
  let info ← s.fds.getInfo fd64
  if fd64 = s.bridgeFd64 then s.onBridge info datagram
  else
    let p ← expect info .pointer
    let c ← s.deref p
    require (fd64 = c.timerFd64) .assertion
    s.onTimer clear par p

/-- What `epoll_wait` reports. -/
inductive Action where
  /-- The global timer; the entries that the sweep would meet. -/
  | sweep (visits : List Address)
  | raw (pkt : Packet) (fr : Fresh)
  | fd (fd64 : Nat) (datagram : Option Bytes)

/-- An event and the time at which it is handled. -/
structure Event where
  now : Nat
  action : Action

/-- One event of `server_event_loop`. -/
def step (par : Params) (s : Server) (ev : Event) : Except Fault (Server × List Sent) :=
  let s := { s with now := ev.now }
  match ev.action with
  | .sweep visits => do
      let s ← s.clearInactive clear visits
      return (s, [])
  | .raw pkt fr => s.onRawRecv par pkt fr
  | .fd fd64 datagram => s.onFd clear par fd64 datagram

end Server

end Fecraw.Ports.Raw
