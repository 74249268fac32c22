import Fecraw.Ports.Server
import Fecraw.Verified.Checked

/-!
# What one event of the server does

`Change` lists what an event can do to the server, apart from the sweep, which
erases connections one by one.  It is the only place where the handlers are
taken apart: what is proved about runs of the server is proved about changes.

`TableWf` says how the tables of the server fit together.  The handlers rely on
it: from a server whose tables fit, no assertion about connections can fail.

## Main results

* `ends_onRawRecv`, `ends_onFd`: a raw packet, or an event on a numbered
  descriptor, is a change.
* `ends_clearInactive`: what erasing a connection keeps, a sweep keeps.
-/

namespace Fecraw.Ports.Raw

open Fecraw.Verified

/-- The number of the bridge, the first that `fd_manager_t` gives. -/
def bridgeNumber : Nat := 2 ^ 32 - 1 + 100

/-- The failures that concern the bridge, and the end of the loop. -/
def Aside (f : Fault) : Prop := f = .stopped ∨ f = .descriptor bridgeNumber ∨ f = .bridge

/-! ## How the tables fit together -/

/-- A ready connection. -/
structure ReadyWf (s : Server) (p : Nat) (c : ServerConn) (b : Blob Nat) : Prop where
  blob : c.blob = some b
  convs : b.convManager.Wf s.now
  data : ∀ k d, b.convManager.convToData.lookup k = some d → d = bridgeNumber
  timer : s.fds.exist c.timerFd64
  timer_ne : c.timerFd64 ≠ bridgeNumber
  info : s.fds.fdInfo.lookup c.timerFd64 = some (some p)
  constId_ne : c.oppsiteConstId ≠ 0
  constId : s.constIdMp.lookup c.oppsiteConstId = some p

/-- A connection that is not ready has nothing of what a ready one has. -/
structure Bare (c : ServerConn) : Prop where
  blob : c.blob = none
  timer : c.timerFd64 = 0
  constId : c.oppsiteConstId = 0

/-- How the tables of the server fit together. -/
structure TableWf (s : Server) : Prop where
  ready : ∀ p c, s.conns.lookup p = some c → c.state = .ready → ∃ b, ReadyWf s p c b
  bare : ∀ p c, s.conns.lookup p = some c → c.state ≠ .ready → Bare c
  stored : ∀ p c, s.conns.lookup p = some c → ∃ a, s.mp.lookup a = some p
  address : ∀ p c, s.conns.lookup p = some c → c.state ≠ .idle → s.mp.lookup c.recv = some p
  entry : ∀ a p, s.mp.lookup a = some p → ∃ c, s.conns.lookup p = some c
  once : ∀ a b p, s.mp.lookup a = some p → s.mp.lookup b = some p → a = b
  constId : ∀ k p, s.constIdMp.lookup k = some p →
    ∃ c, s.conns.lookup p = some c ∧ c.state = .ready ∧ c.oppsiteConstId = k
  count : s.readyNum = s.constIdMp.size
  count_le : s.readyNum ≤ maxReadyConnNum
  fds : s.fds.Wf
  numbered : ∀ x, s.fds.exist x → x = bridgeNumber ∨
    ∃ p c, s.conns.lookup p = some c ∧ c.state = .ready ∧ c.timerFd64 = x
  bridge_info : s.fds.exist bridgeNumber → s.fds.existInfo bridgeNumber
  bridge : s.bridgeFd64 = bridgeNumber
  bridge_lt : bridgeNumber < s.fds.counter

theorem TableWf.bridge_ne {s : Server} (h : TableWf s) : s.bridgeFd64 ≠ 0 := by
  rw [h.bridge]
  decide

/-- Descriptors that agree but for the bridge. -/
structure Beside (m m' : FdManager) : Prop where
  wf : m'.Wf
  lookup : ∀ x, x ≠ bridgeNumber → m'.fd64ToFd.lookup x = m.fd64ToFd.lookup x
  info : ∀ x, x ≠ bridgeNumber → m'.fdInfo.lookup x = m.fdInfo.lookup x
  counter : m'.counter = m.counter
  bridge : m'.exist bridgeNumber → m.exist bridgeNumber ∧
    m'.fdInfo.lookup bridgeNumber = m.fdInfo.lookup bridgeNumber

theorem Beside.refl {m : FdManager} (h : m.Wf) : Beside m m :=
  ⟨h, fun _ _ => rfl, fun _ _ => rfl, rfl, fun hexist => ⟨hexist, rfl⟩⟩

theorem Beside.trans {m m' m'' : FdManager} (h : Beside m m') (h' : Beside m' m'') :
    Beside m m'' := by
  refine ⟨h'.wf, fun x hx => (h'.lookup x hx).trans (h.lookup x hx),
    fun x hx => (h'.info x hx).trans (h.info x hx), h'.counter.trans h.counter, fun hexist => ?_⟩
  obtain ⟨hexist', hinfo'⟩ := h'.bridge hexist
  obtain ⟨hexist, hinfo⟩ := h.bridge hexist'
  exact ⟨hexist, hinfo'.trans hinfo⟩

/-- A clear function that only touches the bridge, or fails on it. -/
def ClearsBridge (clear : FdManager → Nat → Except Fault FdManager) : Prop :=
  ∀ m : FdManager, m.Wf →
    Ends (clear m bridgeNumber) (· = .descriptor bridgeNumber) (Beside m)

/-- The clear function of the program is one. -/
theorem clearsBridge_serverClearFunction : ClearsBridge serverClearFunction := by
  intro m hwf
  unfold serverClearFunction
  apply ends_require_or
  · intro _
    rfl
  · intro hexist
    obtain ⟨fd, hfd⟩ := FdManager.exist_iff.mp hexist
    unfold FdManager.fd64Close
    apply ends_expect hfd
    refine ⟨hwf.removed hfd, fun x hx => ?_, fun x hx => ?_, rfl, fun hexist' => ?_⟩
    · rw [removed_lookup, if_neg hx]
    · rw [removed_info, if_neg hx]
    · obtain ⟨fd', hfd'⟩ := FdManager.exist_iff.mp hexist'
      rw [removed_lookup, if_pos rfl] at hfd'
      exact absurd hfd' (by simp)

/-- The event is the timer of a connection with a conversation that expires. -/
def Expiring (act : Server.Action) (s : Server) : Prop :=
  ∃ p c b d, act = .fd c.timerFd64 d ∧ s.conns.lookup p = some c ∧ c.blob = some b ∧
    b.convManager.Expires s.now

/-- When an event can end like this. -/
inductive AsideAt (act : Server.Action) (s : Server) : Fault → Prop where
  /-- The event is on a descriptor that was closed. -/
  | stopped {x : Nat} {d : Option Bytes} (hact : act = .fd x d) (hgone : ¬ s.fds.exist x) :
      AsideAt act s .stopped
  /-- The bridge was closed, or is closed by this event. -/
  | descriptor (h : ¬ s.fds.exist bridgeNumber ∨ Expiring act s) :
      AsideAt act s (.descriptor bridgeNumber)
  /-- A datagram from the bridge is for a connection that was deleted. -/
  | bridge {p : Nat} {d : Bytes} (hexist : s.fds.exist bridgeNumber)
      (hinfo : s.fds.fdInfo.lookup bridgeNumber = some (some p))
      (hvalid : s.bridgeConvValid = true) (hgone : s.conns.lookup p = none)
      (hact : act = .fd bridgeNumber (some d)) (hlen : 0 < d.length ∧ d.length ≤ maxDataLen) :
      AsideAt act s .bridge

theorem AsideAt.aside {act : Server.Action} {s : Server} {f : Fault} (h : AsideAt act s f) :
    Aside f := by
  cases h with
  | stopped => exact .inl rfl
  | descriptor => exact .inr (.inl rfl)
  | bridge => exact .inr (.inr rfl)

/-! ## Changes -/

/-- The heap with one connection written. -/
def Puts (t t' : Table Nat ServerConn) (p : Nat) (c : ServerConn) : Prop :=
  ∀ x, t'.lookup x = if x = p then some c else t.lookup x

/-- The packet of an event, from this address, carries this handshake. -/
def Handshake (act : Server.Action) (a : Address) (id1 id2 id3 : UInt32) : Prop :=
  ∃ pkt fr data, act = .raw pkt fr ∧ pkt.syn = false ∧ pkt.src = a ∧ pkt.recv.bare = some data ∧
    12 ≤ data.length ∧ readId data = id1 ∧ readId (data.drop 4) = id2 ∧ readId (data.drop 8) = id3

/-- The packet of an event carries a data record of this conversation for the
connection. -/
def DataRecord (par : Params) (act : Server.Action) (s : Server) (c : ServerConn) (conv : UInt32) :
    Prop :=
  ∃ pkt fr c' data, act = .raw pkt fr ∧ pkt.syn = false ∧ pkt.src = c.recv ∧
    c.recvSafer par s.now pkt.recv = .ok (c', some (tagData, data)) ∧ 4 ≤ data.length ∧
    readId data = conv

/-- The conversations stay, but may have been used. -/
def SameConvs (now : Nat) (c c' : ServerConn) : Prop :=
  c.blob = none ∧ c'.blob = none ∨ ∃ b b', c.blob = some b ∧ c'.blob = some b' ∧
    b'.convManager.Wf now ∧ b'.convManager.convToData = b.convManager.convToData

/-- What an event other than a sweep can do, and what is sent. -/
inductive Change (par : Params) (clear : FdManager → Nat → Except Fault FdManager)
    (act : Server.Action) (s : Server) : Server → List Sent → Prop where
  /-- Nothing changes. -/
  | nothing : Change par clear act s s []
  /-- A handshake is answered. -/
  | reply {t : Table Nat ServerConn} {p : Nat} {c : ServerConn} {nonce : Nat × Nat}
      {id1 id3 : UInt32}
      (hc : s.conns.lookup p = some c) (hstate : c.state = .handshake1)
      (hput : Puts s.conns t p c) (hshake : Handshake act c.recv id1 0 id3) :
      Change par clear act s { s with conns := t }
        [.bare (bareMessage nonce c.myId id1 par.constId)]
  /-- A connection is written to, but its conversations stay. -/
  | touch {t : Table Nat ServerConn} {p : Nat} {c c' : ServerConn} {out : List Sent}
      (hc : s.conns.lookup p = some c) (hkeep : Keeps c c') (hput : Puts s.conns t p c')
      (hconvs : SameConvs s.now c c') (hout : ∀ m ∈ out, ∃ fd d, m = .bridge fd d) :
      Change par clear act s { s with conns := t } out
  /-- A datagram of the bridge is sent. -/
  | bridged {t : Table Nat ServerConn} {p : Nat} {c c' : ServerConn} {d plain : Bytes}
      (hc : s.conns.lookup p = some c) (hstate : c.state = .ready) (hkeep : Keeps c c')
      (hput : Puts s.conns t p c') (hconvs : SameConvs s.now c c')
      (hact : act = .fd bridgeNumber (some d)) (hexist : s.fds.exist bridgeNumber)
      (hvalid : s.bridgeConvValid = true)
      (hinfo : s.fds.fdInfo.lookup bridgeNumber = some (some p)) (hplain : Record c plain) :
      Change par clear act s { s with conns := t } [.data p s.bridgeConv plain]
  /-- A data record starts a conversation. -/
  | conv {t : Table Nat ServerConn} {p : Nat} {c c' : ServerConn} {b b' : Blob Nat}
      {conv : UInt32} {out : List Sent}
      (hc : s.conns.lookup p = some c) (hstate : c.state = .ready) (hkeep : Keeps c c')
      (hput : Puts s.conns t p c')
      (hb : c.blob = some b) (hb' : c'.blob = some b')
      (hrecord : DataRecord par act s c conv) (hroom : b.convManager.getSize < maxConvNum)
      (hnew : ¬ b.convManager.isConvUsed conv) (hwf : b'.convManager.Wf s.now)
      (hconv : b'.convManager.convToData = b.convManager.convToData.insert conv bridgeNumber)
      (hout : ∀ m ∈ out, ∃ fd d, m = .bridge fd d) :
      Change par clear act s { s with
        conns := t
        bridgeConv := if s.bridgeConvValid then s.bridgeConv else conv
        bridgeConvValid := true } out
  /-- The timer of a connection clears its conversations. -/
  | timer {t : Table Nat ServerConn} {p : Nat} {c c' : ServerConn} {b b' : Blob Nat}
      {fds : FdManager} {out : List Sent}
      (hc : s.conns.lookup p = some c) (hstate : c.state = .ready) (hkeep : Keeps c c')
      (hput : Puts s.conns t p c')
      (hb : c.blob = some b) (hb' : c'.blob = some b') (hact : ∃ d, act = .fd c.timerFd64 d)
      (hclear : b.convManager.clearInactive clear s.fds s.now = .ok (b'.convManager, fds))
      (hout : ∀ m ∈ out, ∃ plain, m = .safer p plain ∧ Record c plain) :
      Change par clear act s { s with conns := t, fds := fds } out
  /-- A connection from a new address. -/
  | opened {t : Table Nat ServerConn} {p : Nat} {a : Address} {c : ServerConn}
      {nonce : Nat × Nat} {id1 id3 : UInt32}
      (hfree : s.conns.lookup p = none) (hnew : s.mp.lookup a = none) (hput : Puts s.conns t p c)
      (hstate : c.state = .handshake1) (hrecv : c.recv = a) (hbare : Bare c)
      (hshake : Handshake act a id1 0 id3) (hid : ∃ pkt fr, act = .raw pkt fr ∧ c.myId = fr.myId) :
      Change par clear act s { s with conns := t, mp := s.mp.insert a p }
        [.bare (bareMessage nonce c.myId id1 par.constId)]
  /-- A handshake that is not accepted. -/
  | refused {t : Table Nat ServerConn} {p : Nat} {c c' : ServerConn}
      (hc : s.conns.lookup p = some c) (hstate : c.state = .handshake1) (hput : Puts s.conns t p c')
      (hidle : c'.state = .idle) (hmy : c'.myId = c.myId) (hbare : Bare c') :
      Change par clear act s { s with conns := t } []
  /-- A connection becomes ready. -/
  | readied {t : Table Nat ServerConn} {p : Nat} {c c' : ServerConn} {b : Blob Nat}
      {k : UInt32} {fd : Nat} {plain : Bytes}
      (hc : s.conns.lookup p = some c) (hstate : c.state = .handshake1) (hput : Puts s.conns t p c')
      (hready : c'.state = .ready) (hrecv : c'.recv = c.recv) (hmy : c'.myId = c.myId)
      (hk : c'.oppsiteConstId = k) (hfree : s.constIdMp.lookup k = none)
      (hnum : s.readyNum < maxReadyConnNum) (hb : c'.blob = some b)
      (hconvs : b.convManager.Wf s.now) (hnone : b.convManager.convToData = ∅)
      (htimer : c'.timerFd64 = s.fds.counter) (hfd : s.fds.fdToFd64.lookup fd = none)
      (hshake : Handshake act c.recv c'.oppsiteId c.myId k) (hplain : Record c' plain) :
      Change par clear act s { s with
        conns := t
        constIdMp := s.constIdMp.insert k p
        readyNum := s.readyNum + 1
        fds := ((s.fds.added fd).withInfo s.fds.counter (some p)).withInfo bridgeNumber (some p)
        bridgeConvValid := false } [.safer p plain]
  /-- A client comes back, and its connection `q` is taken over. -/
  | grabbed {t : Table Nat ServerConn} {p q : Nat} {c c' ori ori' : ServerConn} {b b' : Blob Nat}
      {plain : Bytes}
      (hc : s.conns.lookup p = some c) (hstate : c.state = .handshake1)
      (hori : s.conns.lookup q = some ori) (hready : ori.state = .ready)
      (hput : ∀ x, t.lookup x = if x = p then some c' else if x = q then some ori' else
        s.conns.lookup x)
      (hidle : c'.state = .idle) (hmy : c'.myId = c.myId) (hbare : Bare c')
      (hready' : ori'.state = .ready) (hrecv : ori'.recv = c.recv) (hid : ori'.myId = c.myId)
      (hk : ori'.oppsiteConstId = ori.oppsiteConstId) (htimer : ori'.timerFd64 = ori.timerFd64)
      (hb : ori.blob = some b) (hb' : ori'.blob = some b') (hconvs : b'.convManager = b.convManager)
      (hshake : Handshake act c.recv ori'.oppsiteId c.myId ori.oppsiteConstId)
      (hle : ori.lastStateTime ≤ c.lastStateTime)
      (hplain : Record ori' plain) :
      Change par clear act s { s with
        conns := t
        mp := (s.mp.insert c.recv q).insert ori.recv p
        fds := s.fds.withInfo bridgeNumber (some q) } [.safer q plain]

/-! ## The handlers -/

section Handlers

variable {par : Params} {clear : FdManager → Nat → Except Fault FdManager} {act : Server.Action}
variable {s : Server} {t : Table Nat ServerConn} {p : Nat} {c c' : ServerConn} {fr : Fresh}

theorem Puts.lookup (h : Puts s.conns t p c) : t.lookup p = some c := by
  rw [h p, if_pos rfl]

/-- A connection that shakes hands is not one that is ready. -/
theorem ne_of_ready {q : Nat} {ori : ServerConn} (hc : s.conns.lookup p = some c)
    (hstate : c.state = .handshake1) (hori : s.conns.lookup q = some ori)
    (hready : ori.state = .ready) : q ≠ p := by
  rintro rfl
  rw [hc] at hori
  rw [Option.some.inj hori, hready] at hstate
  exact absurd hstate (by decide)

theorem Puts.insert (h : Puts s.conns t p c) (c' : ServerConn) :
    Puts s.conns (t.insert p c') p c' := by
  intro x
  rw [Table.lookup_insert_eq, h x]
  split <;> rfl

theorem puts_insert (t : Table Nat ServerConn) (p : Nat) (c : ServerConn) :
    Puts t (t.insert p c) p c :=
  fun x => Table.lookup_insert_eq t p x c

/-- The bridge's datagrams are directed to a connection, if the bridge is still
there. -/
theorem ends_bridgeTo {q : Nat} {F : Fault → Prop} {Q : Server → Prop}
    (hbridge : s.bridgeFd64 = bridgeNumber)
    (hfail : ¬ s.fds.exist bridgeNumber → F (.descriptor bridgeNumber))
    (hQ : Q { s with fds := s.fds.withInfo bridgeNumber (some q) }) :
    Ends (s.bridgeTo q) F Q := by
  unfold Server.bridgeTo FdManager.setInfo
  rw [ends_bind, hbridge]
  apply ends_require_or
  · exact hfail
  · intro _
    rw [← hbridge] at hQ ⊢
    exact hQ

/-- A number that is in use after a connection became ready. -/
theorem exist_added {fd x : Nat} :
    (s.fds.added fd).exist x ↔ x = s.fds.counter ∨ s.fds.exist x := by
  unfold FdManager.exist
  rw [added_lookup]
  by_cases hx : x = s.fds.counter
  · simp [hx]
  · simp [hx]

theorem ends_becomeReady {k id1 : UInt32} (h : TableWf s) (hc : s.conns.lookup p = some c)
    (hstate : c.state = .handshake1) (hput : Puts s.conns t p { c with oppsiteId := id1 })
    (hfree : s.constIdMp.lookup k = none) (hnum : s.readyNum < maxReadyConnNum)
    (hshake : Handshake act c.recv id1 c.myId k) :
    Ends (Server.becomeReady par { s with conns := t } p k fr) (AsideAt act s) fun r =>
      Change par clear act s r.1 r.2 := by
  have hbare := h.bare p c hc (by rw [hstate]; decide)
  have hnew : s.fds.fdToFd64.lookup (pick s.fds.fdToFd64.keys fr.fd) = none :=
    Table.lookup_eq_none_of_notMem (pick_notMem _ _)
  have hexist : (s.fds.added (pick s.fds.fdToFd64.keys fr.fd)).exist s.fds.counter := by
    rw [FdManager.exist_iff]
    exact ⟨_, (added_lookup _).trans (if_pos rfl)⟩
  unfold Server.becomeReady
  apply ends_expect hput.lookup
  apply ends_require (by rw [hbare.blob]; rfl)
  rw [sendSafer_eq rfl]
  simp only [Checked.ok_bind]
  apply ends_expect rfl
  rw [create_eq hnew]
  simp only [Checked.ok_bind]
  rw [setInfo_eq hexist]
  simp only [Checked.ok_bind]
  apply ends_ite
  · intro _
    rw [ends_bind]
    refine ends_bridgeTo ?_ ?_ ?_
    · exact h.bridge
    · intro hgone
      exact .descriptor (.inl fun hexist => hgone (exist_added.mpr (.inr hexist)))
    · show Change par clear act s _ _
      apply Change.readied hc hstate
      · exact hput.insert _
      · rfl
      · rfl
      · rfl
      · rfl
      · exact hfree
      · exact hnum
      · rfl
      · exact ConvManager.wf_init _ _
      · rfl
      · rfl
      · exact hnew
      · exact hshake
      · exact ⟨_, _, _, _, .inl rfl, rfl⟩
  · exact fun hzero => absurd h.bridge_ne hzero

theorem recover_eq {ori : ServerConn} {b : Blob Nat} (hb : ori.blob = some b) (c : ServerConn) :
    Server.recover ori c = .ok { ori with
      recv := c.recv
      lastStateTime := c.lastStateTime
      lastHbRecvTime := c.lastHbRecvTime
      lastHbSentTime := c.lastHbSentTime
      myId := c.myId
      oppsiteId := c.oppsiteId
      blob := some { b with antiReplay := b.antiReplay.reInit }
      myRoller := 0
      oppsiteRoller := 0
      lastOppsiteRollerTime := 0 } := by
  unfold Server.recover
  rw [hb]
  rfl

theorem ends_grab {q : Nat} {ori : ServerConn} {id1 : UInt32} (h : TableWf s)
    (hc : s.conns.lookup p = some c) (hstate : c.state = .handshake1)
    (hput : Puts s.conns t p { c with oppsiteId := id1 })
    (hori : s.conns.lookup q = some ori) (hready : ori.state = .ready)
    (hshake : Handshake act c.recv id1 c.myId ori.oppsiteConstId)
    (hle : ori.lastStateTime ≤ c.lastStateTime) :
    Ends (Server.grab par { s with conns := t } p q) (AsideAt act s) fun r =>
      Change par clear act s r.1 r.2 := by
  obtain ⟨b, hwf⟩ := h.ready q ori hori hready
  have hbare := h.bare p c hc (by rw [hstate]; decide)
  have hne : p ≠ q := (ne_of_ready hc hstate hori hready).symm
  have hq : t.lookup q = some ori := by rw [hput q, if_neg (Ne.symm hne), hori]
  have haddr : s.mp.lookup ori.recv = some q := h.address q ori hori (by rw [hready]; decide)
  have haddr' : s.mp.lookup c.recv = some p := h.address p c hc (by rw [hstate]; decide)
  unfold Server.grab
  apply ends_expect hput.lookup
  apply ends_expect hq
  apply ends_expect haddr
  apply ends_expect haddr'
  rw [recover_eq hwf.blob]
  simp only [Checked.ok_bind]
  rw [sendSafer_eq rfl]
  simp only [Checked.ok_bind]
  -- both connections after the exchange
  have hafter : ∀ ori' c' : ServerConn, ∀ x, ((t.insert q ori').insert p c').lookup x =
      if x = p then some c' else if x = q then some ori' else s.conns.lookup x := by
    intro ori' c' x
    rw [Table.lookup_insert_eq, Table.lookup_insert_eq, hput x]
    by_cases hxp : x = p
    · rw [if_pos hxp, if_pos hxp]
    · rw [if_neg hxp, if_neg hxp, if_neg hxp]
  have hstill : ∀ ori', (t.insert q ori').lookup p = some { c with oppsiteId := id1 } := by
    intro ori'
    rw [Table.lookup_insert_eq, if_neg hne]
    exact hput.lookup
  apply ends_ite
  · intro _
    rw [ends_bind]
    refine ends_bridgeTo ?_ ?_ ?_
    · exact h.bridge
    · exact fun hgone => .descriptor (.inl hgone)
    · apply ends_expect (hstill _)
      show Change par clear act s _ _
      apply Change.grabbed hc hstate hori hready
      · exact hafter _ _
      · rfl
      · rfl
      · exact ⟨hbare.blob, hbare.timer, rfl⟩
      · exact hready
      · rfl
      · rfl
      · rfl
      · rfl
      · exact hwf.blob
      · rfl
      · rfl
      · exact hshake
      · exact hle
      · exact ⟨_, _, _, _, .inl rfl, rfl⟩
  · exact fun hzero => absurd h.bridge_ne hzero

theorem ends_preReady {k id1 : UInt32} (h : TableWf s) (hc : s.conns.lookup p = some c)
    (hstate : c.state = .handshake1) (hput : Puts s.conns t p { c with oppsiteId := id1 })
    (hshake : Handshake act c.recv id1 c.myId k) :
    Ends (Server.preReady par { s with conns := t } p k fr) (AsideAt act s) fun r =>
      Change par clear act s r.1 r.2 := by
  have hbare := h.bare p c hc (by rw [hstate]; decide)
  unfold Server.preReady
  apply ends_expect hput.lookup
  cases hk : s.constIdMp.lookup k with
  | none =>
      dsimp only
      apply ends_ite
      · intro _
        show Change par clear act s _ _
        apply Change.refused hc hstate (hput.insert _)
        · rfl
        · rfl
        · exact ⟨hbare.blob, hbare.timer, hbare.constId⟩
      · intro hnum
        exact ends_becomeReady h hc hstate hput hk (not_le.mp hnum) hshake
  | some q =>
      obtain ⟨ori, hori, hready, hkey⟩ := h.constId k q hk
      have hq : t.lookup q = some ori := by
        rw [hput q, if_neg (ne_of_ready hc hstate hori hready), hori]
      dsimp only
      apply ends_expect hq
      apply ends_require hready
      apply ends_ite
      · intro _
        show Change par clear act s _ _
        apply Change.refused hc hstate (hput.insert _)
        · rfl
        · rfl
        · exact ⟨hbare.blob, hbare.timer, rfl⟩
      · intro hle
        rw [← hkey] at hshake
        exact ends_grab h hc hstate hput hori hready hshake (not_lt.mp hle)

/-- A handshake of a connection that is not ready yet. -/
theorem ends_onHandshake1 {pkt : Server.Packet} {data : Bytes} (h : TableWf s)
    (hc : s.conns.lookup p = some c) (hstate : c.state = .handshake1) (hput : Puts s.conns t p c)
    (hact : act = .raw pkt fr) (hsyn : pkt.syn = false) (hsrc : pkt.src = c.recv)
    (hdata : pkt.recv.bare = some data) :
    Ends (Server.onHandshake1 par { s with conns := t } p data fr) (AsideAt act s) fun r =>
      Change par clear act s r.1 r.2 := by
  have hbare := h.bare p c hc (by rw [hstate]; decide)
  have hsame : Change par clear act s { s with conns := t } [] :=
    Change.touch hc (Keeps.refl c) hput (.inl ⟨hbare.blob, hbare.blob⟩) (by simp)
  unfold Server.onHandshake1
  apply ends_ite
  · exact fun _ => hsame
  · intro hlen
    have hshake : ∀ id2, readId (data.drop 4) = id2 →
        Handshake act c.recv (readId data) id2 (readId (data.drop 8)) :=
      fun id2 hid => ⟨pkt, fr, data, hact, hsyn, hsrc, hdata, not_lt.mp hlen, rfl, hid, rfl⟩
    apply ends_expect hput.lookup
    apply ends_ite
    · intro hzero
      exact Change.reply hc hstate hput (hshake 0 hzero)
    · intro _
      apply ends_ite
      · intro hid
        exact ends_preReady h hc hstate (hput.insert _) (hshake _ hid)
      · exact fun _ => hsame

/-- A conversation that is there can be used; one that is not is created. -/
theorem ends_convFor {m : ConvManager Nat} {conv : UInt32} {F : Fault → Prop}
    {Q : Server × ConvManager Nat → Prop}
    (hwf : m.Wf s.now) (hbridge : s.bridgeFd64 = bridgeNumber)
    (hold : m.isConvUsed conv → Q (s, m))
    (hnew : ∀ m', ¬ m.isConvUsed conv → m'.Wf s.now →
      m'.convToData = m.convToData.insert conv bridgeNumber →
      Q ({ s with
        bridgeConv := if s.bridgeConvValid then s.bridgeConv else conv
        bridgeConvValid := true }, m')) :
    Ends (s.convFor m conv) F Q := by
  unfold Server.convFor
  apply ends_ite
  · exact hold
  · intro hused
    obtain ⟨m', hok, hwf', hdata⟩ : ∃ m', m.insertConv conv s.bridgeFd64 s.now = .ok m' ∧
        m'.Wf s.now ∧ m'.convToData = m.convToData.insert conv s.bridgeFd64 :=
      hwf.insertConv le_rfl hused
    rw [hok]
    have hQ := hnew m' hused hwf' (by rw [hdata, hbridge])
    simp only [Checked.ok_bind]
    apply ends_ite
    · intro hvalid
      rw [if_neg hvalid] at hQ
      exact hQ
    · intro hvalid
      have htrue : s.bridgeConvValid = true := not_not.mp hvalid
      rw [if_pos htrue, ← htrue] at hQ
      exact hQ

/-- A data record of a ready connection, after `hb_mode` was looked at. -/
theorem ends_data {b b' : Blob Nat} {conv : UInt32} {c₀ : ServerConn} {out : Nat → List Sent}
    (h : TableWf s) (hc : s.conns.lookup p = some c) (hstate : c.state = .ready)
    (hwf : ReadyWf s p c b) (hkeep : Keeps c c') (hconvs : b'.convManager = b.convManager)
    (hput : Puts s.conns t p c₀) (hrecord : DataRecord par act s c conv)
    (hroom : ¬ b'.convManager.isConvUsed conv → b'.convManager.getSize < maxConvNum)
    (hout : ∀ fd, ∀ m ∈ out fd, ∃ fd d, m = .bridge fd d) :
    Ends (do
      let (s, m) ← Server.convFor { s with conns := t } b'.convManager conv
      let fd64 := (m.convToData.lookup conv).getD 0
      let m ← m.updateActiveTime conv s.now
      let fd ← s.fds.toFd fd64
      return (s.store p { c' with blob := some { b' with convManager := m } }, out fd))
        (AsideAt act s) fun r => Change par clear act s r.1 r.2 := by
  have hkeep' : ∀ m : ConvManager Nat,
      Keeps c { c' with blob := some { b' with convManager := m } } := fun m =>
    ⟨hkeep.state, hkeep.recv, hkeep.timer, hkeep.constId, hkeep.myId, hkeep.oppsiteId⟩
  have hwf' : b'.convManager.Wf s.now := hconvs ▸ hwf.convs
  rw [ends_bind]
  refine ends_convFor hwf' ?_ ?_ ?_
  · exact h.bridge
  · -- the conversation is known
    intro hused
    have hmem := ConvManager.isConvUsed_iff.mp hused
    obtain ⟨m, hm, hmwf, hmdata⟩ := hwf'.updateActiveTime le_rfl hmem
    obtain ⟨d, hd⟩ := Option.isSome_iff_exists.mp hused
    have hbridge : d = bridgeNumber := hwf.data conv d (by rw [← hconvs]; exact hd)
    dsimp only
    rw [hm, hd, hbridge]
    simp only [Checked.ok_bind, Option.getD_some, FdManager.toFd]
    cases hfd : s.fds.fd64ToFd.lookup bridgeNumber with
    | none => exact .descriptor (.inl (by simp [FdManager.exist, hfd]))
    | some fd =>
        show Change par clear act s _ _
        apply Change.touch hc (hkeep' m) (hput.insert _) _ (hout fd)
        exact .inr ⟨b, _, hwf.blob, rfl, hmwf, by rw [hmdata, hconvs]⟩
  · -- it starts with this record
    intro m₁ hnew hm₁ hdata₁
    have hmem : conv ∈ m₁.convToData := by
      rw [hdata₁, AList.mem_insert]
      exact .inl rfl
    obtain ⟨m, hm, hmwf, hmdata⟩ := hm₁.updateActiveTime le_rfl hmem
    have hd : m₁.convToData.lookup conv = some bridgeNumber := by
      rw [hdata₁, AList.lookup_insert]
    dsimp only
    rw [hm, hd]
    simp only [Checked.ok_bind, Option.getD_some, FdManager.toFd]
    cases hfd : s.fds.fd64ToFd.lookup bridgeNumber with
    | none => exact .descriptor (.inl (by simp [FdManager.exist, hfd]))
    | some fd =>
        show Change par clear act s _ _
        apply Change.conv hc hstate (hkeep' m) (hput.insert _) hwf.blob rfl hrecord
        · rw [← hconvs]
          exact hroom hnew
        · rw [← hconvs]
          exact hnew
        · exact hmwf
        · rw [hmdata, hdata₁, hconvs]
        · exact hout fd

/-- A record of a ready connection. -/
theorem ends_onReady {b b' : Blob Nat} {type : UInt8} {data : Bytes} (h : TableWf s)
    (hc : s.conns.lookup p = some c) (hstate : c.state = .ready) (hwf : ReadyWf s p c b)
    (hkeep : Keeps c c') (hb' : c'.blob = some b') (hconvs : b'.convManager = b.convManager)
    (hput : Puts s.conns t p c')
    (hrecord : type = tagData → 4 ≤ data.length → DataRecord par act s c (readId data)) :
    Ends (Server.onReady par { s with conns := t } p type data) (AsideAt act s) fun r =>
      Change par clear act s r.1 r.2 := by
  have hsame : SameConvs s.now c c' :=
    .inr ⟨b, b', hwf.blob, hb', hconvs ▸ hwf.convs, by rw [hconvs]⟩
  have hkeep' : Keeps c { c' with lastHbRecvTime := s.now } :=
    ⟨hkeep.state, hkeep.recv, hkeep.timer, hkeep.constId, hkeep.myId, hkeep.oppsiteId⟩
  unfold Server.onReady
  apply ends_expect hput.lookup
  apply ends_ite
  · intro _
    show Change par clear act s _ _
    exact Change.touch hc hkeep' (hput.insert _) hsame (by simp)
  · intro _
    apply ends_ite
    · rintro ⟨htype, hlen⟩
      dsimp only
      generalize hseen : (if par.hbMode0 then { c' with lastHbRecvTime := s.now } else c') = c₂
      have hkeep₂ : Keeps c c₂ := by
        rw [← hseen]
        split
        · exact hkeep'
        · exact hkeep
      have hb₂ : c₂.blob = some b' := by
        rw [← hseen]
        split
        · exact hb'
        · exact hb'
      apply ends_expect hb₂
      apply ends_ite
      · intro _
        show Change par clear act s _ _
        apply Change.touch hc hkeep₂ (hput.insert _) _ (by simp)
        exact .inr ⟨b, b', hwf.blob, hb₂, hconvs ▸ hwf.convs, by rw [hconvs]⟩
      · intro hfull
        apply ends_data h hc hstate hwf hkeep₂ hconvs hput (hrecord htype hlen)
        · exact fun hnew => not_le.mp fun hle => hfull ⟨hnew, hle⟩
        intro fd m hm
        exact ⟨_, _, List.mem_singleton.mp hm⟩
    · intro _
      exact Change.touch hc hkeep hput hsame (by simp)

/-- The address that a packet leaves in `recv_info` is the one it was found
by. -/
theorem address_eq {pkt : Server.Packet} (heq : pkt.src = c.recv) :
    pkt.recv.address c.recv pkt.src = c.recv := by
  unfold Recv.address
  rw [heq]
  split <;> rfl

/-- A raw packet. -/
theorem ends_onRawRecv {pkt : Server.Packet} (h : TableWf s) (hact : act = .raw pkt fr) :
    Ends (s.onRawRecv par pkt fr) (AsideAt act s) fun r => Change par clear act s r.1 r.2 := by
  unfold Server.onRawRecv
  apply ends_ite
  · exact fun _ => Change.nothing
  intro hopen
  have hsyn : pkt.syn = false := Bool.eq_false_iff.mpr hopen
  cases hsrc : s.mp.lookup pkt.src with
  | none =>
      dsimp only
      apply ends_ite
      · exact fun _ => Change.nothing
      intro _
      cases hdata : pkt.recv.bare with
      | none => exact Change.nothing
      | some data =>
          dsimp only
          apply ends_ite
          · exact fun _ => Change.nothing
          intro hlen
          apply ends_ite
          · exact fun _ => Change.nothing
          intro hzero
          have hid : readId (data.drop 4) = 0 := not_not.mp hzero
          have hfree : s.conns.lookup (pick s.conns.keys fr.conn) = none :=
            Table.lookup_eq_none_of_notMem (pick_notMem _ _)
          unfold Server.onHandshake1
          rw [if_neg hlen]
          apply ends_expect (AList.lookup_insert _)
          rw [if_pos hid]
          show Change par clear act s _ _
          apply Change.opened hfree hsrc (puts_insert _ _ _)
          · rfl
          · rfl
          · exact ⟨rfl, rfl, rfl⟩
          · exact ⟨pkt, fr, data, hact, hsyn, rfl, hdata, not_lt.mp hlen, rfl, hid, rfl⟩
          · exact ⟨pkt, fr, hact, rfl⟩
  | some p =>
      obtain ⟨c, hc⟩ := h.entry _ _ hsrc
      dsimp only
      apply ends_expect hc
      split
      · next hstate =>
          have hsame : pkt.src = c.recv :=
            h.once _ _ _ hsrc (h.address p c hc (by rw [hstate]; decide))
          rw [address_eq hsame]
          have hbare := h.bare p c hc (by rw [hstate]; decide)
          cases hdata : pkt.recv.bare with
          | none =>
              exact Change.touch hc (Keeps.refl c) (puts_insert _ _ _)
                (.inl ⟨hbare.blob, hbare.blob⟩) (by simp)
          | some data =>
              exact ends_onHandshake1 h hc hstate (puts_insert _ _ _) hact hsyn hsame hdata
      · next hstate =>
          have hsame : pkt.src = c.recv :=
            h.once _ _ _ hsrc (h.address p c hc (by rw [hstate]; decide))
          obtain ⟨b, hwf⟩ := h.ready p c hc hstate
          obtain ⟨c', record, b', hok, hkeep, hb', hconvs, -⟩ :=
            recvSafer_spec hwf.blob par s.now pkt.recv
          rw [address_eq hsame]
          show Ends (c.recvSafer par s.now pkt.recv >>= _) _ _
          rw [hok]
          simp only [Checked.ok_bind]
          cases record with
          | none =>
              apply Change.touch hc hkeep (puts_insert _ _ _) _ (by simp)
              exact .inr ⟨b, b', hwf.blob, hb', hconvs ▸ hwf.convs, by rw [hconvs]⟩
          | some r =>
              obtain ⟨type, data⟩ := r
              apply ends_onReady h hc hstate hwf hkeep hb' hconvs (puts_insert _ _ _)
              rintro rfl hlen
              exact ⟨pkt, fr, c', data, hact, hsyn, hsame, hok, hlen, rfl⟩
      · exact Change.nothing

/-- The conversations of a connection are cleared. -/
theorem ends_clear {b : Blob Nat} (hclear : ClearsBridge clear) (h : TableWf s)
    (hwf : ReadyWf s p c b) :
    Ends (b.convManager.clearInactive clear s.fds s.now) (· = .descriptor bridgeNumber) fun r =>
      r.1.Wf s.now ∧ Beside s.fds r.2 ∧
        ∀ k d, r.1.convToData.lookup k = some d → b.convManager.convToData.lookup k = some d := by
  apply ConvManager.ends_clearInactive _ hwf.convs le_rfl hwf.data (Beside.refl h.fds)
  intro m d hd hm
  rw [hd]
  exact (hclear m hm.wf).mono (fun m' hm' => hm.trans hm') (fun f hf => hf)

/-- The timer of a connection. -/
theorem ends_onTimer (hclear : ClearsBridge clear) (h : TableWf s)
    (hc : s.conns.lookup p = some c) (hstate : c.state = .ready)
    (hact : ∃ d, act = .fd c.timerFd64 d) :
    Ends (s.onTimer clear par p) (AsideAt act s) fun r => Change par clear act s r.1 r.2 := by
  obtain ⟨b, hwf⟩ := h.ready p c hc hstate
  unfold Server.onTimer
  apply ends_expect hc
  apply ends_require hstate
  apply ends_expect hwf.blob
  rw [ends_bind]
  have hends :
      Ends (b.convManager.clearInactive clear s.fds s.now) (AsideAt act s) fun _ => True := by
    by_cases hexp : b.convManager.Expires s.now
    · refine (ends_clear hclear h hwf).mono (fun _ _ => trivial) ?_
      rintro f rfl
      obtain ⟨d, hact⟩ := hact
      exact .descriptor (.inr ⟨p, c, b, d, hact, hc, hwf.blob, hexp⟩)
    · obtain ⟨tm, hok⟩ := ConvManager.clearInactive_of_not_expires hexp
      rw [hok]
      trivial
  apply hends.imp
  rintro ⟨m, fds⟩ hok -
  have hkeep : ∀ (b' : Blob Nat) (tm : Nat),
      Keeps c { c with blob := some b', lastHbSentTime := tm } :=
    fun b' tm => ⟨rfl, rfl, rfl, rfl, rfl, rfl⟩
  dsimp only
  apply ends_ite
  · intro _
    show Change par clear act s _ _
    exact Change.timer hc hstate (hkeep _ _) (puts_insert _ _ _) hwf.blob rfl hact hok (by simp)
  · intro _
    rw [sendSafer_eq rfl]
    simp only [Checked.ok_bind]
    show Change par clear act s _ _
    apply Change.timer hc hstate (hkeep _ _) (puts_insert _ _ _) hwf.blob rfl hact
    · exact hok
    · intro msg hmsg
      exact ⟨_, List.mem_singleton.mp hmsg, _, _, _, _, .inl rfl, rfl⟩

/-- A datagram of the bridge. -/
theorem ends_onBridge {info : Option Nat} {datagram : Option Bytes} (h : TableWf s)
    (hinfo : s.fds.fdInfo.lookup bridgeNumber = some info)
    (hact : act = .fd bridgeNumber datagram) :
    Ends (s.onBridge info datagram) (AsideAt act s) fun r => Change par clear act s r.1 r.2 := by
  unfold Server.onBridge FdManager.toFd
  rw [h.bridge]
  cases hfd : s.fds.fd64ToFd.lookup bridgeNumber with
  | none => exact .descriptor (.inl (by simp [FdManager.exist, hfd]))
  | some fd =>
      have hexist : s.fds.exist bridgeNumber := FdManager.exist_iff.mpr ⟨fd, hfd⟩
      simp only [expect, Checked.ok_bind]
      cases hp : info with
      | none => exact Change.nothing
      | some p =>
          cases hd : datagram with
          | none => exact Change.nothing
          | some d =>
              dsimp only
              apply ends_ite
              · rintro ⟨hvalid, hlen⟩
                cases hc : s.conns.lookup p with
                | none => exact .bridge hexist (by rw [hinfo, hp]) hvalid hc (by rw [hact, hd]) hlen
                | some c =>
                simp only [Checked.ok_bind]
                apply ends_ite
                · intro hstate
                  obtain ⟨b, hwf⟩ := h.ready p c hc hstate
                  unfold ConnInfo.sendDataSafer
                  rw [sendSafer_eq hwf.blob]
                  simp only [Checked.ok_bind]
                  show Change par clear act s _ _
                  apply Change.bridged hc hstate _ (puts_insert _ _ _)
                  · exact .inr ⟨b, _, hwf.blob, rfl, hwf.convs, rfl⟩
                  · rw [hact, hd]
                  · exact hexist
                  · exact hvalid
                  · rw [hinfo, hp]
                  · exact ⟨_, _, _, _, .inr rfl, rfl⟩
                  · exact ⟨rfl, rfl, rfl, rfl, rfl, rfl⟩
                · intro _
                  exact Change.nothing
              · intro _
                exact Change.nothing

/-- An event on a numbered descriptor. -/
theorem ends_onFd {fd64 : Nat} {datagram : Option Bytes} (hclear : ClearsBridge clear)
    (h : TableWf s) (hact : act = .fd fd64 datagram) :
    Ends (s.onFd clear par fd64 datagram) (AsideAt act s)
      fun r => Change par clear act s r.1 r.2 := by
  unfold Server.onFd
  apply ends_require_or
  · exact fun hgone => .stopped hact hgone
  intro hexist
  rcases h.numbered fd64 hexist with rfl | ⟨p, c, hc, hstate, rfl⟩
  · have hinfo := h.bridge_info hexist
    apply ends_require hinfo
    obtain ⟨info, hlook⟩ := Option.isSome_iff_exists.mp hinfo
    unfold FdManager.getInfo
    rw [ends_bind]
    apply ends_require hexist
    rw [hlook, h.bridge]
    simp only [ends_pure, Option.join_some, if_true]
    exact ends_onBridge h hlook hact
  · obtain ⟨b, hwf⟩ := h.ready p c hc hstate
    apply ends_require (by unfold FdManager.existInfo; rw [hwf.info]; rfl)
    unfold FdManager.getInfo
    rw [ends_bind]
    apply ends_require hexist
    rw [hwf.info, h.bridge]
    simp only [ends_pure, Option.join_some, if_neg hwf.timer_ne]
    apply ends_expect rfl
    apply ends_expect hc
    apply ends_require rfl
    exact ends_onTimer hclear h hc hstate ⟨datagram, hact⟩

end Handlers

/-! ## Erasing -/

/-- A connection without conversations is erased. -/
inductive Erasure (s : Server) : Server → Prop where
  | mk {a : Address} {p : Nat} {c : ServerConn} {t : Table Nat ServerConn}
      {keys : Table UInt32 Nat} {n : Nat} {fds : FdManager}
      (ha : s.mp.lookup a = some p) (hc : s.conns.lookup p = some c) (hconvs : Server.convs c = 0)
      (hconns : ∀ x, t.lookup x = if x = p then none else s.conns.lookup x)
      (hkeys : ∀ k x, keys.lookup k = some x ↔ s.constIdMp.lookup k = some x ∧ x ≠ p)
      (hcount : n = keys.size) (hcount_le : n ≤ maxReadyConnNum) (hwf : fds.Wf)
      (hlook : ∀ x, fds.fd64ToFd.lookup x =
        if c.state = .ready ∧ x = c.timerFd64 then none else s.fds.fd64ToFd.lookup x)
      (hinfo : ∀ x, fds.fdInfo.lookup x =
        if c.state = .ready ∧ x = c.timerFd64 then none else s.fds.fdInfo.lookup x)
      (hcounter : fds.counter = s.fds.counter)
      (hclosed : ∀ fd ∈ fds.closed, fd ∈ s.fds.closed ∨
        c.state = .ready ∧ s.fds.fd64ToFd.lookup c.timerFd64 = some fd) :
      Erasure s { s with
        conns := t, mp := s.mp.erase a, constIdMp := keys, readyNum := n, fds := fds }

section Erasing

variable {clear : FdManager → Nat → Except Fault FdManager} {s : Server} {a : Address} {p : Nat}
variable {c : ServerConn} {F : Fault → Prop}

theorem lookup_insert_erase (t : Table Nat ServerConn) (p : Nat) (c : ServerConn) (x : Nat) :
    ((t.insert p c).erase p).lookup x = if x = p then none else t.lookup x := by
  rw [Table.lookup_erase_eq, Table.lookup_insert_eq]
  split <;> rfl

/-- A connection that is not ready. -/
theorem ends_erase_bare (h : TableWf s) (ha : s.mp.lookup a = some p)
    (hc : s.conns.lookup p = some c) (hconvs : Server.convs c = 0) (hnot : c.state ≠ .ready) :
    Ends (s.erase clear a p) F fun s' => Erasure s s' ∧ s'.conns.lookup p = none := by
  have hbare := h.bare p c hc hnot
  unfold Server.erase
  apply ends_expect hc
  rw [if_neg hnot]
  apply ends_require (by rw [hbare.blob]; rfl)
  apply ends_require hbare.timer
  apply ends_require hbare.constId
  unfold Server.delete
  rw [ends_bind]
  apply ends_expect hc
  apply ends_require
  · rw [if_neg hnot]
    exact ⟨by rw [hbare.blob]; rfl, hbare.constId⟩
  apply ends_require hbare.timer
  rw [hbare.blob]
  refine And.intro ?_ ((Table.lookup_erase_eq _ _ _).trans (if_pos rfl))
  apply Erasure.mk ha hc hconvs
  · exact fun x => Table.lookup_erase_eq _ _ _
  · intro k x
    constructor
    · intro hk
      refine ⟨hk, ?_⟩
      rintro rfl
      obtain ⟨c₁, hc₁, hready, -⟩ := h.constId k x hk
      rw [hc] at hc₁
      obtain rfl := Option.some.inj hc₁
      exact hnot hready
    · exact fun hk => hk.1
  · exact h.count
  · exact h.count_le
  · exact h.fds
  · exact fun x => by rw [if_neg fun hx => hnot hx.1]
  · exact fun x => by rw [if_neg fun hx => hnot hx.1]
  · rfl
  · exact fun fd hfd => .inl hfd

/-- A ready connection: its timer is closed and its identity is free again. -/
theorem ends_erase_ready (h : TableWf s) (ha : s.mp.lookup a = some p)
    (hc : s.conns.lookup p = some c) (hconvs : Server.convs c = 0) (hready : c.state = .ready) :
    Ends (s.erase clear a p) F fun s' => Erasure s s' ∧ s'.conns.lookup p = none := by
  obtain ⟨b, hwf⟩ := h.ready p c hc hready
  obtain ⟨fd, hfd⟩ := FdManager.exist_iff.mp hwf.timer
  have htimer := (h.fds.old _ hwf.timer).1
  have hcount : s.readyNum ≠ 0 := by
    have := Table.size_pos_of_some hwf.constId
    rw [h.count]
    omega
  have hempty : b.convManager.convToData.entries = [] := by
    have hsize : b.convManager.convToData.keys.length = 0 := by
      unfold Server.convs at hconvs
      rw [hwf.blob] at hconvs
      exact hconvs
    unfold AList.keys List.keys at hsize
    rw [List.length_map] at hsize
    exact List.length_eq_zero_iff.mp hsize
  unfold Server.erase
  apply ends_expect hc
  rw [if_pos hready]
  apply ends_require hcount
  apply ends_require (by omega)
  apply ends_require hwf.timer
  apply ends_require hwf.constId_ne
  apply ends_require (by rw [hwf.constId]; rfl)
  unfold FdManager.fd64Close
  rw [ends_bind]
  apply ends_expect hfd
  unfold Server.delete
  simp only [ends_pure]
  rw [ends_bind]
  apply ends_expect (AList.lookup_insert _)
  dsimp only
  apply ends_require
  · rw [if_pos hready]
    exact ⟨by rw [hwf.blob]; rfl, hwf.constId_ne⟩
  apply ends_require rfl
  rw [hwf.blob]
  dsimp only
  unfold ConvManager.clearAll
  rw [hempty]
  refine And.intro ?_ ((lookup_insert_erase _ _ _ _).trans (if_pos rfl))
  apply Erasure.mk ha hc hconvs
  · exact lookup_insert_erase _ _ _
  · intro k x
    show (s.constIdMp.erase c.oppsiteConstId).lookup k = some x ↔ _
    rw [Table.lookup_erase_eq]
    by_cases hk : k = c.oppsiteConstId
    · rw [if_pos hk, hk, hwf.constId]
      simp [eq_comm]
    · rw [if_neg hk]
      refine ⟨fun hx => ⟨hx, ?_⟩, fun hx => hx.1⟩
      rintro rfl
      obtain ⟨c₁, hc₁, -, hkey⟩ := h.constId k x hx
      rw [hc] at hc₁
      obtain rfl := Option.some.inj hc₁
      exact hk hkey.symm
  · show s.readyNum - 1 = Table.size (s.constIdMp.erase c.oppsiteConstId)
    have := Table.size_erase_of_some hwf.constId
    rw [h.count]
    omega
  · exact (Nat.sub_le _ _).trans h.count_le
  · exact h.fds.removed hfd
  · intro x
    show (s.fds.removed c.timerFd64 fd).fd64ToFd.lookup x = _
    rw [removed_lookup]
    simp [hready]
  · intro x
    show (s.fds.removed c.timerFd64 fd).fdInfo.lookup x = _
    rw [removed_info]
    simp [hready]
  · rfl
  · intro fd' hfd'
    rcases List.mem_cons.mp hfd' with rfl | hfd'
    · exact .inr ⟨hready, hfd⟩
    · exact .inl hfd'

/-- Only a ready connection has conversations. -/
theorem TableWf.ready_of_convs (h : TableWf s) (hc : s.conns.lookup p = some c)
    (hconvs : 0 < Server.convs c) : c.state = .ready := by
  by_contra hnot
  unfold Server.convs at hconvs
  rw [(h.bare p c hc hnot).blob] at hconvs
  exact absurd hconvs (by decide)

/-- One round of the sweep erases at most one connection. -/
theorem ends_visit (h : TableWf s) :
    Ends (s.visit clear a) F fun s' => s' = s ∨ Erasure s s' := by
  unfold Server.visit
  cases ha : s.mp.lookup a with
  | none => exact .inl rfl
  | some p =>
      obtain ⟨c, hc⟩ := h.entry a p ha
      apply ends_expect hc
      apply ends_ite
      · exact fun _ => .inl rfl
      intro _
      apply ends_ite
      · exact fun _ => .inl rfl
      intro _
      apply ends_ite
      · intro hconvs
        apply ends_require (h.ready_of_convs hc hconvs)
        exact .inl rfl
      intro hconvs
      have hzero : Server.convs c = 0 := Nat.eq_zero_of_not_pos hconvs
      by_cases hready : c.state = .ready
      · exact (ends_erase_ready h ha hc hzero hready).mono (fun s' hs' => .inr hs'.1) fun f hf => hf
      · exact (ends_erase_bare h ha hc hzero hready).mono (fun s' hs' => .inr hs'.1) fun f hf => hf

/-- What an erasure keeps, a sweep keeps. -/
theorem ends_clearInactive {I : Server → Prop} {visits : List Address} (hwf : ∀ s, I s → TableWf s)
    (herase : ∀ s s', I s → Erasure s s' → I s')
    (hs : ∀ t, I { s with lastClearTime := t }) :
    Ends (s.clearInactive clear visits) F I := by
  unfold Server.clearInactive
  apply ends_ite
  · intro _
    apply ends_foldlM
    · intro s a _ hI
      apply (ends_visit (hwf s hI)).mono _ fun f hf => hf
      rintro s' (rfl | hs')
      · exact hI
      · exact herase s s' hI hs'
    · exact hs s.now
  · intro _
    exact hs s.lastClearTime

end Erasing

end Fecraw.Ports.Raw
