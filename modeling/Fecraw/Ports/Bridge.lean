import Fecraw.Ports.ServerTable

/-!
# The bridge of the server

All conversations of all connections have the bridge as their data, and
`server_clear_function` closes the data of a conversation that expires.  So the
bridge is open until the first conversation expires.

A datagram from the bridge goes to the connection in the bridge's `p_conn_info`
with the number in `g_bridge_conv`.  The two are set by different handlers.

## Main results

* `bridge_open_of_run`: when the bridge stays open.
* `downlink_of_run`: when a datagram from the bridge goes to a conversation of
  the connection it is sent to.
-/

namespace Fecraw.Ports.Raw

open Fecraw.Verified

variable {par : Params} {clear : FdManager → Nat → Except Fault FdManager} {act : Server.Action}
variable {s s' : Server} {p q fd : Nat} {c c' : ServerConn}

/-! ## The descriptor -/

/-- The bridge is registered with its descriptor, which was not closed. -/
structure BridgeOpen (fd : Nat) (s : Server) : Prop where
  lookup : s.fds.fd64ToFd.lookup s.bridgeFd64 = some fd
  closed : fd ∉ s.fds.closed

/-- Nothing but an expiring conversation closes the bridge. -/
theorem BridgeOpen.change {out : List Sent} (h : BridgeOpen fd s) (hwf : TableWf s)
    (hexp : ¬ Expiring act s) (hchange : Change par clear act s s' out) : BridgeOpen fd s' := by
  cases hchange with
  | nothing | reply | touch | bridged | conv | opened | refused => exact ⟨h.lookup, h.closed⟩
  | grabbed => exact ⟨h.lookup, h.closed⟩
  | timer hc _ _ _ hb _ hact hclear _ =>
      obtain ⟨d, hact⟩ := hact
      obtain ⟨t, hok⟩ := @ConvManager.clearInactive_of_not_expires _ _ _ _ clear _ _ s.fds
        fun hexpires => hexp ⟨_, _, _, d, hact, hc, hb, hexpires⟩
      obtain ⟨-, rfl⟩ := Prod.mk.inj (Except.ok.inj (hclear.symm.trans hok))
      exact ⟨h.lookup, h.closed⟩
  | readied =>
      refine ⟨?_, h.closed⟩
      show (s.fds.added _).fd64ToFd.lookup s.bridgeFd64 = some fd
      have := hwf.bridge_lt
      rw [added_lookup, if_neg (by rw [hwf.bridge]; omega)]
      exact h.lookup

/-- Erasing a connection closes its timer only. -/
theorem BridgeOpen.erased (h : BridgeOpen fd s) (hwf : TableWf s) (herase : Erasure s s') :
    BridgeOpen fd s' := by
  obtain ⟨-, hc, -, -, -, -, -, -, hlook, -, -, hclosed⟩ := herase
  rename_i a p c t keys n fds
  have hbridge := h.lookup
  rw [hwf.bridge] at hbridge
  have hne : ∀ hready : c.state = .ready, c.timerFd64 ≠ bridgeNumber := by
    intro hready
    obtain ⟨b, hready⟩ := hwf.ready p c hc hready
    exact hready.timer_ne
  constructor
  · show fds.fd64ToFd.lookup s.bridgeFd64 = some fd
    rw [hlook, hwf.bridge, if_neg fun hx => hne hx.1 hx.2.symm]
    exact hbridge
  · intro hmem
    rcases hclosed fd hmem with hmem | ⟨hready, hfd⟩
    · exact h.closed hmem
    · have hsame := (hwf.fds.inverse _ _).mpr hfd
      rw [(hwf.fds.inverse _ _).mpr hbridge] at hsame
      exact hne hready (Option.some.inj hsame).symm

/-- Events that are not the timer of a connection with a conversation that
expires. -/
structure Quiet (s : Server) (ev : Server.Event) : Prop extends Proper s ev where
  lasting : ¬ Expiring ev.action { s with now := ev.now }

theorem bridgeOpen_start (fd : Nat) : BridgeOpen fd (Server.start fd) := by
  refine ⟨?_, by simp [Server.start, FdManager.added]⟩
  show (({} : FdManager).added fd).fd64ToFd.lookup ({} : FdManager).counter = some fd
  rw [added_lookup, if_pos rfl]

theorem ends_step_quiet {ev : Server.Event} (hclear : ClearsBridge clear) (hwf : TableWf s)
    (h : BridgeOpen fd s) (hev : Quiet s ev) :
    Ends (s.step clear par ev) (AsideAt ev.action { s with now := ev.now }) fun r =>
      TableWf r.1 ∧ BridgeOpen fd r.1 := by
  have hwf' : TableWf { s with now := ev.now } := hwf.at hev.now
  have h' : BridgeOpen fd { s with now := ev.now } := ⟨h.lookup, h.closed⟩
  apply ends_step_keeps (fun s' => TableWf s' ∧ BridgeOpen fd s') hclear
  · exact fun _ hI => hI.1
  · exact fun t => ⟨hwf.at hev.now, h.lookup, h.closed⟩
  · intro s' out hs'
    exact ⟨hwf'.change hclear hev.constId hs', h'.change hwf' hev.lasting hs'⟩
  · rintro s s' ⟨hwf, h⟩ hs'
    exact ⟨hwf.erased hs', h.erased hwf hs'⟩

/-- `server_clear_function` closes the bridge. -/
theorem ends_serverClearFunction {m : FdManager} (hwf : m.Wf) :
    Ends (serverClearFunction m bridgeNumber) (· = .descriptor bridgeNumber) fun m' =>
      m'.Wf ∧ ¬ m'.exist bridgeNumber := by
  unfold serverClearFunction
  apply ends_require_or
  · intro _
    rfl
  · intro hexist
    obtain ⟨fd, hfd⟩ := FdManager.exist_iff.mp hexist
    unfold FdManager.fd64Close
    apply ends_expect hfd
    refine ⟨hwf.removed hfd, ?_⟩
    unfold FdManager.exist
    rw [removed_lookup, if_pos rfl]
    decide

/-- When a conversation expires, the bridge is closed, or closed twice. -/
theorem ends_clear_expires {b : Blob Nat} (h : TableWf s) (hwf : ReadyWf s p c b)
    (hexp : b.convManager.Expires s.now) :
    Ends (b.convManager.clearInactive serverClearFunction s.fds s.now)
      (· = .descriptor bridgeNumber) fun r => ¬ r.2.exist bridgeNumber := by
  have hcloses : ∀ m d, d = bridgeNumber → m.Wf → Ends (serverClearFunction m d)
      (· = .descriptor bridgeNumber) fun m' => m'.Wf ∧ ¬ m'.exist bridgeNumber := by
    rintro m d rfl hm
    exact ends_serverClearFunction hm
  have hends := ConvManager.ends_clearInactive_of_expires hexp hwf.convs hwf.data
    (fun d hd => hcloses s.fds d hd h.fds) fun m d hd hm => hcloses m d hd hm.1
  exact hends.mono (fun r hr => hr.2) fun f hf => hf

/-- The event on a connection's timer is handled by `server_on_timer_multi`. -/
theorem onFd_timer {b : Blob Nat} {d : Option Bytes} (h : TableWf s)
    (hc : s.conns.lookup p = some c) (hwf : ReadyWf s p c b) :
    s.onFd clear par c.timerFd64 d = s.onTimer clear par p := by
  have hinfo : s.fds.existInfo c.timerFd64 := by
    unfold FdManager.existInfo
    rw [hwf.info]
    rfl
  unfold Server.onFd FdManager.getInfo
  simp [require, expect, hwf.timer, hinfo, hwf.info, h.bridge, hwf.timer_ne, Server.deref, hc]

/-- The timer of a connection with a conversation that expires. -/
theorem ends_step_expiring {ev : Server.Event} (h : TableWf { s with now := ev.now })
    (hexp : Expiring ev.action { s with now := ev.now }) :
    Ends (s.step serverClearFunction par ev) (· = .descriptor bridgeNumber) fun r =>
      ¬ r.1.fds.exist bridgeNumber := by
  obtain ⟨now, act⟩ := ev
  obtain ⟨p, c, b, d, rfl, hc, hb, hexp⟩ := hexp
  have hready : c.state = .ready := by
    by_contra hnot
    rw [(h.bare p c hc hnot).blob] at hb
    exact absurd hb (by simp)
  obtain ⟨b₀, hwf⟩ := h.ready p c hc hready
  obtain rfl := Option.some.inj (hwf.blob.symm.trans hb)
  show Ends (Server.onFd serverClearFunction par { s with now := now } c.timerFd64 d) _ _
  rw [onFd_timer h hc hwf]
  unfold Server.onTimer
  apply ends_expect hc
  apply ends_require hready
  apply ends_expect hb
  apply (ends_clear_expires h hwf hexp).bind
  rintro ⟨m, fds⟩ hgone
  apply ends_ite
  · exact fun _ => hgone
  · intro _
    rw [sendSafer_eq rfl]
    exact hgone

/-- In a run in which no connection's timer finds a conversation that expires,
the bridge is open, and the next event leaves it open if and only if it is not
such a timer. -/
theorem bridge_open_of_run
    (hreach : Reached (Server.step serverClearFunction par) Quiet (Server.start fd) s) :
    BridgeOpen fd s ∧ ∀ ev, Proper s ev →
      ((s.step serverClearFunction par ev ≠ .error (.descriptor s.bridgeFd64) ∧
          ∀ s' out, s.step serverClearFunction par ev = .ok (s', out) → BridgeOpen fd s') ↔
        ¬ Expiring ev.action { s with now := ev.now }) := by
  have hclear := clearsBridge_serverClearFunction
  obtain ⟨hwf, h⟩ : TableWf s ∧ BridgeOpen fd s := by
    induction hreach with
    | start => exact ⟨tableWf_start fd, bridgeOpen_start fd⟩
    | next _ hev hok ih => exact (ends_step_quiet hclear ih.1 ih.2 hev).of_ok hok
  have hexist : s.fds.exist bridgeNumber := by
    rw [← hwf.bridge]
    exact FdManager.exist_iff.mpr ⟨fd, h.lookup⟩
  refine ⟨h, fun ev hev => ⟨?_, ?_⟩⟩
  · rintro ⟨hne, hopen⟩ hexp
    have hends := @ends_step_expiring par s ev (hwf.at hev.now) hexp
    rcases hres : s.step serverClearFunction par ev with f | ⟨s', out⟩
    · rw [hres, hends.of_error hres, hwf.bridge] at hne
      exact hne rfl
    · have hopen' := hopen s' out hres
      have hwf' := ((ends_step hclear hwf hev).of_ok hres).1
      have hlook := hopen'.lookup
      rw [hwf'.bridge] at hlook
      exact hends.of_ok hres (FdManager.exist_iff.mpr ⟨fd, hlook⟩)
  · intro hlasting
    have hends := @ends_step_quiet par _ s fd ev hclear hwf h ⟨hev, hlasting⟩
    refine ⟨fun herr => ?_, fun s' out hok => (hends.of_ok hok).2⟩
    have haside := hends.of_error herr
    rw [hwf.bridge] at haside
    cases haside with
    | descriptor hwhy => exact hwhy.elim (fun hgone => hgone hexist) hlasting

/-- The check that an event is proper, and on no numbered descriptor. -/
def Server.quiet (s : Server) (ev : Server.Event) : Bool :=
  s.proper ev && match ev.action with
    | .fd _ _ => false
    | _ => true

theorem quiet_of_check (s : Server) (ev : Server.Event) (h : s.quiet ev) : Quiet s ev := by
  unfold Server.quiet at h
  rw [Bool.and_eq_true] at h
  refine ⟨proper_of_check s ev h.1, ?_⟩
  rintro ⟨p, c, b, d, hact, -⟩
  rw [hact] at h
  exact Bool.false_ne_true h.2

/-- After a handshake, the bridge is open. -/
theorem bridge_open_of_run_handshake : ∃ s,
    Reached (Server.step serverClearFunction { hbMode0 := true }) Quiet (Server.start 3) s ∧
      s.readyNum = 1 ∧ BridgeOpen 3 s := by
  obtain ⟨s, outs, -, hreach, hnum⟩ := @exists_reached _ _ _ _
    (Server.step serverClearFunction { hbMode0 := true }) Quiet _
    (fun r => r.1.readyNum = 1) (Server.start 3) handshakeEvents quiet_of_check
    (by decide) (by decide)
  exact ⟨s, hreach, of_decide_eq_true hnum, (bridge_open_of_run hreach).1⟩

/-- A packet with the plaintext of a record. -/
def recordPacket (src : Address) (plain : Bytes) : Server.Packet where
  src := src
  recv := .payload false (some plain) []

/-- A client sends one datagram and is silent for three minutes: its connection's
timer closes the bridge. -/
theorem bridge_closed : ∃ s,
    Reached (Server.step serverClearFunction { hbMode0 := true }) Proper (Server.start 3) s ∧
      s.fds.fd64ToFd.lookup s.bridgeFd64 = none ∧ 3 ∈ s.fds.closed := by
  obtain ⟨s, outs, -, hreach, hgone⟩ := @exists_reached _ _ _ _
    (Server.step serverClearFunction { hbMode0 := true }) Proper _
    (fun r => (r.1.fds.fd64ToFd.lookup r.1.bridgeFd64).isNone ∧ 3 ∈ r.1.fds.closed) (Server.start 3)
    (handshakeEvents ++
      [⟨3, .raw (recordPacket ⟨1, 1⟩ (saferMessage 7 5 1 tagData 0 [0, 0, 0, 1, 65])) {}⟩,
        ⟨180003, .fd (bridgeNumber + 1) none⟩]) proper_of_check (by decide) (by decide)
  have hgone := of_decide_eq_true hgone
  exact ⟨s, hreach, Option.isNone_iff_eq_none.mp hgone.1, hgone.2⟩

/-! ## Datagrams from the bridge -/

/-- A ready connection has this conversation. -/
def HasConv (s : Server) (p : Nat) (conv : UInt32) : Prop :=
  ∃ c b, s.conns.lookup p = some c ∧ c.state = .ready ∧ c.blob = some b ∧
    b.convManager.isConvUsed conv

/-- A client that is known comes back from another address while `g_bridge_conv`
is not one of its conversations. -/
def BadGrab (act : Server.Action) (s : Server) : Prop :=
  ∃ p c q ori id1, s.conns.lookup p = some c ∧ c.state = .handshake1 ∧
    s.conns.lookup q = some ori ∧ ori.state = .ready ∧ ori.lastStateTime ≤ c.lastStateTime ∧
    Handshake act c.recv id1 c.myId ori.oppsiteConstId ∧
    s.bridgeConvValid = true ∧ ¬ HasConv s q s.bridgeConv

/-- A data record starts a conversation that becomes `g_bridge_conv`, while the
bridge's connection is another one without this conversation. -/
def BadConv (par : Params) (act : Server.Action) (s : Server) : Prop :=
  ∃ p c b conv q, s.conns.lookup p = some c ∧ c.state = .ready ∧ c.blob = some b ∧
    DataRecord par act s c conv ∧ ¬ b.convManager.isConvUsed conv ∧
    b.convManager.getSize < maxConvNum ∧ s.bridgeConvValid = false ∧
    s.fds.fdInfo.lookup bridgeNumber = some (some q) ∧ q ≠ p ∧ ¬ HasConv s q conv

/-- While the bridge is open, `g_bridge_conv` is a conversation of the bridge's
connection. -/
def BridgeConv (s : Server) : Prop :=
  ∀ p, s.fds.exist bridgeNumber → s.fds.fdInfo.lookup bridgeNumber = some (some p) →
    s.bridgeConvValid = true → HasConv s p s.bridgeConv

/-- A conversation stays when its connection keeps its state and its
conversations. -/
theorem HasConv.put {t : Table Nat ServerConn} {conv : UInt32} (h : HasConv s q conv)
    (hc : s.conns.lookup p = some c) (hput : Puts s.conns t p c')
    (hkeep : c.state = .ready → c'.state = .ready ∧ ∀ b, c.blob = some b → ∃ b', c'.blob = some b' ∧
      (b.convManager.isConvUsed conv → b'.convManager.isConvUsed conv))
    (hconns : s'.conns = t) : HasConv s' q conv := by
  obtain ⟨c₀, b, hq, hready, hb, hused⟩ := h
  by_cases hqp : q = p
  · rw [hqp, hc] at hq
    obtain rfl := Option.some.inj hq
    obtain ⟨hready', hblob⟩ := hkeep hready
    obtain ⟨b', hb', hused'⟩ := hblob b hb
    exact ⟨c', b', by rw [hconns, hqp, hput.lookup], hready', hb', hused' hused⟩
  · exact ⟨c₀, b, by rw [hconns, hput.lookup_ne hqp, hq], hready, hb, hused⟩

theorem SameConvs.used {now : Nat} {b : Blob Nat} {conv : UInt32} (h : SameConvs now c c')
    (hb : c.blob = some b) : ∃ b', c'.blob = some b' ∧
      (b.convManager.isConvUsed conv → b'.convManager.isConvUsed conv) := by
  rcases h with ⟨hnone, -⟩ | ⟨b₀, b', hb₀, hb', -, hdata⟩
  · rw [hb] at hnone
    exact absurd hnone (by simp)
  · obtain rfl := Option.some.inj (hb.symm.trans hb₀)
    exact ⟨b', hb', by unfold ConvManager.isConvUsed; rw [hdata]; exact id⟩

/-- A connection that is written to keeps its conversations. -/
theorem BridgeConv.touch {t : Table Nat ServerConn} (h : BridgeConv s)
    (hc : s.conns.lookup p = some c) (hkeep : Keeps c c') (hput : Puts s.conns t p c')
    (hconvs : SameConvs s.now c c') : BridgeConv { s with conns := t } := by
  intro x hexist hinfo hvalid
  refine (h x hexist hinfo hvalid).put hc hput (fun hready => ⟨?_, ?_⟩) rfl
  · rw [hkeep.state]
    exact hready
  · exact fun b hb => hconvs.used hb

/-- A data record starts a conversation. -/
theorem BridgeConv.conv {t : Table Nat ServerConn} {b b' : Blob Nat} {conv : UInt32}
    (h : BridgeConv s) (hc : s.conns.lookup p = some c) (hstate : c.state = .ready)
    (hkeep : Keeps c c') (hput : Puts s.conns t p c') (hb : c.blob = some b)
    (hb' : c'.blob = some b')
    (hdata : b'.convManager.convToData = b.convManager.convToData.insert conv bridgeNumber)
    (hother : s.bridgeConvValid = false → ∀ q, q ≠ p →
      s.fds.fdInfo.lookup bridgeNumber = some (some q) → HasConv s q conv) :
    BridgeConv { s with
      conns := t
      bridgeConv := if s.bridgeConvValid then s.bridgeConv else conv
      bridgeConvValid := true } := by
  have hused : ∀ k, b'.convManager.isConvUsed k ↔ k = conv ∨ b.convManager.isConvUsed k := by
    intro k
    rw [ConvManager.isConvUsed_iff, ConvManager.isConvUsed_iff, hdata, AList.mem_insert]
  have hready : c'.state = .ready := hkeep.state.trans hstate
  have hstay : ∀ x k, HasConv s x k → HasConv { s with
      conns := t
      bridgeConv := if s.bridgeConvValid then s.bridgeConv else conv
      bridgeConvValid := true } x k := by
    intro x k hx
    refine hx.put hc hput (fun _ => ⟨hready, fun b₀ hb₀ => ⟨b', hb', ?_⟩⟩) rfl
    obtain rfl := Option.some.inj (hb.symm.trans hb₀)
    exact fun hk => (hused k).mpr (.inr hk)
  intro x hexist hinfo _
  show HasConv _ x (if s.bridgeConvValid then s.bridgeConv else conv)
  by_cases hvalid : s.bridgeConvValid
  · rw [if_pos hvalid]
    exact hstay _ _ (h x hexist hinfo hvalid)
  · rw [if_neg hvalid]
    by_cases hxp : x = p
    · exact ⟨c', b', by rw [hxp]; exact hput.lookup, hready, hb', (hused conv).mpr (.inl rfl)⟩
    · exact hstay _ _ (hother (Bool.eq_false_iff.mpr hvalid) x hxp hinfo)

/-- The timer of a connection clears its conversations. -/
theorem BridgeConv.timer {t : Table Nat ServerConn} {b b' : Blob Nat} {fds : FdManager}
    (h : BridgeConv s) (hwf : TableWf s) (hc : s.conns.lookup p = some c)
    (hstate : c.state = .ready) (hkeep : Keeps c c') (hput : Puts s.conns t p c')
    (hb : c.blob = some b) (hb' : c'.blob = some b')
    (hok : b.convManager.clearInactive serverClearFunction s.fds s.now =
      .ok (b'.convManager, fds)) :
    BridgeConv { s with conns := t, fds := fds } := by
  obtain ⟨b₀, hready⟩ := hwf.ready p c hc hstate
  obtain rfl := Option.some.inj (hready.blob.symm.trans hb)
  intro x hexist hinfo hvalid
  by_cases hexp : b₀.convManager.Expires s.now
  · exact absurd hexist ((ends_clear_expires hwf hready hexp).of_ok hok)
  · obtain ⟨tm, hsame⟩ := @ConvManager.clearInactive_of_not_expires _ _ _ _ serverClearFunction
      _ _ s.fds hexp
    obtain ⟨hmap, rfl⟩ := Prod.mk.inj (Except.ok.inj (hok.symm.trans hsame))
    refine (h x hexist hinfo hvalid).put hc hput (fun _ => ⟨hkeep.state.trans hstate, ?_⟩) rfl
    intro b₁ hb₁
    obtain rfl := Option.some.inj (hb.symm.trans hb₁)
    exact ⟨b', hb', by rw [hmap]; exact id⟩

/-- A connection from a new address. -/
theorem BridgeConv.opened {t : Table Nat ServerConn} {a : Address} (h : BridgeConv s)
    (hfree : s.conns.lookup p = none) (hput : Puts s.conns t p c) :
    BridgeConv { s with conns := t, mp := s.mp.insert a p } := by
  intro x hexist hinfo hvalid
  obtain ⟨c₀, b, hx, hrest⟩ := h x hexist hinfo hvalid
  refine ⟨c₀, b, ?_, hrest⟩
  show t.lookup x = some c₀
  rw [hput.lookup_ne ?_, hx]
  rintro rfl
  rw [hfree] at hx
  exact absurd hx (by simp)

/-- A client comes back, and its connection becomes the bridge's. -/
theorem BridgeConv.grabbed {t : Table Nat ServerConn} {ori ori' : ServerConn} {b b' : Blob Nat}
    {mp : Table Address Nat} (hc : s.conns.lookup p = some c) (hstate : c.state = .handshake1)
    (hori : s.conns.lookup q = some ori) (hready : ori.state = .ready)
    (hput : ∀ x, t.lookup x = if x = p then some c' else if x = q then some ori' else
      s.conns.lookup x)
    (hready' : ori'.state = .ready) (hb : ori.blob = some b) (hb' : ori'.blob = some b')
    (hconvs : b'.convManager = b.convManager)
    (hold : s.bridgeConvValid = true → HasConv s q s.bridgeConv) :
    BridgeConv { s with conns := t, mp := mp, fds := s.fds.withInfo bridgeNumber (some q) } := by
  intro x _ hinfo hvalid
  have hx : x = q := by
    have hinfo' : (s.fds.withInfo bridgeNumber (some q)).fdInfo.lookup bridgeNumber =
      some (some x) := hinfo
    rw [withInfo_info, if_pos rfl] at hinfo'
    exact (Option.some.inj (Option.some.inj hinfo')).symm
  have hne : q ≠ p := ne_of_ready hc hstate hori hready
  obtain ⟨c₁, b₁, hq, -, hb₁, hused⟩ := hold hvalid
  obtain rfl := Option.some.inj (hori.symm.trans hq)
  obtain rfl := Option.some.inj (hb.symm.trans hb₁)
  refine ⟨ori', b', ?_, hready', hb', by rw [hconvs]; exact hused⟩
  show t.lookup x = some ori'
  rw [hput, hx, if_neg hne, if_pos rfl]

/-- What happens to the bridge where no client's conversations are mixed up. -/
theorem BridgeConv.change {out : List Sent} (h : BridgeConv s) (hwf : TableWf s)
    (hgrab : ¬ BadGrab act s) (hconv : ¬ BadConv par act s)
    (hchange : Change par serverClearFunction act s s' out) : BridgeConv s' := by
  cases hchange with
  | nothing => exact h
  | reply hc hstate hput _ =>
      have hbare := hwf.bare _ _ hc (by rw [hstate]; decide)
      exact h.touch hc (Keeps.refl _) hput (.inl ⟨hbare.blob, hbare.blob⟩)
  | touch hc hkeep hput hconvs _ => exact h.touch hc hkeep hput hconvs
  | bridged hc _ hkeep hput hconvs _ _ _ _ _ => exact h.touch hc hkeep hput hconvs
  | conv hc hstate hkeep hput hb hb' hrecord hroom hnew _ hdata _ =>
      apply h.conv hc hstate hkeep hput hb hb' hdata
      intro hvalid q hne hinfo
      by_contra hno
      exact hconv ⟨_, _, _, _, q, hc, hstate, hb, hrecord, hnew, hroom, hvalid, hinfo, hne, hno⟩
  | timer hc hstate hkeep hput hb hb' _ hok _ => exact h.timer hwf hc hstate hkeep hput hb hb' hok
  | opened hfree _ hput _ _ _ _ _ => exact h.opened hfree hput
  | refused hc hstate hput _ _ _ =>
      intro x hexist hinfo hvalid
      refine (h x hexist hinfo hvalid).put hc hput (fun hready => ?_) rfl
      rw [hstate] at hready
      exact absurd hready (by decide)
  | readied => exact fun _ _ _ hvalid => absurd hvalid Bool.false_ne_true
  | grabbed hc hstate hori hready hput _ _ _ hready' _ _ _ _ hb hb' hconvs hshake hle _ =>
      apply BridgeConv.grabbed hc hstate hori hready hput hready' hb hb' hconvs
      intro hvalid
      by_contra hno
      exact hgrab ⟨_, _, _, _, _, hc, hstate, hori, hready, hle, hshake, hvalid, hno⟩

/-- A connection that is erased has no conversations. -/
theorem BridgeConv.erased (h : BridgeConv s) (hwf : TableWf s) (herase : Erasure s s') :
    BridgeConv s' := by
  obtain ⟨-, hc, hconvs, hconns, -, -, -, -, hlook, hinfo', -, -⟩ := herase
  rename_i a p c t keys n fds
  have hne : ¬ (c.state = .ready ∧ bridgeNumber = c.timerFd64) := by
    rintro ⟨hready, htimer⟩
    obtain ⟨b, hready⟩ := hwf.ready p c hc hready
    exact hready.timer_ne htimer.symm
  intro x hexist hinfo hvalid
  have hexist' : s.fds.exist bridgeNumber := by
    unfold FdManager.exist at *
    rw [hlook, if_neg hne] at hexist
    exact hexist
  rw [hinfo', if_neg hne] at hinfo
  obtain ⟨c₀, b, hx, hready, hb, hused⟩ := h x hexist' hinfo hvalid
  refine ⟨c₀, b, ?_, hready, hb, hused⟩
  show t.lookup x = some c₀
  rw [hconns, if_neg ?_, hx]
  rintro rfl
  obtain rfl := Option.some.inj (hc.symm.trans hx)
  have hpos := Table.size_pos_of_some (Option.isSome_iff_exists.mp hused).choose_spec
  unfold Server.convs at hconvs
  rw [hb] at hconvs
  exact absurd hconvs (Nat.ne_of_gt hpos)

/-- Events that do not mix up the conversations of two clients. -/
structure Steady (par : Params) (s : Server) (ev : Server.Event) : Prop extends Proper s ev where
  grab : ¬ BadGrab ev.action { s with now := ev.now }
  conv : ¬ BadConv par ev.action { s with now := ev.now }

theorem ends_step_steady {ev : Server.Event} (hwf : TableWf s) (h : BridgeConv s)
    (hev : Steady par s ev) :
    Ends (s.step serverClearFunction par ev) (AsideAt ev.action { s with now := ev.now }) fun r =>
      TableWf r.1 ∧ BridgeConv r.1 := by
  have hclear := clearsBridge_serverClearFunction
  have hwf' : TableWf { s with now := ev.now } := hwf.at hev.now
  have h' : BridgeConv { s with now := ev.now } := h
  apply ends_step_keeps (fun s' => TableWf s' ∧ BridgeConv s') hclear
  · exact fun _ hI => hI.1
  · exact fun t => ⟨hwf.at hev.now, h⟩
  · intro s' out hs'
    exact ⟨hwf'.change hclear hev.constId hs', h'.change hwf' hev.grab hev.conv hs'⟩
  · rintro s s' ⟨hwf, h⟩ hs'
    exact ⟨hwf.erased hs', h.erased hwf hs'⟩

/-- Where `send_data_safer` is called. -/
theorem Change.data_mem {out : List Sent} {conv : UInt32} {plain : Bytes}
    (hchange : Change par clear act s s' out) (hmem : Sent.data p conv plain ∈ out) :
    conv = s.bridgeConv ∧ s.bridgeConvValid = true ∧ s.fds.exist bridgeNumber ∧
      s.fds.fdInfo.lookup bridgeNumber = some (some p) := by
  cases hchange with
  | nothing | refused => exact absurd hmem (by simp)
  | reply | opened | readied | grabbed => exact absurd (List.mem_singleton.mp hmem) (by simp)
  | touch _ _ _ _ hout | conv _ _ _ _ _ _ _ _ _ _ _ hout =>
      obtain ⟨fd, d, heq⟩ := hout _ hmem
      exact absurd heq (by simp)
  | timer _ _ _ _ _ _ _ _ hout =>
      obtain ⟨plain, heq, -⟩ := hout _ hmem
      exact absurd heq (by simp)
  | bridged _ _ _ _ _ _ hexist hvalid hinfo _ =>
      obtain ⟨rfl, rfl, rfl⟩ := Sent.data.inj (List.mem_singleton.mp hmem)
      exact ⟨rfl, hvalid, hexist, hinfo⟩

/-- In a run that does not mix up the conversations of two clients, a datagram
from the bridge goes to a connection that is stored and ready, as one of its
own conversations. -/
theorem downlink_of_run
    (hreach : Reached (Server.step serverClearFunction par) (Steady par) (Server.start fd) s) :
    ∀ ev, Proper s ev → s.step serverClearFunction par ev ≠ .error .bridge ∧
      ∀ s' out p conv plain, s.step serverClearFunction par ev = .ok (s', out) →
        Sent.data p conv plain ∈ out →
        conv = s.bridgeConv ∧ (∃ a, s.mp.lookup a = some p) ∧ HasConv s p conv := by
  have hclear := clearsBridge_serverClearFunction
  obtain ⟨hwf, h⟩ : TableWf s ∧ BridgeConv s := by
    induction hreach with
    | start => exact ⟨tableWf_start fd, fun _ _ _ hvalid => absurd hvalid Bool.false_ne_true⟩
    | next _ hev hok ih => exact (ends_step_steady ih.1 ih.2 hev).of_ok hok
  intro ev hev
  have hwf' : TableWf { s with now := ev.now } := hwf.at hev.now
  have hends : Ends (s.step serverClearFunction par ev) (AsideAt ev.action { s with now := ev.now })
      fun r => TableWf r.1 ∧ ∀ p conv plain, Sent.data p conv plain ∈ r.2 →
        conv = s.bridgeConv ∧ HasConv s p conv := by
    apply ends_step_of TableWf (fun _ out => ∀ p conv plain, Sent.data p conv plain ∈ out →
      conv = s.bridgeConv ∧ HasConv s p conv) hclear
    · exact fun _ hI => hI
    · exact fun t => hwf.at hev.now
    · intro s' out hs'
      refine ⟨hwf'.change hclear hev.constId hs', fun p conv plain hmem => ?_⟩
      obtain ⟨rfl, hvalid, hexist, hinfo⟩ := hs'.data_mem hmem
      exact ⟨rfl, h p hexist hinfo hvalid⟩
    · exact fun s s' hs hs' => hs.erased hs'
    · simp
  constructor
  · intro herr
    cases hends.of_error herr with
    | bridge hexist hinfo hvalid hgone =>
        obtain ⟨c, b, hc, -⟩ := h _ hexist hinfo hvalid
        exact absurd (hgone.symm.trans hc) (by simp)
  · intro s' out p conv plain hok hmem
    obtain ⟨hconv, hhas⟩ := (hends.of_ok hok).2 p conv plain hmem
    obtain ⟨c, b, hc, hrest⟩ := hhas
    exact ⟨hconv, hwf.stored p c hc, c, b, hc, hrest⟩

/-- The check that a packet is not a record for a connection other than the
bridge's. -/
def Server.direct (s : Server) : Server.Action → Bool
  | .raw pkt _ => (s.fds.fdInfo.lookup bridgeNumber).join.all fun q => s.conns.keys.all fun p =>
      (s.conns.lookup p).all fun c => decide (c.state = .ready → pkt.src = c.recv → p = q)
  | _ => true

/-- The check that an event is proper, that no handshake can be completed while
there is a `g_bridge_conv`, and that without one only the bridge's connection
gets records. -/
def Server.steady (s : Server) (ev : Server.Event) : Bool :=
  s.proper ev &&
    (!s.bridgeConvValid || s.conns.keys.all fun p => (s.conns.lookup p).all fun c =>
      decide (c.state ≠ .handshake1)) &&
    (s.bridgeConvValid || s.direct ev.action)

/-- What is checked of all connections holds of each. -/
private theorem conn_of_all {f : Nat → ServerConn → Bool} {p : Nat} {c : ServerConn}
    (h : s.conns.keys.all fun p => (s.conns.lookup p).all (f p))
    (hc : s.conns.lookup p = some c) : f p c = true := by
  have hp := List.all_eq_true.mp h p (Table.mem_keys_of_lookup hc)
  rw [hc] at hp
  exact hp

theorem steady_of_check (s : Server) (ev : Server.Event) (h : s.steady ev) : Steady par s ev := by
  simp only [Server.steady, Bool.and_eq_true] at h
  obtain ⟨⟨hproper, hgrab⟩, hconv⟩ := h
  refine ⟨proper_of_check s ev hproper, ?_, ?_⟩
  · rintro ⟨p, c, q, ori, id1, hc, hstate, -, -, -, -, hvalid, -⟩
    have hvalid' : s.bridgeConvValid = true := hvalid
    rw [hvalid', Bool.not_true, Bool.false_or] at hgrab
    exact of_decide_eq_true (conn_of_all hgrab hc) hstate
  · rintro ⟨p, c, b, conv, q, hc, hstate, -, ⟨pkt, fr, -, -, hact, -, hsrc, -⟩, -, -, hvalid, hq, hne,
      -⟩
    have hvalid' : s.bridgeConvValid = false := hvalid
    have hq' : s.fds.fdInfo.lookup bridgeNumber = some (some q) := hq
    have hact' : ev.action = .raw pkt fr := hact
    rw [hact', hvalid', Bool.false_or, Server.direct, hq'] at hconv
    exact hne (of_decide_eq_true (conn_of_all hconv hc) hstate hsrc).symm

/-- A datagram from the bridge. -/
def bridgeEvent : Server.Event := ⟨6, .fd bridgeNumber (some [66])⟩

/-- The check that the datagram is sent to a connection, as conversation 1. -/
def Server.sends (s : Server) (p : Nat) (plain : Bytes) : Bool :=
  s.proper bridgeEvent && (s.step serverClearFunction { hbMode0 := true } bridgeEvent).toOption.any
    fun r => decide (r.2 = [.data p 1 plain])

theorem sends_iff {plain : Bytes} (h : s.sends p plain) : Proper s bridgeEvent ∧
    ∃ s', s.step serverClearFunction { hbMode0 := true } bridgeEvent =
      .ok (s', [.data p 1 plain]) := by
  rw [Server.sends, Bool.and_eq_true] at h
  obtain ⟨⟨s', out⟩, hok, hout⟩ := Checked.exists_of_any h.2
  obtain rfl : out = _ := of_decide_eq_true hout
  exact ⟨proper_of_check s _ h.1, s', hok⟩

/-- Two clients connect, the second one sends a datagram and then the first
one: the answer goes to the second one, to its conversation. -/
theorem downlink_of_run_two : ∃ s,
    Reached (Server.step serverClearFunction { hbMode0 := true }) (Steady { hbMode0 := true })
        (Server.start 3) s ∧
      s.readyNum = 2 ∧
      (∃ s' plain, s.step serverClearFunction { hbMode0 := true } bridgeEvent =
        .ok (s', [.data 1 1 plain])) ∧ HasConv s 1 1 := by
  obtain ⟨s, outs, -, hreach, hsends⟩ := @exists_reached _ _ _ _
    (Server.step serverClearFunction { hbMode0 := true }) (Steady { hbMode0 := true }) _
    (fun r => r.1.sends 1 (saferMessage 15 17 1 tagData 1 [0, 0, 0, 1, 66]) ∧ r.1.readyNum = 2)
    (Server.start 3)
    (handshakeEvents ++
      [⟨3, .raw (handshakePacket ⟨2, 1⟩ 17 0 8) { myId := 15 }⟩,
        ⟨4, .raw (handshakePacket ⟨2, 1⟩ 17 15 8) {}⟩,
        ⟨5, .raw (recordPacket ⟨2, 1⟩ (saferMessage 17 15 1 tagData 0 [0, 0, 0, 1, 65])) {}⟩,
        ⟨6, .raw (recordPacket ⟨1, 1⟩ (saferMessage 7 5 1 tagData 0 [0, 0, 0, 2, 67])) {}⟩])
    steady_of_check (by decide) (by decide)
  have hsends := of_decide_eq_true hsends
  obtain ⟨hproper, s', hok⟩ := sends_iff hsends.1
  have hdown := (downlink_of_run hreach bridgeEvent hproper).2 s' _ _ _ _ hok List.mem_cons_self
  exact ⟨s, hreach, hsends.2, ⟨s', _, hok⟩, hdown.2.2⟩

/-- A second client connects before the first one sends a datagram: the answer
goes to the second client, which has no such conversation. -/
theorem downlink_mixed_up : ∃ s s' plain,
    Reached (Server.step serverClearFunction { hbMode0 := true }) Proper (Server.start 3) s ∧
      Proper s bridgeEvent ∧
      s.step serverClearFunction { hbMode0 := true } bridgeEvent = .ok (s', [.data 1 1 plain]) ∧
      ¬ HasConv s 1 1 := by
  obtain ⟨s, outs, -, hreach, hsends⟩ := @exists_reached _ _ _ _
    (Server.step serverClearFunction { hbMode0 := true }) Proper _
    (fun r => r.1.sends 1 (saferMessage 15 17 1 tagData 0 [0, 0, 0, 1, 66]) ∧
      (r.1.conns.lookup 1).all fun c => c.blob.all fun b => !b.convManager.isConvUsed 1)
    (Server.start 3)
    (handshakeEvents ++
      [⟨3, .raw (handshakePacket ⟨2, 1⟩ 17 0 8) { myId := 15 }⟩,
        ⟨4, .raw (handshakePacket ⟨2, 1⟩ 17 15 8) {}⟩,
        ⟨5, .raw (recordPacket ⟨1, 1⟩ (saferMessage 7 5 1 tagData 0 [0, 0, 0, 1, 65])) {}⟩])
    proper_of_check (by decide) (by decide)
  have hsends := of_decide_eq_true hsends
  obtain ⟨hproper, s', hok⟩ := sends_iff hsends.1
  refine ⟨s, s', _, hreach, hproper, hok, ?_⟩
  rintro ⟨c, b, hc, -, hb, hused⟩
  have hnone := hsends.2
  rw [hc] at hnone
  simp [hb, hused] at hnone

end Fecraw.Ports.Raw
