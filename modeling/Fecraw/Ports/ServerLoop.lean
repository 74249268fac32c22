import Fecraw.Ports.Bridge

/-!
# The event loop of the server

`epoll_wait` reports a batch of events, and the loop handles them one after the
other.  The batch is a snapshot: when the turn of an event comes, an earlier
event of the same batch may have closed its descriptor.  The loop then returns.

The only descriptors that are closed are the timers of the connections that the
sweep erases, and the bridge when a conversation expires.

## Main results

* `ends_step_exist`: which descriptors an event closes.
* `survives_of_run`: when the loop survives every batch.
-/

namespace Fecraw.Ports.Raw

open Fecraw.Verified

variable {par : Params} {clear : FdManager → Nat → Except Fault FdManager} {act : Server.Action}
variable {s s' : Server} {fd x : Nat}

/-! ## Batches -/

/-- Where an event comes from: `timer_fd`, `raw_recv_fd` or a numbered
descriptor. -/
inductive Source where
  | timer
  | raw
  | fd (fd64 : Nat)
deriving Repr, DecidableEq

/-- Where an event came from. -/
def Server.Action.source : Server.Action → Source
  | .sweep _ => .timer
  | .raw _ _ => .raw
  | .fd fd64 _ => .fd fd64

/-- The loop: the server, and what is left of the last batch. -/
structure Loop where
  server : Server
  events : List Source := []

namespace Loop

/-- What the loop does next. -/
inductive Act where
  /-- `epoll_wait` returns a batch. -/
  | wait (batch : List Source)
  | handle (ev : Server.Event)

/-- The loop when it starts, with the bridge on descriptor `fd`. -/
def start (fd : Nat) : Loop := { server := Server.start fd }

/-- `server_event_loop`. -/
def step (par : Params) (l : Loop) : Act → Except Fault (Loop × List Sent)
  | .wait batch => .ok ({ l with events := batch }, [])
  | .handle ev => do
      let (s, out) ← l.server.step serverClearFunction par ev
      return ({ server := s, events := l.events.tail }, out)

/-- `epoll_wait` is called when the last batch is done, and reports descriptors
that are registered, each once.  The events of a batch are handled in order. -/
inductive Epoll (l : Loop) : Act → Prop where
  | wait {batch : List Source} (hdone : l.events = []) (honce : batch.Nodup)
      (hregistered : ∀ x, .fd x ∈ batch → l.server.fds.exist x) : Epoll l (.wait batch)
  | handle {ev : Server.Event} {rest : List Source} (hnext : l.events = ev.action.source :: rest)
      (hev : Proper l.server ev) : Epoll l (.handle ev)

/-- The loop goes on after the next step, and skips an event whose descriptor
was closed. -/
def Survives (par : Params) (l : Loop) (a : Act) : Prop :=
  (∃ r, l.step par a = .ok r) ∧
    ∀ ev x, a = .handle ev → ev.action.source = .fd x → ¬ l.server.fds.exist x →
      l.step par a = .ok (⟨{ l.server with now := ev.now }, l.events.tail⟩, [])

end Loop

/-! ## What closes a descriptor -/

/-- A ready connection that was silent for too long and has no conversations. -/
def Lapsed (s : Server) (c : ServerConn) : Prop :=
  c.state = .ready ∧ serverConnTimeout < elapsed s.now c.lastHbRecvTime ∧ Server.convs c = 0

/-- The entries that a sweep looks at. -/
def Server.visited (s : Server) (visits : List Address) : List Address :=
  if connClearInterval < elapsed s.now s.lastClearTime then
    visits.take (min (s.mp.size / connClearRatio + connClearMin) s.mp.size)
  else []

/-- The event is a sweep that erases the connection with the timer `x`. -/
def Erases (act : Server.Action) (s : Server) (x : Nat) : Prop :=
  ∃ visits a p c, act = .sweep visits ∧ a ∈ s.visited visits ∧ s.mp.lookup a = some p ∧
    s.conns.lookup p = some c ∧ Lapsed s c ∧ c.timerFd64 = x

/-- The event is a datagram from the bridge for a connection that was deleted. -/
def Dangling (act : Server.Action) (s : Server) : Prop :=
  ∃ d p, act = .fd bridgeNumber (some d) ∧ 0 < d.length ∧ d.length ≤ maxDataLen ∧
    s.bridgeConvValid = true ∧ s.fds.fdInfo.lookup bridgeNumber = some (some p) ∧
    s.conns.lookup p = none

/-- Events that are not sweeps close the bridge or nothing. -/
theorem Change.exist {out : List Sent} (hchange : Change par clear act s s' out)
    (hexp : ¬ Expiring act s) (hx : s.fds.exist x) : s'.fds.exist x := by
  cases hchange with
  | nothing | reply | touch | bridged | conv | opened | refused | grabbed => exact hx
  | timer hc _ _ _ hb _ hact hclear _ =>
      obtain ⟨d, hact⟩ := hact
      obtain ⟨t, hok⟩ := @ConvManager.clearInactive_of_not_expires _ _ _ _ clear _ _ s.fds
        fun hexpires => hexp ⟨_, _, _, d, hact, hc, hb, hexpires⟩
      obtain ⟨-, rfl⟩ := Prod.mk.inj (Except.ok.inj (hclear.symm.trans hok))
      exact hx
  | readied => exact exist_added.mpr (.inr hx)

/-- Erasing a connection closes its timer, if it has one. -/
theorem Erasure.exist {p : Nat} {c : ServerConn} (herase : Erasure s s')
    (hc : s.conns.lookup p = some c) (hgone : s'.conns.lookup p = none)
    (hne : c.state = .ready → c.timerFd64 ≠ x) (hx : s.fds.exist x) : s'.fds.exist x := by
  obtain ⟨-, hc', -, hconns, -, -, -, -, hlook, -, -, -⟩ := herase
  rename_i a q c' t keys n fds
  have hsame : p = q := by
    by_contra hpq
    have hkept : t.lookup p = some c := by rw [hconns, if_neg hpq, hc]
    exact absurd (hgone.symm.trans hkept) (by simp)
  subst hsame
  obtain rfl := Option.some.inj (hc.symm.trans hc')
  unfold FdManager.exist at *
  rw [hlook, if_neg fun hboth => hne hboth.1 hboth.2.symm]
  exact hx

/-- A round of the sweep closes no timer but that of a connection that lapsed. -/
theorem ends_visit_exist {a : Address} (h : TableWf s) (hx : s.fds.exist x)
    (hnot : ∀ p c, s.mp.lookup a = some p → s.conns.lookup p = some c → Lapsed s c →
      c.timerFd64 ≠ x) :
    Ends (s.visit clear a) (fun _ => False) fun s' => s'.fds.exist x := by
  unfold Server.visit
  cases ha : s.mp.lookup a with
  | none => exact hx
  | some p =>
      obtain ⟨c, hc⟩ := h.entry a p ha
      apply ends_expect hc
      apply ends_ite
      · exact fun _ => hx
      intro hlate
      apply ends_ite
      · exact fun _ => hx
      intro _
      apply ends_ite
      · intro hconvs
        apply ends_require (h.ready_of_convs hc hconvs)
        exact hx
      intro hconvs
      have hzero : Server.convs c = 0 := Nat.eq_zero_of_not_pos hconvs
      by_cases hready : c.state = .ready
      · have hlapsed : Lapsed s c := by
          refine ⟨hready, ?_, hzero⟩
          by_contra hrecent
          exact hlate ⟨hready, not_lt.mp hrecent⟩
        apply (ends_erase_ready h ha hc hzero hready).mono _ fun f hf => hf
        rintro s' ⟨herase, hgone⟩
        exact herase.exist hc hgone (fun _ => hnot p c ha hc hlapsed) hx
      · apply (ends_erase_bare h ha hc hzero hready).mono _ fun f hf => hf
        rintro s' ⟨herase, hgone⟩
        exact herase.exist hc hgone (fun hstate => absurd hstate hready) hx

/-- What is left of the server during a sweep. -/
structure Remains (s s' : Server) : Prop where
  wf : TableWf s'
  now : s'.now = s.now
  conns : ∀ p c, s'.conns.lookup p = some c → s.conns.lookup p = some c
  mp : ∀ a p, s'.mp.lookup a = some p → s.mp.lookup a = some p

theorem Remains.erased {s'' : Server} (h : Remains s s') (herase : Erasure s' s'') :
    Remains s s'' := by
  have hwf := h.wf.erased herase
  obtain ⟨-, -, -, hconns, -, -, -, -, -, -, -, -⟩ := herase
  rename_i a p c t keys n fds
  refine ⟨hwf, h.now, fun q c₀ hq => ?_, fun b q hb => ?_⟩
  · have hq' : t.lookup q = some c₀ := hq
    rw [hconns] at hq'
    split at hq'
    · exact absurd hq' (by simp)
    · exact h.conns q c₀ hq'
  · have hb' : (s'.mp.erase a).lookup b = some q := hb
    rw [Table.lookup_erase_eq] at hb'
    split at hb'
    · exact absurd hb' (by simp)
    · exact h.mp b q hb'

/-- The sweep closes no timer but those of connections that lapsed. -/
theorem ends_clearInactive_exist {visits : List Address} (h : TableWf s) (hx : s.fds.exist x)
    (hnot : ¬ Erases (.sweep visits) s x) :
    Ends (s.clearInactive clear visits) (fun _ => False) fun s' => s'.fds.exist x := by
  unfold Server.clearInactive
  apply ends_ite
  · intro hdue
    have hends : Ends ((visits.take (min (s.mp.size / connClearRatio + connClearMin)
        s.mp.size)).foldlM (Server.visit clear) { s with lastClearTime := s.now })
        (fun _ => False) fun s' => Remains s s' ∧ s'.fds.exist x := by
      apply ends_foldlM
      · rintro s₁ a ha ⟨hrem, hx₁⟩
        have hexist := @ends_visit_exist clear s₁ x a hrem.wf hx₁ (by
          rintro p c hp hc ⟨hready, hlate, hzero⟩ htimer
          rw [hrem.now] at hlate
          refine hnot ⟨visits, a, p, c, rfl, ?_, hrem.mp a p hp, hrem.conns p c hc,
            ⟨hready, hlate, hzero⟩, htimer⟩
          unfold Server.visited
          rw [if_pos hdue]
          exact ha)
        have hrest : Ends (s₁.visit clear a) (fun _ => False) (Remains s) := by
          apply (ends_visit hrem.wf).mono _ fun f hf => hf
          rintro s₂ (rfl | herase)
          · exact hrem
          · exact hrem.erased herase
        exact hrest.imp fun s₂ hok hs₂ => ⟨hs₂, hexist.of_ok hok⟩
      · exact ⟨⟨h.at le_rfl, rfl, fun _ _ hc => hc, fun _ _ hp => hp⟩, hx⟩
    exact hends.mono (fun s' hs' => hs'.2) fun f hf => hf
  · exact fun _ => hx

/-- The descriptors that an event leaves open: all but the bridge if a
conversation expires, and the timers of the connections that a sweep erases. -/
theorem ends_step_exist {ev : Server.Event} (hclear : ClearsBridge clear) (hwf : TableWf s)
    (hev : Quiet s ev) (hx : s.fds.exist x)
    (hnot : ¬ Erases ev.action { s with now := ev.now } x) :
    Ends (s.step clear par ev) (fun _ => True) fun r => r.1.fds.exist x := by
  have hwf' : TableWf { s with now := ev.now } := hwf.at hev.now
  have hlasting := hev.lasting
  obtain ⟨now, act⟩ := ev
  unfold Server.step
  cases act with
  | sweep visits =>
      have hends := @ends_clearInactive_exist clear { s with now := now } x visits hwf' hx hnot
      exact (hends.mono (fun _ hs' => hs') fun _ _ => trivial).bind fun s' hs' => hs'
  | raw pkt fr =>
      exact (ends_onRawRecv hwf' rfl).mono
        (fun r hr => @Change.exist par clear _ _ _ x _ hr hlasting hx)
        fun _ _ => trivial
  | fd fd64 datagram =>
      exact (ends_onFd hclear hwf' rfl).mono (fun r hr => hr.exist hlasting hx)
        fun _ _ => trivial

/-! ## Runs -/

namespace Loop

variable {l : Loop} {a : Act}

/-- Steps in which no sweep erases a connection whose timer is still to be
handled, no conversation expires, and no datagram from the bridge is for a
connection that was deleted. -/
structure Safe (l : Loop) (a : Act) : Prop where
  epoll : Epoll l a
  timers : ∀ ev x, a = .handle ev → .fd x ∈ l.events.tail →
    ¬ Erases ev.action { l.server with now := ev.now } x
  lasting : ∀ ev, a = .handle ev → ¬ Expiring ev.action { l.server with now := ev.now }
  dangling : ∀ ev, a = .handle ev → ¬ Dangling ev.action { l.server with now := ev.now }

/-- The descriptors of the events that are left are open. -/
structure Inv (fd : Nat) (l : Loop) : Prop where
  wf : TableWf l.server
  bridge : BridgeOpen fd l.server
  left : ∀ x, .fd x ∈ l.events → l.server.fds.exist x

theorem inv_start (fd : Nat) : Inv fd (start fd) :=
  ⟨tableWf_start fd, bridgeOpen_start fd, fun _ hx => absurd hx List.not_mem_nil⟩

/-- A safe step does not fail, and keeps the invariant. -/
theorem ends_step_safe (h : Inv fd l) (ha : Safe l a) :
    Ends (l.step par a) (fun _ => False) fun r => Inv fd r.1 := by
  obtain ⟨hepoll, htimers, hlasting, hdangling⟩ := ha
  have hclear := clearsBridge_serverClearFunction
  cases hepoll with
  | wait hdone honce hregistered => exact ⟨h.wf, h.bridge, hregistered⟩
  | @handle ev rest hnext hev =>
      have hquiet : Quiet l.server ev := ⟨hev, hlasting ev rfl⟩
      have hstep := @ends_step_quiet par _ l.server fd ev hclear h.wf h.bridge hquiet
      have hbridge : l.server.fds.exist bridgeNumber := by
        rw [← h.wf.bridge]
        exact FdManager.exist_iff.mpr ⟨fd, h.bridge.lookup⟩
      have hopen : ∀ x, .fd x ∈ rest → Ends (l.server.step serverClearFunction par ev)
          (fun _ => True) fun r => r.1.fds.exist x := by
        intro x hx
        refine ends_step_exist hclear h.wf hquiet (h.left x ?_) (htimers ev x rfl ?_)
        · rw [hnext]
          exact List.mem_cons_of_mem _ hx
        · rw [hnext]
          exact hx
      unfold step
      rw [ends_bind]
      rcases hres : l.server.step serverClearFunction par ev with f | ⟨s', out⟩
      · -- the three ways to fail are ruled out
        cases hstep.of_error hres with
        | @stopped x d hact hgone =>
            refine hgone (h.left x ?_)
            rw [hnext, hact]
            exact List.mem_cons_self
        | descriptor hwhy => exact hwhy.elim (fun hgone => hgone hbridge) (hlasting ev rfl)
        | bridge _ hinfo hvalid hgone hact hlen =>
            exact hdangling ev rfl ⟨_, _, hact, hlen.1, hlen.2, hvalid, hinfo, hgone⟩
      · obtain ⟨hwf, hkept⟩ := hstep.of_ok hres
        refine ⟨hwf, hkept, fun x hx => (hopen x ?_).of_ok hres⟩
        have hx' : .fd x ∈ l.events.tail := hx
        rw [hnext] at hx'
        exact hx'

/-- In a run of safe steps, the loop survives the next safe step, whatever the
batches are. -/
theorem survives_of_run (hreach : Reached (Loop.step par) Safe (start fd) l) (ha : Safe l a) :
    Survives par l a := by
  have h : Inv fd l := by
    refine hreach.invariant (fun l l' b out hl hb hok => ?_) (inv_start fd)
    exact (ends_step_safe hl hb).of_ok hok
  have hends := @ends_step_safe par fd l a h ha
  refine ⟨?_, ?_⟩
  · rcases hres : l.step par a with f | r
    · exact absurd (hends.of_error hres) id
    · exact ⟨r, rfl⟩
  · -- the descriptor of the next event is open
    rintro ev x rfl hsource hgone
    cases ha.epoll with
    | handle hnext _ =>
        refine absurd (h.left x ?_) hgone
        rw [hnext, hsource]
        exact List.mem_cons_self

/-! ## Given batches -/

/-- The check that a step is one of the loop. -/
def epoll (l : Loop) : Act → Bool
  | .wait batch => decide (l.events = []) && decide batch.Nodup && batch.all fun
      | .fd x => decide (l.server.fds.exist x)
      | _ => true
  | .handle ev => decide (l.events.head? = some ev.action.source) && l.server.proper ev

theorem epoll_of_check (l : Loop) (a : Act) (h : l.epoll a) : Epoll l a := by
  cases a with
  | wait batch =>
      simp only [epoll, Bool.and_eq_true, decide_eq_true_eq, List.all_eq_true] at h
      obtain ⟨⟨hdone, honce⟩, hall⟩ := h
      exact .wait hdone honce fun x hx => of_decide_eq_true (hall (.fd x) hx)
  | handle ev =>
      simp only [epoll, Bool.and_eq_true, decide_eq_true_eq] at h
      obtain ⟨rest, hrest⟩ := List.head?_eq_some_iff.mp h.1
      exact .handle hrest (proper_of_check l.server ev h.2)

/-- The check that no connection is silent or has conversations. -/
def calm (l : Loop) (a : Act) : Bool :=
  l.epoll a && match a with
    | .wait _ => true
    | .handle ev => !l.server.bridgeConvValid && l.server.conns.keys.all fun p =>
        (l.server.conns.lookup p).all fun c =>
          decide (elapsed ev.now c.lastHbRecvTime ≤ serverConnTimeout) &&
            c.blob.all fun b => b.convManager.lru.q.isEmpty

theorem safe_of_check (l : Loop) (a : Act) (h : l.calm a) : Safe l a := by
  simp only [calm, Bool.and_eq_true] at h
  have hepoll := epoll_of_check l a h.1
  cases a with
  | wait batch => exact ⟨hepoll, by simp, by simp, by simp⟩
  | handle ev =>
      simp only [Bool.and_eq_true, Bool.not_eq_true', List.all_eq_true] at h
      obtain ⟨-, hvalid, hall⟩ := h
      have hconn : ∀ p c, l.server.conns.lookup p = some c →
          elapsed ev.now c.lastHbRecvTime ≤ serverConnTimeout ∧
            ∀ b, c.blob = some b → b.convManager.lru.q = [] := by
        intro p c hc
        have hp := hall p (Table.mem_keys_of_lookup hc)
        rw [hc] at hp
        simp only [Option.all_some, Bool.and_eq_true, decide_eq_true_eq] at hp
        refine ⟨hp.1, fun b hb => ?_⟩
        rw [hb] at hp
        exact List.isEmpty_iff.mp hp.2
      refine ⟨hepoll, ?_, ?_, ?_⟩
      · rintro ev' x ⟨⟩ - ⟨visits, a, p, c, -, -, -, hc, ⟨-, hlate, -⟩, -⟩
        exact absurd (hconn p c hc).1 (not_le.mpr hlate)
      · rintro ev' ⟨⟩ ⟨p, c, b, d, -, hc, hb, -, e, hlast, -⟩
        rw [(hconn p c hc).2 b hb] at hlast
        exact absurd hlast (by simp)
      · rintro ev' ⟨⟩ ⟨d, p, -, -, -, htrue, -⟩
        exact absurd (hvalid.symm.trans htrue) (by simp)

/-- A handshake, then a batch with the global timer and the timer of the new
connection, of which the global timer is handled at this time. -/
def sweepActs (now : Nat) : List Act :=
  [.wait [.raw], .handle ⟨1, .raw (handshakePacket ⟨1, 1⟩ 7 0 9) { myId := 5 }⟩,
    .wait [.raw], .handle ⟨2, .raw (handshakePacket ⟨1, 1⟩ 7 5 9) {}⟩,
    .wait [.timer, .fd (bridgeNumber + 1)], .handle ⟨now, .sweep [⟨1, 1⟩]⟩]

/-- Then the connection's timer is handled. -/
def timerAct (now : Nat) : Act := .handle ⟨now, .fd (bridgeNumber + 1) none⟩

/-- Two seconds after the handshake, the batch is handled. -/
theorem survives_of_run_early : ∃ l,
    Reached (Loop.step { hbMode0 := true }) Safe (start 3) l ∧
      l.events = [.fd (bridgeNumber + 1)] ∧ Safe l (timerAct 2000) ∧
      Survives { hbMode0 := true } l (timerAct 2000) := by
  obtain ⟨l, outs, -, hreach, hl⟩ := @exists_reached _ _ _ _
    (Loop.step { hbMode0 := true }) Safe _
    (fun r => decide (r.1.events = [.fd (bridgeNumber + 1)]) && r.1.calm (timerAct 2000))
    (start 3) (sweepActs 2000) safe_of_check (by decide) (by decide)
  simp only [Bool.and_eq_true, decide_eq_true_eq] at hl
  have hsafe := safe_of_check l _ hl.2
  exact ⟨l, hreach, hl.1, hsafe, survives_of_run hreach hsafe⟩

/-- The check that the loop returns. -/
def stops (l : Loop) (a : Act) : Bool :=
  match l.step { hbMode0 := true } a with
  | .error .stopped => true
  | _ => false

/-- Four minutes after the handshake, the client having been silent, the sweep
erases the connection, and the event on its timer ends the loop. -/
theorem loop_stopped : ∃ l,
    Reached (Loop.step { hbMode0 := true }) Epoll (start 3) l ∧
      Epoll l (timerAct 240003) ∧
      l.step { hbMode0 := true } (timerAct 240003) = .error .stopped ∧
      ¬ Survives { hbMode0 := true } l (timerAct 240003) := by
  obtain ⟨l, outs, -, hreach, hl⟩ := @exists_reached _ _ _ _
    (Loop.step { hbMode0 := true }) Epoll _
    (fun r => r.1.epoll (timerAct 240003) && r.1.stops (timerAct 240003))
    (start 3) (sweepActs 240003) epoll_of_check (by decide) (by decide)
  rw [Bool.and_eq_true] at hl
  have hstop : l.step { hbMode0 := true } (timerAct 240003) = .error .stopped := by
    have hstops := hl.2
    unfold stops at hstops
    split at hstops
    · assumption
    · exact absurd hstops (by simp)
  refine ⟨l, hreach, epoll_of_check l _ hl.1, hstop, ?_⟩
  rintro ⟨⟨r, hok⟩, -⟩
  rw [hstop] at hok
  exact absurd hok (by simp)

end Loop

end Fecraw.Ports.Raw
