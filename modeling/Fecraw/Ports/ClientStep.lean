import Fecraw.Ports.Client

/-!
# What one event of the client does

The handlers are taken apart once, here: `Moves` is what the timer does to the
identities and the state of the client, and `Steps` what any event does.

## Main results

* `ends_onTimer`, `ends_onRawRecv`, `ends_onUdpRecv`: what the handlers do, and
  the only way in which they can fail.
* `ends_step`: what one event does.
* `bridge_conv_of_run`: when the conversation of the bridge stays known.
-/

namespace Fecraw.Ports.Raw

open Fecraw.Verified

namespace Client

variable {par : ClientParams} {s s' : Client} {c c' c'' : ClientConn} {fr : Draws} {now : Nat}
variable {out : List ClientSent}

/-- What the handlers rely on. -/
structure ConnWf (par : ClientParams) (now : Nat) (c : ClientConn) : Prop where
  blob : ∃ b, c.blob = some b ∧ b.convManager.Wf now
  tcp : c.state = .tcpHandshake ∨ c.state = .tcpHandshakeDummy → par.rawMode = .faketcp

/-- What a client can send. -/
inductive Says (par : ClientParams) (c : ClientConn) : ClientSent → Prop where
  | shake1 {nonce : Nat × Nat} : Says par c (.bare (bareMessage nonce c.myId 0 par.constId))
  | shake2 {nonce : Nat × Nat} (hstate : c.state = .handshake2) :
      Says par c (.bare (bareMessage nonce c.myId c.oppsiteId par.constId))
  | safer {plain : Bytes} (hplain : Record c plain) : Says par c (.safer plain)
  | data {conv : UInt32} {plain : Bytes} (hplain : Record c plain) : Says par c (.data conv plain)
  | bridge {datagram : Bytes} : Says par c (.bridge datagram)

/-- What the timer does: it does not go forward to `client_handshake2` or
`client_ready`, and what it sends has the identities it leaves. -/
structure Moves (par : ClientParams) (fr : Draws) (c c' : ClientConn) (out : List ClientSent) :
    Prop where
  myId : c'.myId = c.myId ∨ c'.myId = fr.myId ∨ c'.myId = fr.newId
  later : c'.state = .handshake2 ∨ c'.state = .ready →
    c'.state = c.state ∧ c'.myId = c.myId ∧ c'.oppsiteId = c.oppsiteId
  sent : ∀ m ∈ out, Says par c' m

/-- The same conversations. -/
def SameTable (c c' : ClientConn) : Prop :=
  ∃ b b', c.blob = some b ∧ c'.blob = some b' ∧
    b'.convManager.convToData = b.convManager.convToData

theorem Says.keep {m : ClientSent} (h : Says par c m) (hkeep : Keeps c c') : Says par c' m := by
  have hrecord : ∀ plain, Record c plain → Record c' plain := by
    rintro plain ⟨seq, type, roller, data, htype, rfl⟩
    exact ⟨seq, type, roller, data, htype, by rw [hkeep.myId, hkeep.oppsiteId]⟩
  cases h with
  | shake1 =>
      rw [← hkeep.myId]
      exact .shake1
  | shake2 hstate =>
      rw [← hkeep.myId, ← hkeep.oppsiteId]
      exact .shake2 (hkeep.state.trans hstate)
  | safer hplain => exact .safer (hrecord _ hplain)
  | data hplain => exact .data (hrecord _ hplain)
  | bridge => exact .bridge

/-- What comes after the timer keeps the identities and the state. -/
theorem Moves.keep (h : Moves par fr c c' out) (hkeep : Keeps c' c'') :
    Moves par fr c c'' out := by
  refine ⟨?_, ?_, fun m hm => (h.sent m hm).keep hkeep⟩
  · rw [hkeep.myId]
    exact h.myId
  · rw [hkeep.state, hkeep.myId, hkeep.oppsiteId]
    exact h.later

theorem Moves.append {out' : List ClientSent} (h : Moves par fr c c' out)
    (hout' : ∀ m ∈ out', ∃ d, m = .bridge d) : Moves par fr c c' (out ++ out') := by
  refine ⟨h.myId, h.later, fun m hm => ?_⟩
  rcases List.mem_append.mp hm with hm | hm
  · exact h.sent m hm
  · obtain ⟨d, rfl⟩ := hout' m hm
    exact .bridge

/-- A state that stays, or goes back to `client_idle`. -/
theorem moves_of_state (hstate : c'.state = c.state ∨ c'.state = .idle) (hmy : c'.myId = c.myId)
    (hopp : c'.oppsiteId = c.oppsiteId) (hsent : ∀ m ∈ out, Says par c' m) :
    Moves par fr c c' out := by
  refine ⟨.inl hmy, fun hlater => ?_, hsent⟩
  rcases hstate with hstate | hidle
  · exact ⟨hstate, hmy, hopp⟩
  · rw [hidle] at hlater
    exact absurd hlater (by decide)

/-- A state that is neither `client_handshake2` nor `client_ready`. -/
theorem moves_of_early (hstate : ¬ (c'.state = .handshake2 ∨ c'.state = .ready))
    (hmy : c'.myId = c.myId ∨ c'.myId = fr.myId ∨ c'.myId = fr.newId)
    (hsent : ∀ m ∈ out, Says par c' m) : Moves par fr c c' out :=
  ⟨hmy, fun hlater => absurd hlater hstate, hsent⟩

/-! ## The timer -/

/-- What is due in a state. -/
theorem ends_attend (h : ConnWf par now c) (hstate : c.state ≠ .idle) {F : Fault → Prop} :
    Ends (attend par now c fr) F fun r =>
      Moves par fr c r.1 r.2 ∧ ConnWf par now r.1 ∧ SameTable c r.1 := by
  obtain ⟨b, hb, hconvs⟩ := h.blob
  have hsame : ∀ c' : ClientConn, c'.blob = c.blob → SameTable c c' := fun c' hblob =>
    ⟨b, b, hb, hblob.trans hb, rfl⟩
  have hwf : ∀ c' : ClientConn, c'.blob = c.blob → (c'.state = c.state ∨ c'.state = .idle) →
      ConnWf par now c' := by
    intro c' hblob hstate'
    refine ⟨⟨b, hblob.trans hb, hconvs⟩, fun htcp => ?_⟩
    rcases hstate' with hstate' | hidle
    · rw [hstate'] at htcp
      exact h.tcp htcp
    · rw [hidle] at htcp
      exact absurd htcp (by decide)
  have hidle : Moves par fr c { c with state := .idle } [] ∧
      ConnWf par now { c with state := .idle } ∧ SameTable c { c with state := .idle } :=
    ⟨moves_of_state (.inr rfl) rfl rfl (by simp), hwf _ rfl (.inr rfl), hsame _ rfl⟩
  have hstay : Moves par fr c c [] ∧ ConnWf par now c ∧ SameTable c c :=
    ⟨moves_of_state (.inl rfl) rfl rfl (by simp), h, hsame _ rfl⟩
  have hretry : ∀ out, (∀ m ∈ out, Says par c m) →
      Moves par fr c { c with lastHbSentTime := now } out ∧
      ConnWf par now { c with lastHbSentTime := now } ∧
        SameTable c { c with lastHbSentTime := now } := by
    intro out hout
    refine ⟨moves_of_state (.inl rfl) rfl rfl fun m hm => ?_, hwf _ rfl (.inl rfl), hsame _ rfl⟩
    exact (hout m hm).keep ⟨rfl, rfl, rfl, rfl, rfl, rfl⟩
  unfold attend
  dsimp only
  split
  · next htcp =>
      apply ends_require (h.tcp (.inl htcp))
      apply ends_ite
      · exact fun _ => hidle
      · intro _
        apply ends_ite
        · exact fun _ => hretry [] (by simp)
        · exact fun _ => hstay
  · next htcp =>
      apply ends_require (h.tcp (.inr htcp))
      apply ends_ite
      · exact fun _ => hidle
      · exact fun _ => hstay
  · apply ends_ite
    · exact fun _ => hidle
    · intro _
      apply ends_ite
      · intro _
        apply hretry
        intro m hm
        rw [List.mem_singleton.mp hm]
        exact .shake1
      · exact fun _ => hstay
  · next hs2 =>
      apply ends_ite
      · exact fun _ => hidle
      · intro _
        apply ends_ite
        · intro _
          apply hretry
          intro m hm
          rw [List.mem_singleton.mp hm]
          exact .shake2 hs2
        · exact fun _ => hstay
  · have htimeout : Moves par fr c { c with state := .idle, myId := fr.myId } [] :=
      moves_of_early (by simp) (.inr (.inl rfl)) (by simp)
    have hback : ConnWf par now { c with state := .idle, myId := fr.myId } := hwf _ rfl (.inr rfl)
    apply ends_ite
    · exact fun _ => ⟨htimeout, hback, hsame _ rfl⟩
    · intro _
      generalize hseen : (if clientConnUplinkTimeout < elapsed now c.lastOppsiteRollerTime then
        { c with state := .idle, myId := fr.myId } else c) = c₂
      have hmoves : Moves par fr c c₂ [] ∧ ConnWf par now c₂ ∧ c₂.blob = c.blob := by
        rw [← hseen]
        split
        · exact ⟨htimeout, hback, rfl⟩
        · exact ⟨hstay.1, h, rfl⟩
      obtain ⟨hmoves, hwf₂, hblob⟩ := hmoves
      apply ends_ite
      · exact fun _ => ⟨hmoves, hwf₂, hsame _ hblob⟩
      · intro _
        rw [sendSafer_eq (hblob.trans hb)]
        simp only [Checked.ok_bind]
        refine ⟨⟨hmoves.myId, hmoves.later, fun m hm => ?_⟩, ⟨⟨_, rfl, hconvs⟩, hwf₂.tcp⟩,
          b, _, hb, rfl, rfl⟩
        rw [List.mem_singleton.mp hm]
        exact .safer ⟨_, _, _, _, .inl rfl, rfl⟩
  · exact absurd ‹_› hstate

/-- The conversations of a client are cleared. -/
theorem ends_clearInactive {b : Blob Address} (h : b.convManager.Wf now) {F : Fault → Prop} :
    Ends (b.convManager.clearInactive clear () now) F fun r =>
      r.1.Wf now ∧ (¬ b.convManager.Expires now →
        r.1.convToData = b.convManager.convToData) := by
  by_cases hexp : b.convManager.Expires now
  · have hends := @ConvManager.ends_clearInactive Address Unit _ _ clear b.convManager now now ()
      F (fun _ => True) (fun _ => True) (fun _ _ _ _ => trivial) h le_rfl (fun _ _ _ => trivial)
      trivial
    exact hends.mono (fun r hr => ⟨hr.1, fun hnot => absurd hexp hnot⟩) fun f hf => hf
  · obtain ⟨t, hok⟩ := @ConvManager.clearInactive_of_not_expires Address Unit _ _ clear
      b.convManager now () hexp
    rw [hok]
    exact ⟨⟨h.keys, h.lru⟩, fun _ => rfl⟩

/-- What the timer leaves as it is. -/
structure Aside (s s' : Client) : Prop where
  now : s'.now = s.now
  bridgeConv : s'.bridgeConv = s.bridgeConv
  bridgeConvInit : s'.bridgeConvInit = s.bridgeConvInit

/-- Conversations expire when the table is cleared now. -/
def Stale (s : Client) : Prop := ∃ b, s.conn.blob = some b ∧ b.convManager.Expires s.now

/-- The state in which a connection is opened. -/
theorem reopen_state (par : ClientParams) (now : Nat) (c : ClientConn) :
    ¬ ((reopen par now c).state = .idle ∨ (reopen par now c).state = .handshake2 ∨
        (reopen par now c).state = .ready) ∧
      ((reopen par now c).state = .tcpHandshake ∨ (reopen par now c).state = .tcpHandshakeDummy →
        par.rawMode = .faketcp) := by
  unfold reopen
  dsimp only
  by_cases htcp : par.rawMode = .faketcp
  · rw [if_pos htcp]
    refine ⟨?_, fun _ => htcp⟩
    split
    · decide
    · decide
  · rw [if_neg htcp]
    exact ⟨by decide, fun hstate => absurd hstate (by decide)⟩

/-- `client_on_timer`. -/
theorem ends_onTimer (h : ConnWf par s.now s.conn) {F : Fault → Prop} :
    Ends (s.onTimer par fr) F fun r =>
      Moves par fr s.conn r.1.conn r.2 ∧ ConnWf par r.1.now r.1.conn ∧ Client.Aside s r.1 ∧
        (¬ s.Stale → SameTable s.conn r.1.conn) := by
  obtain ⟨b, hb, hconvs⟩ := h.blob
  unfold onTimer
  apply ends_expect hb
  apply (ends_clearInactive hconvs).bind
  rintro ⟨m, u⟩ ⟨hm, hsame⟩
  have htable : ¬ s.Stale → m.convToData = b.convManager.convToData := fun hstale =>
    hsame fun hexp => hstale ⟨b, hb, hexp⟩
  -- a table that is left as it is after it was cleared
  have hafter : ∀ c₁ c' : ClientConn, SameTable c₁ c' →
      (∃ b₁, c₁.blob = some b₁ ∧ b₁.convManager = m) → ¬ s.Stale → SameTable s.conn c' := by
    rintro c₁ c' ⟨b₁, b', hb₁, hb', hdata⟩ ⟨b₂, hb₂, rfl⟩ hstale
    obtain rfl := Option.some.inj (hb₁.symm.trans hb₂)
    exact ⟨b, b', hb, hb', hdata.trans (htable hstale)⟩
  dsimp only
  generalize hseen : (if s.disabled then
    ({ s.conn with
      blob := some { b with convManager := m }, state := .idle, myId := fr.myId } : ClientConn)
    else { s.conn with blob := some { b with convManager := m } }) = c
  apply ends_ite
  · -- a new connection, with a new identity
    intro hidle
    generalize hnew : ({ c with
      blob := some { b with convManager := m, antiReplay := b.antiReplay.reInit }
      myId := fr.newId } : ClientConn) = c₁
    have hblob : ∃ b₁, c₁.blob = some b₁ ∧ b₁.convManager = m := by
      rw [← hnew]
      exact ⟨_, rfl, rfl⟩
    have hid : c₁.myId = fr.newId := by rw [← hnew]
    have hstate : c₁.state = .idle := by
      rw [← hnew]
      exact hidle
    obtain ⟨b₁, hb₁, hm₁⟩ := hblob
    have hm' : b₁.convManager.Wf s.now := by
      rw [hm₁]
      exact hm
    apply ends_ite
    · intro _
      refine ⟨moves_of_early ?_ (.inr (.inr hid)) (by simp), ⟨⟨b₁, hb₁, hm'⟩, fun htcp => ?_⟩,
        ⟨rfl, rfl, rfl⟩, hafter c₁ c₁ ⟨b₁, b₁, hb₁, hb₁, rfl⟩ ⟨b₁, hb₁, hm₁⟩⟩
      · rw [hstate]
        decide
      · rw [hstate] at htcp
        exact absurd htcp (by decide)
    · intro _
      have hopen := reopen_state par s.now c₁
      have hends := @ends_attend par (reopen par s.now c₁) fr s.now
        ⟨⟨b₁, hb₁, hm'⟩, hopen.2⟩ (fun heq => hopen.1 (.inl heq)) F
      apply hends.bind
      rintro ⟨c', out⟩ ⟨hmoves, hwf, htab⟩
      refine ⟨⟨?_, fun hlater => ?_, hmoves.sent⟩, hwf, ⟨rfl, rfl, rfl⟩,
        hafter _ c' htab ⟨b₁, hb₁, hm₁⟩⟩
      · rcases hmoves.myId with heq | hdraw
        · exact .inr (.inr (heq.trans hid))
        · exact .inr hdraw
      · rw [(hmoves.later hlater).1] at hlater
        exact absurd (.inr hlater) hopen.1
  · -- the state is looked after
    intro hstate
    have hconn : c = { s.conn with blob := some { b with convManager := m } } := by
      rw [← hseen]
      split
      · next hdis =>
          rw [← hseen, if_pos hdis] at hstate
          exact absurd rfl hstate
      · rfl
    subst hconn
    have hwf : ConnWf par s.now { s.conn with blob := some { b with convManager := m } } :=
      ⟨⟨_, rfl, hm⟩, h.tcp⟩
    have hends := @ends_attend par _ fr s.now hwf hstate F
    apply hends.bind
    rintro ⟨c', out⟩ ⟨hmoves, hwf, htab⟩
    exact ⟨⟨hmoves.myId, hmoves.later, hmoves.sent⟩, hwf, ⟨rfl, rfl, rfl⟩,
      hafter _ c' htab ⟨_, rfl, rfl⟩⟩

/-! ## Raw packets -/

theorem SameTable.refl {b : Blob Address} (hb : c.blob = some b) : SameTable c c :=
  ⟨b, b, hb, hb, rfl⟩

theorem SameTable.trans (h : SameTable c c') (h' : SameTable c' c'') : SameTable c c'' := by
  obtain ⟨b, b', hb, hb', hdata⟩ := h
  obtain ⟨b₁, b'', hb₁, hb'', hdata'⟩ := h'
  obtain rfl := Option.some.inj (hb'.symm.trans hb₁)
  exact ⟨b, b'', hb, hb'', hdata'.trans hdata⟩

/-- What is done with a record. -/
theorem ends_deliver {type : UInt8} {data : Bytes} (h : ConnWf par s.now s.conn)
    {F : Fault → Prop} :
    Ends (s.deliver par type data) F fun r =>
      Keeps s.conn r.1.conn ∧ ConnWf par r.1.now r.1.conn ∧ Client.Aside s r.1 ∧
        SameTable s.conn r.1.conn ∧ ∀ m ∈ r.2, ∃ d, m = .bridge d := by
  obtain ⟨b, hb, hconvs⟩ := h.blob
  have haside : ∀ c, Client.Aside s { s with conn := c } := fun c => ⟨rfl, rfl, rfl⟩
  have hheard : Keeps s.conn { s.conn with lastHbRecvTime := s.now } :=
    ⟨rfl, rfl, rfl, rfl, rfl, rfl⟩
  unfold deliver
  apply ends_ite
  · intro _
    exact ⟨hheard, ⟨⟨b, hb, hconvs⟩, h.tcp⟩, haside _, ⟨b, b, hb, hb, rfl⟩, by simp⟩
  · intro _
    apply ends_ite
    · intro _
      dsimp only
      generalize hseen :
        (if par.hbMode0 then { s.conn with lastHbRecvTime := s.now } else s.conn) = c
      have hkeep : Keeps s.conn c ∧ c.blob = some b := by
        rw [← hseen]
        split
        · exact ⟨hheard, hb⟩
        · exact ⟨Keeps.refl _, hb⟩
      obtain ⟨hkeep, hblob⟩ := hkeep
      have htcp := h.tcp
      rw [← hkeep.state] at htcp
      apply ends_expect hblob
      apply ends_ite
      · intro _
        exact ⟨hkeep, ⟨⟨b, hblob, hconvs⟩, htcp⟩, haside _, ⟨b, b, hb, hblob, rfl⟩, by simp⟩
      · intro hused
        have hmem := ConvManager.isConvUsed_iff.mp (not_not.mp hused)
        obtain ⟨m, hm, hmwf, hdata⟩ := hconvs.updateActiveTime le_rfl hmem
        rw [hm]
        refine ⟨⟨hkeep.state, hkeep.recv, hkeep.timer, hkeep.constId, hkeep.myId, hkeep.oppsiteId⟩,
          ⟨⟨_, rfl, hmwf⟩, htcp⟩, haside _, ⟨b, _, hb, rfl, hdata⟩, fun msg hmsg => ?_⟩
        exact ⟨_, List.mem_singleton.mp hmsg⟩
    · intro _
      exact ⟨Keeps.refl _, h, haside _, SameTable.refl hb, by simp⟩

/-- When an event runs `client_on_timer`. -/
inductive Timely (par : ClientParams) (s : Client) : Action → Prop where
  | timer {fr : Draws} : Timely par s (.timer fr)
  | synAck {pkt : Packet} {fr : Draws}
      (hstate : s.conn.state = .tcpHandshake ∨ s.conn.state = .tcpHandshakeDummy)
      (hsyn : pkt.synAck = true) (hexp : pkt.expected = true)
      (hseq : s.conn.state = .tcpHandshake → pkt.ackSeq = true) : Timely par s (.raw pkt fr)
  | shake {pkt : Packet} {fr : Draws} {data : Bytes} (hstate : s.conn.state = .handshake1)
      (hdata : pkt.recv.bare = some data) (hexp : pkt.expected = true) (hlen : 12 ≤ data.length)
      (hid : readId (data.drop 4) = s.conn.myId)
      (hseq : par.rawMode = .faketcp → pkt.ackSeq = true) : Timely par s (.raw pkt fr)
  | record {pkt : Packet} {fr : Draws} {c : ClientConn} {r : UInt8 × Bytes}
      (hstate : s.conn.state = .handshake2) (hexp : pkt.expected = true)
      (hrecord : s.conn.recvSafer par.toParams s.now pkt.recv = .ok (c, some r)) :
      Timely par s (.raw pkt fr)

/-- The event clears a conversation that was idle for too long. -/
def Expiring (par : ClientParams) (act : Action) (s : Client) : Prop := Timely par s act ∧ s.Stale

/-- The identities that are drawn for an event. -/
def Action.ids : Action → List UInt32
  | .timer fr => [fr.myId, fr.newId]
  | .raw _ fr => [fr.myId, fr.newId]
  | .udp _ _ => []
  | .reconnect myId => [myId]

/-- The packet of the event is a handshake for a client, from a server. -/
def Reply (act : Action) (myId id1 : UInt32) : Prop :=
  ∃ pkt fr data, act = .raw pkt fr ∧ pkt.recv.bare = some data ∧ 12 ≤ data.length ∧
    readId data = id1 ∧ readId (data.drop 4) = myId

/-- The packet of the event is a record that the connection accepts. -/
def Welcome (act : Action) (c : ClientConn) : Prop :=
  ∃ pkt fr bare plain stale type data, act = .raw pkt fr ∧
    pkt.recv = .payload bare (some plain) stale ∧ Accepts c (plain ++ stale) plain.length type data

/-- The conversation is in the table. -/
def Knows (s : Client) (k : UInt32) : Prop :=
  ∃ b, s.conn.blob = some b ∧ b.convManager.isConvUsed k

/-- What an event does, and what is sent. -/
structure Steps (par : ClientParams) (act : Action) (s s' : Client) (out : List ClientSent) :
    Prop where
  wf : ConnWf par s'.now s'.conn
  now : s'.now = s.now
  myId : s'.conn.myId = s.conn.myId ∨ s'.conn.myId ∈ act.ids
  shaken : s'.conn.state = .handshake2 → s'.conn.myId = s.conn.myId ∧
    (s.conn.state = .handshake2 ∧ s'.conn.oppsiteId = s.conn.oppsiteId ∨
      Reply act s.conn.myId s'.conn.oppsiteId)
  ready : s'.conn.state = .ready → s'.conn.myId = s.conn.myId ∧
    s'.conn.oppsiteId = s.conn.oppsiteId ∧
    (s.conn.state = .ready ∨ s.conn.state = .handshake2 ∧ Welcome act s.conn)
  sent : ∀ m ∈ out, Says par s'.conn m
  convs : ¬ Expiring par act s → ∀ k, s.Knows k → s'.Knows k
  bridge : s'.bridgeConv = s.bridgeConv ∧ s'.bridgeConvInit = s.bridgeConvInit ∨
    s'.Knows s'.bridgeConv

theorem SameTable.knows (h : SameTable s.conn s'.conn) {k : UInt32} (hk : s.Knows k) :
    s'.Knows k := by
  obtain ⟨b, b', hb, hb', hdata⟩ := h
  obtain ⟨b₁, hb₁, hused⟩ := hk
  obtain rfl := Option.some.inj (hb.symm.trans hb₁)
  refine ⟨b', hb', ?_⟩
  unfold ConvManager.isConvUsed at *
  rw [hdata]
  exact hused

/-- An event that goes over to the connection `c` and then runs the timer, or
does not run it. -/
theorem Moves.steps {act : Action} (h : Moves par fr c s'.conn out)
    (hids : act.ids = [fr.myId, fr.newId]) (hwf : ConnWf par s'.now s'.conn)
    (haside : Client.Aside s s') (hmy : c.myId = s.conn.myId)
    (hshaken : c.state = .handshake2 → s.conn.state = .handshake2 ∧ c.oppsiteId = s.conn.oppsiteId ∨
      Reply act s.conn.myId c.oppsiteId)
    (hready : c.state = .ready → c.oppsiteId = s.conn.oppsiteId ∧
      (s.conn.state = .ready ∨ s.conn.state = .handshake2 ∧ Welcome act s.conn))
    (hconvs : ¬ Expiring par act s → SameTable s.conn s'.conn) : Steps par act s s' out := by
  refine ⟨hwf, haside.now, ?_, fun hs2 => ?_, fun hs => ?_, h.sent,
    fun hexp k hk => (hconvs hexp).knows hk, .inl ⟨haside.bridgeConv, haside.bridgeConvInit⟩⟩
  · rcases h.myId with heq | heq | heq
    · exact .inl (heq.trans hmy)
    · exact .inr (by simp [hids, heq])
    · exact .inr (by simp [hids, heq])
  · obtain ⟨hstate, hid, hopp⟩ := h.later (.inl hs2)
    rw [hopp]
    exact ⟨hid.trans hmy, hshaken (hstate.symm.trans hs2)⟩
  · obtain ⟨hstate, hid, hopp⟩ := h.later (.inr hs)
    rw [hopp]
    exact ⟨hid.trans hmy, hready (hstate.symm.trans hs)⟩

/-- Where the event leaves the state and the identities. -/
theorem steps_of_keeps {act : Action} (hids : act.ids = [fr.myId, fr.newId])
    (hkeep : Keeps s.conn s'.conn) (hwf : ConnWf par s'.now s'.conn) (haside : Client.Aside s s')
    (hsame : SameTable s.conn s'.conn) : Steps par act s s' [] := by
  have hmoves : Moves par fr s.conn s'.conn [] :=
    moves_of_state (.inl hkeep.state) hkeep.myId hkeep.oppsiteId (by simp)
  exact hmoves.steps hids hwf haside rfl (fun hs2 => .inl ⟨hs2, rfl⟩) (fun hs => ⟨rfl, .inl hs⟩)
    fun _ => hsame

/-- A record of a connection that has been shaken hands on. -/
theorem ends_onHs2OrReady {s₁ : Client} {pkt : Packet} {type : UInt8} {data : Bytes}
    {b b' : Blob Address} (hb : s.conn.blob = some b) (hkeep : Keeps s.conn s₁.conn)
    (hb' : s₁.conn.blob = some b') (hconvs : b'.convManager = b.convManager)
    (hwf : ConnWf par s₁.now s₁.conn) (haside : Client.Aside s s₁)
    (hrecord : s.conn.recvSafer par.toParams s.now pkt.recv = .ok (s₁.conn, some (type, data)))
    (hwelcome : Welcome (.raw pkt fr) s.conn) {F : Fault → Prop} :
    Ends (s₁.onHs2OrReady par pkt.expected type data fr) F fun r =>
      Steps par (.raw pkt fr) s r.1 r.2 := by
  have hsame : SameTable s.conn s₁.conn := ⟨b, b', hb, hb', by rw [hconvs]⟩
  unfold onHs2OrReady
  apply ends_ite
  · intro _
    exact steps_of_keeps rfl hkeep hwf haside hsame
  intro hexp
  have hexpected : pkt.expected = true := not_not.mp hexp
  dsimp only
  apply ends_ite
  · -- the first record makes the connection ready
    intro hs2
    have hold : s.conn.state = .handshake2 := hkeep.state.symm.trans hs2
    generalize hturn : ({ s₁ with conn := { s₁.conn with
      state := .ready
      lastHbSentTime := 0
      lastHbRecvTime := s₁.now
      lastOppsiteRollerTime := s₁.now } } : Client) = s₂
    have hready : s₂.conn.state = .ready := by rw [← hturn]
    have hblob : s₂.conn.blob = some b' := by rw [← hturn]; exact hb'
    have hmy : s₂.conn.myId = s.conn.myId := by rw [← hturn]; exact hkeep.myId
    have hopp : s₂.conn.oppsiteId = s.conn.oppsiteId := by rw [← hturn]; exact hkeep.oppsiteId
    have hnow : s₂.now = s₁.now := by rw [← hturn]
    have haside₂ : Client.Aside s s₂ := by
      rw [← hturn]
      exact ⟨haside.now, haside.bridgeConv, haside.bridgeConvInit⟩
    have hwf₂ : ConnWf par s₂.now s₂.conn := by
      obtain ⟨b₁, hb₁, hm⟩ := hwf.blob
      obtain rfl := Option.some.inj (hb'.symm.trans hb₁)
      refine ⟨⟨b', hblob, by rw [hnow]; exact hm⟩, fun htcp => ?_⟩
      rw [hready] at htcp
      exact absurd htcp (by decide)
    apply (ends_onTimer hwf₂).bind
    rintro ⟨s₃, out⟩ ⟨hmoves, hwf₃, haside₃, htab⟩
    apply (ends_deliver hwf₃).bind
    rintro ⟨s₄, out'⟩ ⟨hkeep₄, hwf₄, haside₄, htab₄, hout'⟩
    refine ((hmoves.keep hkeep₄).append hout').steps rfl hwf₄ ?_ hmy ?_ ?_ ?_
    · exact ⟨haside₄.now.trans (haside₃.now.trans haside₂.now),
        haside₄.bridgeConv.trans (haside₃.bridgeConv.trans haside₂.bridgeConv),
        haside₄.bridgeConvInit.trans (haside₃.bridgeConvInit.trans haside₂.bridgeConvInit)⟩
    · intro hs
      rw [hready] at hs
      exact absurd hs (by decide)
    · exact fun _ => ⟨hopp, .inr ⟨hold, hwelcome⟩⟩
    · intro hlasting
      have hstale : ¬ s₂.Stale := by
        rintro ⟨b₂, hb₂, hexpires⟩
        obtain rfl := Option.some.inj (hblob.symm.trans hb₂)
        rw [haside₂.now, hconvs] at hexpires
        exact hlasting ⟨.record hold hexpected hrecord, b, hb, hexpires⟩
      have htab₂ : SameTable s.conn s₂.conn := ⟨b, b', hb, hblob, by rw [hconvs]⟩
      exact (htab₂.trans (htab hstale)).trans htab₄
  · intro _
    simp only [Checked.ok_bind]
    apply (ends_deliver hwf).bind
    rintro ⟨s₄, out'⟩ ⟨hkeep₄, hwf₄, haside₄, htab₄, hout'⟩
    have hmoves : Moves par fr s.conn s₄.conn ([] ++ out') := by
      refine Moves.append (moves_of_state (.inl ?_) ?_ ?_ (by simp)) hout'
      · exact hkeep₄.state.trans hkeep.state
      · exact hkeep₄.myId.trans hkeep.myId
      · exact hkeep₄.oppsiteId.trans hkeep.oppsiteId
    refine hmoves.steps rfl hwf₄ ?_ rfl (fun hs => .inl ⟨hs, rfl⟩) (fun hs => ⟨rfl, .inl hs⟩) ?_
    · exact ⟨haside₄.now.trans haside.now, haside₄.bridgeConv.trans haside.bridgeConv,
        haside₄.bridgeConvInit.trans haside.bridgeConvInit⟩
    · exact fun _ => hsame.trans htab₄

/-- The timer, after a packet has changed the state. -/
theorem ends_turned {s₂ : Client} {pkt : Packet} (h : ConnWf par s.now s.conn)
    (htimely : Timely par s (.raw pkt fr)) (hblob : s₂.conn.blob = s.conn.blob)
    (hmy : s₂.conn.myId = s.conn.myId) (haside : Client.Aside s s₂)
    (hstate : s₂.conn.state = .handshake1 ∨ s₂.conn.state = .handshake2 ∧
      Reply (.raw pkt fr) s.conn.myId s₂.conn.oppsiteId) {F : Fault → Prop} :
    Ends (s₂.onTimer par fr) F fun r => Steps par (.raw pkt fr) s r.1 r.2 := by
  obtain ⟨b, hb, hconvs⟩ := h.blob
  have hwf₂ : ConnWf par s₂.now s₂.conn := by
    refine ⟨⟨b, hblob.trans hb, by rw [haside.now]; exact hconvs⟩, fun htcp => ?_⟩
    rcases hstate with heq | ⟨heq, -⟩
    · rw [heq] at htcp
      exact absurd htcp (by decide)
    · rw [heq] at htcp
      exact absurd htcp (by decide)
  apply (ends_onTimer hwf₂).mono _ fun f hf => hf
  rintro ⟨s', out⟩ ⟨hmoves, hwf, haside', htab⟩
  refine hmoves.steps rfl hwf ?_ hmy ?_ ?_ ?_
  · exact ⟨haside'.now.trans haside.now, haside'.bridgeConv.trans haside.bridgeConv,
      haside'.bridgeConvInit.trans haside.bridgeConvInit⟩
  · intro hs2
    rcases hstate with heq | ⟨-, hreply⟩
    · rw [heq] at hs2
      exact absurd hs2 (by decide)
    · exact .inr hreply
  · intro hs
    rcases hstate with heq | ⟨heq, -⟩
    · rw [heq] at hs
      exact absurd hs (by decide)
    · rw [heq] at hs
      exact absurd hs (by decide)
  · intro hlasting
    have hstale : ¬ s₂.Stale := by
      rintro ⟨b₂, hb₂, hexpires⟩
      rw [haside.now] at hexpires
      exact hlasting ⟨htimely, b₂, hblob.symm.trans hb₂, hexpires⟩
    exact SameTable.trans ⟨b, b, hb, hblob.trans hb, rfl⟩ (htab hstale)

/-- `client_on_raw_recv`. -/
theorem ends_onRawRecv {pkt : Packet} (h : ConnWf par s.now s.conn) {F : Fault → Prop} :
    Ends (s.onRawRecv par pkt fr) F fun r => Steps par (.raw pkt fr) s r.1 r.2 := by
  obtain ⟨b, hb, hconvs⟩ := h.blob
  have hseen : Steps par (.raw pkt fr) s { s with disabled := s.disabled || pkt.disables } [] :=
    steps_of_keeps rfl (Keeps.refl _) h ⟨rfl, rfl, rfl⟩ (SameTable.refl hb)
  have hsyn : s.conn.state = .tcpHandshake ∨ s.conn.state = .tcpHandshakeDummy →
      Ends (do
        require (par.rawMode = .faketcp) .assertion
        if ¬ (pkt.synAck ∧ pkt.expected) then
          return ({ s with disabled := s.disabled || pkt.disables }, [])
        else if s.conn.state = .tcpHandshake ∧ ¬ pkt.ackSeq then
          return ({ s with disabled := s.disabled || pkt.disables }, [])
        else onTimer par { s with
          disabled := s.disabled || pkt.disables
          conn := { s.conn with
            state := .handshake1, lastStateTime := s.now, lastHbSentTime := 0 } } fr) F
        fun r => Steps par (.raw pkt fr) s r.1 r.2 := by
    intro hstate
    apply ends_require (h.tcp hstate)
    apply ends_ite
    · exact fun _ => hseen
    · intro hack
      have hack := not_not.mp hack
      apply ends_ite
      · exact fun _ => hseen
      · intro hseq
        apply ends_turned h
        · exact .synAck hstate hack.1 hack.2 fun htcp => not_not.mp fun hno => hseq ⟨htcp, hno⟩
        · rfl
        · rfl
        · exact ⟨rfl, rfl, rfl⟩
        · exact .inl rfl
  -- the two last states read a record and go on with it
  obtain ⟨c, record, b', hok, hkeep, hb', hsame, hacc⟩ :=
    recvSafer_spec hb par.toParams s.now pkt.recv
  have hwf : ConnWf par s.now c := by
    refine ⟨⟨b', hb', by rw [hsame]; exact hconvs⟩, fun htcp => h.tcp ?_⟩
    rw [hkeep.state] at htcp
    exact htcp
  have hnone : Steps par (.raw pkt fr) s
      { s with disabled := s.disabled || pkt.disables, conn := c } [] :=
    steps_of_keeps rfl hkeep hwf ⟨rfl, rfl, rfl⟩ ⟨b, b', hb, hb', by rw [hsame]⟩
  have hsome : ∀ type data, record = some (type, data) →
      Ends (onHs2OrReady par { s with disabled := s.disabled || pkt.disables, conn := c }
        pkt.expected type data fr) F fun r => Steps par (.raw pkt fr) s r.1 r.2 := by
    rintro type data rfl
    obtain ⟨bare, plain, stale, hrecv, haccepts⟩ := hacc type data rfl
    apply ends_onHs2OrReady hb
    · exact hkeep
    · exact hb'
    · exact hsame
    · exact hwf
    · exact ⟨rfl, rfl, rfl⟩
    · exact hok
    · exact ⟨pkt, fr, bare, plain, stale, type, data, rfl, hrecv, haccepts⟩
  unfold onRawRecv
  dsimp only
  split
  · exact steps_of_keeps rfl (Keeps.refl _) h ⟨rfl, rfl, rfl⟩ (SameTable.refl hb)
  · exact hsyn (.inl ‹_›)
  · exact hsyn (.inr ‹_›)
  · next hstate =>
      cases hdata : pkt.recv.bare with
      | none => exact hseen
      | some data =>
          dsimp only
          apply ends_ite
          · exact fun _ => hseen
          intro hexp
          apply ends_ite
          · exact fun _ => hseen
          intro hlen
          apply ends_ite
          · exact fun _ => hseen
          intro hid
          apply ends_ite
          · exact fun _ => hseen
          intro hseq
          have hid' : readId (data.drop 4) = s.conn.myId := not_not.mp hid
          have hlen' : 12 ≤ data.length := not_lt.mp hlen
          apply ends_turned h
          · exact .shake hstate hdata (not_not.mp hexp) hlen' hid'
              fun htcp => not_not.mp fun hno => hseq ⟨htcp, hno⟩
          · rfl
          · rfl
          · exact ⟨rfl, rfl, rfl⟩
          · exact .inr ⟨rfl, pkt, fr, data, rfl, hdata, hlen', rfl, hid'⟩
  all_goals
    rw [hok]
    cases record with
    | none => exact hnone
    | some r => exact hsome r.1 r.2 rfl

/-! ## Datagrams from the bridge -/

/-- An event that leaves the state and the identities, and sends records. -/
theorem steps_of_table {act : Action} {b' : Blob Address} (hkeep : Keeps s.conn s'.conn)
    (htcp : ConnWf par s.now s.conn) (hnow : s'.now = s.now) (hb' : s'.conn.blob = some b')
    (hm : b'.convManager.Wf s.now) (hsent : ∀ m ∈ out, Says par s'.conn m)
    (hconvs : ∀ k, s.Knows k → b'.convManager.isConvUsed k)
    (hbridge : b'.convManager.isConvUsed s'.bridgeConv) : Steps par act s s' out := by
  refine ⟨⟨⟨b', hb', by rw [hnow]; exact hm⟩, ?_⟩, hnow, .inl hkeep.myId, ?_, ?_, hsent,
    fun _ k hk => ⟨b', hb', hconvs k hk⟩, .inr ⟨b', hb', hbridge⟩⟩
  · rw [hkeep.state]
    exact htcp.tcp
  · rw [hkeep.state]
    exact fun hs2 => ⟨hkeep.myId, .inl ⟨hs2, hkeep.oppsiteId⟩⟩
  · rw [hkeep.state]
    exact fun hs => ⟨hkeep.myId, hkeep.oppsiteId, .inl hs⟩

/-- A datagram from the bridge is sent, in a conversation that is in the table. -/
theorem ends_sendBridge {datagram : Bytes} {act : Action} {b : Blob Address}
    {m : ConvManager Address} {conv : UInt32} {valid : Bool} (h : ConnWf par s.now s.conn)
    (hb : s.conn.blob = some b) (hm : m.Wf s.now) (hused : m.isConvUsed conv)
    (hkeep : ∀ k, b.convManager.isConvUsed k → m.isConvUsed k) {F : Fault → Prop} :
    Ends (do
      let m ← m.updateActiveTime conv s.now
      let c : ClientConn := { s.conn with blob := some { b with convManager := m } }
      if c.state = .ready then
        let (c, plain) ← c.sendDataSafer datagram conv
        return ({ s with conn := c, bridgeConv := conv, bridgeConvInit := valid },
          [.data conv plain])
      else return ({ s with conn := c, bridgeConv := conv, bridgeConvInit := valid }, [])) F
        fun r => Steps par act s r.1 r.2 := by
  obtain ⟨m', hok, hm', hdata⟩ := hm.updateActiveTime le_rfl (ConvManager.isConvUsed_iff.mp hused)
  have hused' : ∀ k, m.isConvUsed k → m'.isConvUsed k := by
    intro k hk
    unfold ConvManager.isConvUsed at *
    rw [hdata]
    exact hk
  have hknows : ∀ k, s.Knows k → m'.isConvUsed k := by
    rintro k ⟨b₁, hb₁, hk⟩
    obtain rfl := Option.some.inj (hb.symm.trans hb₁)
    exact hused' k (hkeep k hk)
  rw [hok]
  simp only [Checked.ok_bind]
  apply ends_ite
  · intro _
    unfold ConnInfo.sendDataSafer
    rw [sendSafer_eq rfl]
    simp only [Checked.ok_bind]
    refine steps_of_table ⟨rfl, rfl, rfl, rfl, rfl, rfl⟩ h rfl rfl hm' ?_ hknows (hused' _ hused)
    intro msg hmsg
    rw [List.mem_singleton.mp hmsg]
    exact .data ⟨_, _, _, _, .inr rfl, rfl⟩
  · intro _
    exact steps_of_table ⟨rfl, rfl, rfl, rfl, rfl, rfl⟩ h rfl rfl hm' (by simp) hknows
      (hused' _ hused)

/-- A datagram from the bridge.  It fails if the conversation of the bridge is
not in the table. -/
theorem ends_onUdpRecv {datagram : Bytes} {convs : List UInt32} {act : Action}
    (h : ConnWf par s.now s.conn) {F : Fault → Prop} (hstopped : F .stopped)
    (hlost : s.bridgeConvInit = true → ¬ s.Knows s.bridgeConv → F .assertion) :
    Ends (s.onUdpRecv datagram convs) F fun r => Steps par act s r.1 r.2 := by
  obtain ⟨b, hb, hconvs⟩ := h.blob
  unfold onUdpRecv
  apply ends_ite
  · intro _
    exact ⟨h, rfl, .inl rfl, fun hs2 => ⟨rfl, .inl ⟨hs2, rfl⟩⟩, fun hs => ⟨rfl, rfl, .inl hs⟩,
      by simp, fun _ k hk => hk, .inl ⟨rfl, rfl⟩⟩
  intro _
  apply ends_expect hb
  rw [ends_bind]
  unfold bridgeConvFor
  apply ends_ite
  · intro hinit
    by_cases hknows : s.Knows s.bridgeConv
    · obtain ⟨b₁, hb₁, hused⟩ := hknows
      obtain rfl := Option.some.inj (hb.symm.trans hb₁)
      exact ends_sendBridge h hb hconvs hused fun k hk => hk
    · have hnot : s.bridgeConv ∉ b.convManager.lru.mp := by
        intro hmem
        exact hknows ⟨b, hb, ConvManager.isConvUsed_iff.mpr ((hconvs.keys _).mpr hmem)⟩
      have hfail : b.convManager.updateActiveTime s.bridgeConv s.now = .error .assertion := by
        unfold ConvManager.updateActiveTime Lru.update require
        rw [if_neg hnot]
        rfl
      show Ends (b.convManager.updateActiveTime s.bridgeConv s.now >>= _) _ _
      rw [hfail]
      exact hlost hinit hknows
  · intro _
    cases hdraw : convs.find? fun k => ¬ b.convManager.isConvUsed k with
    | none => exact hstopped
    | some conv =>
        have hfree : ¬ b.convManager.isConvUsed conv := by
          simpa using List.find?_some hdraw
        obtain ⟨m, hok, hm, hdata⟩ : ∃ m, b.convManager.insertConv conv dummy s.now = .ok m ∧
            m.Wf s.now ∧ m.convToData = b.convManager.convToData.insert conv dummy :=
          hconvs.insertConv le_rfl hfree
        simp only [expect, Checked.ok_bind]
        rw [hok]
        simp only [Checked.ok_bind]
        apply ends_sendBridge h hb hm
        · rw [ConvManager.isConvUsed_iff, hdata, AList.mem_insert]
          exact .inl rfl
        · intro k hk
          rw [ConvManager.isConvUsed_iff, hdata, AList.mem_insert]
          exact .inr (ConvManager.isConvUsed_iff.mp hk)

/-! ## Events -/

/-- One event. -/
theorem ends_step {ev : Event} (h : ConnWf par s.now s.conn) (hnow : s.now ≤ ev.now) :
    Ends (s.step par ev) (fun f => f = .stopped ∨
        f = .assertion ∧ s.bridgeConvInit = true ∧ ¬ s.Knows s.bridgeConv) fun r =>
      Steps par ev.action { s with now := ev.now } r.1 r.2 := by
  obtain ⟨b, hb, hconvs⟩ := h.blob
  have h' : ConnWf par ev.now s.conn := ⟨⟨b, hb, hconvs.mono hnow⟩, h.tcp⟩
  obtain ⟨now, act⟩ := ev
  unfold step
  cases act with
  | timer fr =>
      refine (@ends_onTimer par { s with now := now } fr h' _).mono ?_ fun f hf => hf
      rintro ⟨s', out⟩ ⟨hmoves, hwf, haside, htab⟩
      refine hmoves.steps rfl hwf haside rfl (fun hs2 => .inl ⟨hs2, rfl⟩)
        (fun hs => ⟨rfl, .inl hs⟩) fun hlasting => htab fun hstale => hlasting ⟨.timer, hstale⟩
  | raw pkt fr => exact ends_onRawRecv h'
  | udp datagram convs =>
      apply ends_onUdpRecv h'
      · exact .inl rfl
      · exact fun hinit hlost => .inr ⟨rfl, hinit, hlost⟩
  | reconnect myId =>
      refine ⟨⟨⟨b, hb, hconvs.mono hnow⟩, fun htcp => absurd htcp (by simp)⟩, rfl,
        .inr (by simp [Action.ids]), fun hs2 => absurd hs2 (by simp), fun hs => absurd hs (by simp),
        by simp, fun _ k hk => hk, .inl ⟨rfl, rfl⟩⟩

/-! ## The conversation of the bridge -/

/-- Events that do not clear a conversation that was idle for too long. -/
structure Lasting (par : ClientParams) (s : Client) (ev : Event) : Prop where
  now : s.now ≤ ev.now
  lasting : ¬ Expiring par ev.action { s with now := ev.now }

/-- The conversation of the bridge is in the table. -/
structure BridgeKnown (par : ClientParams) (s : Client) : Prop where
  wf : ConnWf par s.now s.conn
  known : s.bridgeConvInit = true → s.Knows s.bridgeConv

theorem BridgeKnown.step {ev : Event} (h : BridgeKnown par s) (hev : Lasting par s ev)
    (hok : s.step par ev = .ok (s', out)) : BridgeKnown par s' := by
  have hsteps := (ends_step h.wf hev.now).of_ok hok
  refine ⟨hsteps.wf, fun hinit => ?_⟩
  rcases hsteps.bridge with ⟨hconv, hsame⟩ | hknown
  · rw [hconv]
    exact hsteps.convs hev.lasting _ (h.known (hsame.symm.trans hinit))
  · exact hknown

theorem connWf_start (par : ClientParams) (memory : ClientConn) (myId : UInt32) (t seq : Nat)
    (window : Nat → Bool) : ConnWf par 0 (start memory myId t seq window).conn :=
  ⟨⟨_, rfl, ConvManager.wf_init _ _⟩, fun htcp => absurd htcp (by simp [start])⟩

/-- In a run in which the timer never clears a conversation that was idle for
too long, the conversation of the bridge stays in both tables, and no assertion
fails. -/
theorem bridge_conv_of_run {memory : ClientConn} {myId : UInt32} {t seq : Nat}
    {window : Nat → Bool}
    (hreach : Reached (Client.step par) (Lasting par) (start memory myId t seq window) s) :
    (s.bridgeConvInit = true → ∃ b, s.conn.blob = some b ∧
        s.bridgeConv ∈ b.convManager.convToData ∧ s.bridgeConv ∈ b.convManager.lru.mp) ∧
      ∀ ev, s.now ≤ ev.now → s.step par ev ≠ .error .assertion := by
  have h : BridgeKnown par s := by
    induction hreach with
    | start =>
        exact ⟨connWf_start par memory myId t seq window, fun hinit => by simp [start] at hinit⟩
    | next _ hev hok ih => exact ih.step hev hok
  constructor
  · intro hinit
    obtain ⟨b, hb, hused⟩ := h.known hinit
    obtain ⟨b₁, hb₁, hconvs⟩ := h.wf.blob
    obtain rfl := Option.some.inj (hb.symm.trans hb₁)
    have hmem := ConvManager.isConvUsed_iff.mp hused
    exact ⟨b, hb, hmem, (hconvs.keys _).mp hmem⟩
  · intro ev hnow herr
    rcases (ends_step h.wf hnow).of_error herr with hstopped | ⟨-, hinit, hlost⟩
    · exact absurd hstopped (by decide)
    · exact hlost (h.known hinit)

/-- The check that time does not go back. -/
def later (s : Client) (ev : Event) : Bool := decide (s.now ≤ ev.now)

/-- The check that no conversation was idle for too long. -/
def young (s : Client) (ev : Event) : Bool :=
  s.later ev && s.conn.blob.all fun b =>
    b.convManager.lru.q.all fun e => decide (elapsed ev.now e.2 < convTimeout)

theorem lasting_of_check (s : Client) (ev : Event) (h : s.young ev) : Lasting par s ev := by
  rw [young, Bool.and_eq_true] at h
  refine ⟨of_decide_eq_true h.1, ?_⟩
  rintro ⟨-, b, hb, -, e, hlast, hidle⟩
  have hblob : s.conn.blob = some b := hb
  have hyoung := h.2
  rw [hblob] at hyoung
  have hlt := of_decide_eq_true (List.all_eq_true.mp hyoung e (List.mem_of_getLast? hlast))
  exact absurd hidle (not_le.mpr hlt)

/-- A client after one datagram and a minute. -/
theorem bridge_conv_of_run_minute : ∃ s,
    Reached (Client.step {}) (Lasting {}) (start { state := .idle } 1 0 0 fun _ => false) s ∧
      s.now = 60000 ∧ s.bridgeConvInit = true ∧
      ∃ b, s.conn.blob = some b ∧ s.bridgeConv ∈ b.convManager.convToData := by
  obtain ⟨s, outs, -, hreach, hs⟩ := @exists_reached _ _ _ _ (Client.step {}) (Lasting {}) young
    (fun r => r.1.now = 60000 ∧ r.1.bridgeConvInit = true)
    (start { state := .idle } 1 0 0 fun _ => false)
    [⟨1, .udp [65] [5]⟩, ⟨60000, .timer {}⟩] lasting_of_check (by decide) (by decide)
  have hs := of_decide_eq_true hs
  obtain ⟨b, hb, hmem, -⟩ := (bridge_conv_of_run hreach).1 hs.2
  exact ⟨s, hreach, hs.1, hs.2, b, hb, hmem⟩

/-- A client that had no datagrams for three minutes: the timer clears the
conversation of the bridge, and the next datagram fails the assertion. -/
theorem bridge_conv_lost : ∃ s,
    Reached (Client.step {}) (fun s ev => s.now ≤ ev.now)
        (start { state := .idle } 1 0 0 fun _ => false) s ∧
      s.bridgeConvInit = true ∧ ¬ s.Knows s.bridgeConv ∧
      s.step {} ⟨180002, .udp [66] []⟩ = .error .assertion := by
  obtain ⟨s, outs, -, hreach, hs⟩ := @exists_reached _ _ _ _ (Client.step {})
    (fun s ev => s.now ≤ ev.now) later
    (fun r => r.1.bridgeConvInit = true ∧
      (r.1.conn.blob.all fun b => !b.convManager.isConvUsed r.1.bridgeConv) = true ∧
      (match r.1.step {} ⟨180002, .udp [66] []⟩ with
        | .error .assertion => true
        | _ => false) = true)
    (start { state := .idle } 1 0 0 fun _ => false)
    [⟨1, .udp [65] [5]⟩, ⟨180001, .timer {}⟩] (fun _ _ => of_decide_eq_true) (by decide) (by decide)
  obtain ⟨hinit, hlost, hfail⟩ := of_decide_eq_true hs
  refine ⟨s, hreach, hinit, ?_, ?_⟩
  · rintro ⟨b, hb, hused⟩
    rw [hb] at hlost
    simp [hused] at hlost
  · split at hfail
    · assumption
    · exact absurd hfail (by decide)

end Client

end Fecraw.Ports.Raw
