import Fecraw.Ports.ServerTable
import Fecraw.Ports.ClientStep

/-!
# The handshake between a server and its clients

One server and any number of clients, over a network that loses, repeats,
reorders, redirects and reflects messages.  It cannot make up messages that
pass the authentication, so a packet that is received carries the plaintext of
a message that was sent before, or none.

The network keeps every plaintext that was sent, and the identities that the
connections of the server and the clients have held.  An identity that is new
is one that nobody has held before.

## Main results

* `Agrees.step`: what is on the wire, and what the parties know of each other,
  after one event.
* `agreement`: a ready connection of the server belongs to a handshake of the
  client it names, and a ready client to a ready connection of the server.
-/

namespace Fecraw.Ports.Raw

open Fecraw.Verified

/-! ## The network -/

/-- A server, its clients, what was sent, and the identities that were held. -/
structure Net (ι : Type) where
  server : Server
  clients : ι → Client
  wire : List Bytes := []
  serverIds : List UInt32 := []
  clientIds : List UInt32

/-- The identities of the connections. -/
def Server.ids (s : Server) : List UInt32 := s.conns.entries.map fun e => e.2.myId

/-- The plaintext that goes to a client. -/
def Sent.plain : Sent → Option Bytes
  | .bare plain | .safer _ plain | .data _ _ plain => some plain
  | .bridge _ _ => none

/-- The plaintext that goes to the server. -/
def ClientSent.plain : ClientSent → Option Bytes
  | .bare plain | .safer plain | .data _ plain => some plain
  | .bridge _ => none

/-- The plaintext of a packet that is authentic. -/
def Recv.plain : Recv → Option Bytes
  | .payload _ plain _ => plain
  | .rejected _ => none

namespace Net

variable {ι : Type} [DecidableEq ι]

/-- An event of one party. -/
inductive Event (ι : Type) where
  | server (ev : Server.Event)
  | client (i : ι) (ev : Client.Event)

/-- One event. -/
def step (par : Params) (cpar : ι → ClientParams) (n : Net ι) :
    Event ι → Except Fault (Net ι × Unit)
  | .server ev => do
      let (s, out) ← n.server.step serverClearFunction par ev
      return ({ n with
        server := s
        wire := out.filterMap Sent.plain ++ n.wire
        serverIds := s.ids ++ n.serverIds }, ())
  | .client i ev => do
      let (c, out) ← (n.clients i).step (cpar i) ev
      return ({ n with
        clients := Function.update n.clients i c
        wire := out.filterMap ClientSent.plain ++ n.wire
        clientIds := c.conn.myId :: n.clientIds }, ())

/-- An identity that nobody has held. -/
def Fresh (n : Net ι) (id : UInt32) : Prop := id ≠ 0 ∧ id ∉ n.serverIds ∧ id ∉ n.clientIds

/-- The events that can happen: time does not go back, packets carry what was
sent, and new identities are fresh. -/
inductive Allowed (par : Params) (cpar : ι → ClientParams) (n : Net ι) : Event ι → Prop where
  | server {ev : Server.Event} (hnow : n.server.now ≤ ev.now)
      (hwire : ∀ pkt fr, ev.action = .raw pkt fr → ∀ plain ∈ pkt.recv.plain, plain ∈ n.wire)
      (hids : ∀ s out, n.server.step serverClearFunction par ev = .ok (s, out) →
        ∀ id ∈ s.ids, id ∈ n.server.ids ∨ n.Fresh id) :
      Allowed par cpar n (.server ev)
  | client {i : ι} {ev : Client.Event} (hnow : (n.clients i).now ≤ ev.now)
      (hwire : ∀ pkt fr, ev.action = .raw pkt fr → ∀ plain ∈ pkt.recv.plain, plain ∈ n.wire)
      (hids : ∀ c out, (n.clients i).step (cpar i) ev = .ok (c, out) →
        c.conn.myId = (n.clients i).conn.myId ∨ n.Fresh c.conn.myId) :
      Allowed par cpar n (.client i ev)

/-- Nothing was sent, and every client has an identity; the `const_id` of every
party is not 0. -/
structure Start (par : Params) (cpar : ι → ClientParams) (n : Net ι) : Prop where
  server : ∃ fd, n.server = Server.start fd
  clients : ∀ i, ∃ memory myId t seq window, n.clients i = Client.start memory myId t seq window
  wire : n.wire = []
  serverIds : n.serverIds = []
  clientIds : ∀ i, (n.clients i).conn.myId ∈ n.clientIds
  clientIds_ne : ∀ id ∈ n.clientIds, id ≠ 0
  constId : par.constId ≠ 0 ∧ ∀ i, (cpar i).constId ≠ 0

end Net

/-! ## What an event of the server leaves and sends -/

variable {par : Params} {clear : FdManager → Nat → Except Fault FdManager} {act : Server.Action}
variable {s s' : Server} {t : Table Nat ServerConn} {p q : Nat} {c c' : ServerConn}

/-- A ready connection with these identities. -/
def Server.HasReady (s : Server) (myId oppsiteId constId : UInt32) : Prop :=
  ∃ p c, s.conns.lookup p = some c ∧ c.state = .ready ∧ c.myId = myId ∧
    c.oppsiteId = oppsiteId ∧ c.oppsiteConstId = constId

theorem Server.mem_ids (hc : s.conns.lookup p = some c) : c.myId ∈ s.ids :=
  List.mem_map.mpr ⟨⟨p, c⟩, AList.mem_lookup_iff.mp hc, rfl⟩

/-- A connection that is ready was ready with these identities, or the event
brings a handshake for an identity of the server. -/
def Descends (act : Server.Action) (s s' : Server) : Prop :=
  ∀ my opp k, s'.HasReady my opp k → s.HasReady my opp k ∨
    my ∈ s.ids ∧ ∃ a, Handshake act a opp my k

/-- What the server can send. -/
inductive Tells (par : Params) (act : Server.Action) (s s' : Server) : Sent → Prop where
  | reply {nonce : Nat × Nat} {a : Address} {my id1 id3 : UInt32} (hmy : my ∈ s'.ids)
      (hshake : Handshake act a id1 0 id3) :
      Tells par act s s' (.bare (bareMessage nonce my id1 par.constId))
  | record {m : Sent} {c : ServerConn} {plain : Bytes} (hm : m.plain = some plain)
      (hready : s.HasReady c.myId c.oppsiteId c.oppsiteConstId ∨
        s'.HasReady c.myId c.oppsiteId c.oppsiteConstId)
      (hplain : Record c plain) : Tells par act s s' m
  | bridge {fd : Nat} {d : Bytes} : Tells par act s s' (.bridge fd d)

/-- A connection is written to, and is ready only if it was. -/
theorem Descends.put (hc : s.conns.lookup p = some c) (hput : Puts s.conns t p c')
    (hkeep : c'.state = .ready → c.state = .ready ∧ c'.myId = c.myId ∧
      c'.oppsiteId = c.oppsiteId ∧ c'.oppsiteConstId = c.oppsiteConstId)
    (hconns : s'.conns = t) : Descends act s s' := by
  rintro my opp k ⟨x, c₀, hx, hready, rfl, rfl, rfl⟩
  rw [hconns] at hx
  left
  rcases hput.lookup_eq hx with ⟨rfl, rfl⟩ | ⟨-, hx⟩
  · obtain ⟨hold, hmy, hopp, hk⟩ := hkeep hready
    exact ⟨x, c, hc, hold, hmy.symm, hopp.symm, hk.symm⟩
  · exact ⟨x, c₀, hx, hready, rfl, rfl, rfl⟩

theorem Descends.keep (hc : s.conns.lookup p = some c) (hput : Puts s.conns t p c')
    (hkeep : Keeps c c') (hconns : s'.conns = t) : Descends act s s' := by
  apply Descends.put hc hput _ hconns
  rw [hkeep.state]
  exact fun hready => ⟨hready, hkeep.myId, hkeep.oppsiteId, hkeep.constId⟩

/-- Where the identities of a ready connection come from. -/
theorem Change.descends {out : List Sent} (h : Change par clear act s s' out) :
    Descends act s s' := by
  cases h with
  | nothing => exact fun my opp k hready => .inl hready
  | reply hc _ hput _ => exact Descends.keep hc hput (Keeps.refl _) rfl
  | touch hc hkeep hput _ _ => exact Descends.keep hc hput hkeep rfl
  | bridged hc _ hkeep hput _ _ _ _ _ _ => exact Descends.keep hc hput hkeep rfl
  | conv hc _ hkeep hput _ _ _ _ _ _ _ _ => exact Descends.keep hc hput hkeep rfl
  | timer hc _ hkeep hput _ _ _ _ _ => exact Descends.keep hc hput hkeep rfl
  | opened _ _ hput hstate _ _ _ _ =>
      rintro my opp k ⟨x, c₀, hx, hready, hids⟩
      rcases hput.lookup_eq hx with ⟨rfl, rfl⟩ | ⟨-, hx⟩
      · rw [hstate] at hready
        exact absurd hready (by decide)
      · exact .inl ⟨x, c₀, hx, hready, hids⟩
  | refused hc _ hput hidle _ _ =>
      apply Descends.put hc hput _ rfl
      intro hready
      rw [hidle] at hready
      exact absurd hready (by decide)
  | readied hc _ hput _ _ hmy hk _ _ _ _ _ _ _ hshake _ =>
      rintro my opp k ⟨x, c₀, hx, hready, rfl, rfl, rfl⟩
      rcases hput.lookup_eq hx with ⟨rfl, rfl⟩ | ⟨-, hx⟩
      · right
        rw [hmy, hk]
        exact ⟨Server.mem_ids hc, _, hshake⟩
      · exact .inl ⟨x, c₀, hx, hready, rfl, rfl, rfl⟩
  | grabbed hc _ _ _ hput hidle _ _ _ _ hid hk _ _ _ _ hshake _ _ =>
      rintro my opp k ⟨x, c₀, hx, hready, rfl, rfl, rfl⟩
      rw [hput] at hx
      split at hx
      · obtain rfl := Option.some.inj hx
        rw [hidle] at hready
        exact absurd hready (by decide)
      · split at hx
        · obtain rfl := Option.some.inj hx
          right
          rw [hid, hk]
          exact ⟨Server.mem_ids hc, _, hshake⟩
        · exact .inl ⟨x, c₀, hx, hready, rfl, rfl, rfl⟩

/-- Where what is sent comes from. -/
theorem Change.tells {out : List Sent} (h : Change par clear act s s' out) :
    ∀ m ∈ out, Tells par act s s' m := by
  cases h with
  | nothing | refused => simp
  | reply hc _ hput hshake =>
      intro m hm
      rw [List.mem_singleton.mp hm]
      exact .reply (Server.mem_ids hput.lookup) hshake
  | touch _ _ _ _ hout | conv _ _ _ _ _ _ _ _ _ _ _ hout =>
      intro m hm
      obtain ⟨fd, d, rfl⟩ := hout m hm
      exact .bridge
  | bridged hc hstate _ _ _ _ _ _ _ hplain =>
      intro m hm
      rw [List.mem_singleton.mp hm]
      exact .record rfl (.inl ⟨_, _, hc, hstate, rfl, rfl, rfl⟩) hplain
  | timer hc hstate _ _ _ _ _ _ hout =>
      intro m hm
      obtain ⟨plain, rfl, hplain⟩ := hout m hm
      exact .record rfl (.inl ⟨_, _, hc, hstate, rfl, rfl, rfl⟩) hplain
  | opened _ _ hput _ _ _ hshake _ =>
      intro m hm
      rw [List.mem_singleton.mp hm]
      exact .reply (Server.mem_ids hput.lookup) hshake
  | readied _ _ hput hready _ _ _ _ _ _ _ _ _ _ _ hplain =>
      intro m hm
      rw [List.mem_singleton.mp hm]
      exact .record rfl (.inr ⟨_, _, hput.lookup, hready, rfl, rfl, rfl⟩) hplain
  | grabbed hc hstate hori hready hput _ _ _ hready' _ _ _ _ _ _ _ _ _ hplain =>
      intro m hm
      rw [List.mem_singleton.mp hm]
      have hq := (hput _).trans ((if_neg (ne_of_ready hc hstate hori hready)).trans (if_pos rfl))
      exact .record rfl (.inr ⟨_, _, hq, hready', rfl, rfl, rfl⟩) hplain

/-- A sweep makes no connection ready. -/
theorem Descends.erased {s'' : Server} (h : Descends act s s') (herase : Erasure s' s'') :
    Descends act s s'' := by
  obtain ⟨-, -, -, hconns, -, -, -, -, -, -, -, -⟩ := herase
  rintro my opp k ⟨x, c, hx, hrest⟩
  refine h my opp k ⟨x, c, ?_, hrest⟩
  rw [hconns] at hx
  split at hx
  · exact absurd hx (by simp)
  · exact hx

/-- One event of the server. -/
theorem ends_step_tells {ev : Server.Event} (hclear : ClearsBridge clear) (h : TableWf s)
    (hev : Proper s ev) :
    Ends (s.step clear par ev) (AsideAt ev.action { s with now := ev.now }) fun r =>
      (TableWf r.1 ∧ Descends ev.action s r.1) ∧ ∀ m ∈ r.2, Tells par ev.action s r.1 m := by
  apply ends_step_of (fun s' => TableWf s' ∧ Descends ev.action s s')
    (fun s' out => ∀ m ∈ out, Tells par ev.action s s' m) hclear
  · exact fun _ hI => hI.1
  · exact fun t => ⟨h.at hev.now, fun my opp k hready => .inl hready⟩
  · intro s' out hs'
    refine ⟨⟨(h.at hev.now).change hclear hev.constId hs', hs'.descends⟩, fun m hm => ?_⟩
    cases hs'.tells m hm with
    | reply hmy hshake => exact .reply hmy hshake
    | record hplain hready hrecord => exact .record hplain hready hrecord
    | bridge => exact .bridge
  · rintro s₁ s₂ ⟨hwf, hdesc⟩ hs₂
    exact ⟨hwf.erased hs₂, hdesc.erased hs₂⟩
  · simp

/-! ## What the parties know of each other -/

section Agreement

variable {ι : Type} [DecidableEq ι] {cpar : ι → ClientParams} {n₀ n n' : Net ι}

/-- The states that a network reaches. -/
def Net.Reaches (par : Params) (cpar : ι → ClientParams) (n n' : Net ι) : Prop :=
  Reached (Net.step par cpar) (Net.Allowed par cpar) n n'

/-- In a state from which the present one was reached, `φ` held. -/
def Earlier (par : Params) (cpar : ι → ClientParams) (n₀ n : Net ι) (φ : Net ι → Prop) : Prop :=
  ∃ n', Net.Reaches par cpar n₀ n' ∧ Net.Reaches par cpar n' n ∧ φ n'

/-- A client with this `const_id` is in `client_handshake2`. -/
def Net.Shaking (cpar : ι → ClientParams) (my opp k : UInt32) (n : Net ι) : Prop :=
  ∃ i, (cpar i).constId = k ∧ (n.clients i).conn.state = .handshake2 ∧
    (n.clients i).conn.myId = my ∧ (n.clients i).conn.oppsiteId = opp

/-- A connection of the server is ready for the client `opp`. -/
def Net.Serving (my opp : UInt32) (n : Net ι) : Prop := ∃ k, n.server.HasReady my opp k

theorem Earlier.step {φ : Net ι → Prop} {ev : Net.Event ι} {u : Unit}
    (h : Earlier par cpar n₀ n φ) (hev : Net.Allowed par cpar n ev)
    (hok : n.step par cpar ev = .ok (n', u)) : Earlier par cpar n₀ n' φ := by
  obtain ⟨n₁, hbefore, hafter, hφ⟩ := h
  exact ⟨n₁, hbefore, hafter.next hev hok, hφ⟩

theorem Earlier.now {φ : Net ι → Prop} (h : Net.Reaches par cpar n₀ n) (hφ : φ n) :
    Earlier par cpar n₀ n φ :=
  ⟨n, h, .start, hφ⟩

/-- What can be on the wire. -/
inductive OnWire (par : Params) (cpar : ι → ClientParams) (n₀ n : Net ι) : Bytes → Prop where
  | shake1 {nonce : Nat × Nat} {i : ι} {my : UInt32} (hmy : my ∈ n.clientIds) :
      OnWire par cpar n₀ n (bareMessage nonce my 0 (cpar i).constId)
  | shake2 {nonce : Nat × Nat} {i : ι} {my opp : UInt32} (hmy : my ∈ n.clientIds)
      (hopp : opp ∈ n.serverIds)
      (hearlier : Earlier par cpar n₀ n (Net.Shaking cpar my opp (cpar i).constId)) :
      OnWire par cpar n₀ n (bareMessage nonce my opp (cpar i).constId)
  | reply {nonce : Nat × Nat} {my opp : UInt32} (hmy : my ∈ n.serverIds)
      (hopp : opp ∈ n.clientIds) : OnWire par cpar n₀ n (bareMessage nonce my opp par.constId)
  | fromClient {my opp : UInt32} {seq : Nat} {type roller : UInt8} {data : Bytes}
      (htype : type = tagHeartbeat ∨ type = tagData) (hmy : my ∈ n.clientIds) :
      OnWire par cpar n₀ n (saferMessage my opp seq type roller data)
  | fromServer {my opp : UInt32} {seq : Nat} {type roller : UInt8} {data : Bytes}
      (htype : type = tagHeartbeat ∨ type = tagData)
      (hearlier : Earlier par cpar n₀ n (Net.Serving my opp)) :
      OnWire par cpar n₀ n (saferMessage my opp seq type roller data)

/-- What the parties know of each other, and what is on the wire. -/
structure Agrees (par : Params) (cpar : ι → ClientParams) (n₀ n : Net ι) : Prop where
  reaches : Net.Reaches par cpar n₀ n
  server : TableWf n.server
  clients : ∀ i, Client.ConnWf (cpar i) (n.clients i).now (n.clients i).conn
  serverIds : ∀ id ∈ n.server.ids, id ∈ n.serverIds
  clientIds : ∀ i, (n.clients i).conn.myId ∈ n.clientIds
  serverIds_ne : ∀ id ∈ n.serverIds, id ≠ 0
  clientIds_ne : ∀ id ∈ n.clientIds, id ≠ 0
  disjoint : ∀ id ∈ n.serverIds, id ∉ n.clientIds
  wire : ∀ plain ∈ n.wire, OnWire par cpar n₀ n plain
  ready : ∀ my opp k, n.server.HasReady my opp k →
    Earlier par cpar n₀ n (Net.Shaking cpar opp my k)
  shaken : ∀ i, (n.clients i).conn.state = .handshake2 ∨ (n.clients i).conn.state = .ready →
    (n.clients i).conn.oppsiteId ∈ n.serverIds
  welcomed : ∀ i, (n.clients i).conn.state = .ready →
    Earlier par cpar n₀ n (Net.Serving (n.clients i).conn.oppsiteId (n.clients i).conn.myId)
  constId : par.constId ≠ 0 ∧ ∀ i, (cpar i).constId ≠ 0

/-- A bare message from the wire is one of three. -/
theorem OnWire.bare {plain stale data : Bytes} (h : OnWire par cpar n₀ n plain)
    (hdata : parseBare (plain ++ stale) plain.length = some data) :
    (readId data ∈ n.clientIds ∧ readId (data.drop 4) = 0 ∧
        ∃ i, readId (data.drop 8) = (cpar i).constId) ∨
      (readId data ∈ n.clientIds ∧ readId (data.drop 4) ∈ n.serverIds ∧
        ∃ i, readId (data.drop 8) = (cpar i).constId ∧ Earlier par cpar n₀ n
          (Net.Shaking cpar (readId data) (readId (data.drop 4)) (readId (data.drop 8)))) ∨
      (readId data ∈ n.serverIds ∧ readId (data.drop 4) ∈ n.clientIds ∧
        readId (data.drop 8) = par.constId) := by
  have hbare : ∀ nonce id1 id2 id3, plain = bareMessage nonce id1 id2 id3 →
      readId data = id1 ∧ readId (data.drop 4) = id2 ∧ readId (data.drop 8) = id3 := by
    rintro nonce id1 id2 id3 rfl
    rw [parseBare_bareMessage] at hdata
    obtain rfl := Option.some.inj hdata
    exact readId_handshake id1 id2 id3
  have hsafer : ∀ my opp seq type roller payload, type = tagHeartbeat ∨ type = tagData →
      plain ≠ saferMessage my opp seq type roller payload := by
    rintro my opp seq type roller payload htype rfl
    rw [parseBare_saferMessage] at hdata
    · exact absurd hdata (by simp)
    · rcases htype with rfl | rfl
      · decide
      · decide
  cases h with
  | shake1 hmy =>
      obtain ⟨h1, h2, h3⟩ := hbare _ _ _ _ rfl
      rw [h1, h2, h3]
      exact .inl ⟨hmy, rfl, _, rfl⟩
  | shake2 hmy hopp hearlier =>
      obtain ⟨h1, h2, h3⟩ := hbare _ _ _ _ rfl
      rw [h1, h2, h3]
      exact .inr (.inl ⟨hmy, hopp, _, rfl, hearlier⟩)
  | reply hmy hopp =>
      obtain ⟨h1, h2, h3⟩ := hbare _ _ _ _ rfl
      rw [h1, h2, h3]
      exact .inr (.inr ⟨hmy, hopp, rfl⟩)
  | fromClient htype _ => exact absurd rfl (hsafer _ _ _ _ _ _ htype)
  | fromServer htype _ => exact absurd rfl (hsafer _ _ _ _ _ _ htype)

/-- A record from the wire is from a client, or from a ready connection of the
server. -/
theorem OnWire.record {c : ClientConn} {plain stale data : Bytes} {type : UInt8}
    (h : OnWire par cpar n₀ n plain) (hacc : Accepts c (plain ++ stale) plain.length type data) :
    c.oppsiteId ∈ n.clientIds ∨ Earlier par cpar n₀ n (Net.Serving c.oppsiteId c.myId) := by
  have hbare : ∀ nonce id1 id2 id3, plain ≠ bareMessage nonce id1 id2 id3 := by
    rintro nonce id1 id2 id3 rfl
    have htype := hacc.type_eq
    rw [getD_bareMessage] at htype
    rcases hacc.type_mem with heq | heq
    · rw [heq] at htype
      exact absurd htype (by decide)
    · rw [heq] at htype
      exact absurd htype (by decide)
  have hsafer : ∀ my opp seq type roller payload,
      plain = saferMessage my opp seq type roller payload → c.oppsiteId = my ∧ c.myId = opp := by
    rintro my opp seq type' roller payload rfl
    have hids := readId_saferMessage my opp seq type' roller payload stale
    exact ⟨hacc.oppsiteId.symm.trans hids.1, hacc.myId.symm.trans hids.2⟩
  cases h with
  | shake1 _ => exact absurd rfl (hbare _ _ _ _)
  | shake2 _ _ _ => exact absurd rfl (hbare _ _ _ _)
  | reply _ _ => exact absurd rfl (hbare _ _ _ _)
  | fromClient _ hmy =>
      rw [(hsafer _ _ _ _ _ _ rfl).1]
      exact .inl hmy
  | fromServer _ hearlier =>
      obtain ⟨h1, h2⟩ := hsafer _ _ _ _ _ _ rfl
      rw [h1, h2]
      exact .inr hearlier

theorem OnWire.mono {plain : Bytes} (h : OnWire par cpar n₀ n plain)
    (hserver : ∀ id ∈ n.serverIds, id ∈ n'.serverIds)
    (hclient : ∀ id ∈ n.clientIds, id ∈ n'.clientIds)
    (hearlier : ∀ φ, Earlier par cpar n₀ n φ → Earlier par cpar n₀ n' φ) :
    OnWire par cpar n₀ n' plain := by
  cases h with
  | shake1 hmy => exact .shake1 (hclient _ hmy)
  | shake2 hmy hopp h => exact .shake2 (hclient _ hmy) (hserver _ hopp) (hearlier _ h)
  | reply hmy hopp => exact .reply (hserver _ hmy) (hclient _ hopp)
  | fromClient htype hmy => exact .fromClient htype (hclient _ hmy)
  | fromServer htype h => exact .fromServer htype (hearlier _ h)

/-- A handshake that is received is from a client that starts one, from a client
that goes on with one, or from the server. -/
inductive Heard (par : Params) (cpar : ι → ClientParams) (n₀ n : Net ι) (id1 id2 id3 : UInt32) :
    Prop where
  | shake1 (h1 : id1 ∈ n.clientIds) (h2 : id2 = 0) (h3 : id3 ≠ 0)
  | shake2 (h1 : id1 ∈ n.clientIds) (h2 : id2 ∈ n.serverIds) (h3 : id3 ≠ 0)
      (hearlier : Earlier par cpar n₀ n (Net.Shaking cpar id1 id2 id3))
  | reply (h1 : id1 ∈ n.serverIds) (h2 : id2 ∈ n.clientIds) (h3 : id3 ≠ 0)

theorem Agrees.heard {r : Recv} {data : Bytes} (h : Agrees par cpar n₀ n)
    (hwire : ∀ plain ∈ r.plain, plain ∈ n.wire) (hdata : r.bare = some data) :
    Heard par cpar n₀ n (readId data) (readId (data.drop 4)) (readId (data.drop 8)) := by
  obtain ⟨plain, stale, rfl, hparse⟩ : ∃ plain stale, r = .payload true (some plain) stale ∧
      parseBare (plain ++ stale) plain.length = some data := by
    unfold Recv.bare at hdata
    split at hdata
    · exact ⟨_, _, rfl, hdata⟩
    · exact absurd hdata (by simp)
  rcases (h.wire plain (hwire plain rfl)).bare hparse with
    ⟨h1, h2, i, h3⟩ | ⟨h1, h2, i, h3, hearlier⟩ | ⟨h1, h2, h3⟩
  · exact .shake1 h1 h2 (h3 ▸ h.constId.2 i)
  · exact .shake2 h1 h2 (h3 ▸ h.constId.2 i) hearlier
  · exact .reply h1 h2 (h3 ▸ h.constId.1)

/-- A handshake that the server receives. -/
theorem Agrees.handshake {act : Server.Action} {a : Address} {id1 id2 id3 : UInt32}
    (h : Agrees par cpar n₀ n)
    (hwire : ∀ pkt fr, act = .raw pkt fr → ∀ plain ∈ pkt.recv.plain, plain ∈ n.wire)
    (hshake : Handshake act a id1 id2 id3) : Heard par cpar n₀ n id1 id2 id3 := by
  obtain ⟨pkt, fr, data, hact, -, -, hdata, -, rfl, rfl, rfl⟩ := hshake
  exact h.heard (hwire pkt fr hact) hdata

/-- An event of the server. -/
theorem Agrees.server_step {ev : Server.Event} (h : Agrees par cpar n₀ n)
    (hev : Net.Allowed par cpar n (.server ev))
    (hok : n.step par cpar (.server ev) = .ok (n', ())) : Agrees par cpar n₀ n' := by
  have hearlier : ∀ φ, Earlier par cpar n₀ n φ → Earlier par cpar n₀ n' φ :=
    fun φ hφ => hφ.step hev hok
  have hreaches : Net.Reaches par cpar n₀ n' := h.reaches.next hev hok
  obtain ⟨hnow, hwire, hids⟩ := hev
  obtain ⟨⟨s, out⟩, hstep, hn⟩ := Checked.doBind_eq_ok.mp hok
  obtain ⟨rfl, -⟩ := Prod.mk.inj (Except.ok.inj hn)
  have hproper : Proper n.server ev := by
    refine ⟨hnow, fun a id1 id2 id3 hshake => ?_⟩
    cases h.handshake hwire hshake with
    | shake1 _ _ h3 => exact h3
    | shake2 _ _ h3 _ => exact h3
    | reply _ _ h3 => exact h3
  obtain ⟨⟨hwf, hdesc⟩, htells⟩ :=
    (ends_step_tells clearsBridge_serverClearFunction h.server hproper).of_ok hstep
  have hfresh : ∀ id ∈ s.ids, id ∈ n.serverIds ∨ n.Fresh id := by
    intro id hid
    rcases hids s out hstep id hid with hold | hnew
    · exact .inl (h.serverIds id hold)
    · exact .inr hnew
  have hmono : ∀ id ∈ n.serverIds, id ∈ s.ids ++ n.serverIds :=
    fun id hid => List.mem_append_right _ hid
  refine ⟨hreaches, hwf, h.clients, fun id hid => List.mem_append_left _ hid, h.clientIds, ?_,
    h.clientIds_ne, ?_, ?_, ?_, fun i hi => hmono _ (h.shaken i hi),
    fun i hi => hearlier _ (h.welcomed i hi), h.constId⟩
  · intro id hid
    rcases List.mem_append.mp hid with hid | hid
    · rcases hfresh id hid with hold | hnew
      · exact h.serverIds_ne id hold
      · exact hnew.1
    · exact h.serverIds_ne id hid
  · intro id hid
    rcases List.mem_append.mp hid with hid | hid
    · rcases hfresh id hid with hold | hnew
      · exact h.disjoint id hold
      · exact hnew.2.2
    · exact h.disjoint id hid
  · intro plain hplain
    rcases List.mem_append.mp hplain with hplain | hplain
    · obtain ⟨m, hm, hmplain⟩ := List.mem_filterMap.mp hplain
      cases htells m hm with
      | reply hmy hshake =>
          obtain rfl := Option.some.inj hmplain
          refine .reply (List.mem_append_left _ hmy) ?_
          cases h.handshake hwire hshake with
          | shake1 h1 _ _ => exact h1
          | shake2 _ h2 _ _ => exact absurd rfl (h.serverIds_ne 0 h2)
          | reply _ h2 _ => exact absurd rfl (h.clientIds_ne 0 h2)
      | record hsent hready hrecord =>
          obtain rfl := Option.some.inj (hmplain.symm.trans hsent)
          obtain ⟨seq, type, roller, data, htype, rfl⟩ := hrecord
          refine .fromServer htype ?_
          rcases hready with hready | hready
          · exact hearlier _ (Earlier.now h.reaches ⟨_, hready⟩)
          · exact Earlier.now hreaches ⟨_, hready⟩
      | bridge => exact absurd hmplain (by simp [Sent.plain])
    · exact (h.wire plain hplain).mono hmono (fun id hid => hid) hearlier
  · intro my opp k hready
    rcases hdesc my opp k hready with hold | ⟨hmy, a, hshake⟩
    · exact hearlier _ (h.ready my opp k hold)
    · have hheld := h.serverIds my hmy
      cases h.handshake hwire hshake with
      | shake1 _ h2 _ => exact absurd h2 (h.serverIds_ne my hheld)
      | shake2 _ _ _ hshaking => exact hearlier _ hshaking
      | reply _ h2 _ => exact absurd h2 (h.disjoint my hheld)

/-- What a client that has just stepped knows of the server. -/
theorem Agrees.client_knows {i : ι} {ev : Client.Event} {c : Client} {out : List ClientSent}
    (h : Agrees par cpar n₀ n)
    (hwire : ∀ pkt fr, ev.action = .raw pkt fr → ∀ plain ∈ pkt.recv.plain, plain ∈ n.wire)
    (hsteps : Client.Steps (cpar i) ev.action { n.clients i with now := ev.now } c out) :
    (c.conn.state = .handshake2 ∨ c.conn.state = .ready → c.conn.oppsiteId ∈ n.serverIds) ∧
      (c.conn.state = .ready →
        Earlier par cpar n₀ n (Net.Serving c.conn.oppsiteId c.conn.myId)) := by
  have hid := h.clientIds i
  refine ⟨fun hstate => ?_, fun hready => ?_⟩
  · rcases hstate with hs2 | hready
    · obtain ⟨-, ⟨hold, hopp⟩ | ⟨pkt, fr, data, hact, hdata, -, hfrom, hfor⟩⟩ := hsteps.shaken hs2
      · rw [hopp]
        exact h.shaken i (.inl hold)
      · rw [← hfrom]
        cases h.heard (hwire pkt fr hact) hdata with
        | shake1 _ h2 _ => exact absurd (hfor.symm.trans h2) (h.clientIds_ne _ hid)
        | shake2 _ h2 _ _ =>
            rw [hfor] at h2
            exact absurd hid (h.disjoint _ h2)
        | reply h1 _ _ => exact h1
    · obtain ⟨-, hopp, hold | ⟨hold, -⟩⟩ := hsteps.ready hready
      · rw [hopp]
        exact h.shaken i (.inr hold)
      · rw [hopp]
        exact h.shaken i (.inl hold)
  · obtain ⟨hmy, hopp, hold | ⟨hold, pkt, fr, bare, plain, stale, type, data, hact, hrecv, hacc⟩⟩ :=
      hsteps.ready hready
    · rw [hmy, hopp]
      exact h.welcomed i hold
    · have hplain : plain ∈ n.wire := hwire pkt fr hact plain (by rw [hrecv]; rfl)
      rw [hmy, hopp]
      rcases (h.wire plain hplain).record hacc with hclient | hearlier
      · exact absurd hclient (h.disjoint _ (h.shaken i (.inl hold)))
      · exact hearlier

/-- An event of a client. -/
theorem Agrees.client_step {i : ι} {ev : Client.Event} (h : Agrees par cpar n₀ n)
    (hev : Net.Allowed par cpar n (.client i ev))
    (hok : n.step par cpar (.client i ev) = .ok (n', ())) : Agrees par cpar n₀ n' := by
  have hearlier : ∀ φ, Earlier par cpar n₀ n φ → Earlier par cpar n₀ n' φ :=
    fun φ hφ => hφ.step hev hok
  have hreaches : Net.Reaches par cpar n₀ n' := h.reaches.next hev hok
  have hnow : (n.clients i).now ≤ ev.now := by cases hev; assumption
  have hwire : ∀ pkt fr, ev.action = .raw pkt fr → ∀ plain ∈ pkt.recv.plain, plain ∈ n.wire := by
    cases hev; assumption
  have hids : ∀ c out, (n.clients i).step (cpar i) ev = .ok (c, out) →
      c.conn.myId = (n.clients i).conn.myId ∨ n.Fresh c.conn.myId := by cases hev; assumption
  obtain ⟨⟨c, out⟩, hstep, hn⟩ := Checked.doBind_eq_ok.mp hok
  obtain ⟨rfl, -⟩ := Prod.mk.inj (Except.ok.inj hn)
  have hsteps := (Client.ends_step (h.clients i) hnow).of_ok hstep
  obtain ⟨hshaken, hwelcomed⟩ := h.client_knows hwire hsteps
  have hmono : ∀ id ∈ n.clientIds, id ∈ c.conn.myId :: n.clientIds :=
    fun id hid => List.mem_cons_of_mem _ hid
  have hfresh : c.conn.myId ∈ n.clientIds ∨ n.Fresh c.conn.myId := by
    rcases hids c out hstep with heq | hnew
    · exact .inl (heq ▸ h.clientIds i)
    · exact .inr hnew
  refine ⟨hreaches, h.server, ?_, h.serverIds, ?_, h.serverIds_ne, ?_, ?_, ?_, ?_, ?_, ?_,
    h.constId⟩
  · apply (Function.forall_update_iff n.clients fun j (cl : Client) =>
      Client.ConnWf (cpar j) cl.now cl.conn).mpr
    exact ⟨hsteps.wf, fun j _ => h.clients j⟩
  · apply (Function.forall_update_iff n.clients fun _ (cl : Client) =>
      cl.conn.myId ∈ c.conn.myId :: n.clientIds).mpr
    exact ⟨List.mem_cons_self, fun j _ => hmono _ (h.clientIds j)⟩
  · intro id hid
    rcases List.mem_cons.mp hid with rfl | hid
    · rcases hfresh with hold | hnew
      · exact h.clientIds_ne _ hold
      · exact hnew.1
    · exact h.clientIds_ne id hid
  · intro id hid hmem
    rcases List.mem_cons.mp hmem with rfl | hmem
    · rcases hfresh with hold | hnew
      · exact h.disjoint _ hid hold
      · exact hnew.2.1 hid
    · exact h.disjoint id hid hmem
  · intro plain hplain
    rcases List.mem_append.mp hplain with hplain | hplain
    · obtain ⟨m, hm, hmplain⟩ := List.mem_filterMap.mp hplain
      cases hsteps.sent m hm with
      | shake1 =>
          obtain rfl := Option.some.inj hmplain
          exact .shake1 List.mem_cons_self
      | shake2 hstate =>
          obtain rfl := Option.some.inj hmplain
          refine .shake2 List.mem_cons_self (hshaken (.inl hstate)) ?_
          refine Earlier.now hreaches ⟨i, rfl, ?_⟩
          dsimp only
          rw [Function.update_self]
          exact ⟨hstate, rfl, rfl⟩
      | safer hrecord | data hrecord =>
          obtain rfl := Option.some.inj hmplain
          obtain ⟨seq, type, roller, data, htype, rfl⟩ := hrecord
          exact .fromClient htype List.mem_cons_self
      | bridge => exact absurd hmplain (by simp [ClientSent.plain])
    · exact (h.wire plain hplain).mono (fun id hid => hid) hmono hearlier
  · exact fun my opp k hready => hearlier _ (h.ready my opp k hready)
  · apply (Function.forall_update_iff n.clients fun _ (cl : Client) =>
      cl.conn.state = .handshake2 ∨ cl.conn.state = .ready → cl.conn.oppsiteId ∈ n.serverIds).mpr
    exact ⟨hshaken, fun j _ => h.shaken j⟩
  · apply (Function.forall_update_iff n.clients fun _ (cl : Client) => cl.conn.state = .ready →
      Earlier par cpar n₀ _ (Net.Serving cl.conn.oppsiteId cl.conn.myId)).mpr
    exact ⟨fun hready => hearlier _ (hwelcomed hready),
      fun j _ hready => hearlier _ (h.welcomed j hready)⟩

theorem Agrees.step {ev : Net.Event ι} (h : Agrees par cpar n₀ n) (hev : Net.Allowed par cpar n ev)
    (hok : n.step par cpar ev = .ok (n', ())) : Agrees par cpar n₀ n' := by
  cases ev with
  | server ev => exact h.server_step hev hok
  | client i ev => exact h.client_step hev hok

theorem agrees_start (h : n₀.Start par cpar) : Agrees par cpar n₀ n₀ := by
  obtain ⟨fd, hserver⟩ := h.server
  have hids : n₀.server.ids = [] := by
    rw [hserver]
    rfl
  have hidle : ∀ i, (n₀.clients i).conn.state = .idle ∧
      Client.ConnWf (cpar i) (n₀.clients i).now (n₀.clients i).conn := by
    intro i
    obtain ⟨memory, myId, t, seq, window, hi⟩ := h.clients i
    rw [hi]
    exact ⟨rfl, Client.connWf_start _ memory myId t seq window⟩
  refine ⟨.start, ?_, fun i => (hidle i).2, ?_, h.clientIds, ?_, h.clientIds_ne, ?_, ?_, ?_, ?_, ?_,
    h.constId⟩
  · rw [hserver]
    exact tableWf_start fd
  · rw [hids]
    simp
  · rw [h.serverIds]
    simp
  · rw [h.serverIds]
    simp
  · rw [h.wire]
    simp
  · rintro my opp k ⟨p, c, hc, -⟩
    rw [hserver] at hc
    exact absurd hc (by simp [Server.start])
  · intro i hi
    rw [(hidle i).1] at hi
    exact absurd hi (by decide)
  · intro i hi
    rw [(hidle i).1] at hi
    exact absurd hi (by decide)

/-- A ready connection of the server belongs to a client with its `const_id`
that was in `client_handshake2` with the same identities, and a ready client to
a connection of the server that was ready for it. -/
theorem agreement (hstart : n₀.Start par cpar) (hreach : Net.Reaches par cpar n₀ n) :
    (∀ p c, n.server.conns.lookup p = some c → c.state = .ready →
      Earlier par cpar n₀ n (Net.Shaking cpar c.oppsiteId c.myId c.oppsiteConstId)) ∧
    ∀ i, (n.clients i).conn.state = .ready →
      Earlier par cpar n₀ n
        (Net.Serving (n.clients i).conn.oppsiteId (n.clients i).conn.myId) := by
  have h : Agrees par cpar n₀ n := by
    induction hreach with
    | start => exact agrees_start hstart
    | next _ hev hok ih => exact ih.step hev hok
  exact ⟨fun p c hc hready => h.ready _ _ _ ⟨p, c, hc, hready, rfl, rfl, rfl⟩, h.welcomed⟩

/-! ## A given run -/

/-- The check that an identity is fresh. -/
def Net.fresh (n : Net ι) (id : UInt32) : Bool :=
  decide (id ≠ 0) && !n.serverIds.contains id && !n.clientIds.contains id

/-- The check that a packet carries what was sent. -/
def Net.carried (n : Net ι) (r : Recv) : Bool := r.plain.all n.wire.contains

/-- The check that an event can happen. -/
def Net.allowed (par : Params) (cpar : ι → ClientParams) (n : Net ι) : Net.Event ι → Bool
  | .server ev => decide (n.server.now ≤ ev.now) &&
      (match ev.action with
        | .raw pkt _ => n.carried pkt.recv
        | _ => true) &&
      (n.server.step serverClearFunction par ev).toOption.all fun r =>
        r.1.ids.all fun id => n.server.ids.contains id || n.fresh id
  | .client i ev => decide ((n.clients i).now ≤ ev.now) &&
      (match ev.action with
        | .raw pkt _ => n.carried pkt.recv
        | _ => true) &&
      ((n.clients i).step (cpar i) ev).toOption.all fun r =>
        r.1.conn.myId == (n.clients i).conn.myId || n.fresh r.1.conn.myId

omit [DecidableEq ι] in
theorem Net.fresh_iff {id : UInt32} (h : n.fresh id) : n.Fresh id := by
  simpa [Net.fresh, Net.Fresh, and_assoc] using h

omit [DecidableEq ι] in
theorem Net.mem_wire {r : Recv} (h : n.carried r) : ∀ plain ∈ r.plain, plain ∈ n.wire := by
  intro plain hplain
  unfold Net.carried at h
  rw [hplain] at h
  simpa using h

omit [DecidableEq ι] in
theorem Net.allowed_of_check (n : Net ι) (ev : Net.Event ι) (h : n.allowed par cpar ev) :
    Net.Allowed par cpar n ev := by
  cases ev with
  | server ev =>
      simp only [Net.allowed, Bool.and_eq_true] at h
      refine .server (of_decide_eq_true h.1.1) (fun pkt fr hact => ?_) fun s out hok id hid => ?_
      · have hcarried := h.1.2
        rw [hact] at hcarried
        exact Net.mem_wire hcarried
      · have hfresh := h.2
        rw [hok] at hfresh
        have hone := List.all_eq_true.mp hfresh id hid
        rw [Bool.or_eq_true] at hone
        exact hone.imp (fun hold => by simpa using hold) Net.fresh_iff
  | client i ev =>
      simp only [Net.allowed, Bool.and_eq_true] at h
      refine .client (of_decide_eq_true h.1.1) (fun pkt fr hact => ?_) fun c out hok => ?_
      · have hcarried := h.1.2
        rw [hact] at hcarried
        exact Net.mem_wire hcarried
      · have hfresh := h.2
        rw [hok] at hfresh
        have hone : (c.conn.myId == (n.clients i).conn.myId || n.fresh c.conn.myId) = true := hfresh
        rw [Bool.or_eq_true] at hone
        exact hone.imp (fun hold => by simpa using hold) Net.fresh_iff

end Agreement

/-- A server and one client, before anything was sent. -/
def loneNet : Net Unit where
  server := Server.start 3
  clients := fun _ => Client.start { state := .idle } 2 0 0 fun _ => false
  clientIds := [2]

/-- The client of `loneNet`, in `mode_udp`. -/
def lonePar : Unit → ClientParams := fun _ => { hbMode0 := true, constId := 9, rawMode := .udp }

/-- The messages of a handshake, each received once. -/
def loneEvents : List (Net.Event Unit) :=
  [.client () ⟨2000, .timer { newId := 7 }⟩,
    .server ⟨1, .raw (handshakePacket ⟨1, 1⟩ 7 0 9) { myId := 5 }⟩,
    .client () ⟨2001, .raw { recv := .payload true (some (bareMessage (0, 0) 5 7 1)) [] } {}⟩,
    .server ⟨2, .raw (handshakePacket ⟨1, 1⟩ 7 5 9) { seq := 1 }⟩,
    .client () ⟨2002, .raw
      { recv := .payload false (some (saferMessage 5 7 1 tagHeartbeat 0 [])) [] } {}⟩]

theorem start_loneNet : loneNet.Start { hbMode0 := true } lonePar :=
  ⟨⟨3, rfl⟩, fun _ => ⟨_, _, _, _, _, rfl⟩, rfl, rfl, fun _ => List.mem_singleton.mpr rfl,
    by simp [loneNet], by decide, fun i => by cases i; decide⟩

/-- After a handshake over `loneNet`, the client is ready, and the server was
ready for it. -/
theorem agreement_lone : ∃ n, Net.Reaches { hbMode0 := true } lonePar loneNet n ∧
    (n.clients ()).conn.state = .ready ∧
    Earlier { hbMode0 := true } lonePar loneNet n
      (Net.Serving (n.clients ()).conn.oppsiteId (n.clients ()).conn.myId) := by
  obtain ⟨n, outs, -, hreach, hready⟩ := @exists_reached _ _ _ _
    (Net.step { hbMode0 := true } lonePar) (Net.Allowed { hbMode0 := true } lonePar) _
    (fun r => (r.1.clients ()).conn.state = .ready) loneNet loneEvents
    Net.allowed_of_check (by decide) (by decide)
  have hready := of_decide_eq_true hready
  exact ⟨n, hreach, hready, (agreement start_loneNet hreach).2 () hready⟩

end Fecraw.Ports.Raw
