import Fecraw.Ports.EncoderSafety
import Fecraw.Ports.FlushTimer
import Fecraw.Ports.Tunnel
import Fecraw.Ports.Retune
import Fecraw.Ports.Conn

/-!
# Packets on their way to the raw thread

`tun_fd_cb` reads packets of up to 3600 octets.  It sends a small packet as
copies of one frame, as many as the configuration says, and gives the others to
the encoder.  What it writes to the bridge is checked only by the raw thread,
which drops datagrams of more than 1800 octets.  The threshold, the number of
copies and the FEC parameters come from the configuration unchecked.

An `End` is the sending half of a tunnel end: its globals, its encoder and the
controller that tunes the encoder.  It takes packets, timers and datagrams of
the peer in any order.

The configurations under which no packet is lost are those that are `Fine`.
For the shards that means every blob that packets can make, cut in its cheapest
row, under every table that the controller can put in force; the group may have
been filled under an earlier table.

## Main results

* `well_step`: a step of a fine configuration is lawful and keeps the end well.
* `lossless_iff`: an accepted configuration loses no packet, in any state that
  is reached, if and only if it is fine.
-/

namespace Fecraw.Ports.SendPath

open Fecraw.Verified Fecraw.Ports.Packet Fecraw.Ports.SmallPacket Fecraw.Ports.RsTable
open Fecraw.Ports.BlobCodec Fecraw.Ports.FecEncode Fecraw.Ports.EncoderSafety
open FecEncodeManager
open Fecraw.Ports.Tunnel hiding Sending

/-! ## The sending half of a tunnel end -/

structure End where
  tunnel : Tunnel.Endpoint
  fec : Retune.Endpoint

inductive Event where
  /-- `tun_fd_cb` reads a packet. -/
  | tun (p : Bytes) (ivs : Nat → Iv)
  /-- `fec_encode_cb`. -/
  | fecEncode (ivs : Nat → Iv)
  /-- `bridge_recv_cb`. -/
  | bridgeRecv (stale : Mem) (datagram : Bytes)
  /-- `conn_timer_cb`, with what its two counters grew by.  The keep-alive
  datagram that it sends carries no packet and is left out. -/
  | connTimer (deltaIn deltaOut : UInt64) (now : ℚ)

/-- What is seen of an event. -/
structure Seen where
  /-- What is written to the bridge. -/
  datagrams : List Bytes := []
  /-- The return value of `input`, where it is called. -/
  ret : Option Int := none

/-- The header of the packets of the encoder. -/
def fecHeader (e : Tunnel.Endpoint) : UInt8 :=
  match e.role with
  | .client => if e.gotFeedBack then headerNormal else headerNewConnect
  | .server => headerNormal

section Step

variable (crc : Bytes → UInt32) (c : Code) (cfg : Config.FecrawConfig) (g : FecParameter)

/-- The loop of `from_normal_to_fec2`: every packet with its header is cooked
and sent.  Nothing in this program sets the jitter, the output interval or the
random drop. -/
def delaySend (par : CookPar) (ivs : Nat → Iv) (header : UInt8) (out : List Bytes) :
    Option (List Bytes) :=
  (List.range out.length).mapM fun i => doCook crc par (ivs i) (putHeader header (out.getD i []))

/-- `from_normal_to_fec2`; `none` is the null pointer of the timer. -/
def fromNormalToFec2 (s : End) (ivs : Nat → Iv) (header : UInt8) (data : Option Bytes) :
    Checked (End × Seen) :=
  if cfg.disableFec then do
    let datagrams ← Checked.ofOption (delaySend crc s.tunnel.cook ivs header data.toList)
    return (s, { datagrams := datagrams })
  else do
    let (e, ret, out) ← s.fec.encoder.step c g data
    let datagrams ← Checked.ofOption (delaySend crc s.tunnel.cook ivs header out)
    return ({ s with fec := { s.fec with encoder := e } }, { datagrams := datagrams, ret := ret })

/-- `tun_fd_cb` with the calls at its end. -/
def onTun (s : End) (p : Bytes) (ivs : Nat → Iv) : Checked (End × Seen) := do
  let (sent, tunnel) ← Checked.ofOption (tunFdCb crc s.tunnel ivs p)
  match sent with
  | .dropped => return ({ s with tunnel := tunnel }, {})
  | .small datagrams => return ({ s with tunnel := tunnel }, { datagrams := datagrams })
  | .fec header data =>
      fromNormalToFec2 crc c cfg g { s with tunnel := tunnel } ivs header (some data)

def step (s : End) : Event → Checked (End × Seen)
  | .tun p ivs => onTun crc c cfg g s p ivs
  | .fecEncode ivs => fromNormalToFec2 crc c cfg g s ivs (fecHeader s.tunnel) none
  | .bridgeRecv stale datagram =>
      .ok ({ s with tunnel := (bridgeRecvCb crc s.tunnel stale datagram).2 }, {})
  | .connTimer deltaIn deltaOut now =>
      if cfg.fecAdaptive then
        .ok ({ s with fec := Retune.connTimer s.fec deltaIn deltaOut now }, {})
      else .ok (s, {})

end Step

/-- The end that the event loops start with, for the key `key`. -/
def start (cfg : Config.FecrawConfig) (g : FecParameter) (key : Bytes) (keepReconnect : Bool)
    (seq : UInt32) (buf : Mem) : End where
  tunnel :=
    { role := if cfg.isServer = 1 then .server else .client
      cook := { key := key }
      smallPacketThreshold := cfg.smallPacketThreshold
      keepReconnect := keepReconnect
      spSend := Sender.init cfg.smallPacketThreshold cfg.smallPacketRedundancy }
  fec := Retune.start g seq buf cfg.fecStr

/-! ## What is asked of a step -/

section Lawful

variable (crc : Bytes → UInt32) (c : Code)

/-- A packet that was read is not lost without a trace: a datagram carries it,
it joins the open group, or `input` returns `-1`. -/
inductive Kept (s' : End) (o : Seen) (p : Bytes) : Prop where
  /-- A datagram is a frame of it. -/
  | small {d : Bytes} {iv : Iv} {seq : UInt32} (hd : d ∈ o.datagrams)
      (hcook : doCook crc s'.tunnel.cook iv (Sender.frame seq p) = some d)
  /-- A datagram is the packet itself, which is so without FEC. -/
  | plain {d : Bytes} {iv : Iv} {header : UInt8} (hd : d ∈ o.datagrams)
      (hcook : doCook crc s'.tunnel.cook iv (putHeader header p) = some d)
  /-- The datagrams are the shards of a group that ends with it. -/
  | blob {ps out : List Bytes} {seq : UInt32} {ivs : Nat → Iv} {header : UInt8}
      (hsends : Sends c 0 seq (ps ++ [p]) out)
      (hsend : delaySend crc s'.tunnel.cook ivs header out = some o.datagrams)
      (hne : o.datagrams ≠ [])
  /-- A datagram is its packet in a group of mode 1. -/
  | packet {d : Bytes} {iv : Iv} {seq : UInt32} {i : Nat} {header : UInt8} (hd : d ∈ o.datagrams)
      (hcook : doCook crc s'.tunnel.cook iv
        (putHeader header (dataPacket seq (BlobEncode.record p) i)) = some d)
  | pending {ps : List Bytes} (hret : o.ret = some 0)
      (hpending : Pending s'.fec.encoder (ps ++ [p]))
  | rejected (hret : o.ret = some (-1))

/-- The raw thread takes every datagram, and a packet that was read is kept. -/
def Lawful (ev : Event) (s' : End) (o : Seen) : Prop :=
  (∀ d ∈ o.datagrams, d.length ≤ Raw.maxDataLen) ∧ ∀ p ivs, ev = .tun p ivs → Kept crc c s' o p

end Lawful

/-- The packets of the TUN device that `tun_fd_cb` takes. -/
def Admissible (ev : Event) : Prop :=
  ∀ p ivs, ev = .tun p ivs → 1 ≤ p.length ∧ p.length ≤ maxDataLen

/-- In every state that is reached, every event is handled, and lawfully. -/
def Lossless (crc : Bytes → UInt32) (c : Code) (key : Bytes) (cfg : Config.FecrawConfig)
    (g : FecParameter) : Prop :=
  ∀ keepReconnect seq buf s,
    Reached (step crc c cfg g) (fun _ => Admissible) (start cfg g key keepReconnect seq buf) s →
    ∀ ev, Admissible ev → ∃ s' o, step crc c cfg g s ev = .ok (s', o) ∧ Lawful crc c ev s' o

/-! ## The condition -/

/-- The controller and the table of the encoder. -/
abbrev Tuning := AdaptiveFec × FecParameter

/-- `conn_timer_cb` retunes. -/
inductive Ticks (cfg : Config.FecrawConfig) : Tuning → Tuning → Prop where
  | tick {a : AdaptiveFec} {par : FecParameter} (hadaptive : cfg.fecAdaptive = true)
      (deltaIn deltaOut : UInt64) (now : ℚ) :
      Ticks cfg (a, par) (((a.observe deltaIn deltaOut).adjust now).1,
        (a.observe deltaIn deltaOut).retune now par)

/-- The second tuning may come after the first. -/
def Later (cfg : Config.FecrawConfig) : Tuning → Tuning → Prop := Relation.ReflTransGen (Ticks cfg)

/-- The tunings that may be in force. -/
def InForce (cfg : Config.FecrawConfig) (g : FecParameter) (t : Tuning) : Prop :=
  Later cfg (AdaptiveFec.start cfg.fecStr, g) t

/-- The length of the shortest packet that is given to the encoder. -/
def shortest (cfg : Config.FecrawConfig) : Nat := max 1 cfg.smallPacketThreshold.toNat

/-- The blobs that may be open under a tuning: those of its own table, and those
of fewer than 200 packets that were filled under an earlier one. -/
def Blob (cfg : Config.FecrawConfig) (g : FecParameter) (t : Tuning) (n len : Nat) : Prop :=
  ∃ t', InForce cfg g t' ∧ Later cfg t' t ∧ (n < 200 ∨ t' = t) ∧
    Group t'.2 (shortest cfg) n len

/-- The length of the datagram that `n` octets are cooked to, with the longest
iv. -/
def cooked (n : Nat) : Nat := n + 4 + ivMax + 1

/-- Configurations under which no packet is lost. -/
structure Fine (cfg : Config.FecrawConfig) (g : FecParameter) : Prop where
  coded : cfg.disableFec = false
  mode : cfg.fecMode = 0
  /-- No packet is below the threshold, or there are copies and they fit. -/
  small : cfg.smallPacketThreshold ≤ 1 ∨ (1 ≤ cfg.smallPacketRedundancy ∧
    cooked (smallPktHeader + (cfg.smallPacketThreshold.toNat - 1)) ≤ Raw.maxDataLen)
  rows : ∀ t, InForce cfg g t → 1 ≤ t.2.rsCnt
  /-- Every blob has a code, and its shards fit the bridge. -/
  shards : ∀ t n len x, InForce cfg g t → 1 ≤ n → n ≤ 200 → Blob cfg g t n len →
    Cheapest t.2 len x →
      HasCode x (x + (t.2.rsPar (x - 1)).y) ∧
        cooked (8 + roundUpDiv len x + 1) ≤ Raw.maxDataLen

/-! ## The tables in force -/

section Tuning

variable {cfg : Config.FecrawConfig} {g : FecParameter} {t t' : Tuning}

/-- A table that the encoder can work with, and the parameters that stay. -/
structure Ordered (g par : FecParameter) : Prop where
  rows : EncoderSafety.Rows par
  queueLen : par.queueLen = 200
  mode : par.mode = g.mode
  mtu : par.mtu = g.mtu
  version : par.version = g.version

/-- A new ratio changes the table only. -/
theorem retune_cases (a : AdaptiveFec) (now : ℚ) (par : FecParameter) :
    a.retune now par = par ∨
      par.rsFromStr (a.adjust now).1.ratio = some (a.retune now par) := by
  unfold AdaptiveFec.retune
  split
  · cases hstr : par.rsFromStr (a.adjust now).1.ratio with
    | none => exact .inl rfl
    | some par' => exact .inr rfl
  · exact .inl rfl

theorem retune_mode (a : AdaptiveFec) (now : ℚ) (par : FecParameter) :
    (a.retune now par).mode = par.mode := by
  rcases retune_cases a now par with hsame | hstr
  · rw [hsame]
  · exact (rsFromStr_other hstr).2.2.2

theorem Ordered.retune {par : FecParameter} (h : Ordered g par) (a : AdaptiveFec) (now : ℚ) :
    Ordered g (a.retune now par) := by
  rcases retune_cases a now par with hsame | hstr
  · rw [hsame]
    exact h
  · obtain ⟨hversion, hmtu, hqueue, hmode⟩ := rsFromStr_other hstr
    have hlt : (a.retune now par).mtu < 2 ^ 31 := by
      rw [hmtu]
      exact h.rows.mtu_lt
    exact ⟨rows_of_rsFromStr hstr hlt, hqueue.trans h.queueLen, hmode.trans h.mode,
      hmtu.trans h.mtu, hversion.trans h.version⟩

theorem Ordered.later (h : Ordered g t.2) (hlater : Later cfg t t') : Ordered g t'.2 := by
  induction hlater with
  | refl => exact h
  | tail _ htick ih =>
      cases htick with
      | tick _ deltaIn deltaOut now => exact ih.retune _ now

/-- The parameters of an accepted configuration. -/
theorem ordered_of_parseCli {opts : List Config.CliOption}
    (hparse : Config.parseCli {} opts = some cfg) (happly : Config.applyFec cfg = some g) :
    Ordered g g := by
  have hranged : Config.Ranged cfg :=
    Config.ranged_parseCli (by unfold Config.Ranged; decide) hparse
  obtain ⟨hrows, hqueue⟩ := rows_of_applyFec hranged happly
  exact ⟨hrows, hqueue, rfl, rfl, rfl⟩

theorem InForce.later (h : InForce cfg g t) (hlater : Later cfg t t') : InForce cfg g t' :=
  Relation.ReflTransGen.trans h hlater

/-- An open blob stays a possible one when the table changes. -/
theorem Blob.later {n len : Nat} (h : Blob cfg g t n len) (hn : n < 200)
    (hlater : Later cfg t t') : Blob cfg g t' n len := by
  obtain ⟨t₀, hforce, hlater₀, -, hgroup⟩ := h
  exact ⟨t₀, hforce, hlater₀.trans hlater, .inl hn, hgroup⟩

/-- These are the blobs that come about under a table in force. -/
theorem growing_blob (hord : Ordered g g) (ht : InForce cfg g t) :
    Growing t.2 (shortest cfg) (Blob cfg g t) where
  first := by
    intro l hl hl' hfit
    exact ⟨t, ht, .refl, .inr rfl, by omega, by omega, by omega, .inl hfit⟩
  next := by
    rintro n len l hn ⟨t', -, -, -, -, hge, hle, -⟩ hl hl' hfit
    have hmul : (n + 1) * (2 + shortest cfg) = n * (2 + shortest cfg) + (2 + shortest cfg) :=
      Nat.succ_mul _ _
    have hmul' : (n + 1) * (2 + maxDataLen) = n * (2 + maxDataLen) + (2 + maxDataLen) :=
      Nat.succ_mul _ _
    refine ⟨t, ht, .refl, .inr rfl, ?_, ?_, ?_, .inl hfit⟩
    · omega
    · omega
    · omega
  single := by
    rintro n len l ⟨t', hforce, hlater, -, hroom, -, -, -⟩ hl hl'
    exact ⟨t', hforce, hlater, .inl (by decide), hroom, by omega, by omega, .inr rfl⟩
  mtu := by
    rintro n len ⟨t', hforce, -, -, hroom, -, -, -⟩
    have hmtu : t'.2.mtu = t.2.mtu := (hord.later hforce).mtu.trans (hord.later ht).mtu.symm
    rw [hmtu] at hroom
    by_contra hneg
    have hle := Int.mul_nonpos_of_nonneg_of_nonpos (Int.natCast_nonneg t'.2.rsCnt)
      (show t.2.mtu ≤ 0 by omega)
    omega
  le := by
    rintro n len ⟨t', -, -, -, -, -, hle, -⟩
    exact hle

end Tuning

/-! ## Cooking -/

section Cook

variable {crc : Bytes → UInt32} {key : Bytes} {ivs : Nat → Iv} {header : UInt8}

theorem length_doCook_le {iv : Iv} {data d : Bytes}
    (h : doCook crc { key := key } iv data = some d) : d.length ≤ cooked data.length := by
  have hlen := length_doCook crc key iv h
  have hiv := iv.le_max
  unfold cooked
  omega

theorem delaySend_isSome {out : List Bytes} (h : ∀ q ∈ out, q.length + 5 < bufLen) :
    ∃ ds, delaySend crc { key := key } ivs header out = some ds := by
  obtain ⟨ds, hds, -, -⟩ := mapM_eq_some (List.range out.length)
    (f := fun i => doCook crc { key := key } (ivs i) (putHeader header (out.getD i []))) (by
      intro i hi
      have hlt := List.mem_range.mp hi
      apply exists_doCook
      have hq := h _ (List.getElem_mem hlt)
      rw [List.getD_eq_getElem _ _ hlt]
      unfold putHeader
      rw [List.length_append, List.length_singleton]
      omega)
  exact ⟨ds, hds⟩

/-- What is sent is what the encoder puts out, one datagram for each packet. -/
theorem mem_of_delaySend {par : CookPar} {out ds : List Bytes}
    (h : delaySend crc par ivs header out = some ds) :
    ds.length = out.length ∧
      (∀ d ∈ ds, ∃ i, ∃ q ∈ out, doCook crc par (ivs i) (putHeader header q) = some d) ∧
      ∀ q ∈ out, ∃ i, ∃ d ∈ ds, doCook crc par (ivs i) (putHeader header q) = some d := by
  have hmap := Scan.map_of_mapM h
  refine ⟨?_, ?_, ?_⟩
  · have hlen := congrArg List.length hmap
    simpa using hlen.symm
  · intro d hd
    have hmem : some d ∈ ds.map some := List.mem_map_of_mem hd
    rw [← hmap] at hmem
    obtain ⟨i, hi, hcook⟩ := List.mem_map.mp hmem
    have hlt := List.mem_range.mp hi
    rw [List.getD_eq_getElem _ _ hlt] at hcook
    exact ⟨i, _, List.getElem_mem hlt, hcook⟩
  · intro q hq
    obtain ⟨i, hlt, rfl⟩ := List.getElem_of_mem hq
    have hmem := List.mem_map_of_mem (f := fun i =>
      doCook crc par (ivs i) (putHeader header (out.getD i []))) (List.mem_range.mpr hlt)
    rw [hmap] at hmem
    obtain ⟨d, hd, hcook⟩ := List.mem_map.mp hmem
    rw [List.getD_eq_getElem _ _ hlt] at hcook
    exact ⟨i, d, hd, hcook.symm⟩

/-- Packets that are short enough make datagrams that are. -/
theorem length_le_of_delaySend {out ds : List Bytes} {n : Nat}
    (h : delaySend crc { key := key } ivs header out = some ds)
    (hout : ∀ q ∈ out, cooked (q.length + 1) ≤ n) : ∀ d ∈ ds, d.length ≤ n := by
  intro d hd
  obtain ⟨i, q, hq, hcook⟩ := (mem_of_delaySend h).2.1 d hd
  have hlen := length_doCook_le hcook
  have hle := hout q hq
  unfold putHeader at hlen
  rw [List.length_append, List.length_singleton] at hlen
  omega

/-- An iv of the greatest length. -/
def longIv : Iv := ⟨List.replicate 32 0, by decide, by decide⟩

theorem length_doCook_longIv {data d : Bytes}
    (h : doCook crc { key := key } longIv data = some d) : d.length = cooked data.length :=
  length_doCook crc key longIv h

/-- With the longest iv, the bound on the datagrams is one on the packets. -/
theorem length_le_of_longIv {out ds : List Bytes} {n : Nat}
    (h : delaySend crc { key := key } (fun _ => longIv) header out = some ds)
    (hds : ∀ d ∈ ds, d.length ≤ n) : ∀ q ∈ out, cooked (q.length + 1) ≤ n := by
  intro q hq
  obtain ⟨i, d, hd, hcook⟩ := (mem_of_delaySend h).2.2 q hq
  have hlen := length_doCook_longIv hcook
  have hle := hds d hd
  unfold putHeader at hlen
  rw [List.length_append, List.length_singleton] at hlen
  omega

end Cook

/-! ## What no step changes -/

section Configured

variable {crc : Bytes → UInt32} {c : Code} {cfg : Config.FecrawConfig} {g : FecParameter}
  {key : Bytes}

/-- The globals that come from the configuration. -/
structure Configured (cfg : Config.FecrawConfig) (key : Bytes) (e : Tunnel.Endpoint) : Prop where
  cook : e.cook = { key := key }
  threshold : e.smallPacketThreshold = cfg.smallPacketThreshold
  sender : { e.spSend with seq := 0 }
    = Sender.init cfg.smallPacketThreshold cfg.smallPacketRedundancy

theorem Configured.spSend {e : Tunnel.Endpoint} (h : Configured cfg key e) :
    e.spSend.threshold = e.smallPacketThreshold ∧
      e.spSend.baseRedundancy = cfg.smallPacketRedundancy ∧
      e.spSend.getRedundancy = cfg.smallPacketRedundancy := by
  obtain ⟨-, hthreshold, hbase, hloss⟩ := Sender.mk.inj h.sender
  refine ⟨hthreshold.trans h.threshold.symm, hbase, ?_⟩
  unfold Sender.getRedundancy
  rw [hloss, hbase]
  norm_num

theorem Configured.dispatch {e : Tunnel.Endpoint} (h : Configured cfg key e) (header : UInt8) :
    Configured cfg key (dispatch e header).2 := by
  unfold Tunnel.dispatch
  split
  · exact h
  · cases e.role with
    | client => split_ifs <;> exact ⟨h.cook, h.threshold, h.sender⟩
    | server => split_ifs <;> exact ⟨h.cook, h.threshold, h.sender⟩

theorem Configured.demultiplex {e : Tunnel.Endpoint} (h : Configured cfg key e) (data : Bytes) :
    Configured cfg key (demultiplex e data).2 := by
  unfold Tunnel.demultiplex
  split
  · split
    · exact ⟨h.cook, h.threshold, h.sender⟩
    · exact ⟨h.cook, h.threshold, h.sender⟩
  · exact h

theorem Configured.bridgeRecvCb {e : Tunnel.Endpoint} (h : Configured cfg key e) (stale : Mem)
    (datagram : Bytes) : Configured cfg key (bridgeRecvCb crc e stale datagram).2 := by
  unfold Tunnel.bridgeRecvCb
  split
  · exact h
  split
  · exact h
  split
  · exact h
  · next header data _ =>
      have hdispatch := h.dispatch header
      split
      · next hd => rwa [hd] at hdispatch
      · next hd =>
          rw [hd] at hdispatch
          exact hdispatch.demultiplex data

end Configured

/-! ## The encoder loses nothing -/

section Encoder

variable {c : Code} {e e₁ : FecEncodeManager} {ps : List Bytes}

theorem pending_output (h : Pending e ps) : Pending e.output.1 ps := by
  rw [output_fst]
  exact ⟨h.counter, h.blob, h.packets⟩

/-- A new table leaves the open group as it is. -/
theorem pending_retune {par : FecParameter} (hmode : par.mode = e.fecPar.mode)
    (h : Pending e ps) : Pending { e with fecPar := par } ps where
  counter := h.counter
  blob := fun hzero => h.blob (hmode.symm.trans hzero)
  packets := fun hone => h.packets (hmode.symm.trans hone)

theorem ne_nil_of_sends {seq : UInt32} {out : List Bytes} (h : Sends c 0 seq ps out) :
    out ≠ [] := by
  obtain ⟨x, y, len, data, stale, hx, rfl, -⟩ := h.blob rfl
  simp only [ne_eq, List.map_eq_nil_iff, List.range_eq_nil]
  omega

/-- A call leaves an open group behind it, and the parameters as they are. -/
theorem pending_of_call {s : Option Bytes} {r : Int}
    (hmode : e.fecPar.mode = 0 ∨ e.fecPar.mode = 1) (h : Pending e ps)
    (hcall : Call c e s r e₁) : e₁.fecPar = e.fecPar ∧ ∃ ps', Pending e₁.output.1 ps' := by
  cases hcall with
  | rejected _ _ => exact ⟨rfl, ps, pending_output h⟩
  | queued _ _ happend _ hsend =>
      obtain ⟨hpending, -⟩ := h.append hmode happend
      obtain ⟨-, hpar, -, -⟩ := append_output hmode happend
      obtain ⟨hpending', -, -, -, hpar', -⟩ := hpending.fastSend (hpar ▸ hmode) hsend
      exact ⟨hpar'.trans hpar, _, pending_output hpending'⟩
  | completed _ _ happend _ hclose =>
      obtain ⟨hpending, -⟩ := h.append hmode happend
      obtain ⟨-, hpar, -, -⟩ := append_output hmode happend
      have hcnt := counter_append hmode happend
      obtain ⟨hempty, -, -, -, hpar', -⟩ := hpending.close (hpar ▸ hmode) (by omega) hclose
      exact ⟨hpar'.trans hpar, [], pending_output hempty⟩
  | flushed _ hne hclose =>
      obtain ⟨hempty, -, -, -, hpar, -⟩ := h.close hmode hne hclose
      exact ⟨hpar, [], pending_output hempty⟩
  | delayed _ hne _ hclose happend =>
      obtain ⟨hempty, -, -, -, hpar, -⟩ := h.close hmode hne hclose
      obtain ⟨-, hpar', -, -⟩ := append_output (hpar ▸ hmode) happend
      obtain ⟨hpending, -⟩ := hempty.append (hpar ▸ hmode) happend
      exact ⟨hpar'.trans hpar, _, pending_output hpending⟩

/-- In mode 0 a packet is refused, joins the open group, or completes a group
that is sent. -/
theorem taken_of_call {p : Bytes} {r : Int} (hmode : e.fecPar.mode = 0) (h : Pending e ps)
    (hcall : Call c e (some p) r e₁) :
    r = -1 ∨ (r = 0 ∧ ∃ ps', Pending e₁.output.1 (ps' ++ [p])) ∨
      Sends c 0 e.seq (ps ++ [p]) e₁.output.2 := by
  cases hcall with
  | rejected _ _ => exact .inl rfl
  | queued _ _ happend _ hsend =>
      obtain ⟨hpending, -⟩ := h.append (.inl hmode) happend
      obtain ⟨-, hpar, -, -⟩ := append_output (.inl hmode) happend
      obtain rfl := fastSend_blob (by rw [hpar]; exact hmode) hsend
      exact .inr (.inl ⟨rfl, ps, pending_output hpending⟩)
  | @completed _ e₂ _ _ _ happend _ hclose =>
      obtain ⟨hpending, -⟩ := h.append (.inl hmode) happend
      obtain ⟨hseq, hpar, -, -⟩ := append_output (.inl hmode) happend
      have hcnt := counter_append (.inl hmode) happend
      have hmode₂ : e₂.fecPar.mode = 0 := by rw [hpar]; exact hmode
      obtain ⟨-, -, -, -, -, -, hmade, hsends, -⟩ :=
        hpending.close (.inl hmode₂) (by omega) hclose
      rw [output_of_ready hmade, ← hseq]
      exact .inr (.inr (hsends hmode₂))
  | delayed _ hne _ hclose happend =>
      obtain ⟨hempty, -, -, -, hpar, -⟩ := h.close (.inl hmode) hne hclose
      obtain ⟨hjoined, -⟩ := hempty.append (.inl (by rw [hpar]; exact hmode)) happend
      exact .inr (.inl ⟨rfl, [], pending_output hjoined⟩)

/-- In mode 1 every packet is sent at once, whatever its length. -/
theorem sent_of_call {p : Bytes} {r : Int} (hmode : e.fecPar.mode = 1) (h : Pending e ps)
    (hcall : Call c e (some p) r e₁) :
    ∃ seq i, dataPacket seq (BlobEncode.record p) i ∈ e₁.output.2 := by
  cases hcall with
  | rejected _ hlong => exact absurd (hmode.symm.trans (hlong p rfl).1) (by decide)
  | queued _ _ happend _ hsend =>
      obtain ⟨hpending, -⟩ := h.append (.inr hmode) happend
      obtain ⟨-, hpar, -, -⟩ := append_output (.inr hmode) happend
      have hmode' := (congrArg FecParameter.mode hpar).trans hmode
      obtain ⟨-, -, -, -, -, -, hout⟩ := hpending.fastSend (.inr hmode') hsend
      obtain ⟨-, hmade, hbuf⟩ := hout hmode'
      rw [output_of_ready hmade, hbuf]
      exact ⟨_, _, List.mem_singleton.mpr rfl⟩
  | @completed _ e₂ _ _ _ happend _ hclose =>
      obtain ⟨hpending, -⟩ := h.append (.inr hmode) happend
      obtain ⟨-, hpar, -, -⟩ := append_output (.inr hmode) happend
      have hmode' := (congrArg FecParameter.mode hpar).trans hmode
      have hcnt : e₂.counter = ps.length + 1 := by
        rw [hpending.counter, List.length_append, List.length_singleton]
      obtain ⟨-, -, -, -, -, -, hmade, -, hlast⟩ := hpending.close (.inr hmode') (by omega) hclose
      have hbody : e₂.inputBuf ps.length = BlobEncode.record p :=
        hpending.inputBuf hmode' (by simp)
      have hmem := hlast hmode' rfl
      rw [hcnt, Nat.add_sub_cancel, hbody] at hmem
      rw [output_of_ready hmade]
      exact ⟨_, _, hmem⟩
  | delayed _ _ hlong _ _ => exact absurd (hmode.symm.trans (delays_true hlong).1) (by decide)

end Encoder

/-! ## One step -/

section Step

variable {crc : Bytes → UInt32} {c : Code} {cfg : Config.FecrawConfig} {g : FecParameter}
  {key : Bytes} {s : End} {ivs : Nat → Iv} {p : Bytes}

/-- A packet below the threshold is sent as so many copies as configured. -/
theorem step_small (hconf : Configured cfg key s.tunnel) (hlen : p.length ≤ maxDataLen)
    (hsmall : (p.length : Int) < cfg.smallPacketThreshold) :
    ∃ tunnel ds, step crc c cfg g s (.tun p ivs)
        = .ok ({ s with tunnel := tunnel }, { datagrams := ds }) ∧
      Configured cfg key tunnel ∧ ds.length = cfg.smallPacketRedundancy.toNat ∧
      ∀ d ∈ ds, ∃ i, doCook crc { key := key } (ivs i) (Sender.frame s.tunnel.spSend.seq p)
        = some d := by
  obtain ⟨hthreshold, -, hcopies⟩ := hconf.spSend
  obtain ⟨ds, htun, hcount, hmem⟩ := @tunFdCb_small crc s.tunnel key ivs p hconf.cook hlen
    (by rw [hconf.threshold]; exact hsmall) hthreshold
  rw [hcopies] at hcount
  rw [hconf.cook] at hmem
  refine ⟨{ s.tunnel with spSend := { s.tunnel.spSend with seq := s.tunnel.spSend.seq + 1 } }, ds,
    ?_, ⟨hconf.cook, hconf.threshold, hconf.sender⟩, hcount, hmem⟩
  show onTun crc c cfg g s p ivs = _
  unfold onTun
  rw [htun]
  rfl

/-- What is given to the encoder: a packet of `tun_fd_cb` or the timer's call. -/
def eventOf (ivs : Nat → Iv) : Option Bytes → Event
  | some p => .tun p ivs
  | none => .fecEncode ivs

theorem admissible_eventOf {data : Option Bytes} (h : Bounded (shortest cfg) data) :
    Admissible (eventOf ivs data) := by
  intro p ivs' hev
  cases data with
  | none => exact absurd hev (by simp [eventOf])
  | some q =>
      obtain ⟨rfl, -⟩ := Event.tun.inj hev
      obtain ⟨hlo, hhi⟩ := h q rfl
      unfold shortest at hlo
      exact ⟨by omega, hhi⟩

theorem step_eventOf (hconf : Configured cfg key s.tunnel) {data : Option Bytes}
    (h : Bounded (shortest cfg) data) :
    step crc c cfg g s (eventOf ivs data)
      = fromNormalToFec2 crc c cfg g s ivs (fecHeader s.tunnel) data := by
  cases data with
  | none => rfl
  | some p =>
      obtain ⟨hlo, hhi⟩ := h p rfl
      have hlarge : ¬ (s.tunnel.smallPacketThreshold > 0 ∧
          (p.length : Int) < s.tunnel.smallPacketThreshold) := by
        rw [hconf.threshold]
        unfold shortest at hlo
        omega
      have htun : tunFdCb crc s.tunnel ivs p
          = some (.fec (fecHeader s.tunnel) p, s.tunnel) := by
        unfold tunFdCb
        rw [if_neg (by omega), if_neg hlarge]
        rfl
      show onTun crc c cfg g s p ivs = _
      unfold onTun
      rw [htun]
      rfl

/-- Where the encoder returns, what it puts out is sent. -/
theorem fromNormalToFec2_eq_ok (hfec : cfg.disableFec = false) {header : UInt8}
    {data : Option Bytes} {s' : End} {o : Seen} :
    fromNormalToFec2 crc c cfg g s ivs header data = .ok (s', o) ↔
      ∃ e ret out ds, s.fec.encoder.step c g data = .ok (e, ret, out) ∧
        delaySend crc s.tunnel.cook ivs header out = some ds ∧
        s' = { s with fec := { s.fec with encoder := e } } ∧
        o = { datagrams := ds, ret := ret } := by
  unfold fromNormalToFec2
  rw [if_neg (by rw [hfec]; simp)]
  constructor
  · intro h
    obtain ⟨⟨e, ret, out⟩, hstep, h⟩ := Checked.doBind_eq_ok.mp h
    obtain ⟨ds, hds, h⟩ := Checked.doBind_eq_ok.mp h
    obtain ⟨rfl, rfl⟩ := Prod.mk.inj (Except.ok.inj h)
    exact ⟨e, ret, out, ds, hstep, Checked.ofOption_eq_ok.mp hds, rfl, rfl⟩
  · rintro ⟨e, ret, out, ds, hstep, hds, rfl, rfl⟩
    rw [hstep]
    show (do
      let datagrams ← Checked.ofOption (delaySend crc s.tunnel.cook ivs header out)
      return (({ s with fec := { s.fec with encoder := e } } : End),
        ({ datagrams := datagrams, ret := ret } : Seen))) = _
    rw [hds]
    rfl

end Step

/-! ## A fine configuration is enough -/

/-- The tuning of an end. -/
def End.tuning (s : End) : Tuning := (s.fec.adaptive, s.fec.encoder.fecPar)

/-- What every step of a fine configuration keeps. -/
structure Well (cfg : Config.FecrawConfig) (g : FecParameter) (key : Bytes) (s : End) : Prop where
  conf : Configured cfg key s.tunnel
  inForce : InForce cfg g s.tuning
  isOpen : OpenWith s.tuning.2 (Blob cfg g s.tuning) s.fec.encoder
  pending : ∃ ps, Pending s.fec.encoder ps

section Enough

variable {crc : Bytes → UInt32} {c : Code} {cfg : Config.FecrawConfig} {g : FecParameter}
  {key : Bytes} {s : End} {ivs : Nat → Iv} {p : Bytes}

theorem well_start (cfg : Config.FecrawConfig) (g : FecParameter) (key : Bytes)
    (keepReconnect : Bool) (seq : UInt32) (buf : Mem) :
    Well cfg g key (start cfg g key keepReconnect seq buf) where
  conf := ⟨rfl, rfl, rfl⟩
  inForce := .refl
  isOpen := openWith_init g _ seq buf
  pending := ⟨[], rfl, fun _ => BlobEncode.holds_clear ⟨buf, 4, 0⟩, fun _ => rfl⟩

/-- What a call of the encoder makes of a packet. -/
theorem kept_of_call {e₁ : FecEncodeManager} {ps : List Bytes} {data : Option Bytes} {r : Int}
    {header : UInt8} {ds : List Bytes} (hmode : s.fec.encoder.fecPar.mode = 0)
    (h : Pending s.fec.encoder ps) (hcall : Call c s.fec.encoder data r e₁)
    (hds : delaySend crc s.tunnel.cook ivs header e₁.output.2 = some ds) (hp : data = some p) :
    Kept crc c { s with fec := { s.fec with encoder := e₁.output.1 } }
      { datagrams := ds, ret := r } p := by
  subst hp
  rcases taken_of_call hmode h hcall with rfl | ⟨rfl, ps', hpending⟩ | hsends
  · exact .rejected rfl
  · exact .pending rfl hpending
  · refine .blob hsends hds ?_
    apply List.ne_nil_of_length_pos
    rw [(mem_of_delaySend hds).1]
    exact List.length_pos_of_ne_nil (ne_nil_of_sends hsends)

/-- The encoder takes every packet, and its shards fit the bridge. -/
theorem Well.fec (crc : Bytes → UInt32) (c : Code) (ivs : Nat → Iv) (header : UInt8)
    (hfine : Fine cfg g) (hord : Ordered g g) (hmode : g.mode = 0) (h : Well cfg g key s)
    {data : Option Bytes} (hdata : Bounded (shortest cfg) data) :
    ∃ s' o, fromNormalToFec2 crc c cfg g s ivs header data = .ok (s', o) ∧ Well cfg g key s' ∧
      (∀ d ∈ o.datagrams, d.length ≤ Raw.maxDataLen) ∧
      ∀ p, data = some p → Kept crc c s' o p := by
  have hpar := hord.later h.inForce
  have hmode' : s.tuning.2.mode = 0 := hpar.mode.trans hmode
  have hshards := hfine.shards s.tuning
  obtain ⟨r, e₁, hcall, hopen, hcut⟩ := h.isOpen.call (c := c) hpar.rows
    (hfine.rows _ h.inForce) hmode' hpar.queueLen (growing_blob hord h.inForce)
    (fun n len x hn hn' hblob hcheap => by
      obtain ⟨hcode, hlen⟩ := hshards n len x h.inForce hn hn' hblob hcheap
      refine ⟨hcode, ?_⟩
      unfold cooked Raw.maxDataLen at hlen
      unfold bufLen maxDataLen
      omega) hdata
  have hlen : ∀ q ∈ e₁.output.2, cooked (q.length + 1) ≤ Raw.maxDataLen := by
    intro q hq
    obtain ⟨n, len, x, hn, hn', hblob, hcheap, hq'⟩ := hcut q hq
    rw [hq']
    exact (hshards n len x h.inForce hn hn' hblob hcheap).2
  have hstep : s.fec.encoder.step c g data = .ok (e₁.output.1, r, e₁.output.2) :=
    step_eq_ok.mpr ⟨e₁, input_of_call hpar.version (.inl hmode') hcall, rfl⟩
  obtain ⟨ds, hds⟩ := @delaySend_isSome crc key ivs header e₁.output.2 (fun q hq => by
    have hle := hlen q hq
    unfold cooked Raw.maxDataLen at hle
    unfold bufLen maxDataLen
    omega)
  obtain ⟨ps, hpending⟩ := h.pending
  have hds' := hds
  rw [← h.conf.cook] at hds'
  refine ⟨_, _, (fromNormalToFec2_eq_ok hfine.coded).mpr ⟨_, r, _, ds, hstep, hds', rfl, rfl⟩,
    ⟨h.conf, ?_, ?_, (pending_of_call (.inl hmode') hpending hcall).2⟩,
    length_le_of_delaySend hds hlen,
    fun p hp => kept_of_call hmode' hpending hcall hds' hp⟩
  · show InForce cfg g (s.fec.adaptive, e₁.output.1.fecPar)
    rw [hopen.par]
    exact h.inForce
  · show OpenWith e₁.output.1.fecPar (Blob cfg g (s.fec.adaptive, e₁.output.1.fecPar)) _
    rw [hopen.par]
    exact hopen

theorem Well.connTimer (h : Well cfg g key s) (hadaptive : cfg.fecAdaptive = true)
    (deltaIn deltaOut : UInt64) (now : ℚ) :
    Well cfg g key { s with fec := Retune.connTimer s.fec deltaIn deltaOut now } := by
  have hlater : Later cfg s.tuning (((s.fec.adaptive.observe deltaIn deltaOut).adjust now).1,
      (s.fec.adaptive.observe deltaIn deltaOut).retune now s.fec.encoder.fecPar) :=
    .single (.tick hadaptive deltaIn deltaOut now)
  obtain ⟨ps, hpending⟩ := h.pending
  refine ⟨h.conf, h.inForce.later hlater, ?_, ps, pending_retune (retune_mode _ now _) hpending⟩
  exact ⟨⟨rfl, h.isOpen.ready⟩, h.isOpen.few, h.isOpen.counter, h.isOpen.empty,
    fun hne => (h.isOpen.length hne).later h.isOpen.few hlater⟩

/-- A small packet is sent, and its copies fit the bridge. -/
theorem Well.small (crc : Bytes → UInt32) (c : Code) (ivs : Nat → Iv) (hfine : Fine cfg g)
    (h : Well cfg g key s) (hpos : 1 ≤ p.length) (hlen : p.length ≤ maxDataLen)
    (hsmall : (p.length : Int) < cfg.smallPacketThreshold) :
    ∃ s' o, step crc c cfg g s (.tun p ivs) = .ok (s', o) ∧ Well cfg g key s' ∧
      (∀ d ∈ o.datagrams, d.length ≤ Raw.maxDataLen) ∧ Kept crc c s' o p := by
  obtain ⟨hred, hfit⟩ := hfine.small.resolve_left (by omega)
  obtain ⟨tunnel, ds, hstep, hconf, hcount, hmem⟩ :=
    @step_small crc c cfg g key s ivs p h.conf hlen hsmall
  refine ⟨_, _, hstep, ⟨hconf, h.inForce, h.isOpen, h.pending⟩, ?_, ?_⟩
  · intro d hd
    obtain ⟨i, hcook⟩ := hmem d hd
    have hle := length_doCook_le hcook
    rw [Sender.length_frame] at hle
    unfold cooked at hle hfit
    omega
  · obtain ⟨d, hd⟩ := List.exists_mem_of_length_pos (show 0 < ds.length by omega)
    obtain ⟨i, hcook⟩ := hmem d hd
    rw [← hconf.cook] at hcook
    exact .small hd hcook

/-- A step of a fine configuration is lawful and keeps the end well. -/
theorem well_step (crc : Bytes → UInt32) (c : Code) (hfine : Fine cfg g) (hord : Ordered g g)
    (hmode : g.mode = 0) (h : Well cfg g key s) {ev : Event} (hev : Admissible ev) :
    ∃ s' o, step crc c cfg g s ev = .ok (s', o) ∧ Well cfg g key s' ∧ Lawful crc c ev s' o := by
  have hquiet : ∀ {ev : Event} {s' : End}, (∀ p ivs, ev ≠ .tun p ivs) → Lawful crc c ev s' {} :=
    fun hne => ⟨fun d hd => absurd hd List.not_mem_nil, fun p ivs htun => absurd htun (hne p ivs)⟩
  cases ev with
  | tun p ivs =>
      obtain ⟨hpos, hlen⟩ := hev p ivs rfl
      by_cases hsmall : (p.length : Int) < cfg.smallPacketThreshold
      · obtain ⟨s', o, hstep, hwell, hfit, hkept⟩ := h.small crc c ivs hfine hpos hlen hsmall
        refine ⟨s', o, hstep, hwell, hfit, fun q ivs' htun => ?_⟩
        obtain ⟨rfl, -⟩ := Event.tun.inj htun
        exact hkept
      · have hdata : Bounded (shortest cfg) (some p) := by
          intro q hq
          obtain rfl := Option.some.inj hq
          unfold shortest
          exact ⟨by omega, hlen⟩
        obtain ⟨s', o, hsend, hwell, hfit, hkept⟩ :=
          h.fec crc c ivs (fecHeader s.tunnel) hfine hord hmode hdata
        rw [← step_eventOf h.conf hdata] at hsend
        refine ⟨s', o, hsend, hwell, hfit, fun q ivs' htun => hkept q ?_⟩
        obtain ⟨rfl, -⟩ := Event.tun.inj htun
        rfl
  | fecEncode ivs =>
      obtain ⟨s', o, hsend, hwell, hfit, -⟩ :=
        h.fec crc c ivs (fecHeader s.tunnel) hfine hord hmode (bounded_none _)
      exact ⟨s', o, hsend, hwell, hfit, fun q ivs' htun => absurd htun (by simp)⟩
  | bridgeRecv stale datagram =>
      exact ⟨_, _, rfl, ⟨h.conf.bridgeRecvCb stale datagram, h.inForce, h.isOpen, h.pending⟩,
        hquiet (by simp)⟩
  | connTimer deltaIn deltaOut now =>
      by_cases hadaptive : cfg.fecAdaptive = true
      · exact ⟨_, _, if_pos hadaptive, h.connTimer hadaptive deltaIn deltaOut now,
          hquiet (by simp)⟩
      · exact ⟨_, _, if_neg hadaptive, h, hquiet (by simp)⟩

theorem lossless_of_fine (hord : Ordered g g) (hmode : g.mode = cfg.fecMode)
    (hfine : Fine cfg g) : Lossless crc c key cfg g := by
  have hmode' : g.mode = 0 := hmode.trans hfine.mode
  intro keepReconnect seq buf s hreached ev hev
  have hwell : Well cfg g key s := hreached.invariant
    (fun s s' ev o hs hev hstep => by
      obtain ⟨s₁, o₁, hstep₁, hs₁, -⟩ := well_step crc c hfine hord hmode' hs hev
      obtain ⟨rfl, -⟩ := Prod.mk.inj (Except.ok.inj (hstep.symm.trans hstep₁))
      exact hs₁)
    (well_start cfg g key keepReconnect seq buf)
  obtain ⟨s', o, hstep, -, hlawful⟩ := well_step crc c hfine hord hmode' hwell hev
  exact ⟨s', o, hstep, hlawful⟩

end Enough

/-! ## And necessary -/

section Necessary

variable {crc : Bytes → UInt32} {c : Code} {cfg : Config.FecrawConfig} {g : FecParameter}
  {key : Bytes} {t t' : Tuning} {e : FecEncodeManager}

/-- The encoder is reached under the tuning `t`. -/
structure At (crc : Bytes → UInt32) (c : Code) (key : Bytes) (cfg : Config.FecrawConfig)
    (g : FecParameter) (t : Tuning) (e : FecEncodeManager) : Prop where
  reached : ∃ keepReconnect seq buf s,
    Reached (step crc c cfg g) (fun _ => Admissible) (start cfg g key keepReconnect seq buf) s ∧
      Configured cfg key s.tunnel ∧ s.fec = ⟨e, t.1⟩
  par : e.fecPar = t.2
  pending : ∃ ps, Pending e ps

theorem at_start (seq : UInt32) (buf : Mem) :
    At crc c key cfg g (AdaptiveFec.start cfg.fecStr, g) (init g seq buf) where
  reached := ⟨true, seq, buf, _, .start, (well_start cfg g key true seq buf).conf, rfl⟩
  par := rfl
  pending := (well_start cfg g key true seq buf).pending

/-- The timer puts a later tuning in force. -/
theorem At.later (h : At crc c key cfg g t e) (hlater : Later cfg t t') :
    At crc c key cfg g t' { e with fecPar := t'.2 } := by
  induction hlater with
  | refl =>
      have hsame : { e with fecPar := t.2 } = e := by
        rw [← h.par]
      rw [hsame]
      exact h
  | tail _ htick ih =>
      cases htick with
      | @tick a _ hadaptive deltaIn deltaOut now =>
          obtain ⟨⟨keepReconnect, seq, buf, s, hreached, hconf, hfec⟩, -, ps, hpending⟩ := ih
          have hpending' := pending_retune (retune_mode (a.observe deltaIn deltaOut) now _) hpending
          refine ⟨⟨keepReconnect, seq, buf, _, hreached.next (i := .connTimer deltaIn deltaOut now)
            (fun p ivs htun => absurd htun (by simp)) (if_pos hadaptive), hconf, ?_⟩, rfl, ps,
            hpending'⟩
          show Retune.connTimer s.fec deltaIn deltaOut now = _
          rw [hfec]
          rfl

/-- The parameters that a call is given matter only for their version. -/
theorem step_of_version {par : FecParameter} {s : Option Bytes}
    (hversion : e.fecPar.version = g.version) (hversion' : e.fecPar.version = par.version) :
    FecEncodeManager.step c par e s = FecEncodeManager.step c g e s := by
  unfold FecEncodeManager.step FecEncodeManager.input
  rw [syncPar_of_version hversion, syncPar_of_version hversion']

theorem ne_nil_of_kept {s' : End} {o : Seen} {p : Bytes} (h : Kept crc c s' o p)
    (hret : o.ret = none) : o.datagrams ≠ [] := by
  cases h with
  | small hd _ => exact List.ne_nil_of_mem hd
  | plain hd _ => exact List.ne_nil_of_mem hd
  | blob _ _ hne => exact hne
  | packet hd _ => exact List.ne_nil_of_mem hd
  | pending hret' _ => exact absurd (hret.symm.trans hret') (by simp)
  | rejected hret' => exact absurd (hret.symm.trans hret') (by simp)

/-- A small packet of every length below the threshold is sent, in datagrams
that fit. -/
theorem copies_of_lossless (hl : Lossless crc c key cfg g) {k : Nat} (hk : 1 ≤ k)
    (hk' : k ≤ maxDataLen) (hsmall : (k : Int) < cfg.smallPacketThreshold) :
    1 ≤ cfg.smallPacketRedundancy ∧ cooked (smallPktHeader + k) ≤ Raw.maxDataLen := by
  have hlen : (List.replicate k (0 : UInt8)).length = k := List.length_replicate
  generalize List.replicate k (0 : UInt8) = p at hlen
  obtain ⟨s', o, hstep, hfit, hkept⟩ := hl true 0 (fun _ => 0) _ .start
    (.tun p fun _ => longIv) (by
      intro q ivs htun
      obtain ⟨rfl, -⟩ := Event.tun.inj htun
      omega)
  obtain ⟨tunnel, ds, hstep', -, hcount, hmem⟩ := @step_small crc c cfg g key _ (fun _ => longIv) p
    (well_start cfg g key true 0 fun _ => 0).conf (by omega) (by omega)
  obtain ⟨rfl, rfl⟩ := Prod.mk.inj (Except.ok.inj (hstep.symm.trans hstep'))
  have hpos := List.length_pos_of_ne_nil (ne_nil_of_kept (hkept p _ rfl) rfl)
  obtain ⟨d, hd⟩ := List.exists_mem_of_length_pos hpos
  obtain ⟨i, hcook⟩ := hmem d hd
  have hle := hfit d hd
  rw [length_doCook_longIv hcook, Sender.length_frame, hlen] at hle
  have hpos' : 0 < ds.length := hpos
  exact ⟨by omega, hle⟩

theorem small_of_lossless (hl : Lossless crc c key cfg g) :
    cfg.smallPacketThreshold ≤ 1 ∨ (1 ≤ cfg.smallPacketRedundancy ∧
      cooked (smallPktHeader + (cfg.smallPacketThreshold.toNat - 1)) ≤ Raw.maxDataLen) := by
  rcases le_or_gt cfg.smallPacketThreshold 1 with hnone | hsome
  · exact .inl hnone
  · right
    by_cases hlong : cfg.smallPacketThreshold.toNat - 1 ≤ maxDataLen
    · exact copies_of_lossless hl (by omega) hlong (by omega)
    · -- the longest packet that is read is below the threshold, and too long
      have hcopies := (copies_of_lossless hl (show 1 ≤ maxDataLen by decide) le_rfl (by omega)).2
      exact absurd hcopies (by decide)

theorem shortest_le_of_small (h : cfg.smallPacketThreshold ≤ 1 ∨
    (1 ≤ cfg.smallPacketRedundancy ∧
      cooked (smallPktHeader + (cfg.smallPacketThreshold.toNat - 1)) ≤ Raw.maxDataLen)) :
    shortest cfg ≤ maxDataLen := by
  unfold cooked Raw.maxDataLen at h
  unfold shortest maxDataLen
  omega

/-- The longest packet that is read. -/
theorem exists_longest (hlo : shortest cfg ≤ maxDataLen) :
    ∃ p : Bytes, p.length = maxDataLen ∧ Bounded (shortest cfg) (some p) :=
  ⟨List.replicate maxDataLen 0, List.length_replicate, bounded_zeros hlo le_rfl⟩

/-- Without FEC the longest packet does not fit the bridge. -/
theorem fec_of_lossless (hl : Lossless crc c key cfg g) (hlo : shortest cfg ≤ maxDataLen) :
    cfg.disableFec = false := by
  rw [← Bool.not_eq_true]
  intro hdisabled
  obtain ⟨p, hlen, hdata⟩ := exists_longest hlo
  obtain ⟨s', o, hstep, hfit, -⟩ := hl true 0 (fun _ => 0) _ .start _
    (@admissible_eventOf cfg (fun _ => longIv) _ hdata)
  rw [step_eventOf (well_start cfg g key true 0 fun _ => 0).conf hdata] at hstep
  unfold fromNormalToFec2 at hstep
  rw [if_pos hdisabled] at hstep
  obtain ⟨ds, hds, hstep⟩ := Checked.doBind_eq_ok.mp hstep
  obtain ⟨rfl, rfl⟩ := Prod.mk.inj (Except.ok.inj hstep)
  have hle := length_le_of_longIv (Checked.ofOption_eq_ok.mp hds) hfit p (by simp)
  rw [hlen] at hle
  exact absurd hle (by decide)

section Lossless

variable (hl : Lossless crc c key cfg g) (hfec : cfg.disableFec = false) (hord : Ordered g g)
include hl hfec hord

/-- Where nothing is lost the encoder returns, and its packets are short. -/
theorem At.send (ht : InForce cfg g t) (h : At crc c key cfg g t e) {data : Option Bytes}
    (hdata : Bounded (shortest cfg) data) :
    ∃ e' o, e.send c t.2 data = .ok (e', o) ∧ At crc c key cfg g t e' ∧
      ∀ q ∈ o.out, cooked (q.length + 1) ≤ Raw.maxDataLen := by
  obtain ⟨⟨keepReconnect, seq, buf, s, hreached, hconf, hs⟩, hpar, ps, hpending⟩ := h
  have hadm := @admissible_eventOf cfg (fun _ => longIv) data hdata
  obtain ⟨s', o, hstep, hfit, -⟩ := hl keepReconnect seq buf s hreached _ hadm
  have hsend := hstep
  rw [step_eventOf hconf hdata] at hsend
  obtain ⟨e', ret, out, ds, henc, hds, rfl, rfl⟩ := (fromNormalToFec2_eq_ok hfec).mp hsend
  rw [hs] at henc
  rw [hconf.cook] at hds
  have hversion : e.fecPar.version = g.version := by rw [hpar, (hord.later ht).version]
  have hsend' : e.send c t.2 data
      = .ok (e', ⟨data, ret, out, decide (e'.seq ≠ e.seq), e'.counter⟩) := by
    unfold FecEncodeManager.send
    rw [step_of_version hversion (by rw [hpar]), henc]
    rfl
  obtain ⟨hmode, r, out', e₁, hcall, hout, -⟩ := call_of_send (by rw [hpar]) hsend'
  have he' : e' = e₁.output.1 := (congrArg Prod.fst hout).symm
  obtain ⟨hpar₁, hpending₁⟩ := pending_of_call hmode hpending hcall
  refine ⟨e', _, hsend', ⟨⟨keepReconnect, seq, buf, _, hreached.next hadm hstep, hconf, ?_⟩, ?_,
    ?_⟩, length_le_of_longIv hds hfit⟩
  · rw [hs]
  · rw [he', output_fst]
    exact hpar₁.trans hpar
  · rw [he']
    exact hpending₁

theorem At.run (ht : InForce cfg g t) (h : At crc c key cfg g t e) {ss : List (Option Bytes)}
    (hss : ∀ s ∈ ss, Bounded (shortest cfg) s) :
    ∃ e' os, run (FecEncodeManager.send c t.2) e ss = .ok (e', os) ∧ At crc c key cfg g t e' :=
  run_total (fun e s hs he => by
    obtain ⟨e', o, hsend, hat, -⟩ := At.send hl hfec hord ht he (hss s hs)
    exact ⟨e', o, hsend, hat⟩) h

theorem returns_of_lossless (ht : InForce cfg g t) : Returns c t.2 (shortest cfg) := by
  intro seq buf ss hss
  obtain ⟨e, os, hrun, -⟩ := At.run hl hfec hord ht ((at_start seq buf).later ht) hss
  exact ⟨e, os, hrun⟩

/-- What a run ends in is reached. -/
theorem at_of_run (ht : InForce cfg g t) {seq : UInt32} {buf : Mem} {ss : List (Option Bytes)}
    (hss : ∀ s ∈ ss, Bounded (shortest cfg) s) {os : List Sending}
    (hrun : run (FecEncodeManager.send c t.2) (init t.2 seq buf) ss = .ok (e, os)) :
    At crc c key cfg g t e := by
  obtain ⟨e', os', hrun', hat⟩ := At.run hl hfec hord ht ((at_start seq buf).later ht) hss
  obtain ⟨rfl, -⟩ := Prod.mk.inj (Except.ok.inj (hrun.symm.trans hrun'))
  exact hat

/-- Where nothing is lost, a blob that some call closes has short shards. -/
theorem short_of_closed (ht : InForce cfg g t) (hmode : g.mode = 0) (hpos : 1 ≤ t.2.rsCnt)
    {n len x : Nat} (hn' : n ≤ 200) (hblob : Blob cfg g t n len) (hcheap : Cheapest t.2 len x)
    {e₁ e₂ e' : FecEncodeManager} {b : Bool} {s : Option Bytes} {o : Sending}
    (hat : At crc c key cfg g t e) (hs : Bounded (shortest cfg) s)
    (hsend : e.send c t.2 s = .ok (e', o)) (hopen : Open t.2 e₁)
    (hlen : e₁.blob.currentLen = len) (hclose : e₁.closeGroup c b = .ok e₂)
    (hout : o.out = e₂.outputBuf) :
    HasCode x (x + (t.2.rsPar (x - 1)).y) ∧
      cooked (8 + roundUpDiv len x + 1) ≤ Raw.maxDataLen := by
  subst hlen
  have hpar := hord.later ht
  have hgrow := growing_blob hord ht
  have hle : e₁.blob.currentLen ≤ 4 + 200 * (2 + maxDataLen) :=
    (hgrow.le _ _ hblob).trans (Nat.add_le_add_left (Nat.mul_le_mul_right _ hn') 4)
  obtain ⟨⟨hcode, -⟩, -, hne, hcut⟩ := closed_cheapest hpar.rows hpos (hgrow.mtu _ _ hblob)
    hopen.par (hpar.mode.trans hmode) hle hcheap hclose
  obtain ⟨e'', o', hsend', -, hshort⟩ := At.send hl hfec hord ht hat hs
  obtain ⟨-, rfl⟩ := Prod.mk.inj (Except.ok.inj (hsend.symm.trans hsend'))
  obtain ⟨q, hq⟩ := List.exists_mem_of_ne_nil _ hne
  have hbound := hshort q (hout ▸ hq)
  rw [hcut q hq] at hbound
  exact ⟨hcode, hbound⟩

/-- A blob that was filled under an earlier table is closed under the present
one by the timer. -/
theorem short_of_lossless (hmode : g.mode = 0) (hlo : shortest cfg ≤ maxDataLen)
    (hrows : ∀ t, InForce cfg g t → 1 ≤ t.2.rsCnt) {n len x : Nat} (ht : InForce cfg g t)
    (hn : 1 ≤ n) (hn' : n ≤ 200) (hblob : Blob cfg g t n len) (hcheap : Cheapest t.2 len x) :
    HasCode x (x + (t.2.rsPar (x - 1)).y) ∧
      cooked (8 + roundUpDiv len x + 1) ≤ Raw.maxDataLen := by
  obtain ⟨t', ht', hlater, hwhich, hgroup⟩ := id hblob
  have hpar := hord.later ht'
  have hret := returns_of_lossless hl hfec hord ht'
  have hone : 1 ≤ shortest cfg := le_max_left _ _
  have hmode' : t'.2.mode = 0 := hpar.mode.trans hmode
  rcases Nat.lt_or_eq_of_le hn' with hfew | rfl
  · obtain ⟨ss, e, os, hss, hrun, hopen, hpending, hlen⟩ := leaves_of_returns hret hpar.rows
      (hrows _ ht') hmode' hpar.queueLen hone hlo hn hfew hgroup
    have hat := (at_of_run hl hfec hord ht' hss hrun).later hlater
    obtain ⟨e', o, hsend, -, -⟩ := At.send hl hfec hord ht hat (bounded_none (shortest cfg))
    have hopen' : Open t.2 { e with fecPar := t.2 } := ⟨rfl, hopen.ready⟩
    obtain ⟨-, r, out, e₁, hcall, hout, rfl⟩ := call_of_send rfl hsend
    cases hcall with
    | rejected hempty _ => exact absurd hempty hpending
    | flushed _ _ hclose =>
        exact short_of_closed hl hfec hord ht hmode (hrows _ ht) hn' hblob hcheap hat
          (bounded_none _) hsend hopen' hlen hclose
          (output_of_closed rfl ((hord.later ht).mode.trans hmode) hclose hout)
  · obtain rfl := hwhich.resolve_left (lt_irrefl 200)
    obtain ⟨ss, s, e, os, e', o, e₁, e₂, b, hss, hrun, hsend, hopen, hlen, hclose, hout⟩ :=
      closes_of_many hret hpar.rows (hrows _ ht') hmode' hpar.queueLen hone hlo hgroup
        (hgroup.2.2.2.resolve_right (by decide))
    have hat := at_of_run hl hfec hord ht' (fun s' hs' => hss s' (List.mem_append_left _ hs')) hrun
    exact short_of_closed hl hfec hord ht hmode (hrows _ ht) hn' hblob hcheap hat
      (hss s (by simp)) hsend hopen hlen hclose hout

/-- In mode 1 the longest packet is sent as it is, and does not fit either. -/
theorem mode_of_lossless (hlo : shortest cfg ≤ maxDataLen) : g.mode = 0 := by
  have ht : InForce cfg g (AdaptiveFec.start cfg.fecStr, g) := .refl
  obtain ⟨hmode, -⟩ := mode_of_returns (returns_of_lossless hl hfec hord ht) hlo
  refine hmode.resolve_right fun hone => ?_
  obtain ⟨p, hlen, hdata⟩ := exists_longest hlo
  obtain ⟨e', o, hsend, -, hshort⟩ := At.send hl hfec hord ht (at_start 0 fun _ => 0) hdata
  obtain ⟨-, r, out, e₁, hcall, hout, rfl⟩ := call_of_send rfl hsend
  have hpending : Pending (init g 0 fun _ => 0) [] :=
    ⟨rfl, fun _ => BlobEncode.holds_clear ⟨_, 4, 0⟩, fun _ => rfl⟩
  obtain ⟨seq, i, hmem⟩ := sent_of_call hone hpending hcall
  rw [hout] at hmem
  have hle := hshort _ hmem
  unfold dataPacket at hle
  rw [List.length_append, length_packetHeader, BlobEncode.length_record, hlen] at hle
  exact absurd hle (by decide)

end Lossless

theorem fine_of_lossless (hord : Ordered g g) (hmode : g.mode = cfg.fecMode)
    (hl : Lossless crc c key cfg g) : Fine cfg g := by
  have hsmall := small_of_lossless hl
  have hlo := shortest_le_of_small hsmall
  have hfec := fec_of_lossless hl hlo
  have hzero := mode_of_lossless hl hfec hord hlo
  have hrows : ∀ t, InForce cfg g t → 1 ≤ t.2.rsCnt :=
    fun t ht => (mode_of_returns (returns_of_lossless hl hfec hord ht) hlo).2
  exact ⟨hfec, hmode.symm.trans hzero, hsmall, hrows, fun t n len x ht hn hn' hblob hcheap =>
    short_of_lossless hl hfec hord hzero hlo hrows ht hn hn' hblob hcheap⟩

end Necessary

/-! ## Accepted configurations -/

/-- An accepted configuration loses no packet if and only if it is fine. -/
theorem lossless_iff (crc : Bytes → UInt32) (c : Code) (key : Bytes)
    {opts : List Config.CliOption} {cfg : Config.FecrawConfig} {g : FecParameter}
    (hparse : Config.parseCli {} opts = some cfg) (happly : Config.applyFec cfg = some g) :
    Lossless crc c key cfg g ↔ Fine cfg g := by
  have hord := ordered_of_parseCli hparse happly
  have hmode : g.mode = cfg.fecMode := by
    obtain ⟨s, par, -, rfl⟩ := Config.applyFec_spec happly
    rfl
  exact ⟨fine_of_lossless hord hmode, lossless_of_fine hord hmode⟩

/-- Without the controller the table stays. -/
theorem later_eq {cfg : Config.FecrawConfig} {t t' : Tuning} (hfixed : cfg.fecAdaptive = false)
    (h : Later cfg t t') : t' = t := by
  induction h with
  | refl => rfl
  | tail _ htick _ =>
      cases htick with
      | tick hadaptive _ _ _ => exact absurd (hadaptive.symm.trans hfixed) (by simp)

/-- A fixed table of at least three rows and an mtu that leaves room for the
headers are fine for the shards. -/
theorem fine_of_mtu_le {cfg : Config.FecrawConfig} {g : FecParameter}
    (hfixed : cfg.fecAdaptive = false) (hcoded : cfg.disableFec = false) (hmode : cfg.fecMode = 0)
    (hsmall : cfg.smallPacketThreshold ≤ 1) (hthree : 3 ≤ g.rsCnt)
    (hcode : ∀ i < g.rsCnt, HasCode (i + 1) (i + 1 + (g.rsPar i).y)) (hmtu : g.mtu ≤ 1754) :
    Fine cfg g where
  coded := hcoded
  mode := hmode
  small := .inl hsmall
  rows := by
    intro t ht
    rw [later_eq hfixed ht]
    show 1 ≤ g.rsCnt
    omega
  shards := by
    intro t n len x ht _ _ hblob hcheap
    obtain ⟨t', -, hlater, -, hgroup⟩ := hblob
    obtain rfl := later_eq hfixed hlater
    obtain rfl := later_eq hfixed ht
    have husable : Usable g len x := hcheap.1
    have hx : 1 ≤ x ∧ x ≤ g.rsCnt := by
      unfold Usable at husable
      omega
    refine ⟨?_, ?_⟩
    · have hrow := hcode (x - 1) (by omega)
      rwa [Nat.sub_add_cancel hx.1] at hrow
    · have hshort : roundUpDiv len x ≤ 1754 := by
        obtain ⟨-, -, hmax, hle | rfl⟩ := hgroup
        · have hfit := husable.shard_le (by omega) hle
          omega
        · rcases husable with rfl | ⟨-, -, hfit⟩
          · rw [roundUpDiv_le_iff (by omega)]
            calc len ≤ 3 * 1754 := by unfold maxDataLen at hmax; omega
              _ ≤ g.rsCnt * 1754 := Nat.mul_le_mul_right _ hthree
          · have hmono := roundUpDiv_mono x (by omega : len ≤ len + 2)
            omega
      show 8 + roundUpDiv len x + 1 + 4 + 32 + 1 ≤ 1800
      omega

/-- The default configuration of a client loses no packet. -/
theorem lossless_default : ∃ cfg g, Config.parseCli {} [.client] = some cfg ∧
    Config.applyFec cfg = some g ∧ Lossless crc32Bitwise Code.repetition [] cfg g := by
  have hparse : Config.parseCli {} [.client] = some { isServer := 0 } := by decide
  have happly := @applyFec_default { isServer := 0 } rfl
  refine ⟨_, _, hparse, happly,
    (lossless_iff crc32Bitwise Code.repetition [] hparse happly).mpr ?_⟩
  refine fine_of_mtu_le rfl rfl rfl (by decide) (by decide) (fun i hi => ?_) (by decide)
  have hi' : i < 20 := hi
  show HasCode (i + 1) (i + 1 + (fillFirst _ _ i).y)
  rw [fillFirst_apply, if_pos hi']
  exact hasCode_of_le (Nat.le_add_right _ _) (by unfold maxFecPacketNum; dsimp only; omega)

/-- A configuration file may ask for no copies at all.  A small packet is then
neither sent nor given to the encoder. -/
theorem zero_copies_lose : ∃ cfg g s' o,
    Config.parseCli {} [.config (some ("[general]\nmode = client\n[fec]\n" ++
      "small_packet_threshold = 256\nsmall_packet_redundancy = 0\n").toList)] = some cfg ∧
    Config.applyFec cfg = some g ∧
    step crc32Bitwise Code.repetition cfg g (start cfg g [] true 0 fun _ => 0)
      (.tun [0x45] fun _ => longIv) = .ok (s', o) ∧
    o.datagrams = [] ∧ o.ret = none ∧ ¬ Lossless crc32Bitwise Code.repetition [] cfg g := by
  have hparse : Config.parseCli {} [.config (some ("[general]\nmode = client\n[fec]\n" ++
      "small_packet_threshold = 256\nsmall_packet_redundancy = 0\n").toList)]
      = some { isServer := 0, smallPacketThreshold := 256, smallPacketRedundancy := 0 } := by
    decide +kernel
  have happly := @applyFec_default
    { isServer := 0, smallPacketThreshold := 256, smallPacketRedundancy := 0 } rfl
  obtain ⟨tunnel, ds, hstep, -, hcount, -⟩ := @step_small crc32Bitwise Code.repetition
    { isServer := 0, smallPacketThreshold := 256, smallPacketRedundancy := 0 } _ []
    (start _ _ [] true 0 fun _ => 0) (fun _ => longIv) [0x45]
    (well_start _ _ [] true 0 fun _ => 0).conf (by decide) (by decide)
  refine ⟨_, _, _, _, hparse, happly, hstep, List.length_eq_zero_iff.mp hcount, rfl, fun hl => ?_⟩
  exact absurd (copies_of_lossless hl le_rfl (by decide) (by decide)).1 (by decide)

end Fecraw.Ports.SendPath
