import Mathlib.Algebra.BigOperators.Group.Finset.Basic
import Mathlib.Algebra.Order.BigOperators.Group.Finset
import Fecraw.Ports.AdmissibleGroups
import Fecraw.Ports.ConnTimer
import Fecraw.Ports.Transfer

/-!
# A link without loss

Every packet of the peer comes exactly once.  What `conn_timer_cb` takes for
loss then are redundant packets in mode 1, and in mode 0 the shards of groups
that carry too few packets, or that are completed in a later interval than the
one they come in.

In mode 1 a packet is put out for every data packet, so that a link is seen as
lossless exactly if no redundant packet was sent: the rows of the peer's table
that closed groups have used are without redundancy.  In mode 0 a group puts out
all it carries when as many of its packets have come as it has data shards.  In
every interval these must be as many packets as come in it.

A group of 255 packets or more is refused by the decoder, which counts as
arrivals without output.

## Main results

* `putOut_blob`: what is put out in an interval in mode 0.
* `putOut_bare`, `putOut_le_accepted`: what is put out in mode 1.
* `no_loss_recorded`: which lossless links are seen as such.
-/

namespace Fecraw.Ports.LosslessLink

open Fecraw.Verified Fecraw.Ports.Packet Fecraw.Ports.RsTable Fecraw.Ports.FecEncode
open Fecraw.Ports.FecDecode Fecraw.Ports.Transfer Fecraw.Ports.ConnTimer FecEncodeManager

/-! ## Lossless links -/

/-- All packets of all groups of a run. -/
def places (gs : List Emitted) : List (Nat × Nat) :=
  (List.range gs.length).flatMap fun k =>
    (List.range (gs.getD k {}).packets.length).map fun i => (k, i)

/-- Every packet that was sent comes exactly once. -/
def Lossless (gs : List Emitted) (ps : List Incoming) : Prop :=
  (ps.map Incoming.place).Perm (places gs)

instance (gs : List Emitted) (ps : List Incoming) : Decidable (Lossless gs ps) := by
  unfold Lossless
  infer_instance

/-- The packets of group `k`. -/
def ofGroup (k : Nat) (ps : List Incoming) : List Incoming :=
  ps.filter fun p => decide (p.group = k)

/-- A group of mode 0 is completed in an interval: as many of its packets have
come as it has data shards, and no more of them than the decoder takes. -/
def completed (gs : List Emitted) (before now : List Incoming) (k : Nat) : Bool :=
  decide ((gs.getD k {}).packets.length < maxFecPacketNum ∧
    (ofGroup k before).length < dataNumOf gs k ∧
    dataNumOf gs k ≤ (ofGroup k before).length + (ofGroup k now).length)

/-- The packets that the completed groups carry. -/
def carried (gs : List Emitted) (before now : List Incoming) : Nat :=
  ∑ k ∈ Finset.range gs.length,
    if completed gs before now k then (gs.getD k {}).accepted.length else 0

/-- Ratio, traffic and times of a lossless link that is seen as one.  In mode 0
the groups that are completed in an interval carry as many packets as come in
it; in mode 1 the closed groups have used rows without redundancy. -/
def Covered (g : FecParameter) (gs : List Emitted) (evs : List ConnTimer.Event) : Prop :=
  (g.mode = 0 → ∀ iv ∈ intervals [] [] evs,
    iv.2.length ≤ carried gs iv.1 iv.2 ∧ carried gs iv.1 iv.2 < 2 ^ 31) ∧
  (g.mode = 1 → ∀ m ∈ gs.dropLast, (g.rsPar (m.accepted.length - 1)).y = 0)

/-- In no interval so many packets come that an `int` cannot count what they
make the decoder put out. -/
def Countable (g : FecParameter) (gs : List Emitted) (evs : List ConnTimer.Event) : Prop :=
  ∀ iv ∈ intervals [] [] evs,
    iv.2.length < 2 ^ 23 ∧ (g.mode = 0 → carried gs iv.1 iv.2 < 2 ^ 31)

/-- The packets `S` are enough to decode group `k`. -/
def decodes (gs : List Emitted) (mode : Int) (k : Nat) (S : List Nat) : Bool :=
  if mode = 0 then decide (dataNumOf gs k ≤ S.length)
  else decide ((gs.getD k {}).accepted.length ≤ S.length ∧
    ∃ i ∈ S, (gs.getD k {}).accepted.length ≤ i)

/-- A packet passes the header checks of the decoder. -/
def passes (gs : List Emitted) (place : Nat × Nat) : Bool :=
  (parseHeader (packetOf gs place.1 place.2)).isSome

/-- The packets that pass the header checks. -/
def admitted (gs : List Emitted) (ps : List Incoming) : List Incoming :=
  ps.filter fun p => passes gs (Incoming.place p)

/-- The arrivals of such packets. -/
def passing (gs : List Emitted) (as : List Arrival) : List Arrival :=
  as.filter fun a => passes gs (Arrival.place a)

/-- The packets of every group come within the windows of the decoder. -/
def InWindows (g : FecParameter) (gs : List Emitted) (as : List Arrival) : Prop :=
  ∀ k, (gs.getD k {}).packets ≠ [] →
    InWindow (decodes gs g.mode k) k (.collecting [] 0) (passing gs as)

theorem mem_places {gs : List Emitted} {k i : Nat} :
    (k, i) ∈ places gs ↔ k < gs.length ∧ i < (gs.getD k {}).packets.length := by
  unfold places
  simp only [List.mem_flatMap, List.mem_range, List.mem_map, Prod.mk.injEq]
  constructor
  · rintro ⟨k', hk, i', hi, rfl, rfl⟩
    exact ⟨hk, hi⟩
  · rintro ⟨hk, hi⟩
    exact ⟨k, hk, i, hi, rfl, rfl⟩

theorem nodup_places (gs : List Emitted) : (places gs).Nodup := by
  unfold places
  rw [List.nodup_flatMap]
  refine ⟨fun k _ => List.nodup_range.map fun i j h => (Prod.mk.inj h).2, ?_⟩
  refine List.nodup_range.imp fun hne e he he' => ?_
  obtain ⟨i, -, rfl⟩ := List.mem_map.mp he
  obtain ⟨j, -, heq⟩ := List.mem_map.mp he'
  exact hne (Prod.mk.inj heq).1.symm

theorem length_places (gs : List Emitted) :
    (places gs).length = ∑ k ∈ Finset.range gs.length, (gs.getD k {}).packets.length := by
  unfold places
  rw [List.length_flatMap]
  simp only [List.length_map, List.length_range]
  rfl

/-! ## What the decoder refuses -/

section Passing

variable {c : Code} {gs : List Emitted}

theorem ready_of_deliver {packet : Nat → Nat → Bytes} {d d' : FecDecodeManager} {p : Incoming}
    {a : Arrival} (h : deliver c packet d p = .ok (d', a)) : d'.readyForOutput = false := by
  obtain ⟨⟨ret, d₁⟩, -, h⟩ := Checked.doBind_eq_ok.mp h
  have hd : d₁.output.1 = d' := (Prod.mk.inj (Except.ok.inj h)).1
  rw [← hd]
  unfold FecDecodeManager.output
  split
  · rfl
  · next hready => simpa using hready

/-- A packet that fails the header checks changes nothing. -/
theorem deliver_of_refused {d : FecDecodeManager} {p : Incoming}
    (hready : d.readyForOutput = false)
    (hlen : (packetOf gs p.group p.idx).length ≤ maxDataLen)
    (hno : passes gs (Incoming.place p) = false) :
    deliver c (packetOf gs) d p = .ok (d, ⟨d, p.now, p.group, p.idx, [], d⟩) := by
  have hparse : parseHeader (packetOf gs p.group p.idx) = none := by
    simpa [passes, Incoming.place] using hno
  have hplace : d.place p.now (packetOf gs p.group p.idx) = .ok (.returned (-1) d) :=
    AdmissibleGroups.place_of_parseHeader_none hlen hparse
  refine deliver_eq_ok ⟨-1, d, ?_, output_of_quiet hready⟩
  unfold FecDecodeManager.input
  rw [hplace]
  rfl

/-- A run over the packets that pass the checks is part of the run over all of
them, and nothing is put out at the others. -/
theorem run_passing : ∀ {ps : List Incoming} {d d' : FecDecodeManager} {as : List Arrival},
    d.readyForOutput = false →
    (∀ p ∈ ps, (packetOf gs p.group p.idx).length ≤ maxDataLen) →
    run (deliver c (packetOf gs)) d (admitted gs ps) = .ok (d', as) →
    ∃ all, run (deliver c (packetOf gs)) d ps = .ok (d', all) ∧
      passing gs all = as ∧
      ∀ a ∈ all, passes gs (Arrival.place a) = false → a.out = [] := by
  intro ps
  induction ps with
  | nil =>
      intro d d' as _ _ hrun
      obtain ⟨rfl, rfl⟩ := Prod.mk.inj (Except.ok.inj hrun)
      exact ⟨[], rfl, rfl, by simp⟩
  | cons p ps ih =>
      intro d d' as hready hlen hrun
      have hlen' := fun q hq => hlen q (List.mem_cons_of_mem _ hq)
      by_cases hpass : passes gs (Incoming.place p) = true
      · have hcons : admitted gs (p :: ps) = p :: admitted gs ps := List.filter_cons_of_pos hpass
        rw [hcons] at hrun
        obtain ⟨d₁, a, as', hdel, hrest, rfl⟩ := run_cons_eq_ok.mp hrun
        obtain ⟨all, hall, hfilter, hout⟩ := ih (ready_of_deliver hdel) hlen' hrest
        obtain ⟨hgroup, hidx⟩ := deliver_place hdel
        have hplace : passes gs (Arrival.place a) = true := by
          rw [Arrival.place, hgroup, hidx]
          exact hpass
        refine ⟨a :: all, run_cons_eq_ok.mpr ⟨d₁, a, all, hdel, hall, rfl⟩, ?_, ?_⟩
        · rw [← hfilter]
          exact List.filter_cons_of_pos hplace
        · intro b hb hno
          rcases List.mem_cons.mp hb with rfl | hb
          · exact absurd (hplace.symm.trans hno) (by simp)
          · exact hout b hb hno
      · have hcons : admitted gs (p :: ps) = admitted gs ps := List.filter_cons_of_neg hpass
        rw [hcons] at hrun
        have hdel := deliver_of_refused (c := c) hready (hlen p List.mem_cons_self)
          (by simpa using hpass)
        obtain ⟨all, hall, hfilter, hout⟩ := ih hready hlen' hrun
        refine ⟨_ :: all, run_cons_eq_ok.mpr ⟨d, _, all, hdel, hall, rfl⟩, ?_, ?_⟩
        · rw [← hfilter]
          exact List.filter_cons_of_neg hpass
        · intro b hb hno
          rcases List.mem_cons.mp hb with rfl | hb
          · rfl
          · exact hout b hb hno

end Passing

/-! ## The groups that the decoder takes -/

/-- The part of a group that the decoder takes. -/
def taken (G : SentGroup) : SentGroup :=
  if G.x + G.y < maxFecPacketNum then G else { G with y := 0 }

theorem taken_fields (G : SentGroup) : (taken G).seq = G.seq ∧ (taken G).mode = G.mode ∧
    (taken G).x = G.x ∧ (taken G).accepted = G.accepted := by
  unfold taken
  split
  · exact ⟨rfl, rfl, rfl, rfl⟩
  · exact ⟨rfl, rfl, rfl, rfl⟩

section Peer

variable {c : Code} {g : FecParameter} {gs : List Emitted} {groups : Nat → SentGroup}

/-- The groups of the peer, as its encoder sent them. -/
structure FromPeer (c : Code) (g : FecParameter) (gs : List Emitted)
    (groups : Nat → SentGroup) : Prop where
  mode : g.mode = 0 ∨ g.mode = 1
  numbers : numbers groups = seqOf gs
  sent : ∀ k, (gs.getD k {}).packets ≠ [] →
    SentAs c g g.mode.toNat (gs.getD k {}) (groups k)
  mds : ∀ i < g.rsCnt, i + 1 + (g.rsPar i).y ≤ 254 → c.Mds (i + 1) (i + 1 + (g.rsPar i).y)

theorem FromPeer.group (h : FromPeer c g gs groups) {k i : Nat}
    (hi : i < (gs.getD k {}).packets.length) :
    SentAs c g g.mode.toNat (gs.getD k {}) (groups k) :=
  h.sent k (List.ne_nil_of_length_pos (by omega))

theorem FromPeer.length_packets (h : FromPeer c g gs groups) {k i : Nat}
    (hi : i < (gs.getD k {}).packets.length) :
    (gs.getD k {}).packets.length = (groups k).x + (groups k).y := by
  rw [(h.group hi).packets]
  simp

theorem FromPeer.blob (h : FromPeer c g gs groups) (hmode : g.mode = 0) {k i : Nat}
    (hi : i < (gs.getD k {}).packets.length) : (groups k).mode = 0 := by
  rw [(h.group hi).mode_eq, hmode]
  rfl

/-- In mode 1 the data packets of a group are the accepted ones. -/
theorem FromPeer.plain (h : FromPeer c g gs groups) (hmode : g.mode = 1) {k i : Nat}
    (hi : i < (gs.getD k {}).packets.length) :
    (groups k).mode = 1 ∧ (gs.getD k {}).accepted.length = (groups k).x := by
  have hG := h.group hi
  have hone : (groups k).mode = 1 := by
    rw [hG.mode_eq, hmode]
    rfl
  exact ⟨hone, by rw [← hG.accepted, hG.shaped.length_accepted hone]⟩

/-- The decoder takes the packets without the numbers of their group, and all of
a group that is small enough. -/
theorem FromPeer.passes_iff (h : FromPeer c g gs groups) {k i : Nat}
    (hi : i < (gs.getD k {}).packets.length) :
    passes gs (k, i) = true ↔
      (groups k).bare i ∨ (gs.getD k {}).packets.length < maxFecPacketNum := by
  have hG := h.group hi
  have hlen := h.length_packets hi
  obtain ⟨hlt, hpacket⟩ := getD_packets hG hi
  have hpass : passes gs (k, i) = (parseHeader ((groups k).packet c i)).isSome := by
    rw [← hpacket]
    rfl
  rw [hpass, hlen]
  constructor
  · intro hsome
    by_contra hno
    obtain ⟨hbare, hge⟩ := not_or.mp hno
    have hx := hG.shaped.x_le
    have hpos := hG.shaped.x_pos
    have hsum := hG.shaped.sum_le
    have hnone : parseHeader ((groups k).packet c i) = none := by
      unfold SentGroup.packet
      rw [if_neg hbare, if_neg hbare]
      exact AdmissibleGroups.parseHeader_of_sum _ (by omega) (by omega)
        (by unfold maxFecPacketNum at hge; omega)
    rw [hnone] at hsome
    exact absurd hsome (by simp)
  · intro hnum
    rw [SentGroup.parseHeader_packet hG.shaped hlt hnum]
    rfl

/-- The packets that pass the checks are those of valid groups. -/
theorem FromPeer.sound (h : FromPeer c g gs groups) {ps : List Incoming} (hps : Delivered gs ps)
    {p : Incoming} (hp : p ∈ ps) (hpass : passes gs (Incoming.place p) = true) :
    Sound c (packetOf gs) (fun k => taken (groups k)) p := by
  have hidx := hps.sent p hp
  have hG := h.group hidx
  obtain ⟨hlt, hpacket⟩ := getD_packets hG hidx
  have hnum := (h.passes_iff hidx).mp hpass
  rw [h.length_packets hidx] at hnum
  by_cases hsmall : (groups p.group).x + (groups p.group).y < maxFecPacketNum
  · have htaken : taken (groups p.group) = groups p.group := if_pos hsmall
    have hmds : (groups p.group).mode = 0 ∨ 0 < (groups p.group).y →
        c.Mds (groups p.group).x ((groups p.group).x + (groups p.group).y) := by
      intro hrow
      rw [hG.mode_eq] at hrow
      obtain ⟨i, hi, hx, hy⟩ := hG.row hrow
      rw [hx, hy] at hsmall ⊢
      exact h.mds i hi (Nat.le_of_lt_succ hsmall)
    have hvalid : (groups p.group).Valid c := ⟨hG.shaped, fun _ => hsmall, hmds⟩
    refine ⟨?_, ?_, ?_, hps.short p hp⟩
    · rw [htaken]
      exact hvalid
    · rw [htaken]
      exact hlt
    · rw [htaken]
      exact hpacket
  · -- of a group that is too large only bare packets pass
    have hbare := hnum.resolve_right hsmall
    have htaken : taken (groups p.group) = { groups p.group with y := 0 } := if_neg hsmall
    have hx := hG.shaped.x_le
    have hshaped : SentGroup.Shaped { groups p.group with y := 0 } :=
      { hG.shaped with sum_le := by dsimp only; omega }
    have hno : ¬ ((groups p.group).mode = 0 ∨ 0 < 0) := by
      rw [hbare.1]
      decide
    refine ⟨?_, ?_, ?_, hps.short p hp⟩
    · rw [htaken]
      exact ⟨hshaped, fun hrow => absurd hrow hno, fun hrow => absurd hrow hno⟩
    · rw [htaken]
      exact hbare.2
    · rw [htaken]
      refine hpacket.trans ?_
      have hbare' : SentGroup.bare { groups p.group with y := 0 } p.idx := hbare
      unfold SentGroup.packet SentGroup.body
      rw [if_pos hbare, if_pos hbare, if_pos hbare, if_pos hbare', if_pos hbare', if_pos hbare']

theorem FromPeer.dataNumOf_eq (h : FromPeer c g gs groups) (hmode : g.mode = 0) {k i : Nat}
    (hi : i < (gs.getD k {}).packets.length) : dataNumOf gs k = (groups k).x := by
  have hG := h.group hi
  unfold dataNumOf packetOf
  rw [(getD_packets hG (by omega)).2]
  exact dataNum_packet hG.shaped (not_bare_of_blob (h.blob hmode hi) 0)

/-- A group is decoded by the packets that `decodes` says. -/
theorem FromPeer.full_eq_decodes (h : FromPeer c g gs groups) {k i : Nat}
    (hi : i < (gs.getD k {}).packets.length) :
    (taken (groups k)).full = decodes gs g.mode k := by
  obtain ⟨-, hmode', hx, -⟩ := taken_fields (groups k)
  funext S
  have hfull : (taken (groups k)).full S = true ↔ (groups k).decodable S := by
    unfold SentGroup.full
    rw [decide_eq_true_iff]
    unfold SentGroup.decodable SentGroup.known
    rw [hmode', hx]
  rw [Bool.eq_iff_iff, hfull]
  unfold SentGroup.decodable SentGroup.known decodes
  rcases h.mode with hmode | hmode
  · rw [if_pos hmode, h.dataNumOf_eq hmode hi]
    simp [h.blob hmode hi]
  · obtain ⟨hone, hlen⟩ := h.plain hmode hi
    rw [if_neg (by omega), hlen]
    simp [hone]

theorem exists_fromPeer {par : FecParameter} {s : List Char}
    (htable : par.rsFromStr s = some g) (hmode : g.mode = 0 ∨ g.mode = 1)
    (hmds : ∀ i < g.rsCnt, (g.rsPar i).x + (g.rsPar i).y ≤ 254 →
      c.Mds (g.rsPar i).x ((g.rsPar i).x + (g.rsPar i).y))
    {seq : UInt32} {buf : Mem} {ss : List (Option Bytes)}
    (hss : ∀ p, some p ∈ ss → p.length ≤ maxDataLen) {e : FecEncodeManager}
    {os : List Sending} (hrun : run (send c g) (init g seq buf) ss = .ok (e, os)) :
    ∃ groups, FromPeer c g (groupsOf {} os) groups := by
  have hrows := rows_of_table htable
  have hcode : ∀ i < g.rsCnt, i + 1 + (g.rsPar i).y ≤ 254 →
      c.Mds (i + 1) (i + 1 + (g.rsPar i).y) := by
    intro i hi
    rw [← hrows.x i hi]
    exact hmds i hi
  rcases hmode with h0 | h1
  · obtain ⟨groups, hnumbers, hsent⟩ := exists_groups (run_groups_blob hrows h0 hrun)
    exact ⟨groups, .inl h0, hnumbers, by rw [h0]; exact hsent, hcode⟩
  · obtain ⟨groups, hnumbers, hsent⟩ := exists_groups (run_groups_packets hrows h1 hss hrun)
    exact ⟨groups, .inr h1, hnumbers, by rw [h1]; exact hsent, hcode⟩

end Peer

/-! ## What is put out, group by group -/

theorem putOut_eq_sum {n : Nat} : ∀ {as : List Arrival}, (∀ a ∈ as, a.group < n) →
    putOut as = ∑ k ∈ Finset.range n, putOut (arrivalsOf k as) := by
  intro as
  induction as with
  | nil => intro _; simp [arrivalsOf]
  | cons a as ih =>
      intro has
      have hone : ∀ k, putOut (arrivalsOf k (a :: as))
          = (if k = a.group then a.out.length else 0) + putOut (arrivalsOf k as) := by
        intro k
        by_cases hk : a.group = k
        · rw [arrivalsOf_cons_self hk, putOut_cons, if_pos hk.symm]
        · rw [arrivalsOf_cons_ne hk, if_neg (Ne.symm hk), Nat.zero_add]
      rw [putOut_cons, ih fun b hb => has b (List.mem_cons_of_mem _ hb),
        Finset.sum_congr rfl fun k _ => hone k, Finset.sum_add_distrib, Finset.sum_ite_eq',
        if_pos (Finset.mem_range.mpr (has a List.mem_cons_self))]

/-- What only arrivals put out that pass a test, these put out. -/
theorem putOut_filter {q : Arrival → Bool} {as : List Arrival}
    (h : ∀ a ∈ as, q a = false → a.out = []) : putOut (as.filter q) = putOut as := by
  induction as with
  | nil => rfl
  | cons a as ih =>
      have hrest := ih fun b hb => h b (List.mem_cons_of_mem _ hb)
      cases hq : q a with
      | false =>
          rw [List.filter_cons_of_neg (by simp [hq]), hrest, putOut_cons,
            h a List.mem_cons_self hq, List.length_nil, Nat.zero_add]
      | true => rw [List.filter_cons_of_pos hq, putOut_cons, putOut_cons, hrest]

/-- Where the arrival that makes them `x` puts out `n` packets and no other one
any, these are put out in the interval that it is in. -/
theorem putOut_once {x n : Nat} : ∀ {now before after : List Arrival},
    (∀ b a l, before ++ now ++ after = b ++ a :: l →
      a.out.length = if b.length + 1 = x then n else 0) →
    putOut now = if before.length < x ∧ x ≤ before.length + now.length then n else 0 := by
  intro now
  induction now with
  | nil =>
      intro before after _
      rw [if_neg (by rw [List.length_nil]; omega), putOut_nil]
  | cons a now ih =>
      intro before after h
      have hone := h before a (now ++ after) (by simp)
      have hrest := @ih (before ++ [a]) after fun b a' l hs => h b a' l (by simpa using hs)
      rw [List.length_append, List.length_singleton] at hrest
      rw [putOut_cons, hone, hrest, List.length_cons]
      split_ifs <;> omega

theorem length_arrivalsOf {as : List Arrival} {ps : List Incoming}
    (h : as.map Arrival.place = ps.map Incoming.place) (k : Nat) :
    (arrivalsOf k as).length = (ofGroup k ps).length := by
  have hcount := congrArg (fun l => (l.filter fun e => decide (e.1 = k)).length) h
  rw [List.filter_map, List.filter_map, List.length_map, List.length_map] at hcount
  exact hcount

/-! ## A delivery without loss -/

/-- All arrivals of a link that loses nothing.  The decoder takes those that
pass the checks. -/
structure Arrives (c : Code) (gs : List Emitted) (ps : List Incoming) (all : List Arrival) :
    Prop where
  delivered : Delivered gs ps
  separated : Separated c (packetOf gs) (seqOf gs) [] {} (admitted gs ps)
  ran : ∃ d, run (deliver c (packetOf gs)) {} (admitted gs ps) = .ok (d, passing gs all)
  refused : ∀ a ∈ all, passes gs (Arrival.place a) = false → a.out = []
  places : (all.map Arrival.place).Perm (places gs)

section Arrives

variable {c : Code} {g : FecParameter} {gs : List Emitted} {groups : Nat → SentGroup}
  {ps : List Incoming} {all : List Arrival}

theorem Arrives.sent (ha : Arrives c gs ps all) {a : Arrival} (hin : a ∈ all) :
    a.group < gs.length ∧ a.idx < (gs.getD a.group {}).packets.length :=
  mem_places.mp (ha.places.mem_iff.mp (List.mem_map_of_mem hin))

theorem exists_split {a : Arrival} (hin : a ∈ all) :
    ∃ before after, arrivalsOf a.group all = before ++ a :: after :=
  List.append_of_mem (List.mem_filter.mpr ⟨hin, decide_eq_true rfl⟩)

theorem mem_of_split {k : Nat} {before after : List Arrival} {a : Arrival}
    (h : arrivalsOf k all = before ++ a :: after) : a ∈ all ∧ a.group = k := by
  have hin : a ∈ arrivalsOf k all := by
    rw [h]
    simp
  exact ⟨(List.mem_filter.mp hin).1, of_decide_eq_true (List.mem_filter.mp hin).2⟩

theorem Arrives.sent_before (ha : Arrives c gs ps all) {k : Nat} {before after : List Arrival}
    {a : Arrival} (hsplit : arrivalsOf k all = before ++ a :: after) :
    ∀ i ∈ (before.map Arrival.idx).toFinset, i < (gs.getD k {}).packets.length := by
  intro i hi
  obtain ⟨b, hb, rfl⟩ := List.mem_map.mp (List.mem_toFinset.mp hi)
  have hin : b ∈ arrivalsOf k all := by
    rw [hsplit]
    exact List.mem_append_left _ hb
  obtain ⟨hball, hbk⟩ := List.mem_filter.mp hin
  have hsent := (ha.sent hball).2
  rw [of_decide_eq_true hbk] at hsent
  exact hsent

/-- No packet of a group comes twice. -/
theorem Arrives.nodup (ha : Arrives c gs ps all) (k : Nat) :
    ((arrivalsOf k all).map Arrival.idx).Nodup := by
  have hplaces : ((arrivalsOf k all).map Arrival.place).Nodup :=
    (ha.places.nodup_iff.mpr (nodup_places gs)).sublist (List.filter_sublist.map _)
  have hsame : (arrivalsOf k all).map Arrival.place
      = ((arrivalsOf k all).map Arrival.idx).map fun i => (k, i) := by
    rw [List.map_map]
    refine List.map_congr_left fun a hin => ?_
    have hk : a.group = k := of_decide_eq_true (List.mem_filter.mp hin).2
    rw [← hk]
    rfl
  rw [hsame] at hplaces
  exact hplaces.of_map _

theorem Arrives.fresh (ha : Arrives c gs ps all) {k : Nat} {before after : List Arrival}
    {a : Arrival} (hsplit : arrivalsOf k all = before ++ a :: after) :
    (before.map Arrival.idx).toFinset.card = before.length ∧
      a.idx ∉ (before.map Arrival.idx).toFinset := by
  have hnodup := ha.nodup k
  rw [hsplit, List.map_append, List.map_cons] at hnodup
  obtain ⟨hbefore, -, hapart⟩ := List.nodup_append.mp hnodup
  rw [List.toFinset_card_of_nodup hbefore, List.length_map]
  refine ⟨rfl, fun hin => ?_⟩
  exact hapart _ (List.mem_toFinset.mp hin) _ List.mem_cons_self rfl

theorem Arrives.sound (h : FromPeer c g gs groups) (ha : Arrives c gs ps all) :
    ∀ p ∈ admitted gs ps,
      Sound c (packetOf gs) (fun k => taken (groups k)) p := by
  intro p hp
  obtain ⟨hin, hpass⟩ := List.mem_filter.mp hp
  exact h.sound ha.delivered hin hpass

theorem numbers_taken (h : FromPeer c g gs groups) :
    numbers (fun k => taken (groups k)) = seqOf gs := by
  rw [← h.numbers]
  funext k
  exact (taken_fields (groups k)).1

theorem Arrives.separated_taken (h : FromPeer c g gs groups) (ha : Arrives c gs ps all) :
    Separated c (packetOf gs) (numbers fun k => taken (groups k)) [] {}
      (admitted gs ps) := by
  rw [numbers_taken h]
  exact ha.separated

theorem Arrives.clocked (ha : Arrives c gs ps all) :
    Clocked 0 (admitted gs ps) :=
  ha.delivered.clock.sublist ((List.filter_sublist.map _).cons_cons 0)

theorem InWindows.inWindow (hwin : InWindows g gs all) (h : FromPeer c g gs groups) {k i : Nat}
    (hi : i < (gs.getD k {}).packets.length) :
    InWindow (taken (groups k)).full k (.collecting [] 0) (passing gs all) := by
  rw [h.full_eq_decodes hi]
  exact hwin k (List.ne_nil_of_length_pos (by omega))

/-- What the decoder puts out at the packets of a group that it takes. -/
theorem Arrives.outputs_eq (h : FromPeer c g gs groups) (ha : Arrives c gs ps all) {k i : Nat}
    (hi : i < (gs.getD k {}).packets.length)
    (hwin : InWindows g gs all) :
    outputsOf k (passing gs all)
      = (taken (groups k)).received []
        (indicesOf k (passing gs all)) := by
  obtain ⟨d, hran⟩ := ha.ran
  exact outputs_eq_received (ha.sound h) (ha.separated_taken h) ha.clocked hran
    (hwin.inWindow h hi)

/-- The same, packet by packet, where all packets of the group are taken. -/
theorem Arrives.out_eq (h : FromPeer c g gs groups) (ha : Arrives c gs ps all) {k : Nat}
    (hall : ∀ i < (gs.getD k {}).packets.length, passes gs (k, i) = true)
    (hwin : InWindows g gs all)
    {Done : Finset Nat → Prop} {E : Finset Nat → Nat → List Bytes}
    (hE : (taken (groups k)).Replies Done E) {before after : List Arrival} {a : Arrival}
    (hsplit : arrivalsOf k all = before ++ a :: after) :
    a.out = E (before.map Arrival.idx).toFinset a.idx := by
  obtain ⟨d, hran⟩ := ha.ran
  obtain ⟨hin, hk⟩ := mem_of_split hsplit
  have hi := (ha.sent hin).2
  rw [hk] at hi
  have hG := h.group hi
  have hsame : arrivalsOf k (passing gs all)
      = arrivalsOf k all := by
    unfold arrivalsOf passing
    rw [List.filter_filter]
    refine List.filter_congr fun b hb => ?_
    by_cases hbk : b.group = k
    · have hpass : passes gs (Arrival.place b) = true := by
        have hsent := (ha.sent hb).2
        rw [hbk] at hsent
        have := hall b.idx hsent
        rw [← hbk] at this
        exact this
      rw [hpass, Bool.and_true]
    · rw [decide_eq_false hbk, Bool.false_and]
  refine out_eq_of_split (ha.sound h) (ha.separated_taken h) ha.clocked hran (hwin.inWindow h hi)
    ?_ hE (hsame.trans hsplit)
  show 0 < (taken (groups k)).x
  rw [(taken_fields (groups k)).2.2.1]
  exact hG.shaped.x_pos

/-- Every arrival is one of an account of the link, and the groups that it
belongs to are among those sent. -/
theorem Arrives.group_lt (ha : Arrives c gs ps all) {before now after : List Arrival}
    (hsplit : all = before ++ now ++ after) : ∀ a ∈ now, a.group < gs.length := by
  intro a hin
  refine (ha.sent ?_).1
  rw [hsplit]
  exact List.mem_append_left _ (List.mem_append_right _ hin)

theorem arrivalsOf_append {k : Nat} {before now after : List Arrival} :
    arrivalsOf k (before ++ now ++ after)
      = arrivalsOf k before ++ arrivalsOf k now ++ arrivalsOf k after := by
  unfold arrivalsOf
  rw [List.filter_append, List.filter_append]

/-! ## Mode 0 -/

/-- What packet `i` of a blob of `x` shards is to make the decoder output
after the packets `S` have come. -/
def blobExpected (x : Nat) (accepted : List Bytes) (S : Finset Nat) (i : Nat) : List Bytes :=
  if i ∉ S ∧ S.card + 1 = x then accepted else []

section Blob

variable {G : SentGroup}

theorem decodable_blob (hmode : G.mode = 0) (T : List Nat) :
    G.decodable T ↔ G.x ≤ T.length := by
  unfold SentGroup.decodable SentGroup.known
  simp [hmode]

theorem replies_blob (hmode : G.mode = 0) :
    G.Replies (fun S => G.x ≤ S.card) (blobExpected G.x G.accepted) where
  done := fun {S} hS => by
    rw [decodable_blob hmode, List.toFinset_card_of_nodup hS]
  mono := fun hST hS => Nat.le_trans hS (Finset.card_le_card hST)
  first := fun {S} hS hopen i => by
    have hfew := (decodable_blob hmode S).not.mp hopen
    unfold blobExpected
    rw [List.toFinset_card_of_nodup hS]
    simp only [List.mem_toFinset]
    by_cases hin : i ∈ S
    · rw [if_pos hin, if_neg (fun h => h.1 hin)]
    · rw [if_neg hin]
      unfold SentGroup.outputOf
      by_cases hfull : G.decodable (i :: S)
      · have hlen : G.x ≤ S.length + 1 :=
          (decodable_blob hmode (i :: S)).mp hfull
        rw [if_pos hfull, if_pos hmode, if_pos ⟨hin, by omega⟩]
      · have hlen : ¬ G.x ≤ S.length + 1 :=
          (decodable_blob hmode (i :: S)).not.mp hfull
        rw [if_neg hfull, if_neg (not_bare_of_blob hmode i), if_neg (by omega)]
  quiet := fun {S} i hS => if_neg (by omega)

end Blob

/-- In mode 0 a group that the decoder takes is put out at the packet that
completes its data shards. -/
theorem Arrives.length_out_blob (h : FromPeer c g gs groups) (hmode : g.mode = 0)
    (ha : Arrives c gs ps all) {k : Nat} (hwin : InWindows g gs all)
    {before after : List Arrival} {a : Arrival}
    (hsplit : arrivalsOf k all = before ++ a :: after) :
    a.out.length = if before.length + 1 = dataNumOf gs k then
      (if (gs.getD k {}).packets.length < maxFecPacketNum then (gs.getD k {}).accepted.length
        else 0) else 0 := by
  obtain ⟨hin, hk⟩ := mem_of_split hsplit
  have hi := (ha.sent hin).2
  rw [hk] at hi
  have hG := h.group hi
  obtain ⟨-, hmode', hx, haccepted⟩ := taken_fields (groups k)
  have hblob := h.blob hmode hi
  by_cases hsmall : (gs.getD k {}).packets.length < maxFecPacketNum
  · obtain ⟨hcard, hnew⟩ := ha.fresh hsplit
    rw [ha.out_eq h (fun i hi => (h.passes_iff hi).mpr (.inr hsmall)) hwin
      (replies_blob (hmode'.trans hblob)) hsplit]
    unfold blobExpected
    rw [hcard, hx, haccepted, hG.accepted, h.dataNumOf_eq hmode hi, if_pos hsmall]
    by_cases hlast : before.length + 1 = (groups k).x
    · rw [if_pos ⟨hnew, hlast⟩, if_pos hlast]
    · rw [if_neg (fun hboth => hlast hboth.2), if_neg hlast]
      rfl
  · have hno : passes gs (Arrival.place a) = false := by
      refine Bool.eq_false_iff.mpr fun hpass => ?_
      have hpass' : passes gs (k, a.idx) = true := by
        rw [← hk]
        exact hpass
      rcases (h.passes_iff hi).mp hpass' with hbare | hlt
      · exact not_bare_of_blob hblob _ hbare
      · exact hsmall hlt
    rw [ha.refused a hin hno, if_neg hsmall, ite_self]
    rfl

/-- What is put out in an interval in mode 0. -/
theorem putOut_blob (h : FromPeer c g gs groups) (hmode : g.mode = 0)
    (ha : Arrives c gs ps all) (hwin : InWindows g gs all)
    {before now after : List Arrival} (hsplit : all = before ++ now ++ after)
    {iv : List Incoming × List Incoming}
    (hbefore : before.map Arrival.place = iv.1.map Incoming.place)
    (hnow : now.map Arrival.place = iv.2.map Incoming.place) :
    putOut now = carried gs iv.1 iv.2 := by
  rw [putOut_eq_sum (ha.group_lt hsplit)]
  refine Finset.sum_congr rfl fun k _ => ?_
  have honce : putOut (arrivalsOf k now) = _ :=
    putOut_once fun b a l hs => ha.length_out_blob h hmode hwin
      (by rw [hsplit, arrivalsOf_append]; exact hs)
  rw [honce, length_arrivalsOf hbefore, length_arrivalsOf hnow]
  unfold completed
  by_cases hsmall : (gs.getD k {}).packets.length < maxFecPacketNum
  · simp only [hsmall, if_true, true_and, decide_eq_true_eq]
  · simp only [hsmall, if_false, false_and, ite_self, decide_false, Bool.false_eq_true]

/-! ## Mode 1 -/

/-- A group without redundancy puts out a packet at each that comes. -/
theorem Arrives.length_out_bare (h : FromPeer c g gs groups) (hmode : g.mode = 1)
    (ha : Arrives c gs ps all) {k : Nat}
    (hplain : (gs.getD k {}).packets.length = (gs.getD k {}).accepted.length)
    (hwin : InWindows g gs all)
    {before after : List Arrival} {a : Arrival}
    (hsplit : arrivalsOf k all = before ++ a :: after) : a.out.length = 1 := by
  obtain ⟨hin, hk⟩ := mem_of_split hsplit
  have hi := (ha.sent hin).2
  rw [hk] at hi
  have hG := h.group hi
  obtain ⟨-, hmode', hx, haccepted⟩ := taken_fields (groups k)
  obtain ⟨hone, hlen⟩ := h.plain hmode hi
  rw [← hG.accepted] at hlen
  have hbare : ∀ i < (gs.getD k {}).packets.length, (groups k).bare i := by
    intro i hi
    rw [hplain, ← hG.accepted, hlen] at hi
    exact ⟨hone, hi⟩
  obtain ⟨-, hnew⟩ := ha.fresh hsplit
  have hfew : ∀ S : Finset Nat, (∀ i ∈ S, i < (gs.getD k {}).packets.length) →
      ¬ Complete (groups k).accepted.length S := by
    rintro S hS ⟨-, i, hiS, hge⟩
    have hlt := (hbare i (hS i hiS)).2
    omega
  have hpast := ha.sent_before hsplit
  have hlast : ∀ i ∈ insert a.idx (before.map Arrival.idx).toFinset,
      i < (gs.getD k {}).packets.length := by
    intro i hiS
    rcases Finset.mem_insert.mp hiS with rfl | hiS
    · exact hi
    · exact hpast i hiS
  rw [ha.out_eq h (fun i hi => (h.passes_iff hi).mpr (.inl (hbare i hi))) hwin
    (replies_packet (hmode'.trans hone) (by rw [haccepted, hx]; exact hlen)) hsplit, haccepted]
  have hdata := (hbare a.idx hi).2
  unfold expected
  rw [if_neg (not_or.mpr ⟨hfew _ hpast, hnew⟩), if_neg (hfew _ hlast), if_pos (by omega)]
  rfl

/-- A link without redundancy puts out as much as comes in. -/
theorem putOut_bare (h : FromPeer c g gs groups) (hmode : g.mode = 1)
    (ha : Arrives c gs ps all)
    (hplain : ∀ k, (gs.getD k {}).packets.length = (gs.getD k {}).accepted.length)
    (hwin : InWindows g gs all)
    {as : List Arrival} (has : ∀ a ∈ as, a ∈ all) : putOut as = as.length := by
  induction as with
  | nil => rfl
  | cons a as ih =>
      obtain ⟨before, after, hsplit⟩ := exists_split (has a List.mem_cons_self)
      rw [putOut_cons, ih fun b hb => has b (List.mem_cons_of_mem _ hb),
        ha.length_out_bare h hmode (hplain _) hwin hsplit, List.length_cons, Nat.add_comm]

theorem putOut_eq_length (k : Nat) (as : List Arrival) :
    putOut (arrivalsOf k as) = (outputsOf k as).flatten.length := by
  unfold outputsOf putOut
  rw [List.length_flatten, List.map_map]
  rfl

theorem Arrives.putOut_passing (ha : Arrives c gs ps all) (k : Nat) :
    putOut (arrivalsOf k (passing gs all)) = putOut (arrivalsOf k all) := by
  have hcomm : arrivalsOf k (passing gs all)
      = (arrivalsOf k all).filter fun a => passes gs (Arrival.place a) := by
    unfold arrivalsOf passing
    rw [List.filter_filter, List.filter_filter]
    exact List.filter_congr fun a _ => Bool.and_comm _ _
  rw [hcomm]
  exact putOut_filter fun a hin => ha.refused a (List.mem_filter.mp hin).1

/-- No more is put out for a group than was accepted into it. -/
theorem putOut_le_accepted (h : FromPeer c g gs groups) (hmode : g.mode = 1)
    (ha : Arrives c gs ps all) {k : Nat} (hwin : InWindows g gs all) :
    putOut (arrivalsOf k all) ≤ (gs.getD k {}).accepted.length := by
  by_cases hnil : (gs.getD k {}).packets = []
  · have hnone : arrivalsOf k all = [] := by
      refine List.filter_eq_nil_iff.mpr fun a hin hk => ?_
      have hsent := (ha.sent hin).2
      rw [of_decide_eq_true hk, hnil] at hsent
      exact absurd hsent (Nat.not_lt_zero _)
    rw [hnone, putOut_nil]
    exact Nat.zero_le _
  · have hi := List.length_pos_iff.mpr hnil
    obtain ⟨-, hmode', hx, -⟩ := taken_fields (groups k)
    obtain ⟨hone, hlen⟩ := h.plain hmode hi
    obtain ⟨js, hjs, hnodup, hlt⟩ := @received_once (taken (groups k)) (hmode'.trans hone)
      (indicesOf k (passing gs all)) []
    have hrange : js ⊆ List.range (groups k).x := by
      intro j hj
      rw [← hx]
      exact List.mem_range.mpr (hlt j hj).1
    have hle := (hnodup.subperm hrange).length_le
    rw [List.length_range] at hle
    rw [← ha.putOut_passing, putOut_eq_length, ha.outputs_eq h hi hwin, hjs, List.length_map, hlen]
    exact hle

/-- An arrival puts out no more than a group can hold. -/
theorem putOut_le_mul (h : FromPeer c g gs groups) (hmode : g.mode = 1)
    (ha : Arrives c gs ps all) (hwin : InWindows g gs all)
    {as : List Arrival} (has : ∀ a ∈ as, a ∈ all) : putOut as ≤ 255 * as.length := by
  induction as with
  | nil => exact Nat.le_refl _
  | cons a as ih =>
      have hrest := ih fun b hb => has b (List.mem_cons_of_mem _ hb)
      have hin := has a List.mem_cons_self
      have hG := h.group (ha.sent hin).2
      have hlen : (gs.getD a.group {}).accepted.length ≤ 255 := by
        rw [(h.plain hmode (ha.sent hin).2).2]
        exact hG.shaped.x_le
      obtain ⟨before, after, hsplit⟩ := exists_split hin
      have hle := putOut_le_accepted (k := a.group) h hmode ha hwin
      rw [hsplit, putOut_append, putOut_cons] at hle
      rw [putOut_cons, List.length_cons]
      omega

end Arrives

/-! ## Rows without redundancy -/

/-- In mode 1 the closed groups have the redundancy of their rows, and the open
one has none. -/
structure Sized (g : FecParameter) (gs : List Emitted) : Prop where
  closed : ∀ m ∈ gs.dropLast,
    m.packets.length = m.accepted.length + (g.rsPar (m.accepted.length - 1)).y
  last : ∀ m ∈ gs, m ∉ gs.dropLast → m.packets.length = m.accepted.length

theorem sized_packets {c : Code} {g : FecParameter} (hrows : Rows g) (hmode : g.mode = 1)
    {seq : UInt32} {buf : Mem} {ss : List (Option Bytes)}
    (hss : ∀ p, some p ∈ ss → p.length ≤ maxDataLen) {e : FecEncodeManager}
    {os : List Sending} (hrun : run (send c g) (init g seq buf) ss = .ok (e, os)) :
    Sized g (groupsOf {} os) := by
  have hinv : PacketOpen c g (init g seq buf) {} :=
    ⟨rfl, rfl, rfl, .inl rfl, rfl, by simp, rfl⟩
  have hshort : ∀ s ∈ ss, ∀ p, s = some p → p.length ≤ maxDataLen := by
    rintro s hs p rfl
    exact hss p hs
  obtain ⟨closed, n, heq, hclosed, -, hopen⟩ := run_divides
    (fun e m e' s o hs hinv h => advance_packets hrows hmode hs hinv h) hshort hinv hrun
  rw [heq]
  refine ⟨?_, ?_⟩
  · intro m hm
    rw [List.dropLast_concat] at hm
    obtain ⟨k, hk⟩ := List.mem_iff_getElem?.mp hm
    obtain ⟨G, -, hsent, -, hy⟩ := hclosed k m hk
    have hlen := hsent.shaped.length_accepted hsent.mode_eq
    rw [hsent.packets, List.length_map, List.length_range, ← hsent.accepted, hlen, hy]
  · intro m hm hno
    rw [List.dropLast_concat] at hno
    obtain rfl : m = n := by simpa [hno] using hm
    rw [hopen.sent, List.length_map, List.length_range, hopen.counter]

section Sized

variable {g : FecParameter} {gs : List Emitted}

theorem Sized.accepted_le (h : Sized g gs) {m : Emitted} (hm : m ∈ gs) :
    m.accepted.length ≤ m.packets.length := by
  by_cases hclosed : m ∈ gs.dropLast
  · rw [h.closed m hclosed]
    exact Nat.le_add_right _ _
  · rw [h.last m hm hclosed]

/-- The rows that were used are without redundancy if and only if no more was
sent than accepted. -/
theorem Sized.plain_iff (h : Sized g gs) :
    (∀ m ∈ gs.dropLast, (g.rsPar (m.accepted.length - 1)).y = 0) ↔
      ∀ m ∈ gs, m.packets.length = m.accepted.length := by
  constructor
  · intro hzero m hm
    by_cases hclosed : m ∈ gs.dropLast
    · rw [h.closed m hclosed, hzero m hclosed, Nat.add_zero]
    · exact h.last m hm hclosed
  · intro hall m hm
    have hsent := h.closed m hm
    rw [hall m (List.mem_of_mem_dropLast hm)] at hsent
    omega

theorem getD_of_forall {P : Emitted → Prop} (hnil : P {}) (h : ∀ m ∈ gs, P m) (k : Nat) :
    P (gs.getD k {}) := by
  rw [List.getD_eq_getElem?_getD]
  cases hk : gs[k]? with
  | none => exact hnil
  | some m => exact h m (List.mem_of_getElem? hk)

/-- If no more was sent in all than accepted, no more was sent for any group. -/
theorem Sized.plain_of_le (h : Sized g gs)
    (hle : (places gs).length
      ≤ ∑ k ∈ Finset.range gs.length, (gs.getD k {}).accepted.length) :
    ∀ m ∈ gs, m.packets.length = m.accepted.length := by
  have hone : ∀ k ∈ Finset.range gs.length,
      (gs.getD k {}).accepted.length ≤ (gs.getD k {}).packets.length :=
    fun k _ => getD_of_forall (P := fun m => m.accepted.length ≤ m.packets.length)
      (Nat.le_refl _) (fun m hm => h.accepted_le hm) k
  rw [length_places] at hle
  have heq := (Finset.sum_eq_sum_iff_of_le hone).mp
    (Nat.le_antisymm (Finset.sum_le_sum hone) hle)
  intro m hm
  obtain ⟨k, hk, rfl⟩ := List.mem_iff_getElem.mp hm
  have hat := heq k (Finset.mem_range.mpr hk)
  rw [List.getD_eq_getElem _ _ hk] at hat
  exact hat.symm

end Sized

/-! ## What the ticks infer -/

private theorem exists_left {α β : Type} {R : α → β → Prop} {l : List α} {l' : List β}
    (h : List.Forall₂ R l l') : ∀ b ∈ l', ∃ a ∈ l, R a b := by
  induction h with
  | nil => exact fun b hb => absurd hb (by simp)
  | cons hab _ ih =>
      intro b hb
      rcases List.mem_cons.mp hb with rfl | hb
      · exact ⟨_, List.mem_cons_self, hab⟩
      · obtain ⟨a, ha, hR⟩ := ih b hb
        exact ⟨a, List.mem_cons_of_mem _ ha, hR⟩

section Ticks

variable {c : Code} {g : FecParameter} {gs : List Emitted} {groups : Nat → SentGroup}
  {evs : List ConnTimer.Event} {ss : List Seen}

theorem mem_arrivals {acc : Account} (hacc : acc ∈ accounts [] [] ss) {a : Arrival}
    (hin : a ∈ acc.now) : a ∈ arrivals ss := by
  obtain ⟨after, hsplit⟩ := split_of_mem_accounts hacc
  show a ∈ [] ++ [] ++ arrivals ss
  rw [hsplit]
  exact List.mem_append_left _ (List.mem_append_right _ hin)

theorem length_of_places {as : List Arrival} {ps : List Incoming}
    (h : as.map Arrival.place = ps.map Incoming.place) : as.length = ps.length := by
  simpa using congrArg List.length h

/-- On a covered link no tick infers loss. -/
theorem no_loss_of_covered (h : FromPeer c g gs groups) (hsized : g.mode = 1 → Sized g gs)
    (ha : Arrives c gs (packets evs) (arrivals ss))
    (hwin : InWindows g gs (arrivals ss))
    (hmatch : List.Forall₂ Matches (intervals [] [] evs) (accounts [] [] ss))
    (hcov : Covered g gs evs) : ∀ acc ∈ accounts [] [] ss, acc.loss = 0 := by
  intro acc hacc
  obtain ⟨iv, hiv, hbefore, hnow, hloss⟩ := exists_left hmatch acc hacc
  obtain ⟨after, hsplit⟩ := split_of_mem_accounts hacc
  rw [hloss]
  rcases h.mode with hmode | hmode
  · obtain ⟨hle, hlt⟩ := hcov.1 hmode iv hiv
    rw [putOut_blob h hmode ha hwin hsplit hbefore hnow]
    exact (inferred_ofNat_iff (by omega) hlt).mpr hle
  · have hplain := fun k => getD_of_forall (P := fun m => m.packets.length = m.accepted.length)
      rfl ((hsized hmode).plain_iff.mp (hcov.2 hmode)) k
    rw [putOut_bare h hmode ha hplain hwin fun a => mem_arrivals hacc, length_of_places hnow]
    exact inferred_self _

/-- If no tick infers loss, as much was put out in every interval as came in. -/
theorem length_le_of_no_loss (h : FromPeer c g gs groups)
    (ha : Arrives c gs (packets evs) (arrivals ss))
    (hwin : InWindows g gs (arrivals ss))
    (hcount : Countable g gs evs) (hzero : ∀ acc ∈ accounts [] [] ss, acc.loss = 0)
    {iv : List Incoming × List Incoming} (hiv : iv ∈ intervals [] [] evs) {acc : Account}
    (hacc : acc ∈ accounts [] [] ss) (hmatch : Matches iv acc) :
    iv.2.length ≤ putOut acc.now := by
  obtain ⟨hbefore, hnow, hloss⟩ := hmatch
  obtain ⟨after, hsplit⟩ := split_of_mem_accounts hacc
  obtain ⟨hlt, hcarried⟩ := hcount iv hiv
  have hout : putOut acc.now < 2 ^ 31 := by
    rcases h.mode with hmode | hmode
    · rw [putOut_blob h hmode ha hwin hsplit hbefore hnow]
      exact hcarried hmode
    · have hlen := length_of_places hnow
      have hle := putOut_le_mul h hmode ha hwin fun a => mem_arrivals hacc
      omega
  have hnone := hzero acc hacc
  rw [hloss] at hnone
  exact (inferred_ofNat_iff (by omega) hout).mp hnone

/-- A link without loss on which no tick infers loss is covered. -/
theorem covered_of_no_loss (h : FromPeer c g gs groups) (hsized : g.mode = 1 → Sized g gs)
    (ha : Arrives c gs (packets evs) (arrivals ss))
    (hwin : InWindows g gs (arrivals ss))
    (hmatch : List.Forall₂ Matches (intervals [] [] evs) (accounts [] [] ss))
    (hcount : Countable g gs evs) (hlast : ∃ loss, ss.getLast? = some (.tick loss))
    (hzero : ∀ acc ∈ accounts [] [] ss, acc.loss = 0) : Covered g gs evs := by
  refine ⟨fun hmode iv hiv => ?_, fun hmode => ?_⟩
  · obtain ⟨acc, hacc, hone⟩ := exists_left hmatch.flip iv hiv
    have hone : Matches iv acc := hone
    have hle := length_le_of_no_loss h ha hwin hcount hzero hiv hacc hone
    obtain ⟨after, hsplit⟩ := split_of_mem_accounts hacc
    rw [putOut_blob h hmode ha hwin hsplit hone.1 hone.2.1] at hle
    exact ⟨hle, (hcount iv hiv).2 hmode⟩
  · rw [(hsized hmode).plain_iff]
    refine (hsized hmode).plain_of_le ?_
    have hall : ∀ acc ∈ accounts [] [] ss, acc.now.length ≤ putOut acc.now := by
      intro acc hacc
      obtain ⟨iv, hiv, hone⟩ := exists_left hmatch acc hacc
      rw [length_of_places hone.2.1]
      exact length_le_of_no_loss h ha hwin hcount hzero hiv hacc hone
    have htotal := length_le_putOut hall hlast
    have hsent : (arrivals ss).length = (places gs).length := by
      simpa using ha.places.length_eq
    rw [List.length_nil, Nat.zero_add, putOut_nil, Nat.zero_add, hsent] at htotal
    refine htotal.trans ?_
    rw [putOut_eq_sum fun a hin => (ha.sent hin).1]
    exact Finset.sum_le_sum fun k _ => putOut_le_accepted h hmode ha hwin

end Ticks

/-- A link of which nothing is lost, whatever the peer sends and in whatever
order it comes within the windows: the timer records no loss and does not raise
the parity beyond its minimum if ratio, traffic and times are covered.  If they
are not, a tick records loss that there was not. -/
theorem no_loss_recorded {c : Code} {g par : FecParameter} {s : List Char}
    (htable : par.rsFromStr s = some g) (hmode : g.mode = 0 ∨ g.mode = 1)
    (hmds : ∀ i < g.rsCnt, (g.rsPar i).x + (g.rsPar i).y ≤ 254 →
      c.Mds (g.rsPar i).x ((g.rsPar i).x + (g.rsPar i).y))
    {seq : UInt32} {buf : Mem} {ss : List (Option Bytes)}
    (hss : ∀ p, some p ∈ ss → p.length ≤ maxDataLen) {e : FecEncodeManager}
    {os : List Sending} (hrun : run (send c g) (init g seq buf) ss = .ok (e, os))
    {evs : List ConnTimer.Event} (hps : Delivered (groupsOf {} os) (packets evs))
    (hloss : Lossless (groupsOf {} os) (packets evs))
    (hsep : Separated c (packetOf (groupsOf {} os)) (seqOf (groupsOf {} os)) [] {}
      (admitted (groupsOf {} os) (packets evs)))
    {ownStr : List Char} {own : Retune.Endpoint}
    (hown : own.adaptive = AdaptiveFec.start ownStr) :
    ∃ l seen, run (step c (packetOf (groupsOf {} os))) { endpoint := own } evs = .ok (l, seen) ∧
      (InWindows g (groupsOf {} os) (arrivals seen) →
        (Covered g (groupsOf {} os) evs →
          (∀ loss, .tick loss ∈ seen → loss = 0) ∧
            l.endpoint.adaptive.windowLost = 0 ∧
            l.endpoint.adaptive.parityShards
              ≤ max (AdaptiveFec.start ownStr).parityShards 2) ∧
        ((∃ evs' now, evs = evs' ++ [.tick now]) → Countable g (groupsOf {} os) evs →
          (∀ loss, .tick loss ∈ seen → loss = 0) → Covered g (groupsOf {} os) evs)) := by
  have hrows := rows_of_table htable
  obtain ⟨groups, hpeer⟩ := exists_fromPeer htable hmode hmds hss hrun
  have hsized := fun h1 : g.mode = 1 => sized_packets hrows h1 hss hrun
  set gs := groupsOf {} os
  -- the decoder takes what passes the checks
  have hsound : ∀ p ∈ admitted gs (packets evs),
      Sound c (packetOf gs) (fun k => taken (groups k)) p := by
    intro p hp
    obtain ⟨hin, hpass⟩ := List.mem_filter.mp hp
    exact hpeer.sound hps hin hpass
  obtain ⟨d, as, hdel⟩ := run_deliver hsound wf_init
    (by rw [numbers_taken hpeer]; exact hsep)
  obtain ⟨all, hall, hfilter, hrefused⟩ := run_passing rfl hps.short hdel
  obtain ⟨l, seen, hlink, rfl⟩ := @run_of_deliver c (packetOf gs) evs { endpoint := own } _ _ hall
  refine ⟨l, seen, hlink, fun hwin => ?_⟩
  have harr : Arrives c gs (packets evs) (arrivals seen) := by
    refine ⟨hps, hsep, ⟨d, by rw [hfilter]; exact hdel⟩, hrefused, ?_⟩
    rw [arrived_run hlink]
    exact hloss
  have hmatch : List.Forall₂ Matches (intervals [] [] evs) (accounts [] [] seen) :=
    accounts_run hlink rfl rfl (by simp) (by simp)
  refine ⟨fun hcov => ?_, fun hlast hcount hzero => ?_⟩
  · have haccounts := no_loss_of_covered hpeer hsized harr hwin hmatch hcov
    have hticks : ∀ loss, .tick loss ∈ seen → loss = 0 := by
      intro loss hin
      obtain ⟨acc, hacc, rfl⟩ := exists_account hin
      exact haccounts acc hacc
    have hstart : Quiet (AdaptiveFec.start ownStr) own.adaptive := by
      rw [hown]
      exact ⟨rfl, rfl, le_max_left _ _⟩
    have hquiet := quiet_run hlink hticks hstart
    exact ⟨hticks, hquiet.windowLost, hquiet.parity_le⟩
  · obtain ⟨evs', now, rfl⟩ := hlast
    exact covered_of_no_loss hpeer hsized harr hwin hmatch hcount (getLast_run hlink)
      fun acc hacc => hzero _ (tick_of_mem_accounts hacc)

/-! ## Two ratios without loss -/

/-- Parameters of mode 1 without redundant packets. -/
def plainTable : FecParameter where
  mode := 1
  rsCnt := 1
  rsPar := fillFirst (fun _ => ⟨0, 0⟩) ⟨1, 0⟩

/-- An endpoint that starts with the ratio `1:1`. -/
def ownEndpoint : Retune.Endpoint :=
  Retune.start (pairTable 1) 0 (fun _ => 0) "1:1".toList

/-- Without redundant packets as many packets are put out as come in. -/
theorem no_loss_recorded_plain : ∃ e os l seen,
    run (send .repetition plainTable) (init plainTable 7 fun _ => 0) [some [1, 2, 3]]
      = .ok (e, os) ∧
    Lossless (groupsOf {} os) [⟨5, 0, 0, fun _ => 0⟩] ∧
    run (step .repetition (packetOf (groupsOf {} os))) { endpoint := ownEndpoint }
      [.fec ⟨5, 0, 0, fun _ => 0⟩, .tick 1] = .ok (l, seen) ∧
    ∀ loss, .tick loss ∈ seen → loss = 0 := by
  obtain ⟨e, os, hrun, hgs⟩ : ∃ e os,
      run (send .repetition plainTable) (init plainTable 7 fun _ => 0) [some [1, 2, 3]]
        = .ok (e, os) ∧
      groupsOf {} os = [⟨[[1, 2, 3]], [[0, 0, 0, 7, 1, 0, 0, 0, 0, 3, 1, 2, 3]]⟩, {}] :=
    ⟨_, _, rfl, by decide +kernel⟩
  have hrow : ∀ i < plainTable.rsCnt, plainTable.rsPar i = ⟨1, 0⟩ := by
    intro i hi
    obtain rfl : i = 0 := Nat.lt_one_iff.mp hi
    rfl
  have htable : FecParameter.rsFromStr { mode := 1 } (Scan.printPair 1 0) = some plainTable :=
    rsFromStr_printPair _ (by decide) (by decide) (by decide)
  have hps : Delivered (groupsOf {} os) [⟨5, 0, 0, fun _ => 0⟩] := by
    rw [hgs]
    exact ⟨by simp, by simp [packetOf, maxDataLen], by simp [Clocked]⟩
  have hloss : Lossless (groupsOf {} os) [⟨5, 0, 0, fun _ => 0⟩] := by
    rw [hgs]
    decide
  have hpass : admitted (groupsOf {} os) [⟨5, 0, 0, fun _ => 0⟩] = [⟨5, 0, 0, fun _ => 0⟩] := by
    rw [hgs]
    rfl
  obtain ⟨l, seen, hlink, hiff⟩ := @no_loss_recorded .repetition plainTable _ _ htable
    (.inr rfl) (fun i hi _ => by rw [hrow i hi]; exact Code.repetition_mds 1) 7 (fun _ => 0)
    [some [1, 2, 3]] (by simp [maxDataLen]) e os hrun
    [.fec ⟨5, 0, 0, fun _ => 0⟩, .tick 1] hps hloss
    (by
      show Separated _ _ _ _ _ (admitted _ [⟨5, 0, 0, fun _ => 0⟩])
      rw [hpass]
      exact separated_of_injective (Set.injOn_singleton _ 0) (by simp) (by simp))
    "1:1".toList ownEndpoint rfl
  refine ⟨e, os, l, seen, hrun, hloss, hlink, ?_⟩
  obtain ⟨a, hone⟩ : ∃ a, arrivals seen = [a] := by
    apply List.length_eq_one_iff.mp
    simpa [ConnTimer.packets] using congrArg List.length (arrived_run hlink)
  refine ((hiff ?_).1 ?_).1
  · intro k _
    rw [hone]
    unfold passing
    by_cases hin : passes (groupsOf {} os) (Arrival.place a) = true
    · rw [List.filter_cons_of_pos (by exact hin)]
      exact ⟨fun _ => (by decide : 0 < fecBuffNum), trivial⟩
    · rw [List.filter_cons_of_neg (by exact hin)]
      trivial
  · refine ⟨fun hblob => absurd hblob (by decide), fun _ m hm => ?_⟩
    rw [hgs] at hm
    obtain rfl := List.mem_singleton.mp hm
    rfl

/-- With the ratio `1:1` a link without loss looks like one that loses half of
its packets. -/
theorem redundant_counted_as_loss : ∃ e os l seen,
    run (send .repetition (pairTable 1)) (init (pairTable 1) 7 fun _ => 0) [some [1, 2, 3]]
      = .ok (e, os) ∧
    Lossless (groupsOf {} os) [⟨5, 0, 0, fun _ => 0⟩, ⟨5, 0, 1, fun _ => 0⟩] ∧
    run (step .repetition (packetOf (groupsOf {} os))) { endpoint := ownEndpoint }
      [.fec ⟨5, 0, 0, fun _ => 0⟩, .fec ⟨5, 0, 1, fun _ => 0⟩, .tick 1] = .ok (l, seen) ∧
    .tick 1 ∈ seen := by
  obtain ⟨e, os, hrun, hgs⟩ : ∃ e os,
      run (send .repetition (pairTable 1)) (init (pairTable 1) 7 fun _ => 0)
        [some [1, 2, 3]] = .ok (e, os) ∧
      groupsOf {} os = [⟨[[1, 2, 3]],
        [[0, 0, 0, 7, 1, 0, 0, 0, 0, 3, 1, 2, 3],
          [0, 0, 0, 7, 1, 1, 1, 1, 0, 3, 1, 2, 3]]⟩, {}] :=
    ⟨_, _, rfl, by decide +kernel⟩
  obtain ⟨⟨l, seen⟩, hlink, hseen⟩ : ∃ r, run (step .repetition (packetOf (groupsOf {} os)))
      { endpoint := ownEndpoint }
      [.fec ⟨5, 0, 0, fun _ => 0⟩, .fec ⟨5, 0, 1, fun _ => 0⟩, .tick 1] = .ok r ∧
      r.2.any (fun o => match o with
        | .tick loss => decide (loss = 1)
        | .arrival _ => false) = true := by
    rw [hgs]
    exact Checked.exists_of_any (by decide +kernel)
  refine ⟨e, os, l, seen, hrun, by rw [hgs]; decide, hlink, ?_⟩
  obtain ⟨o, ho, htest⟩ := List.any_eq_true.mp hseen
  cases o with
  | arrival a => exact absurd htest (by simp)
  | tick loss =>
      obtain rfl := of_decide_eq_true htest
      exact ho

end Fecraw.Ports.LosslessLink
