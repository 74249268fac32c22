import Fecraw.Ports.EncodeRun

/-!
# From the encoder to the decoder

Whole runs of an encoder, and any delivery of what it sent to a fresh
decoder: in any order, with loss, duplication and interleaving of groups.
Packets are named by the number of their group in the run and their place
among the packets sent for it.

## Main results

* `blob_transfer`: in mode 0 the decoder outputs exactly the packets that
  were accepted into a group, once and in order, if enough packets of the
  group come within the windows, and nothing if too few come.
* `packet_transfer`: in mode 1 a data packet is output when it comes; when
  the group can be decoded the rest of it is output; nothing is output
  twice.
-/

namespace Fecraw.Ports.Transfer

open Fecraw.Verified Fecraw.Ports.Packet Fecraw.Ports.RsTable Fecraw.Ports.BlobCodec
open Fecraw.Ports.FecEncode Fecraw.Ports.FecDecode FecEncodeManager

/-- Packet `i` of those sent for group `k`. -/
def packetOf (gs : List Emitted) (k i : Nat) : Bytes := (gs.getD k {}).packets.getD i []

/-- The sequence number on the packets of group `k`. -/
def seqOf (gs : List Emitted) (k : Nat) : UInt32 := UInt32.ofNat (readU32 (packetOf gs k 0))

/-- `data_num` on the packets of group `k`. -/
def dataNumOf (gs : List Emitted) (k : Nat) : Nat := ((packetOf gs k 0).getD 5 0).toNat

/-- What comes was sent, is not longer than `bridge_recv_cb` lets through,
and comes by a clock that does not go back. -/
structure Delivered (gs : List Emitted) (ps : List Incoming) : Prop where
  sent : ∀ p ∈ ps, p.idx < (gs.getD p.group {}).packets.length
  short : ∀ p ∈ ps, (packetOf gs p.group p.idx).length ≤ maxDataLen
  clock : Clocked 0 ps

section Transfer

variable {c : Code} {g : FecParameter} {gs : List Emitted}

theorem getD_packets {mode : Nat} {m : Emitted} {G : SentGroup}
    (h : SentAs c g mode m G) {i : Nat} (hi : i < m.packets.length) :
    i < G.x + G.y ∧ m.packets.getD i [] = G.packet c i := by
  have hlen : m.packets.length = G.x + G.y := by
    rw [h.packets]
    simp
  refine ⟨by omega, ?_⟩
  rw [List.getD_eq_getElem _ _ hi]
  simp [h.packets]

theorem seq_packet (G : SentGroup) (i : Nat) :
    UInt32.ofNat (readU32 (G.packet c i)) = G.seq := by
  unfold SentGroup.packet packetHeader
  rw [List.append_assoc]
  exact ofNat_readU32_writeU32 G.seq _

theorem dataNum_packet {G : SentGroup} (hG : G.Shaped) {i : Nat} (hi : ¬ G.bare i) :
    ((G.packet c i).getD 5 0).toNat = G.x := by
  have hle := hG.x_le
  unfold SentGroup.packet
  rw [if_neg hi, if_neg hi]
  show (UInt8.ofNat G.x).toNat = G.x
  rw [UInt8.toNat_ofNat', Nat.mod_eq_of_lt (by omega)]

/-- Where every group of a run carries a valid group, these make a family
with the numbers that are on the packets. -/
theorem exists_groups {mode : Nat} {f : Nat → UInt32}
    (hgs : ∀ k m, gs[k]? = some m → Carries c g mode (f k) m) :
    ∃ groups : Nat → SentGroup, numbers groups = seqOf gs ∧
      ∀ k, (gs.getD k {}).packets ≠ [] → SentAs c g mode (gs.getD k {}) (groups k) := by
  have hone : ∀ k, ∃ G : SentGroup, G.seq = seqOf gs k ∧
      ((gs.getD k {}).packets ≠ [] → SentAs c g mode (gs.getD k {}) G) := by
    intro k
    by_cases hne : (gs.getD k {}).packets = []
    · exact ⟨⟨seqOf gs k, 0, 0, 0, 0, [], []⟩, rfl, fun h => absurd hne h⟩
    · have hk : gs[k]? = some (gs.getD k {}) := by
        cases hget : gs[k]? with
        | none =>
            rw [List.getD_eq_getElem?_getD, hget] at hne
            exact absurd rfl hne
        | some m => rw [List.getD_eq_getElem?_getD, hget, Option.getD_some]
      obtain ⟨G, -, hsent⟩ := hgs k _ hk hne
      refine ⟨G, ?_, fun _ => hsent⟩
      have hfirst := (getD_packets hsent (List.length_pos_iff.mpr hne)).2
      unfold seqOf packetOf
      rw [hfirst, seq_packet]
  choose groups hseq hsent using hone
  exact ⟨groups, funext hseq, hsent⟩

theorem sound_of_delivered {mode : Nat} {groups : Nat → SentGroup} {ps : List Incoming}
    (hsent : ∀ k, (gs.getD k {}).packets ≠ [] → SentAs c g mode (gs.getD k {}) (groups k))
    (hmds : ∀ i < g.rsCnt, i + 1 + (g.rsPar i).y ≤ 254 ∧ c.Mds (i + 1) (i + 1 + (g.rsPar i).y))
    (hps : Delivered gs ps) : ∀ p ∈ ps, Sound c (packetOf gs) groups p := by
  intro p hp
  have hidx := hps.sent p hp
  have hG := hsent p.group (List.ne_nil_of_length_pos (by omega))
  obtain ⟨hlt, hpacket⟩ := getD_packets hG hidx
  have hrow : (groups p.group).mode = 0 ∨ 0 < (groups p.group).y → ∃ i < g.rsCnt,
      (groups p.group).x = i + 1 ∧ (groups p.group).y = (g.rsPar i).y := by
    rw [hG.mode_eq]
    exact hG.row
  refine ⟨⟨hG.shaped, fun h => ?_, fun h => ?_⟩, hlt, hpacket, hps.short p hp⟩
  · obtain ⟨i, hi, hx, hy⟩ := hrow h
    rw [hx, hy]
    exact Nat.lt_succ_of_le (hmds i hi).1
  · obtain ⟨i, hi, hx, hy⟩ := hrow h
    rw [hx, hy]
    exact (hmds i hi).2

theorem rows_of_table {par : FecParameter} {s : List Char}
    (htable : par.rsFromStr s = some g) : Rows g :=
  ⟨rsFromStr_x htable, rsFromStr_rsCnt_le htable⟩

theorem mds_of_table {par : FecParameter} {s : List Char} (htable : par.rsFromStr s = some g)
    (hsum : ∀ i < g.rsCnt, (g.rsPar i).x + (g.rsPar i).y ≤ 254)
    (hmds : ∀ i < g.rsCnt, c.Mds (g.rsPar i).x ((g.rsPar i).x + (g.rsPar i).y)) :
    ∀ i < g.rsCnt, i + 1 + (g.rsPar i).y ≤ 254 ∧ c.Mds (i + 1) (i + 1 + (g.rsPar i).y) := by
  intro i hi
  rw [← rsFromStr_x htable i hi]
  exact ⟨hsum i hi, hmds i hi⟩

/-! ## Mode 0 -/

/-- Blob mode recovers what was accepted. -/
theorem blob_transfer {par : FecParameter} {s : List Char}
    (htable : par.rsFromStr s = some g) (hmode : g.mode = 0)
    (hsum : ∀ i < g.rsCnt, (g.rsPar i).x + (g.rsPar i).y ≤ 254)
    (hmds : ∀ i < g.rsCnt, c.Mds (g.rsPar i).x ((g.rsPar i).x + (g.rsPar i).y))
    {seq : UInt32} {buf : Mem} {ss : List (Option Bytes)} {e : FecEncodeManager}
    {os : List Sending} (hrun : run (send c g) (init g seq buf) ss = .ok (e, os))
    {ps : List Incoming} (hps : Delivered (groupsOf {} os) ps)
    (hsep : Separated c (packetOf (groupsOf {} os)) (seqOf (groupsOf {} os)) [] {} ps) :
    ∃ d as, run (deliver c (packetOf (groupsOf {} os))) {} ps = .ok (d, as) ∧
      ∀ k, ((groupsOf {} os).getD k {}).packets ≠ [] →
        let x := dataNumOf (groupsOf {} os) k
        let distinct := (indicesOf k as).toFinset.card
        (x ≤ distinct →
          InWindow (fun S => decide (x ≤ S.length)) k (.collecting [] 0) as →
          (outputsOf k as).flatten = ((groupsOf {} os).getD k {}).accepted) ∧
        (distinct < x → (outputsOf k as).flatten = []) := by
  have hrows := rows_of_table htable
  set gs := groupsOf {} os with hgs
  obtain ⟨groups, hnumbers, hsent⟩ := exists_groups (run_groups_blob hrows hmode hrun)
  have hsound := sound_of_delivered hsent (mds_of_table htable hsum hmds) hps
  rw [← hnumbers] at hsep
  obtain ⟨d, as, hdel⟩ := run_deliver hsound wf_init hsep
  refine ⟨d, as, hdel, ?_⟩
  intro k hne
  have hG := hsent k hne
  have hpos := hG.shaped.x_pos
  have hdata : dataNumOf gs k = (groups k).x := by
    unfold dataNumOf packetOf
    rw [(getD_packets hG (List.length_pos_iff.mpr hne)).2]
    exact dataNum_packet hG.shaped (not_bare_of_blob hG.mode_eq 0)
  dsimp only
  rw [hdata]
  constructor
  · intro henough hwin
    have hfull : (groups k).full = fun S => decide ((groups k).x ≤ S.length) := by
      funext S
      unfold SentGroup.full SentGroup.decodable SentGroup.known
      simp [hG.mode_eq]
    rw [← hfull] at hwin
    rw [outputs_eq_received hsound hsep hps.clock hdel hwin,
      SentGroup.flatten_received_blob hG.mode_eq List.nodup_nil hpos,
      List.nil_append, if_pos henough, hG.accepted]
  · intro hfew
    have hnone := outputs_of_few hG.mode_eq hsound wf_init hsep hdel (by simpa [seen] using hfew)
    exact List.flatten_eq_nil_iff.mpr hnone

/-- A table with one redundant packet for every packet. -/
def pairTable (mode : Int) : FecParameter where
  mode := mode
  rsCnt := 1
  rsPar := fillFirst (fun _ => ⟨0, 0⟩) ⟨1, 1⟩

private theorem pairTable_rows (mode : Int) (i : Nat) (hi : i < (pairTable mode).rsCnt) :
    (pairTable mode).rsPar i = ⟨1, 1⟩ := by
  obtain rfl : i = 0 := Nat.lt_one_iff.mp hi
  rfl

private theorem pairTable_accepted (mode : Int) :
    FecParameter.rsFromStr { mode := mode } (Scan.printPair 1 1) = some (pairTable mode) :=
  rsFromStr_printPair _ (by decide) (by decide) (by decide)

private theorem pairTable_sum (mode : Int) : ∀ i < (pairTable mode).rsCnt,
    ((pairTable mode).rsPar i).x + ((pairTable mode).rsPar i).y ≤ 254 := by
  intro i hi
  rw [pairTable_rows mode i hi]
  decide

private theorem pairTable_mds (mode : Int) : ∀ i < (pairTable mode).rsCnt,
    Code.repetition.Mds ((pairTable mode).rsPar i).x
      (((pairTable mode).rsPar i).x + ((pairTable mode).rsPar i).y) := by
  intro i hi
  rw [pairTable_rows mode i hi]
  exact Code.repetition_mds 2

/-- A delivery of packet 1 of group 0 alone. -/
private theorem arrivals_single {packet : Nat → Nat → Bytes} {now : UInt64} {stale : Mem}
    {d d' : FecDecodeManager} {as : List Arrival}
    (h : run (deliver c packet) d [⟨now, 0, 1, stale⟩] = .ok (d', as)) :
    ∃ a, as = [a] ∧ a.idx = 1 ∧ arrivalsOf 0 as = [a] := by
  have harrived := arrived h
  obtain ⟨a, rfl⟩ : ∃ a, as = [a] := by
    apply List.length_eq_one_iff.mp
    simpa using congrArg List.length harrived
  simp only [List.map_cons, List.map_nil, List.cons.injEq, and_true, Prod.mk.injEq]
    at harrived
  exact ⟨a, rfl, harrived.2, arrivalsOf_cons_self harrived.1⟩

/-- One packet, flushed; its redundant packet alone gives it back. -/
theorem blob_transfer_sample : ∃ e os d as,
    run (send .repetition (pairTable 0)) (init (pairTable 0) 7 fun _ => 0)
      [some [1, 2, 3], none] = .ok (e, os) ∧
    run (deliver .repetition (packetOf (groupsOf {} os))) {} [⟨5, 0, 1, fun _ => 0⟩]
      = .ok (d, as) ∧
    (outputsOf 0 as).flatten = [[1, 2, 3]] := by
  obtain ⟨e, os, hrun, hgs⟩ : ∃ e os,
      run (send .repetition (pairTable 0)) (init (pairTable 0) 7 fun _ => 0)
        [some [1, 2, 3], none] = .ok (e, os) ∧
      groupsOf {} os = [⟨[[1, 2, 3]],
        [[0, 0, 0, 7, 0, 1, 1, 0, 0, 0, 0, 1, 0, 3, 1, 2, 3],
          [0, 0, 0, 7, 0, 1, 1, 1, 0, 0, 0, 1, 0, 3, 1, 2, 3]]⟩, {}] :=
    ⟨_, _, rfl, by decide +kernel⟩
  have hps : Delivered (groupsOf {} os) [⟨5, 0, 1, fun _ => 0⟩] := by
    rw [hgs]
    exact ⟨by simp, by simp [packetOf, maxDataLen], by simp [Clocked]⟩
  have hsep : Separated .repetition (packetOf (groupsOf {} os)) (seqOf (groupsOf {} os)) [] {}
      [⟨5, 0, 1, fun _ => 0⟩] :=
    separated_of_injective (Set.injOn_singleton _ 0) (by simp) (by simp)
  obtain ⟨d, as, hdel, hout⟩ := blob_transfer (pairTable_accepted 0) rfl (pairTable_sum 0)
    (pairTable_mds 0) hrun hps hsep
  refine ⟨e, os, d, as, hrun, hdel, ?_⟩
  obtain ⟨a, rfl, hidx, harrivals⟩ := arrivals_single hdel
  have hzero := (hout 0 (by rw [hgs]; decide)).1
  rw [hgs] at hzero
  apply hzero
  · simp [indicesOf, harrivals, dataNumOf, packetOf]
  · exact ⟨fun _ => (by decide : 0 < fecBuffNum), trivial⟩

/-! ## Mode 1 -/

/-- As many packets as the group has data packets, with a redundant one. -/
def Complete (n : Nat) (S : Finset Nat) : Prop := n ≤ S.card ∧ ∃ i ∈ S, n ≤ i

instance (n : Nat) (S : Finset Nat) : Decidable (Complete n S) := by
  unfold Complete
  infer_instance

/-- What packet `i` of a group is to make the decoder output after the
packets `S` have come. -/
def expected (accepted : List Bytes) (S : Finset Nat) (i : Nat) : List Bytes :=
  if Complete accepted.length S ∨ i ∈ S then []
  else if Complete accepted.length (insert i S) then
    ((List.range accepted.length).filter (· ∉ S)).map fun j => accepted.getD j []
  else if i < accepted.length then [accepted.getD i []]
  else []

theorem Complete.mono {n : Nat} {S T : Finset Nat} (h : Complete n S) (hST : S ⊆ T) :
    Complete n T := by
  obtain ⟨hcard, i, hi, hn⟩ := h
  exact ⟨Nat.le_trans hcard (Finset.card_le_card hST), i, hST hi, hn⟩

section Received

variable {G : SentGroup} (hmode : G.mode = 1) (hlen : G.accepted.length = G.x)
include hmode

theorem decodable_iff {S : List Nat} (hS : S.Nodup) :
    G.decodable S ↔ Complete G.x S.toFinset := by
  unfold SentGroup.decodable SentGroup.known Complete
  rw [List.toFinset_card_of_nodup hS]
  simp [hmode]

include hlen

/-- The first packet after `S`. -/
theorem output_eq_expected {S : List Nat} (hS : S.Nodup) (hopen : ¬ G.decodable S) (i : Nat) :
    (if i ∈ S then [] else G.outputOf S i) = expected G.accepted S.toFinset i := by
  unfold expected
  simp only [hlen, ← decodable_iff hmode hS]
  by_cases hin : i ∈ S
  · rw [if_pos hin, if_pos (.inr (List.mem_toFinset.mpr hin))]
  · have hnodup : (i :: S).Nodup := List.nodup_cons.mpr ⟨hin, hS⟩
    rw [if_neg hin, if_neg (by simp [hopen, hin])]
    simp only [← List.toFinset_cons, ← decodable_iff hmode hnodup]
    unfold SentGroup.outputOf SentGroup.bare
    simp [hmode]

theorem replies_packet : G.Replies (Complete G.x) (expected G.accepted) where
  done := decodable_iff hmode
  mono := fun hST hS => hS.mono hST
  first := fun hS hopen i => output_eq_expected hmode hlen hS hopen i
  quiet := fun i hS => by
    rw [← hlen] at hS
    exact if_pos (.inl hS)

omit hlen in
/-- The receiver outputs no data packet twice. -/
theorem received_once : ∀ {is S : List Nat}, ∃ js : List Nat,
    (G.received S is).flatten = js.map (fun j => G.accepted.getD j []) ∧ js.Nodup ∧
      ∀ j ∈ js, j < G.x ∧ j ∉ S := by
  intro is
  induction is with
  | nil =>
      intro S
      exact ⟨[], rfl, List.nodup_nil, by simp⟩
  | cons i is ih =>
      intro S
      rw [SentGroup.received]
      by_cases hin : i ∈ S
      · obtain ⟨js, hjs, hnodup, hlt⟩ := ih (S := S)
        exact ⟨js, by rw [if_pos hin, List.flatten_cons, hjs, List.nil_append], hnodup, hlt⟩
      · rw [if_neg hin, List.flatten_cons]
        unfold SentGroup.outputOf SentGroup.full
        by_cases hdec : G.decodable (i :: S)
        · refine ⟨(List.range G.x).filter (· ∉ S), ?_, List.nodup_range.filter _, ?_⟩
          · simp [hdec, hmode]
          · intro j hj
            simpa using hj
        · obtain ⟨js, hjs, hnodup, hlt⟩ := ih (S := i :: S)
          simp only [hdec, if_false, decide_false, Bool.false_eq_true, hjs]
          by_cases hbare : G.bare i
          · refine ⟨i :: js, by simp [hbare], ?_, ?_⟩
            · refine List.nodup_cons.mpr ⟨fun hi => ?_, hnodup⟩
              exact (hlt i hi).2 (by simp)
            · intro j hj
              rcases List.mem_cons.mp hj with rfl | hj
              · exact ⟨hbare.2, hin⟩
              · exact ⟨(hlt j hj).1, fun h => (hlt j hj).2 (List.mem_cons_of_mem _ h)⟩
          · refine ⟨js, by simp [hbare], hnodup, fun j hj => ⟨(hlt j hj).1, fun h => ?_⟩⟩
            exact (hlt j hj).2 (List.mem_cons_of_mem _ h)

end Received

/-- Mode 1 delivers every packet once. -/
theorem packet_transfer {par : FecParameter} {s : List Char}
    (htable : par.rsFromStr s = some g) (hmode : g.mode = 1)
    (hsum : ∀ i < g.rsCnt, (g.rsPar i).x + (g.rsPar i).y ≤ 254)
    (hmds : ∀ i < g.rsCnt, c.Mds (g.rsPar i).x ((g.rsPar i).x + (g.rsPar i).y))
    {seq : UInt32} {buf : Mem} {ss : List (Option Bytes)}
    (hss : ∀ p, some p ∈ ss → p.length ≤ maxDataLen) {e : FecEncodeManager}
    {os : List Sending} (hrun : run (send c g) (init g seq buf) ss = .ok (e, os))
    {ps : List Incoming} (hps : Delivered (groupsOf {} os) ps)
    (hsep : Separated c (packetOf (groupsOf {} os)) (seqOf (groupsOf {} os)) [] {} ps) :
    ∃ d as, run (deliver c (packetOf (groupsOf {} os))) {} ps = .ok (d, as) ∧
      ∀ k, ((groupsOf {} os).getD k {}).packets ≠ [] →
        let accepted := ((groupsOf {} os).getD k {}).accepted
        InWindow (fun S => decide (accepted.length ≤ S.length ∧ ∃ i ∈ S, accepted.length ≤ i))
          k (.collecting [] 0) as →
        (∀ before a after, arrivalsOf k as = before ++ a :: after →
          a.out = expected accepted (before.map Arrival.idx).toFinset a.idx) ∧
        ∃ js : List Nat, (outputsOf k as).flatten = js.map (fun j => accepted.getD j []) ∧
          js.Nodup ∧ ∀ j ∈ js, j < accepted.length := by
  have hrows := rows_of_table htable
  set gs := groupsOf {} os with hgs
  obtain ⟨groups, hnumbers, hsent⟩ :=
    exists_groups (run_groups_packets hrows hmode hss hrun)
  have hsound := sound_of_delivered hsent (mds_of_table htable hsum hmds) hps
  rw [← hnumbers] at hsep
  obtain ⟨d, as, hdel⟩ := run_deliver hsound wf_init hsep
  refine ⟨d, as, hdel, ?_⟩
  intro k hne
  have hG := hsent k hne
  have hpos := hG.shaped.x_pos
  have hlen : (groups k).accepted.length = (groups k).x := hG.shaped.length_accepted hG.mode_eq
  dsimp only
  rw [← hG.accepted]
  intro hwin
  have hfull : (groups k).full = fun S => decide ((groups k).accepted.length ≤ S.length ∧
      ∃ i ∈ S, (groups k).accepted.length ≤ i) := by
    funext S
    unfold SentGroup.full SentGroup.decodable SentGroup.known
    simp [hG.mode_eq, hlen]
  rw [← hfull] at hwin
  constructor
  · intro before a after hsplit
    exact out_eq_of_split hsound hsep hps.clock hdel hwin hpos
      (replies_packet hG.mode_eq hlen) hsplit
  · obtain ⟨js, hjs, hnodup, hlt⟩ :=
      @received_once (groups k) hG.mode_eq (indicesOf k as) []
    have hout := outputs_eq_received hsound hsep hps.clock hdel hwin
    refine ⟨js, by rw [hout]; exact hjs, hnodup, fun j hj => ?_⟩
    rw [hlen]
    exact (hlt j hj).1

/-- The redundant packet that is sent with a packet gives it back. -/
theorem packet_transfer_sample : ∃ e os d a,
    run (send .repetition (pairTable 1)) (init (pairTable 1) 7 fun _ => 0) [some [1, 2, 3]]
      = .ok (e, os) ∧
    run (deliver .repetition (packetOf (groupsOf {} os))) {} [⟨5, 0, 1, fun _ => 0⟩]
      = .ok (d, [a]) ∧
    a.out = [[1, 2, 3]] := by
  obtain ⟨e, os, hrun, hgs⟩ : ∃ e os,
      run (send .repetition (pairTable 1)) (init (pairTable 1) 7 fun _ => 0)
        [some [1, 2, 3]] = .ok (e, os) ∧
      groupsOf {} os = [⟨[[1, 2, 3]],
        [[0, 0, 0, 7, 1, 0, 0, 0, 0, 3, 1, 2, 3],
          [0, 0, 0, 7, 1, 1, 1, 1, 0, 3, 1, 2, 3]]⟩, {}] :=
    ⟨_, _, rfl, by decide +kernel⟩
  have hps : Delivered (groupsOf {} os) [⟨5, 0, 1, fun _ => 0⟩] := by
    rw [hgs]
    exact ⟨by simp, by simp [packetOf, maxDataLen], by simp [Clocked]⟩
  have hsep : Separated .repetition (packetOf (groupsOf {} os)) (seqOf (groupsOf {} os)) [] {}
      [⟨5, 0, 1, fun _ => 0⟩] :=
    separated_of_injective (Set.injOn_singleton _ 0) (by simp) (by simp)
  obtain ⟨d, as, hdel, hout⟩ := packet_transfer (pairTable_accepted 1) rfl (pairTable_sum 1)
    (pairTable_mds 1) (by simp [maxDataLen]) hrun hps hsep
  obtain ⟨a, rfl, hidx, harrivals⟩ := arrivals_single hdel
  refine ⟨e, os, d, a, hrun, hdel, ?_⟩
  have hzero := hout 0 (by rw [hgs]; decide)
  rw [hgs] at hzero
  have hfirst := (hzero ⟨fun _ => (by decide : 0 < fecBuffNum), trivial⟩).1 [] a [] harrivals
  rw [hidx] at hfirst
  rw [hfirst]
  decide

end Transfer

end Fecraw.Ports.Transfer
