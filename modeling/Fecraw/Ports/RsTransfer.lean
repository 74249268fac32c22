import Fecraw.Ports.RsCodec
import Fecraw.Ports.Transfer

/-!
# Recovery with the Reed-Solomon code

The encoder and the decoder are proved correct over any
maximum-distance-separable code.  Here the code is the one of `lib/fec.cpp`,
and nothing is assumed of it: what is accepted into a group is output, once,
whenever as many different packets of the group come as it has data packets,
whichever they are.

## Main results

* `SentGroup.received_perm`: what a receiver outputs in mode 1, over all
  packets of a group that come.
* `recovered_of_enough`: recovery, in both modes, with the code of the source.
-/

namespace Fecraw.Ports.FecDecode.SentGroup

variable {G : SentGroup}

/-- In mode 1 the data packets that are not there yet are output, each once,
if enough packets of the group come. -/
theorem received_perm (hmode : G.mode = 1) : ∀ {is S : List Nat}, S.Nodup → ¬ G.decodable S →
    G.x ≤ (S ++ is).toFinset.card →
    (G.received S is).flatten.Perm
      (((List.range G.x).filter (· ∉ S)).map fun j => G.accepted.getD j []) := by
  intro is
  induction is with
  | nil =>
      intro S hS hopen hcard
      rw [List.append_nil, List.toFinset_card_of_nodup hS] at hcard
      -- Without a redundant packet, as many packets as data packets are all of them.
      have hdata : ∀ i ∈ S, i < G.x := by
        intro i hi
        by_contra hge
        exact hopen ⟨hcard, .inr ⟨i, hi, Nat.le_of_not_lt hge⟩⟩
      have hall : S.toFinset = Finset.range G.x := by
        apply Finset.eq_of_subset_of_card_le
        · intro i hi
          exact Finset.mem_range.mpr (hdata i (List.mem_toFinset.mp hi))
        · rw [Finset.card_range, List.toFinset_card_of_nodup hS]
          exact hcard
      have hnone : (List.range G.x).filter (· ∉ S) = [] := by
        rw [List.filter_eq_nil_iff]
        intro i hi
        have hmem : i ∈ S.toFinset := hall ▸ Finset.mem_range.mpr (List.mem_range.mp hi)
        simpa using List.mem_toFinset.mp hmem
      rw [hnone]
      exact List.Perm.refl _
  | cons i is ih =>
      intro S hS hopen hcard
      rw [received]
      split
      · next hin =>
          rw [List.flatten_cons, List.nil_append]
          apply ih hS hopen
          have hsub : (S ++ i :: is).toFinset ⊆ (S ++ is).toFinset := by
            intro j hj
            simp only [List.mem_toFinset, List.mem_append, List.mem_cons] at hj ⊢
            rcases hj with h | rfl | h
            · exact .inl h
            · exact .inl hin
            · exact .inr h
          exact hcard.trans (Finset.card_le_card hsub)
      · next hnew =>
          have hnodup : (i :: S).Nodup := List.nodup_cons.mpr ⟨hnew, hS⟩
          rw [List.flatten_cons]
          unfold outputOf full
          by_cases hdec : G.decodable (i :: S)
          · have hne : ¬ G.mode = 0 := by omega
            simp only [hdec, hne, if_true, if_false, decide_true, flatten_silent, List.append_nil]
            exact List.Perm.refl _
          · have hsame : (S ++ i :: is).toFinset = (i :: S ++ is).toFinset := by
              ext j
              simp only [List.mem_toFinset, List.mem_append, List.mem_cons]
              tauto
            rw [hsame] at hcard
            have hrest := ih hnodup hdec hcard
            simp only [hdec, if_false, decide_false, Bool.false_eq_true]
            by_cases hbare : G.bare i
            · -- A data packet is output at once, and is not among those left.
              have hsplit : ((List.range G.x).filter (· ∉ S)).Perm
                  (i :: (List.range G.x).filter (· ∉ i :: S)) := by
                apply (List.perm_ext_iff_of_nodup (List.nodup_range.filter _) ?_).mpr
                · intro j
                  simp only [List.mem_filter, List.mem_range, List.mem_cons, decide_eq_true_eq,
                    not_or]
                  constructor
                  · rintro ⟨hj, hjS⟩
                    by_cases hji : j = i
                    · exact .inl hji
                    · exact .inr ⟨hj, hji, hjS⟩
                  · rintro (rfl | ⟨hj, -, hjS⟩)
                    · exact ⟨hbare.2, hnew⟩
                    · exact ⟨hj, hjS⟩
                · refine List.nodup_cons.mpr ⟨fun hi => ?_, List.nodup_range.filter _⟩
                  simp at hi
              have hmap := hsplit.map fun j => G.accepted.getD j []
              rw [List.map_cons] at hmap
              rw [if_pos hbare]
              exact (List.Perm.cons _ hrest).trans hmap.symm
            · have hbeyond : ¬ i < G.x := fun hi => hbare ⟨hmode, hi⟩
              have heq : (List.range G.x).filter (· ∉ i :: S)
                  = (List.range G.x).filter (· ∉ S) := by
                apply List.filter_congr
                intro j hj
                have hji : j ≠ i := fun h => hbeyond (h ▸ List.mem_range.mp hj)
                simp [hji]
              rw [if_neg hbare, List.nil_append, ← heq]
              exact hrest

end Fecraw.Ports.FecDecode.SentGroup

namespace Fecraw.Ports.Transfer

open Fecraw.Verified Fecraw.Ports.Packet Fecraw.Ports.RsTable Fecraw.Ports.BlobCodec
open Fecraw.Ports.FecEncode Fecraw.Ports.FecDecode FecEncodeManager Fecraw.Ports.FecLib

variable {g : FecParameter}

/-- The code of the source is maximum-distance-separable for every row of a
table the encoder can be given. -/
theorem mds_of_sums {par : FecParameter} {s : List Char} (htable : par.rsFromStr s = some g)
    (hsum : ∀ i < g.rsCnt, (g.rsPar i).x + (g.rsPar i).y ≤ 254) :
    ∀ i < g.rsCnt, i + 1 + (g.rsPar i).y ≤ 254 ∧
      rsCode.Mds (i + 1) (i + 1 + (g.rsPar i).y) := by
  intro i hi
  have hx := rsFromStr_x htable i hi
  have := hsum i hi
  exact ⟨by omega, rsCode_mds (by omega) (by omega) (by omega)⟩

/-- The number of data packets of a group: on its packets in mode 0, one for
each accepted packet in mode 1. -/
def dataPackets (g : FecParameter) (gs : List Emitted) (k : Nat) : Nat :=
  if g.mode = 0 then dataNumOf gs k else (gs.getD k {}).accepted.length

/-- The packets `S` are enough to decode a group of `x` data packets. -/
def enough (g : FecParameter) (x : Nat) (S : List Nat) : Bool :=
  decide (x ≤ S.length ∧ (g.mode = 0 ∨ ∃ i ∈ S, x ≤ i))

/-- **Recovery with the Reed-Solomon code of the source**: in any delivery, a
group of which enough different packets come within the windows is output
whole, and no packet twice. -/
theorem recovered_of_enough {par : FecParameter} {s : List Char}
    (htable : par.rsFromStr s = some g) (hmode : g.mode = 0 ∨ g.mode = 1)
    (hsum : ∀ i < g.rsCnt, (g.rsPar i).x + (g.rsPar i).y ≤ 254)
    {seq : UInt32} {buf : Mem} {ss : List (Option Bytes)}
    (hss : ∀ p, some p ∈ ss → p.length ≤ maxDataLen) {e : FecEncodeManager}
    {os : List Sending} (hrun : run (send rsCode g) (init g seq buf) ss = .ok (e, os))
    {ps : List Incoming} (hps : Delivered (groupsOf {} os) ps)
    (hsep : Separated rsCode (packetOf (groupsOf {} os)) (seqOf (groupsOf {} os)) [] {} ps) :
    ∃ d as, run (deliver rsCode (packetOf (groupsOf {} os))) {} ps = .ok (d, as) ∧
      ∀ k, ((groupsOf {} os).getD k {}).packets ≠ [] →
        InWindow (enough g (dataPackets g (groupsOf {} os) k)) k (.collecting [] 0) as →
        dataPackets g (groupsOf {} os) k ≤ (indicesOf k as).toFinset.card →
        (outputsOf k as).flatten.Perm ((groupsOf {} os).getD k {}).accepted := by
  have hrows := rows_of_table htable
  have hmds := mds_of_sums htable hsum
  set gs := groupsOf {} os with hgs
  rcases hmode with hmode | hmode
  · obtain ⟨groups, hnumbers, hsent⟩ := exists_groups (run_groups_blob hrows hmode hrun)
    have hsound := sound_of_delivered hsent hmds hps
    rw [← hnumbers] at hsep
    obtain ⟨d, as, hdel⟩ := run_deliver hsound wf_init hsep
    refine ⟨d, as, hdel, ?_⟩
    intro k hne hwin hcard
    have hG := hsent k hne
    have hx : dataPackets g gs k = (groups k).x := by
      unfold dataPackets dataNumOf packetOf
      rw [if_pos hmode, (getD_packets hG (List.length_pos_iff.mpr hne)).2]
      exact dataNum_packet hG.shaped (not_bare_of_blob hG.mode_eq 0)
    rw [hx] at hwin hcard
    have hfull : (groups k).full = enough g (groups k).x := by
      funext S
      unfold SentGroup.full SentGroup.decodable SentGroup.known enough
      simp [hG.mode_eq, hmode]
    rw [← hfull] at hwin
    rw [outputs_eq_received hsound hsep hps.clock hdel hwin,
      SentGroup.flatten_received_blob hG.mode_eq List.nodup_nil hG.shaped.x_pos,
      List.nil_append, if_pos hcard, hG.accepted]
  · obtain ⟨groups, hnumbers, hsent⟩ := exists_groups (run_groups_packets hrows hmode hss hrun)
    have hsound := sound_of_delivered hsent hmds hps
    rw [← hnumbers] at hsep
    obtain ⟨d, as, hdel⟩ := run_deliver hsound wf_init hsep
    refine ⟨d, as, hdel, ?_⟩
    intro k hne hwin hcard
    have hG := hsent k hne
    have hlen : (groups k).accepted.length = (groups k).x := hG.shaped.length_accepted hG.mode_eq
    have hx : dataPackets g gs k = (groups k).x := by
      unfold dataPackets
      rw [if_neg (by omega), ← hG.accepted, hlen]
    rw [hx] at hwin hcard
    have hfull : (groups k).full = enough g (groups k).x := by
      funext S
      unfold SentGroup.full SentGroup.decodable SentGroup.known enough
      simp [hG.mode_eq, hmode]
    rw [← hfull] at hwin
    have hopen : ¬ (groups k).decodable [] := by
      intro h
      have := h.1
      have := hG.shaped.x_pos
      simp only [List.length_nil] at *
      omega
    have hperm := SentGroup.received_perm hG.mode_eq List.nodup_nil hopen
      (by rwa [List.nil_append] : (groups k).x ≤ ([] ++ indicesOf k as).toFinset.card)
    have hwhole : (((List.range (groups k).x).filter (· ∉ ([] : List Nat))).map fun j =>
        (groups k).accepted.getD j []) = (groups k).accepted := by
      rw [List.filter_eq_self.mpr (by simp), ← hlen]
      apply List.ext_getElem
      · simp
      · intro j h1 h2
        simp [h2]
    rw [outputs_eq_received hsound hsep hps.clock hdel hwin, ← hG.accepted]
    rwa [hwhole] at hperm

/-- The redundant packet alone gives the packet back. -/
theorem recovered_of_enough_redundant : ∃ e os d as,
    run (send rsCode (pairTable 1)) (init (pairTable 1) 7 fun _ => 0) [some [1, 2, 3]]
      = .ok (e, os) ∧
    run (deliver rsCode (packetOf (groupsOf {} os))) {} [⟨5, 0, 1, fun _ => 0⟩]
      = .ok (d, as) ∧
    (outputsOf 0 as).flatten.Perm [[1, 2, 3]] := by
  obtain ⟨e, os, hrun, hcount, hshort, hacc⟩ : ∃ e os,
      run (send rsCode (pairTable 1)) (init (pairTable 1) 7 fun _ => 0)
        [some [1, 2, 3]] = .ok (e, os) ∧
      ((groupsOf {} os).getD 0 {}).packets.length = 2 ∧
      (packetOf (groupsOf {} os) 0 1).length = 13 ∧
      ((groupsOf {} os).getD 0 {}).accepted = [[1, 2, 3]] :=
    ⟨_, _, rfl, by decide +kernel, by decide +kernel, by decide +kernel⟩
  have hps : Delivered (groupsOf {} os) [⟨5, 0, 1, fun _ => 0⟩] := by
    refine ⟨?_, ?_, by simp [Clocked]⟩
    · intro p hp
      obtain rfl := List.mem_singleton.mp hp
      exact hcount ▸ (by decide : 1 < 2)
    · intro p hp
      obtain rfl := List.mem_singleton.mp hp
      exact hshort ▸ (by decide : 13 ≤ maxDataLen)
  have hsep : Separated rsCode (packetOf (groupsOf {} os)) (seqOf (groupsOf {} os)) [] {}
      [⟨5, 0, 1, fun _ => 0⟩] :=
    separated_of_injective (Set.injOn_singleton _ 0) (by simp) (by simp)
  have htable : FecParameter.rsFromStr { mode := 1 } (Scan.printPair 1 1) = some (pairTable 1) :=
    rsFromStr_printPair _ (by decide) (by decide) (by decide)
  have hsum : ∀ i < (pairTable 1).rsCnt,
      ((pairTable 1).rsPar i).x + ((pairTable 1).rsPar i).y ≤ 254 := by
    intro i hi
    obtain rfl : i = 0 := Nat.lt_one_iff.mp hi
    decide
  obtain ⟨d, as, hdel, hout⟩ := recovered_of_enough htable (.inr rfl) hsum
    (by simp [maxDataLen]) hrun hps hsep
  have harrived := arrived hdel
  obtain ⟨a, rfl⟩ : ∃ a, as = [a] := by
    apply List.length_eq_one_iff.mp
    simpa using congrArg List.length harrived
  simp only [List.map_cons, List.map_nil, List.cons.injEq, and_true, Prod.mk.injEq] at harrived
  have harrivals : arrivalsOf 0 [a] = [a] := arrivalsOf_cons_self harrived.1
  have hx : dataPackets (pairTable 1) (groupsOf {} os) 0 = 1 := by
    unfold dataPackets
    rw [if_neg (by decide), hacc]
    rfl
  refine ⟨e, os, d, [a], hrun, hdel, ?_⟩
  rw [← hacc]
  apply hout 0
  · exact List.ne_nil_of_length_pos (by omega)
  · exact ⟨fun _ => (by decide : 0 < fecBuffNum), trivial⟩
  · rw [hx]
    simp [indicesOf, harrivals]

end Fecraw.Ports.Transfer
