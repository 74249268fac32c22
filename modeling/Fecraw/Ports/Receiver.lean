import Fecraw.Ports.DeliveryRun

/-!
# The receiver of a whole delivery

`SentGroup.received` is what a receiver of one group is for: told which
packets of the group come, in which order, it says what is output at each of
them.  It knows nothing of slots, cursors and windows.

A delivery is any list of packets of sent groups.  The receiving callback
drops what is longer than `max_data_len`, the clock does not go back, and
the packets with one number belong to one group at a time (`Separated`); the
numbers of groups repeat only after 2 ^ 32 of them.

## Main results

* `run_deliver`: no delivery aborts the decoder.
* `outputs_eq_received`: for a group that comes within the windows, the
  decoder outputs what the receiver is for.
* `distinct_of_output`: in mode 0, windows or not, nothing is output for a
  group before as many packets of it have come as it has data shards.
-/

namespace Fecraw.Ports.FecDecode

open Fecraw.Verified Fecraw.Ports.Packet Fecraw.Ports.RsTable Fecraw.Ports.BlobCodec

/-! ## The purpose of a receiver -/

namespace SentGroup

/-- What is output at each of the packets `is` of the group; the receiver
has the packets `S` already, which are not enough to decode the group. -/
def received (G : SentGroup) : List Nat → List Nat → List (List Bytes)
  | _, [] => []
  | S, i :: is =>
      if i ∈ S then [] :: received G S is
      else
        G.outputOf S i ::
          (if G.full (i :: S) then is.map fun _ => [] else received G (i :: S) is)

variable {G : SentGroup}

theorem flatten_silent (is : List Nat) :
    (is.map fun _ => ([] : List Bytes)).flatten = [] := by
  simp

/-- In mode 0 the accepted packets are output, all at once and only once, if
enough packets of the group come. -/
theorem flatten_received_blob (hmode : G.mode = 0) : ∀ {is S : List Nat}, S.Nodup →
    S.length < G.x →
    (G.received S is).flatten
      = if G.x ≤ (S ++ is).toFinset.card then G.accepted else [] := by
  intro is
  induction is with
  | nil =>
      intro S hS hfew
      rw [List.append_nil, List.toFinset_card_of_nodup hS, if_neg (by omega)]
      rfl
  | cons i is ih =>
      intro S hS hfew
      rw [received]
      split
      · next hin =>
          have hsame : (S ++ i :: is).toFinset = (S ++ is).toFinset := by
            ext j
            simp only [List.mem_toFinset, List.mem_append, List.mem_cons]
            constructor
            · rintro (h | rfl | h)
              · exact .inl h
              · exact .inl hin
              · exact .inr h
            · rintro (h | h)
              · exact .inl h
              · exact .inr (.inr h)
          rw [List.flatten_cons, List.nil_append, ih hS hfew, hsame]
      · next hnew =>
          have hnodup : (i :: S).Nodup := List.nodup_cons.mpr ⟨hnew, hS⟩
          have hsame : (S ++ i :: is).toFinset = (i :: S ++ is).toFinset := by
            ext j
            simp only [List.mem_toFinset, List.mem_append, List.mem_cons]
            tauto
          have hlen : (i :: S).length = S.length + 1 := List.length_cons
          rw [hsame, List.flatten_cons]
          unfold outputOf full
          by_cases hdec : G.decodable (i :: S)
          · have hcard : G.x ≤ (i :: S ++ is).toFinset.card := by
              have hsub : (i :: S).toFinset ⊆ (i :: S ++ is).toFinset := by
                rw [List.toFinset_append]
                exact Finset.subset_union_left
              have := Finset.card_le_card hsub
              rw [List.toFinset_card_of_nodup hnodup] at this
              exact Nat.le_trans hdec.1 this
            simp only [hdec, if_true, hmode, decide_true, flatten_silent, List.append_nil]
            rw [if_pos hcard]
          · have hfew' : (i :: S).length < G.x := by
              by_contra hge
              exact hdec ⟨by omega, .inl hmode⟩
            have hbare : ¬ G.bare i := by
              intro hb
              rw [hb.1] at hmode
              exact absurd hmode (by decide)
            simp only [hdec, hbare, if_false, decide_false, Bool.false_eq_true,
              List.nil_append]
            exact ih hnodup hfew'

/-- The receiver told by sets of packets: `Done` are those that are enough to
decode the group, and `E S i` is what packet `i` is to output after `S`. -/
structure Replies (G : SentGroup) (Done : Finset Nat → Prop)
    (E : Finset Nat → Nat → List Bytes) : Prop where
  done : ∀ {S : List Nat}, S.Nodup → (G.decodable S ↔ Done S.toFinset)
  mono : ∀ {S T : Finset Nat}, S ⊆ T → Done S → Done T
  first : ∀ {S : List Nat}, S.Nodup → ¬ G.decodable S → ∀ i,
    (if i ∈ S then [] else G.outputOf S i) = E S.toFinset i
  quiet : ∀ {S : Finset Nat} (i : Nat), Done S → E S i = []

/-- What the receiver is for, packet by packet. -/
theorem received_split {Done : Finset Nat → Prop} {E : Finset Nat → Nat → List Bytes}
    (hE : Replies G Done E) : ∀ {before S : List Nat}, S.Nodup → ¬ G.decodable S →
    ∀ i after, (G.received S (before ++ i :: after))[before.length]?
      = some (E (S ++ before).toFinset i) := by
  intro before
  induction before with
  | nil =>
      intro S hS hopen i after
      rw [List.append_nil, ← hE.first hS hopen i, List.nil_append, received]
      split <;> rfl
  | cons j before ih =>
      intro S hS hopen i after
      rw [List.cons_append, received, List.length_cons]
      by_cases hin : j ∈ S
      · rw [if_pos hin, List.getElem?_cons_succ, ih hS hopen]
        congr 2
        ext k
        simp only [List.mem_toFinset, List.mem_append, List.mem_cons]
        constructor
        · rintro (h | h)
          · exact .inl h
          · exact .inr (.inr h)
        · rintro (h | rfl | h)
          · exact .inl h
          · exact .inl hin
          · exact .inr h
      · have hnodup : (j :: S).Nodup := List.nodup_cons.mpr ⟨hin, hS⟩
        have hsame : (S ++ j :: before).toFinset = (j :: S ++ before).toFinset := by
          ext k
          simp only [List.mem_toFinset, List.mem_append, List.mem_cons]
          tauto
        rw [if_neg hin, List.getElem?_cons_succ, hsame]
        by_cases hfull : G.decodable (j :: S)
        · -- the group is decoded, and stays so
          have hsub : (j :: S).toFinset ⊆ (j :: S ++ before).toFinset := by
            rw [List.toFinset_append]
            exact Finset.subset_union_left
          rw [hE.quiet i (hE.mono hsub ((hE.done hnodup).mp hfull)),
            if_pos (by simp [full, hfull])]
          simp
        · rw [if_neg (by simp [full, hfull])]
          exact ih hnodup hfull i after

end SentGroup

/-! ## Deliveries -/

section Delivery

variable (c : Code) (packet : Nat → Nat → Bytes)

/-- At every packet, packets with its number belong to its group, or the
decoder has forgotten the number. -/
def Separated (seqOf : Nat → UInt32) :
    List (Nat × Nat) → FecDecodeManager → List Incoming → Prop
  | _, _, [] => True
  | H, d, p :: ps =>
      Apart seqOf H d p.now p.group ∧
        ∀ d' a, deliver c packet d p = .ok (d', a) →
          Separated seqOf ((p.group, p.idx) :: H) d' ps

/-- A packet of a valid group, not longer than what `bridge_recv_cb` lets
through. -/
structure Sound (groups : Nat → SentGroup) (p : Incoming) : Prop where
  valid : (groups p.group).Valid c
  idx_lt : p.idx < (groups p.group).x + (groups p.group).y
  packet_eq : packet p.group p.idx = (groups p.group).packet c p.idx
  length_le : (packet p.group p.idx).length ≤ maxDataLen

/-- The clock does not go back. -/
def Clocked (last : UInt64) (ps : List Incoming) : Prop :=
  List.IsChain (· ≤ ·) (last :: ps.map Incoming.now)

variable {c packet}

theorem clocked_cons {last : UInt64} {p : Incoming} {ps : List Incoming} :
    Clocked last (p :: ps) ↔ last ≤ p.now ∧ Clocked p.now ps := by
  unfold Clocked
  rw [List.map_cons, List.isChain_cons_cons]

/-- Groups with different numbers are never mistaken for one another. -/
theorem separated_of_injective {seqOf : Nat → UInt32} {gids : Set Nat}
    (hinj : Set.InjOn seqOf gids) : ∀ {ps : List Incoming} {H : List (Nat × Nat)}
    {d : FecDecodeManager}, (∀ p ∈ ps, p.group ∈ gids) → (∀ e ∈ H, e.1 ∈ gids) →
    Separated c packet seqOf H d ps := by
  intro ps
  induction ps with
  | nil =>
      intro H d _ _
      trivial
  | cons p ps ih =>
      intro H d hps hH
      have hp := hps p (by simp)
      refine ⟨?_, ?_⟩
      · intro gid' howner
        left
        unfold owner at howner
        obtain ⟨e, he, rfl⟩ := Option.map_eq_some_iff.mp howner
        have hseq : seqOf e.1 = seqOf p.group := by simpa using List.find?_some he
        exact hinj (hH e (List.mem_of_find?_eq_some he)) hp hseq
      · intro d' a _
        apply ih (fun q hq => hps q (List.mem_cons_of_mem _ hq))
        intro e he
        rcases List.mem_cons.mp he with rfl | he
        · exact hp
        · exact hH e he

/-! ## One packet -/

variable {groups : Nat → SentGroup}

/-- A sound packet does not abort the decoder, keeps the invariant and has
one of the four effects. -/
theorem wf_deliver {H : List (Nat × Nat)} {d : FecDecodeManager} {p : Incoming}
    (hp : Sound c packet groups p) (hwf : Wf c groups H d)
    (hapart : Apart (numbers groups) H d p.now p.group) :
    ∃ d' out, deliver c packet d p = .ok (d', ⟨d, p.now, p.group, p.idx, out, d'⟩) ∧
      Effect c (groups p.group) p.idx p.now d d' out ∧
      Wf c groups ((p.group, p.idx) :: H) d' := by
  have hlen : ((groups p.group).packet c p.idx).length + 100 < bufLen := by
    rw [← hp.packet_eq]
    have := hp.length_le
    unfold bufLen
    omega
  have htracked : ∀ g, d.mp (groups p.group).seq = some g →
      Tracked c d.fecData (groups p.group) g :=
    fun g hmp => (hwf.own_entry hapart hmp).1
  obtain ⟨d', out, hdel, heffect⟩ := input_effect hp.valid hp.idx_lt hlen hwf.antiReplay
    hwf.index_lt hwf.ready htracked p.now p.stale
  rw [← hp.packet_eq] at hdel
  exact ⟨d', out, deliver_eq_ok hdel, heffect,
    wf_effect hp.valid hp.idx_lt hwf hapart heffect⟩

/-! ## Whole deliveries -/

/-- No delivery aborts the decoder. -/
theorem run_deliver : ∀ {ps : List Incoming} {H : List (Nat × Nat)} {d : FecDecodeManager},
    (∀ p ∈ ps, Sound c packet groups p) → Wf c groups H d →
    Separated c packet (numbers groups) H d ps →
    ∃ d' as, run (deliver c packet) d ps = .ok (d', as) := by
  intro ps
  induction ps with
  | nil =>
      intro H d _ _ _
      exact ⟨d, [], rfl⟩
  | cons p ps ih =>
      intro H d hps hwf hsep
      obtain ⟨d₁, out, hdel, -, hwf₁⟩ := wf_deliver (hps p (by simp)) hwf hsep.1
      obtain ⟨d', as, hrun⟩ := ih (fun q hq => hps q (List.mem_cons_of_mem _ hq)) hwf₁
        (hsep.2 _ _ hdel)
      exact ⟨d', _, run_cons_eq_ok.mpr ⟨d₁, _, as, hdel, hrun, rfl⟩⟩

theorem deliver_place {d d' : FecDecodeManager} {p : Incoming} {a : Arrival}
    (h : deliver c packet d p = .ok (d', a)) : a.group = p.group ∧ a.idx = p.idx := by
  obtain ⟨⟨ret, d₁⟩, -, h⟩ := Checked.doBind_eq_ok.mp h
  obtain ⟨-, rfl⟩ := Prod.mk.inj (Except.ok.inj h)
  exact ⟨rfl, rfl⟩

/-- The arrivals of a delivery are its packets. -/
theorem arrived : ∀ {ps : List Incoming} {d d' : FecDecodeManager} {as : List Arrival},
    run (deliver c packet) d ps = .ok (d', as) →
    as.map (fun a => (a.group, a.idx)) = ps.map (fun p => (p.group, p.idx)) := by
  intro ps
  induction ps with
  | nil =>
      intro d d' as hrun
      obtain ⟨-, rfl⟩ := Prod.mk.inj (Except.ok.inj hrun)
      rfl
  | cons p ps ih =>
      intro d d' as hrun
      obtain ⟨d₁, a, as', hdel, hrun', rfl⟩ := run_cons_eq_ok.mp hrun
      obtain ⟨hgroup, hidx⟩ := deliver_place hdel
      rw [List.map_cons, List.map_cons, ih hrun', hgroup, hidx]

/-- The packets of a group among the arrivals. -/
def arrivalsOf (gid : Nat) (as : List Arrival) : List Arrival :=
  as.filter (fun a => decide (a.group = gid))

/-- What is output at the packets of a group. -/
def outputsOf (gid : Nat) (as : List Arrival) : List (List Bytes) :=
  (arrivalsOf gid as).map Arrival.out

/-- Which packets of a group came, in their order. -/
def indicesOf (gid : Nat) (as : List Arrival) : List Nat :=
  (arrivalsOf gid as).map Arrival.idx

theorem arrivalsOf_cons_self {gid : Nat} {a : Arrival} {as : List Arrival}
    (h : a.group = gid) : arrivalsOf gid (a :: as) = a :: arrivalsOf gid as := by
  unfold arrivalsOf
  rw [List.filter_cons_of_pos (by simpa using h)]

theorem arrivalsOf_cons_ne {gid : Nat} {a : Arrival} {as : List Arrival}
    (h : a.group ≠ gid) : arrivalsOf gid (a :: as) = arrivalsOf gid as := by
  unfold arrivalsOf
  rw [List.filter_cons_of_neg (by simpa using h)]

/-- What the receiver of a group that has come to a phase is for. -/
def Phase.received (G : SentGroup) (is : List Nat) : Phase → List (List Bytes)
  | collecting S _ => G.received S is
  | complete _ _ => is.map fun _ => []

theorem Phase.received_own (G : SentGroup) (now : UInt64) (i : Nat) (is : List Nat)
    (p : Phase) :
    p.received G (i :: is) = p.output G i :: (p.own G.full now i).received G is := by
  cases p with
  | complete t r => rfl
  | collecting S n =>
      show G.received S (i :: is) = _
      rw [SentGroup.received]
      unfold Phase.own Phase.output
      by_cases hin : i ∈ S
      · simp only [hin, if_true]
        rfl
      · simp only [hin, if_false]
        by_cases hfull : G.full (i :: S)
        · simp only [hfull, if_true]
          rfl
        · simp only [hfull, Bool.false_eq_true, if_false]
          rfl

theorem Phase.received_other (G : SentGroup) (stores recordings : Nat) (is : List Nat)
    (p : Phase) : (p.other stores recordings).received G is = p.received G is := by
  cases p <;> rfl

/-- For a group whose packets come within the windows, the decoder outputs
what the receiver is for, from any point of a delivery on. -/
theorem outputs_eq_phase {gid : Nat} : ∀ {ps : List Incoming} {H : List (Nat × Nat)}
    {d d' : FecDecodeManager} {as : List Arrival} {last : UInt64} {ph : Phase},
    (∀ p ∈ ps, Sound c packet groups p) → Wf c groups H d →
    Separated c packet (numbers groups) H d ps → Clocked last ps →
    run (deliver c packet) d ps = .ok (d', as) → Follows groups gid H last d ph →
    InWindow (groups gid).full gid ph as →
    outputsOf gid as = ph.received (groups gid) (indicesOf gid as) := by
  intro ps
  induction ps with
  | nil =>
      intro H d d' as last ph _ _ _ _ hrun _ _
      obtain ⟨-, rfl⟩ := Prod.mk.inj (Except.ok.inj hrun)
      cases ph <;> rfl
  | cons p ps ih =>
      intro H d d' as last ph hps hwf hsep hclock hrun hfollow hwin
      obtain ⟨d₁, out, hdel, heffect, hwf₁⟩ := wf_deliver (hps p (by simp)) hwf hsep.1
      obtain ⟨d₂, a, as', hdel', hrun', rfl⟩ := run_cons_eq_ok.mp hrun
      obtain ⟨rfl, rfl⟩ := Prod.mk.inj (Except.ok.inj (hdel.symm.trans hdel'))
      obtain ⟨hnow, hclock'⟩ := clocked_cons.mp hclock
      have hps' : ∀ q ∈ ps, Sound c packet groups q :=
        fun q hq => hps q (List.mem_cons_of_mem _ hq)
      have hsep' := hsep.2 _ _ hdel
      obtain ⟨hone, hrest⟩ := hwin
      by_cases hown : p.group = gid
      · subst hown
        obtain ⟨hfollow', hout⟩ := follow_own hwf hsep.1 heffect hnow hfollow (hone rfl)
        unfold Phase.step at hrest
        rw [if_pos rfl] at hrest
        have hind := ih hps' hwf₁ hsep' hclock' hrun' hfollow' hrest
        unfold outputsOf indicesOf at *
        rw [@arrivalsOf_cons_self p.group _ _ rfl, List.map_cons, List.map_cons, hind,
          Phase.received_own _ p.now]
        exact congrArg (· :: _) hout
      · have hfollow' := follow_other hown hwf hsep.1 heffect hnow hfollow
        unfold Phase.step at hrest
        rw [if_neg hown] at hrest
        have hind := ih hps' hwf₁ hsep' hclock' hrun' hfollow' hrest
        unfold outputsOf indicesOf at *
        rw [arrivalsOf_cons_ne hown, hind, Phase.received_other]

/-- For a group whose packets come within the windows, a fresh decoder
outputs what the receiver is for. -/
theorem outputs_eq_received {gid : Nat} {ps : List Incoming} {d' : FecDecodeManager}
    {as : List Arrival} (hps : ∀ p ∈ ps, Sound c packet groups p)
    (hsep : Separated c packet (numbers groups) [] {} ps) (hclock : Clocked 0 ps)
    (hrun : run (deliver c packet) {} ps = .ok (d', as))
    (hwin : InWindow (groups gid).full gid (.collecting [] 0) as) :
    outputsOf gid as = (groups gid).received [] (indicesOf gid as) := by
  have hfollow : Follows groups gid [] 0 {} (.collecting [] 0) :=
    ⟨fun _ i => by simp, fun h => absurd rfl h⟩
  exact outputs_eq_phase hps wf_init hsep hclock hrun hfollow hwin

/-- The same, packet by packet. -/
theorem out_eq_of_split {gid : Nat} {ps : List Incoming} {d' : FecDecodeManager}
    {as : List Arrival} (hps : ∀ p ∈ ps, Sound c packet groups p)
    (hsep : Separated c packet (numbers groups) [] {} ps) (hclock : Clocked 0 ps)
    (hrun : run (deliver c packet) {} ps = .ok (d', as))
    (hwin : InWindow (groups gid).full gid (.collecting [] 0) as) (hx : 0 < (groups gid).x)
    {Done : Finset Nat → Prop} {E : Finset Nat → Nat → List Bytes}
    (hE : (groups gid).Replies Done E) {before after : List Arrival} {a : Arrival}
    (hsplit : arrivalsOf gid as = before ++ a :: after) :
    a.out = E (before.map Arrival.idx).toFinset a.idx := by
  have hout := outputs_eq_received hps hsep hclock hrun hwin
  have hopen : ¬ (groups gid).decodable [] := fun h => by
    have : (groups gid).x ≤ 0 := h.1
    omega
  have hat := @SentGroup.received_split _ _ _ hE (before.map Arrival.idx) []
    List.nodup_nil hopen a.idx (after.map Arrival.idx)
  have hidx : indicesOf gid as
      = before.map Arrival.idx ++ a.idx :: after.map Arrival.idx := by
    unfold indicesOf
    rw [hsplit, List.map_append, List.map_cons]
  rw [← hidx, ← hout, List.nil_append, List.length_map] at hat
  unfold outputsOf at hat
  rw [hsplit, List.map_append, List.map_cons, List.getElem?_append_right (by simp),
    List.length_map, Nat.sub_self] at hat
  exact Option.some.inj hat

/-! ## Too few packets -/

/-- The packets of a group that came so far. -/
def seen (gid : Nat) (H : List (Nat × Nat)) : Finset Nat :=
  ((H.filter fun e => decide (e.1 = gid)).map Prod.snd).toFinset

theorem mem_seen {gid i : Nat} {H : List (Nat × Nat)} : i ∈ seen gid H ↔ (gid, i) ∈ H := by
  unfold seen
  simp

/-- A packet of a group in mode 0 that makes the decoder output something is
at least the last one that was needed. -/
theorem distinct_of_output {H : List (Nat × Nat)} {d d' : FecDecodeManager} {gid i : Nat}
    {now : UInt64} {out : List Bytes} (hwf : Wf c groups H d)
    (hapart : Apart (numbers groups) H d now gid) (hmode : (groups gid).mode = 0)
    (heffect : Effect c (groups gid) i now d d' out) (hout : out ≠ []) :
    (groups gid).x ≤ (seen gid ((gid, i) :: H)).card := by
  cases heffect with
  | ignored _ => exact absurd rfl hout
  | refused _ _ _ => exact absurd rfl hout
  | displaced _ _ _ _ => exact absurd rfl hout
  | @stored a a₁ mp₁ g _ _ hg _ hnew _ _ _ _ _ _ =>
      have hkeys : g.keys.Nodup ∧ ∀ j ∈ g.keys, (gid, j) ∈ H := by
        cases hmp : d.mp (groups gid).seq with
        | none =>
            rw [hmp, Option.getD_none] at hg
            subst hg
            exact ⟨List.nodup_nil, by simp [FecGroup.keys]⟩
        | some g₀ =>
            rw [hmp, Option.getD_some] at hg
            subst hg
            obtain ⟨htracked, hin⟩ := hwf.own_entry hapart hmp
            exact ⟨htracked.holds.nodup, hin⟩
      have hdec : (groups gid).decodable (i :: g.keys) := by
        by_contra hno
        apply hout
        unfold SentGroup.outputOf
        rw [if_neg hno, if_neg (not_bare_of_blob hmode i)]
      have hnodup : (i :: g.keys).Nodup := List.nodup_cons.mpr ⟨hnew, hkeys.1⟩
      calc (groups gid).x ≤ (i :: g.keys).length := hdec.1
        _ = (i :: g.keys).toFinset.card := (List.toFinset_card_of_nodup hnodup).symm
        _ ≤ (seen gid ((gid, i) :: H)).card := by
            apply Finset.card_le_card
            intro j hj
            rw [mem_seen]
            rcases List.mem_cons.mp (List.mem_toFinset.mp hj) with rfl | hj
            · simp
            · exact List.mem_cons_of_mem _ (hkeys.2 j hj)

/-- In mode 0 nothing is output for a group of which too few packets come,
whether or not they come within the windows. -/
theorem outputs_of_few {gid : Nat} (hmode : (groups gid).mode = 0) :
    ∀ {ps : List Incoming} {H : List (Nat × Nat)} {d d' : FecDecodeManager}
    {as : List Arrival}, (∀ p ∈ ps, Sound c packet groups p) → Wf c groups H d →
    Separated c packet (numbers groups) H d ps →
    run (deliver c packet) d ps = .ok (d', as) →
    (seen gid H ∪ (indicesOf gid as).toFinset).card < (groups gid).x →
    ∀ o ∈ outputsOf gid as, o = [] := by
  intro ps
  induction ps with
  | nil =>
      intro H d d' as _ _ _ hrun _
      obtain ⟨-, rfl⟩ := Prod.mk.inj (Except.ok.inj hrun)
      simp [outputsOf, arrivalsOf]
  | cons p ps ih =>
      intro H d d' as hps hwf hsep hrun hfew
      obtain ⟨d₁, out, hdel, heffect, hwf₁⟩ := wf_deliver (hps p (by simp)) hwf hsep.1
      obtain ⟨d₂, a, as', hdel', hrun', rfl⟩ := run_cons_eq_ok.mp hrun
      obtain ⟨rfl, rfl⟩ := Prod.mk.inj (Except.ok.inj (hdel.symm.trans hdel'))
      have hind := ih (fun q hq => hps q (List.mem_cons_of_mem _ hq)) hwf₁
        (hsep.2 _ _ hdel) hrun'
      by_cases hown : p.group = gid
      · subst hown
        unfold outputsOf indicesOf at *
        rw [@arrivalsOf_cons_self p.group _ _ rfl, List.map_cons] at hfew ⊢
        have hseen : seen p.group ((p.group, p.idx) :: H) ∪
            (((arrivalsOf p.group as').map Arrival.idx).toFinset)
              = seen p.group H ∪ (p.idx :: (arrivalsOf p.group as').map Arrival.idx).toFinset := by
          ext j
          simp only [Finset.mem_union, mem_seen, List.mem_cons, List.mem_toFinset,
            Prod.mk.injEq, true_and]
          tauto
        have hcard := hind (by rw [hseen]; exact hfew)
        intro o ho
        rcases List.mem_cons.mp ho with rfl | ho
        · by_contra hne
          have hle := distinct_of_output hwf hsep.1 hmode heffect hne
          have hsub : (seen p.group ((p.group, p.idx) :: H)).card
              ≤ (seen p.group ((p.group, p.idx) :: H) ∪
                ((arrivalsOf p.group as').map Arrival.idx).toFinset).card :=
            Finset.card_le_card Finset.subset_union_left
          rw [hseen] at hsub
          exact absurd hfew (by simp only; omega)
        · exact hcard o ho
      · have hseen : seen gid ((p.group, p.idx) :: H) = seen gid H := by
          ext j
          simp only [mem_seen, List.mem_cons, Prod.mk.injEq]
          constructor
          · rintro (⟨h, -⟩ | h)
            · exact absurd h.symm hown
            · exact h
          · exact .inr
        unfold outputsOf indicesOf at *
        rw [arrivalsOf_cons_ne hown] at hfew ⊢
        rw [hseen] at hind
        exact hind hfew

end Delivery

end Fecraw.Ports.FecDecode
