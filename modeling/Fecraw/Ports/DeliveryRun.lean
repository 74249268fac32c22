import Fecraw.Ports.Delivery

/-!
# Whole deliveries

Any sequence of packets of valid groups, at any times, fed to a decoder.
`Wf` is the invariant: the decoder holds only packets of sent groups, each
under the number of the group that was last delivered with that number.

A group is followed through a delivery by `Phase`: nothing of it has come
yet, some packets are in their slots, or it is decoded and its number is in
the anti-replay window.  `InWindow` says that its packets come while the
slots are not reused and, once it is decoded, while its number is
remembered.

## Main results

* `wf_deliver`: one packet never aborts the decoder and keeps `Wf`.
* `follow_deliver`: what one packet does to the phase of a group, its own or
  another one.
-/

namespace Fecraw.Ports.FecDecode

open Fecraw.Verified Fecraw.Ports.Packet Fecraw.Ports.RsTable Fecraw.Ports.BlobCodec
open SentGroup

/-- One packet on its way: when it comes, and which packet of which group it
is. -/
structure Incoming where
  now : UInt64
  group : Nat
  idx : Nat
  stale : Mem

/-- What was seen of one packet's arrival. -/
structure Arrival where
  before : FecDecodeManager
  now : UInt64
  group : Nat
  idx : Nat
  out : List Bytes
  after : FecDecodeManager

namespace Arrival

/-- How many packets were stored. -/
def stores (a : Arrival) : Nat := Ring.writes fecBuffNum a.before.index a.after.index

/-- How many numbers were recorded in the anti-replay window. -/
def recordings (a : Arrival) : Nat :=
  Ring.writes antiReplayBuffSize a.before.antiReplay.index a.after.antiReplay.index

end Arrival

/-- `from_fec_to_normal` on one packet: `input`, then `output`. -/
def deliver (c : Code) (packet : Nat → Nat → Bytes) (d : FecDecodeManager) (p : Incoming) :
    Checked (FecDecodeManager × Arrival) := do
  let (_, d₁) ← d.input c p.now p.stale (packet p.group p.idx)
  let (d', out) := d₁.output
  return (d', ⟨d, p.now, p.group, p.idx, out, d'⟩)

theorem deliver_eq_ok {c : Code} {packet : Nat → Nat → Bytes} {d d' : FecDecodeManager}
    {p : Incoming} {out : List Bytes}
    (h : Delivers c d p.now p.stale (packet p.group p.idx) d' out) :
    deliver c packet d p = .ok (d', ⟨d, p.now, p.group, p.idx, out, d'⟩) := by
  obtain ⟨ret, d₁, hin, hout⟩ := h
  unfold deliver
  rw [hin]
  simp only [Checked.ok_bind, hout]
  rfl

/-! ## The invariant -/

section Invariant

variable (c : Code) (groups : Nat → SentGroup)

/-- The group whose packet was the last to come with a number, for groups
with the numbers `seqOf`; the most recent packet is first in `H`. -/
def owner (seqOf : Nat → UInt32) (H : List (Nat × Nat)) (seq : UInt32) : Option Nat :=
  (H.find? fun p => seqOf p.1 = seq).map Prod.fst

/-- The numbers of sent groups. -/
abbrev numbers (groups : Nat → SentGroup) (gid : Nat) : UInt32 := (groups gid).seq

/-- The decoder knows nothing of a number. -/
def Forgotten (d : FecDecodeManager) (now : UInt64) (seq : UInt32) : Prop :=
  d.mp seq = none ∧
    (∀ k < fecBuffNum, (d.fecData k).used = true → (d.fecData k).seq ≠ seq) ∧
    d.antiReplay.Valid now seq

/-- The decoder holds only packets of the sent groups that came so far. -/
structure Wf (H : List (Nat × Nat)) (d : FecDecodeManager) : Prop where
  index_lt : d.index < fecBuffNum
  ready : d.readyForOutput = false
  antiReplay : d.antiReplay.Wf
  entry : ∀ seq g, d.mp seq = some g → ∃ gid, owner (numbers groups) H seq = some gid ∧
    Tracked c d.fecData (groups gid) g ∧ ∀ i ∈ g.keys, (gid, i) ∈ H
  used : ∀ k, (d.fecData k).used = true →
    k < fecBuffNum ∧ owner (numbers groups) H (d.fecData k).seq ≠ none
  recorded : ∀ seq, d.antiReplay.mp seq ≠ none → owner (numbers groups) H seq ≠ none

variable {c groups}

theorem owner_cons (seqOf : Nat → UInt32) (gid i : Nat) (H : List (Nat × Nat))
    (seq : UInt32) :
    owner seqOf ((gid, i) :: H) seq
      = if seqOf gid = seq then some gid else owner seqOf H seq := by
  unfold owner
  rw [List.find?_cons]
  split
  · next h => simp [of_decide_eq_true h]
  · next h => simp [of_decide_eq_false h]

theorem owner_cons_self (gid i : Nat) (H : List (Nat × Nat)) :
    owner (numbers groups) ((gid, i) :: H) (groups gid).seq = some gid := by
  rw [owner_cons, if_pos rfl]

theorem owner_cons_ne {gid i : Nat} {H : List (Nat × Nat)} {seq : UInt32}
    (h : owner (numbers groups) H seq ≠ none) :
    owner (numbers groups) ((gid, i) :: H) seq ≠ none := by
  rw [owner_cons]
  split
  · simp
  · exact h

theorem seq_of_owner {H : List (Nat × Nat)} {seq : UInt32} {gid : Nat}
    (h : owner (numbers groups) H seq = some gid) : (groups gid).seq = seq := by
  unfold owner at h
  obtain ⟨p, hp, rfl⟩ := Option.map_eq_some_iff.mp h
  simpa using List.find?_some hp

theorem wf_init : Wf c groups [] {} where
  index_lt := by decide
  ready := rfl
  antiReplay := AntiReplay.wf_init
  entry := by simp
  used := by simp
  recorded := by simp

/-- Packets with one number belong to one group, unless the decoder has
forgotten the number. -/
def Apart (seqOf : Nat → UInt32) (H : List (Nat × Nat)) (d : FecDecodeManager)
    (now : UInt64) (gid : Nat) : Prop :=
  ∀ gid', owner seqOf H (seqOf gid) = some gid' →
    gid' = gid ∨ Forgotten d now (seqOf gid)

/-- The decoder's entry for a packet's number is for the packet's group. -/
theorem Wf.own_entry {H : List (Nat × Nat)} {d : FecDecodeManager} {now : UInt64}
    {gid : Nat} (hwf : Wf c groups H d) (hapart : Apart (numbers groups) H d now gid) {g : FecGroup}
    (hmp : d.mp (groups gid).seq = some g) :
    Tracked c d.fecData (groups gid) g ∧ ∀ i ∈ g.keys, (gid, i) ∈ H := by
  obtain ⟨gid', howner, htracked, hkeys⟩ := hwf.entry _ _ hmp
  rcases hapart gid' howner with rfl | hforgot
  · exact ⟨htracked, hkeys⟩
  · rw [hforgot.1] at hmp
    exact absurd hmp (by simp)

/-! ## One packet keeps the invariant -/

/-- An overwritten slot that a group does not use makes no difference to it. -/
theorem Holds.update_slot {slots : Nat → FecData} {G : SentGroup} {g : FecGroup} {k : Nat}
    {v : FecData} (h : Holds c slots G g) (hfree : ∀ e ∈ g.groupMp, e.2 ≠ k) :
    Holds c (Function.update slots k v) G g := by
  refine ⟨h.type, h.nodup, h.index_lt, ?_, h.numbers, h.no_numbers⟩
  intro e he
  rw [Function.update_of_ne (hfree e he)]
  exact h.slot e he

theorem Holds.set_fecDone {slots : Nat → FecData} {G : SentGroup} {g : FecGroup}
    (h : Holds c slots G g) (b : Bool) : Holds c slots G { g with fecDone := b } :=
  ⟨h.type, h.nodup, h.index_lt, h.slot, h.numbers, h.no_numbers⟩

/-- The numbers that a packet of `G` can put into the anti-replay window. -/
def touched (d : FecDecodeManager) (G : SentGroup) : Set UInt32 :=
  {seq | seq = G.seq ∨ ((d.fecData d.index).used = true ∧ (d.fecData d.index).seq = seq)}

/-- What a packet's effect does to the anti-replay window. -/
theorem Effect.evolves {G : SentGroup} {i : Nat} {now : UInt64} {d d' : FecDecodeManager}
    {out : List Bytes} (hwf : d.antiReplay.Wf) (h : Effect c G i now d d' out) :
    ∃ n ≤ 2, AntiReplay.Evolves now (touched d G) d.antiReplay d'.antiReplay n := by
  have hself : G.seq ∈ touched d G := .inl rfl
  cases h with
  | ignored _ => exact ⟨0, by omega, .refl hwf⟩
  | refused hvalid _ _ => exact ⟨0, by omega, AntiReplay.evolves_isVaild hwf hvalid⟩
  | displaced hvalid _ _ hold =>
      have hfirst := AntiReplay.evolves_isVaild (L := touched d G) hwf hvalid
      obtain ⟨n, hn, hsecond⟩ := AntiReplay.evolves_setInvaild hfirst.wf hself hold
      exact ⟨0 + n, by omega, hfirst.trans hsecond⟩
  | @stored a a₁ mp₁ g _ hvalid _ _ _ hroom _ _ _ _ hanti =>
      have hfirst := AntiReplay.evolves_isVaild (L := touched d G) hwf hvalid
      have hsecond : ∃ n ≤ 1, AntiReplay.Evolves now (touched d G) a a₁ n := by
        cases hroom with
        | free _ => exact ⟨0, by omega, .refl hfirst.wf⟩
        | other hused _ hold =>
            exact AntiReplay.evolves_setInvaild hfirst.wf (.inr ⟨hused, rfl⟩) hold
      obtain ⟨n, hn, hsecond⟩ := hsecond
      split at hanti
      · obtain ⟨m, hm, hthird⟩ := AntiReplay.evolves_setInvaild hsecond.wf hself hanti
        exact ⟨0 + n + m, by omega, (hfirst.trans hsecond).trans hthird⟩
      · rw [hanti]
        exact ⟨0 + n, by omega, hfirst.trans hsecond⟩

/-- The groups after room was made are among those before, and none of them
uses the slot at the cursor. -/
theorem Recycled.keeps {d : FecDecodeManager} {now : UInt64} {seq : UInt32}
    {a a₁ : AntiReplay} {mp₁ : UInt32 → Option FecGroup}
    (h : Recycled d now seq a a₁ mp₁) {s : UInt32} {g : FecGroup} (hmp : mp₁ s = some g) :
    d.mp s = some g ∧
      ¬ ((d.fecData d.index).used = true ∧ (d.fecData d.index).seq = s) := by
  cases h with
  | free hfree => exact ⟨hmp, fun hu => absurd (hfree.symm.trans hu.1) (by simp)⟩
  | other hused hne hold =>
      by_cases hs : s = (d.fecData d.index).seq
      · rw [hs, Function.update_self] at hmp
        exact absurd hmp (by simp)
      · rw [Function.update_of_ne hs] at hmp
        exact ⟨hmp, fun hu => hs hu.2.symm⟩

private theorem wf_recorded {H : List (Nat × Nat)} {d d' : FecDecodeManager} {gid i : Nat}
    {now : UInt64} {out : List Bytes} (hwf : Wf c groups H d)
    (heffect : Effect c (groups gid) i now d d' out) :
    ∀ seq, d'.antiReplay.mp seq ≠ none → owner (numbers groups) ((gid, i) :: H) seq ≠ none := by
  intro seq hin
  obtain ⟨n, -, hev⟩ := heffect.evolves hwf.antiReplay
  by_cases hold : d.antiReplay.mp seq = none
  · have htouched : seq ∈ touched d (groups gid) := by
      by_contra hnot
      exact hin (hev.absent seq hnot hold)
    rcases htouched with rfl | ⟨hused, rfl⟩
    · rw [owner_cons_self]
      simp
    · exact owner_cons_ne (hwf.used _ hused).2
  · exact owner_cons_ne (hwf.recorded seq hold)

/-- A packet of a valid group keeps the invariant. -/
theorem wf_effect {H : List (Nat × Nat)} {d d' : FecDecodeManager} {gid i : Nat}
    {now : UInt64} {out : List Bytes} (hG : (groups gid).Valid c)
    (hi : i < (groups gid).x + (groups gid).y) (hwf : Wf c groups H d)
    (hapart : Apart (numbers groups) H d now gid)
    (heffect : Effect c (groups gid) i now d d' out) :
    Wf c groups ((gid, i) :: H) d' := by
  have hrecorded := wf_recorded hwf heffect
  have hanti : d'.antiReplay.Wf := by
    obtain ⟨n, -, hev⟩ := heffect.evolves hwf.antiReplay
    exact hev.wf
  -- entries that were there before, for any number
  have hentry : ∀ seq g, d.mp seq = some g → ∃ gid',
      owner (numbers groups) ((gid, i) :: H) seq = some gid' ∧ Tracked c d.fecData (groups gid') g ∧
        ∀ j ∈ g.keys, (gid', j) ∈ (gid, i) :: H := by
    intro seq g hmp
    by_cases hseq : (groups gid).seq = seq
    · subst hseq
      obtain ⟨htracked, hkeys⟩ := hwf.own_entry hapart hmp
      exact ⟨gid, owner_cons_self _ _ _, htracked,
        fun j hj => List.mem_cons_of_mem _ (hkeys j hj)⟩
    · obtain ⟨gid', howner, htracked, hkeys⟩ := hwf.entry seq g hmp
      exact ⟨gid', by rw [owner_cons, if_neg hseq]; exact howner, htracked,
        fun j hj => List.mem_cons_of_mem _ (hkeys j hj)⟩
  have hused : ∀ k, (d.fecData k).used = true →
      k < fecBuffNum ∧ owner (numbers groups) ((gid, i) :: H) (d.fecData k).seq ≠ none :=
    fun k hk => ⟨(hwf.used k hk).1, owner_cons_ne (hwf.used k hk).2⟩
  cases heffect with
  | ignored _ => exact ⟨hwf.index_lt, hwf.ready, hanti, hentry, hused, hrecorded⟩
  | refused _ _ _ => exact ⟨hwf.index_lt, hwf.ready, hanti, hentry, hused, hrecorded⟩
  | displaced _ _ _ _ =>
      refine ⟨hwf.index_lt, hwf.ready, hanti, ?_, hused, hrecorded⟩
      intro seq g hmp
      by_cases hseq : seq = (groups gid).seq
      · subst hseq
        simp at hmp
      · simp only [Function.update_of_ne hseq] at hmp
        exact hentry seq g hmp
  | @stored a a₁ mp₁ g _ hvalid hg hopen hnew hroom hslots hindex hready hmp' _ =>
      refine ⟨?_, hready, hanti, ?_, ?_, hrecorded⟩
      · rw [hindex]
        exact Ring.next_lt hwf.index_lt
      · intro seq g' hmp
        rw [hmp'] at hmp
        by_cases hseq : seq = (groups gid).seq
        · subst hseq
          rw [Function.update_self] at hmp
          obtain rfl := Option.some.inj hmp
          have hpart : Partial c d.fecData (groups gid) g ∧
              ∀ j ∈ g.keys, (gid, j) ∈ H := by
            cases hmpd : d.mp (groups gid).seq with
            | none =>
                rw [hmpd, Option.getD_none] at hg
                subst hg
                exact ⟨.inl rfl, by simp [FecGroup.keys]⟩
            | some g₀ =>
                rw [hmpd, Option.getD_some] at hg
                subst hg
                obtain ⟨htracked, hkeys⟩ := hwf.own_entry hapart hmpd
                exact ⟨.inr htracked.holds, hkeys⟩
          have hheld := hroom.holds_entered hG hpart.1 hi hnew hwf.index_lt
          refine ⟨gid, owner_cons_self _ _ _, ⟨?_, ?_⟩, ?_⟩
          · rw [hslots]
            exact hheld.set_fecDone _
          · intro hdone
            exact of_decide_eq_false hdone
          · intro j hj
            rcases List.mem_cons.mp hj with rfl | hj
            · simp
            · exact List.mem_cons_of_mem _ (hpart.2 j hj)
        · rw [Function.update_of_ne hseq] at hmp
          obtain ⟨hmp, hfree⟩ := hroom.keeps hmp
          obtain ⟨gid', howner, htracked, hkeys⟩ := hentry seq g' hmp
          refine ⟨gid', howner, ⟨?_, htracked.open_⟩, hkeys⟩
          rw [hslots]
          apply htracked.holds.update_slot
          intro e he heq
          obtain ⟨-, hu, hs, -⟩ := htracked.holds.slot e he
          rw [heq] at hu hs
          exact hfree ⟨hu, hs.trans (seq_of_owner howner)⟩
      · intro k hk
        rw [hslots] at hk ⊢
        by_cases hki : k = d.index
        · subst hki
          rw [Function.update_self]
          refine ⟨hwf.index_lt, ?_⟩
          show owner (numbers groups) _ (groups gid).seq ≠ none
          rw [owner_cons_self]
          simp
        · rw [Function.update_of_ne hki] at hk ⊢
          exact hused k hk

end Invariant

/-! ## Following one group -/

/-- The packets `S` of a group are enough to decode it. -/
def SentGroup.full (G : SentGroup) (S : List Nat) : Bool := decide (G.decodable S)

/-- How far a group has come. -/
inductive Phase where
  /-- The packets `S` are there, the first of them for `n` stores. -/
  | collecting (S : List Nat) (n : Nat)
  /-- The group was decoded at time `t`; `r` numbers were recorded since. -/
  | complete (t : UInt64) (r : Nat)

namespace Phase

variable (full : List Nat → Bool) (gid : Nat)

/-- The phase after a packet of the group itself; `full` tells when the
packets of the group are enough. -/
def own (now : UInt64) (i : Nat) : Phase → Phase
  | collecting S n =>
      if i ∈ S then collecting S n
      else if full (i :: S) then complete now 0
      else collecting (i :: S) (n + 1)
  | complete t r => complete t r

/-- The phase after a packet of another group. -/
def other (stores recordings : Nat) : Phase → Phase
  | collecting S n => collecting S (if S = [] then 0 else n + stores)
  | complete t r => complete t (r + recordings)

/-- The phase after an arrival. -/
def step (a : Arrival) (p : Phase) : Phase :=
  if a.group = gid then p.own full a.now a.idx else p.other a.stores a.recordings

/-- A packet of the group comes while its slots are not reused or, once it is
decoded, while its number is remembered. -/
def inWindow (now : UInt64) : Phase → Prop
  | collecting _ n => n < fecBuffNum
  | complete t r => now - t ≤ antiReplayTimeout ∧ r < antiReplayBuffSize

/-- What a receiver outputs for packet `i` of `G` in this phase. -/
def output (G : SentGroup) (i : Nat) : Phase → List Bytes
  | collecting S _ => if i ∈ S then [] else G.outputOf S i
  | complete _ _ => []

end Phase

/-- All packets of a group come within the windows of the decoder. -/
def InWindow (full : List Nat → Bool) (gid : Nat) : Phase → List Arrival → Prop
  | _, [] => True
  | p, a :: as =>
      (a.group = gid → p.inWindow a.now) ∧ InWindow full gid (p.step full gid a) as

section Gathering

variable {c : Code} {groups : Nat → SentGroup} {d d' : FecDecodeManager} {seq : UInt32}

/-- The decoder is collecting the packets `S` of a group, the oldest of them
stored at most `n` stores ago. -/
structure Gathering (d : FecDecodeManager) (seq : UInt32) (S : List Nat) (n : Nat) :
    Prop where
  open_ : ((d.mp seq).getD {}).fecDone = false
  keys : ((d.mp seq).getD {}).keys = S
  young : ∀ e ∈ ((d.mp seq).getD {}).groupMp,
    e.2 < fecBuffNum ∧ ∃ j, 0 < j ∧ j ≤ n ∧ Ring.Ago fecBuffNum d.index e.2 j
  slots : ∀ k, (d.fecData k).used = true → (d.fecData k).seq = seq →
    ∃ e ∈ ((d.mp seq).getD {}).groupMp, e.2 = k

/-- While the slots are not reused, the one at the cursor is not the group's. -/
theorem Gathering.cursor_free {S : List Nat} {n : Nat} (h : Gathering d seq S n)
    (hn : n < fecBuffNum) :
    ¬ ((d.fecData d.index).used = true ∧ (d.fecData d.index).seq = seq) := by
  rintro ⟨hused, hseq⟩
  obtain ⟨e, he, hk⟩ := h.slots _ hused hseq
  obtain ⟨hlt, j, hpos, hj, hago⟩ := h.young e he
  exact hago.ne_cursor hlt hpos (by omega) hk

/-- A decoder that has forgotten a number has nothing of its group. -/
theorem gathering_of_forgotten {H : List (Nat × Nat)} {now : UInt64}
    (hwf : Wf c groups H d) (h : Forgotten d now seq) : Gathering d seq [] 0 := by
  obtain ⟨hmp, hslots, -⟩ := h
  refine ⟨?_, ?_, ?_, ?_⟩
  · rw [hmp]
    rfl
  · rw [hmp]
    rfl
  · rw [hmp]
    simp
  · intro k hused hseq
    exact absurd hseq (hslots k (hwf.used k hused).1 hused)

/-- Making room for a packet of the group leaves its number alone. -/
private theorem absent_recycled {now : UInt64} {a a₁ : AntiReplay}
    {mp₁ : UInt32 → Option FecGroup} (hwf : d.antiReplay.Wf)
    (hvalid : d.antiReplay.isVaild now seq = (true, a))
    (hroom : Recycled d now seq a a₁ mp₁) : a₁.Wf ∧ a₁.mp seq = none ∧ mp₁ seq = d.mp seq := by
  have hok : d.antiReplay.Valid now seq := by
    by_contra hno
    rw [AntiReplay.isVaild_of_not_valid hno] at hvalid
    exact absurd hvalid (by simp)
  obtain ⟨a', hisv, hwfa, -, hmp⟩ := AntiReplay.isVaild_of_valid hwf hok
  obtain rfl : a' = a := (Prod.mk.inj (hisv.symm.trans hvalid)).2
  have hnone : a'.mp seq = none := by rw [hmp, Function.update_self]
  cases hroom with
  | free _ => exact ⟨hwfa, hnone, rfl⟩
  | other hused hne hold =>
      obtain ⟨n, -, hev⟩ := AntiReplay.evolves_setInvaild hwfa
        (Set.mem_singleton (d.fecData d.index).seq) hold
      exact ⟨hev.wf, hev.absent seq (fun h => hne h.symm) hnone,
        Function.update_of_ne (Ne.symm hne) _ _⟩

/-- A packet of a group that is being collected is a duplicate, or is stored
and makes the decoder output what a receiver is for. -/
theorem Gathering.own_packet {G : SentGroup} {S : List Nat} {n i : Nat} {now : UInt64}
    {out : List Bytes} (h : Gathering d G.seq S n) (hn : n < fecBuffNum)
    (hwf : d.antiReplay.Wf) (hindex : d.index < fecBuffNum)
    (hvalid : d.antiReplay.Valid now G.seq) (heffect : Effect c G i now d d' out) :
    (i ∈ S ∧ out = [] ∧ Gathering d' G.seq S n ∧ d'.antiReplay.mp G.seq = none ∧
        d'.mp G.seq = d.mp G.seq) ∨
      (i ∉ S ∧ out = G.outputOf S i ∧
        if G.decodable (i :: S) then d'.antiReplay.Remembered G.seq now 0
        else Gathering d' G.seq (i :: S) (n + 1) ∧ d'.antiReplay.mp G.seq = none ∧
          d'.mp G.seq ≠ none) := by
  cases heffect with
  | ignored hold => exact absurd hvalid hold
  | @refused g a hisv hmp hno =>
      left
      have hg : (d.mp G.seq).getD {} = g := by rw [hmp, Option.getD_some]
      have hin : i ∈ S := by
        rcases hno with hdone | hin
        · have := h.open_
          rw [hg, hdone] at this
          exact absurd this (by simp)
        · rw [← h.keys, hg]
          exact hin
      obtain ⟨a', hisv', -, -, hmpa⟩ := AntiReplay.isVaild_of_valid hwf hvalid
      obtain rfl : a' = a := (Prod.mk.inj (hisv'.symm.trans hisv)).2
      refine ⟨hin, rfl, ⟨h.open_, h.keys, h.young, h.slots⟩, ?_, rfl⟩
      show a'.mp G.seq = none
      rw [hmpa, Function.update_self]
  | displaced _ hused hown _ => exact absurd ⟨hused, hown⟩ (h.cursor_free hn)
  | @stored a a₁ mp₁ g _ hisv hg hopen hnew hroom hslots hidx hready hmp' hanti =>
      right
      obtain ⟨hwfa, hnone, -⟩ := absent_recycled hwf hisv hroom
      have hkeys : g.keys = S := by rw [← hg]; exact h.keys
      rw [hkeys] at hnew hmp' hanti
      refine ⟨hnew, by rw [hkeys], ?_⟩
      split
      · next hdec =>
          rw [if_pos hdec] at hanti
          apply AntiReplay.remembered_setInvaild hwfa _ hanti
          intro info hinfo
          rw [hnone] at hinfo
          exact absurd hinfo (by simp)
      · next hdec =>
          rw [if_neg hdec] at hanti
          have hentry : d'.mp G.seq = some { entered G g i d.index with fecDone := false } := by
            rw [hmp', Function.update_self]
            simp [hdec]
          have hyoung := h.young
          have hslot := h.slots
          rw [hg] at hyoung hslot
          refine ⟨⟨?_, ?_, ?_, ?_⟩, by rw [hanti]; exact hnone, by rw [hentry]; simp⟩
          · rw [hentry]
            rfl
          · rw [hentry]
            show i :: g.keys = i :: S
            rw [hkeys]
          · rw [hentry, hidx]
            intro e he
            rcases List.mem_cons.mp he with rfl | he
            · exact ⟨hindex, 1, by omega, by omega, Ring.ago_self hindex⟩
            · obtain ⟨hlt, j, hpos, hj, hago⟩ := hyoung e he
              exact ⟨hlt, j + 1, by omega, by omega, hago.next hindex⟩
          · rw [hentry, hslots]
            intro k hused hseq
            by_cases hk : k = d.index
            · exact ⟨(i, d.index), by simp [entered], hk.symm⟩
            · rw [Function.update_of_ne hk] at hused hseq
              obtain ⟨e, he, hek⟩ := hslot k hused hseq
              exact ⟨e, List.mem_cons_of_mem _ he, hek⟩

theorem Gathering.mono {S : List Nat} {n m : Nat} (h : Gathering d seq S n) (hnm : n ≤ m) :
    Gathering d seq S m := by
  refine ⟨h.open_, h.keys, ?_, h.slots⟩
  intro e he
  obtain ⟨hlt, j, hpos, hj, hago⟩ := h.young e he
  exact ⟨hlt, j, hpos, by omega, hago⟩

/-- A packet of another group leaves a group alone whose slots are not
reused. -/
theorem Gathering.other_packet {G : SentGroup} {S : List Nat} {n i : Nat} {now : UInt64}
    {out : List Bytes} (h : Gathering d seq S n) (hn : n < fecBuffNum)
    (hne : G.seq ≠ seq) (hwf : d.antiReplay.Wf) (hindex : d.index < fecBuffNum)
    (hnone : d.antiReplay.mp seq = none) (heffect : Effect c G i now d d' out) :
    Gathering d' seq S (n + Ring.writes fecBuffNum d.index d'.index) ∧
      d'.antiReplay.mp seq = none ∧ d'.mp seq = d.mp seq := by
  have hcursor := h.cursor_free hn
  have hnone' : d'.antiReplay.mp seq = none := by
    obtain ⟨k, -, hev⟩ := heffect.evolves hwf
    apply hev.absent seq _ hnone
    rintro (heq | hslot)
    · exact hne heq.symm
    · exact hcursor hslot
  refine ⟨?_, hnone', ?_⟩
  · cases heffect with
    | ignored _ =>
        rw [Ring.writes_self]
        exact h
    | refused _ _ _ =>
        rw [Ring.writes_self]
        exact ⟨h.open_, h.keys, h.young, h.slots⟩
    | displaced _ _ _ _ =>
        rw [Ring.writes_self]
        have hmp : Function.update d.mp G.seq none seq = d.mp seq :=
          Function.update_of_ne (Ne.symm hne) _ _
        exact ⟨by simp only [hmp]; exact h.open_, by simp only [hmp]; exact h.keys,
          by simp only [hmp]; exact h.young, by simp only [hmp]; exact h.slots⟩
    | @stored a a₁ mp₁ g _ _ _ _ _ hroom hslots hidx _ hmp' _ =>
        have hmp : d'.mp seq = d.mp seq := by
          rw [hmp', Function.update_of_ne (Ne.symm hne)]
          cases hroom with
          | free _ => rfl
          | other hused _ _ =>
              exact Function.update_of_ne (fun heq => hcursor ⟨hused, heq.symm⟩) _ _
        rw [hidx, Ring.writes_next (by decide)]
        refine ⟨by rw [hmp]; exact h.open_, by rw [hmp]; exact h.keys, ?_, ?_⟩
        · rw [hmp, hidx]
          intro e he
          obtain ⟨hlt, j, hpos, hj, hago⟩ := h.young e he
          exact ⟨hlt, j + 1, by omega, by omega, hago.next hindex⟩
        · rw [hmp, hslots]
          intro k hused hseq
          by_cases hk : k = d.index
          · subst hk
            rw [Function.update_self] at hseq
            exact absurd hseq hne
          · rw [Function.update_of_ne hk] at hused hseq
            exact h.slots k hused hseq
  · cases heffect with
    | ignored _ => rfl
    | refused _ _ _ => rfl
    | displaced _ _ _ _ => exact Function.update_of_ne (Ne.symm hne) _ _
    | @stored a a₁ mp₁ g _ _ _ _ _ hroom _ _ _ hmp' _ =>
        rw [hmp', Function.update_of_ne (Ne.symm hne)]
        cases hroom with
        | free _ => rfl
        | other hused _ _ =>
            exact Function.update_of_ne (fun heq => hcursor ⟨hused, heq.symm⟩) _ _

end Gathering

/-! ## The phase is right -/

section Follow

variable {c : Code} {groups : Nat → SentGroup}

/-- The decoder is in the state that the phase of a group says, as long as
the group is within the windows. -/
def Follows (groups : Nat → SentGroup) (gid : Nat) (H : List (Nat × Nat)) (last : UInt64)
    (d : FecDecodeManager) : Phase → Prop
  | .collecting S n =>
      (S = [] → ∀ i, (gid, i) ∉ H) ∧
      (S ≠ [] → n < fecBuffNum → owner (numbers groups) H (groups gid).seq = some gid ∧
        Gathering d (groups gid).seq S n ∧ d.antiReplay.mp (groups gid).seq = none ∧
        d.mp (groups gid).seq ≠ none)
  | .complete t r =>
      t ≤ last ∧ (r < antiReplayBuffSize → last - t ≤ antiReplayTimeout →
        owner (numbers groups) H (groups gid).seq = some gid ∧
        d.antiReplay.Remembered (groups gid).seq t r)

private theorem young_of_le {t last now : UInt64} (ht : t ≤ last) (hlast : last ≤ now)
    (h : now - t ≤ antiReplayTimeout) : last - t ≤ antiReplayTimeout := by
  rw [UInt64.le_iff_toNat_le] at *
  rw [UInt64.toNat_sub_of_le _ _ (UInt64.le_iff_toNat_le.mpr (by omega))] at h
  rw [UInt64.toNat_sub_of_le _ _ (UInt64.le_iff_toNat_le.mpr ht)]
  omega

theorem mem_of_owner {H : List (Nat × Nat)} {seq : UInt32} {gid : Nat}
    (h : owner (numbers groups) H seq = some gid) : ∃ i, (gid, i) ∈ H := by
  unfold owner at h
  obtain ⟨p, hp, rfl⟩ := Option.map_eq_some_iff.mp h
  exact ⟨p.2, List.mem_of_find?_eq_some hp⟩

/-- When the first packet of a group comes, the decoder knows nothing of its
number. -/
theorem forgotten_of_new {H : List (Nat × Nat)} {d : FecDecodeManager} {now : UInt64}
    {gid : Nat} (hwf : Wf c groups H d) (hapart : Apart (numbers groups) H d now gid)
    (hnew : ∀ i, (gid, i) ∉ H) : Forgotten d now (groups gid).seq := by
  cases howner : owner (numbers groups) H (groups gid).seq with
  | some gid' =>
      rcases hapart gid' howner with rfl | hforgot
      · obtain ⟨i, hi⟩ := mem_of_owner howner
        exact absurd hi (hnew i)
      · exact hforgot
  | none =>
      refine ⟨?_, ?_, ?_⟩
      · cases hmp : d.mp (groups gid).seq with
        | none => rfl
        | some g =>
            obtain ⟨gid', hown, -⟩ := hwf.entry _ _ hmp
            rw [howner] at hown
            exact absurd hown (by simp)
      · intro k _ hused hseq
        exact (hwf.used k hused).2 (by rw [hseq]; exact howner)
      · intro info hinfo
        exact absurd howner (hwf.recorded _ (by rw [hinfo]; simp))

private theorem recordings_eq {i : Nat} {n : Nat} (hn : n ≤ 2) :
    Ring.writes antiReplayBuffSize i ((Ring.next antiReplayBuffSize)^[n] i) = n := by
  interval_cases n
  · exact Ring.writes_self _ _
  · exact Ring.writes_next (by decide)
  · exact Ring.writes_next_next (by decide)

/-- A packet of the group itself has the output that the phase predicts, and
moves the phase on. -/
theorem follow_own {H : List (Nat × Nat)} {d d' : FecDecodeManager} {last now : UInt64}
    {gid i : Nat} {out : List Bytes} {p : Phase} (hwf : Wf c groups H d)
    (hapart : Apart (numbers groups) H d now gid)
    (heffect : Effect c (groups gid) i now d d' out) (hlast : last ≤ now)
    (hf : Follows groups gid H last d p) (hwin : p.inWindow now) :
    Follows groups gid ((gid, i) :: H) now d' (p.own (groups gid).full now i) ∧
      out = p.output (groups gid) i := by
  cases p with
  | collecting S n =>
      have hgather : Gathering d (groups gid).seq S n ∧
          d.antiReplay.Valid now (groups gid).seq ∧ (S ≠ [] → d.mp (groups gid).seq ≠ none) := by
        by_cases hS : S = []
        · subst hS
          have hforgot := forgotten_of_new hwf hapart (hf.1 rfl)
          exact ⟨(gathering_of_forgotten hwf hforgot).mono (Nat.zero_le _), hforgot.2.2,
            fun h => absurd rfl h⟩
        · obtain ⟨-, hg, hnone, hmp⟩ := hf.2 hS hwin
          refine ⟨hg, ?_, fun _ => hmp⟩
          intro info hinfo
          rw [hnone] at hinfo
          exact absurd hinfo (by simp)
      obtain ⟨hg, hvalid, hmp⟩ := hgather
      rcases hg.own_packet hwin hwf.antiReplay hwf.index_lt hvalid heffect with
        ⟨hin, hout, hg', hnone', hmp'⟩ | ⟨hnew, hout, hnext⟩
      · have hS : S ≠ [] := List.ne_nil_of_mem hin
        simp only [Phase.own, Phase.output, hin, if_true]
        refine ⟨⟨fun h => absurd h hS, fun _ _ => ?_⟩, hout⟩
        exact ⟨owner_cons_self _ _ _, hg', hnone', by rw [hmp']; exact hmp hS⟩
      · simp only [Phase.own, Phase.output, hnew, if_false]
        refine ⟨?_, hout⟩
        by_cases hdec : (groups gid).decodable (i :: S)
        · rw [if_pos hdec] at hnext
          simp only [SentGroup.full, hdec, decide_true, if_true]
          exact ⟨UInt64.le_refl _, fun _ _ => ⟨owner_cons_self _ _ _, hnext⟩⟩
        · rw [if_neg hdec] at hnext
          simp only [SentGroup.full, hdec, decide_false, Bool.false_eq_true, if_false]
          exact ⟨fun h => absurd h (by simp),
            fun _ _ => ⟨owner_cons_self _ _ _, hnext.1, hnext.2.1, hnext.2.2⟩⟩
  | complete t r =>
      obtain ⟨hyoung, hr⟩ := hwin
      obtain ⟨ht, hrem⟩ := hf
      obtain ⟨-, hrem⟩ := hrem hr (young_of_le ht hlast hyoung)
      have hold := hrem.not_valid hyoung
      have hsame : d' = d ∧ out = [] := by
        cases heffect with
        | ignored _ => exact ⟨rfl, rfl⟩
        | refused hisv _ _ =>
            rw [AntiReplay.isVaild_of_not_valid hold] at hisv
            exact absurd hisv (by simp)
        | displaced hisv _ _ _ =>
            rw [AntiReplay.isVaild_of_not_valid hold] at hisv
            exact absurd hisv (by simp)
        | stored hisv _ _ _ _ _ _ _ _ _ =>
            rw [AntiReplay.isVaild_of_not_valid hold] at hisv
            exact absurd hisv (by simp)
      obtain ⟨rfl, rfl⟩ := hsame
      exact ⟨⟨UInt64.le_trans ht hlast, fun _ _ => ⟨owner_cons_self _ _ _, hrem⟩⟩, rfl⟩

/-- A packet of another group does not disturb a group within the windows. -/
theorem follow_other {H : List (Nat × Nat)} {d d' : FecDecodeManager} {last now : UInt64}
    {gid gid' i : Nat} {out : List Bytes} {p : Phase} (hne : gid' ≠ gid)
    (hwf : Wf c groups H d) (hapart : Apart (numbers groups) H d now gid')
    (heffect : Effect c (groups gid') i now d d' out) (hlast : last ≤ now)
    (hf : Follows groups gid H last d p) :
    Follows groups gid ((gid', i) :: H) now d'
      (p.other (Ring.writes fecBuffNum d.index d'.index)
        (Ring.writes antiReplayBuffSize d.antiReplay.index d'.antiReplay.index)) := by
  obtain ⟨m, hm, hev⟩ := heffect.evolves hwf.antiReplay
  cases p with
  | collecting S n =>
      refine ⟨?_, ?_⟩
      · intro hS j hj
        rcases List.mem_cons.mp hj with heq | hj
        · exact hne (Prod.mk.inj heq).1.symm
        · exact hf.1 hS j hj
      · intro hS hn
        rw [if_neg hS] at hn ⊢
        obtain ⟨howner, hg, hnone, hmp⟩ := hf.2 hS (by omega)
        have hseq : (groups gid').seq ≠ (groups gid).seq := by
          intro heq
          have howner' : owner (numbers groups) H (groups gid').seq = some gid := by
            rw [heq]
            exact howner
          rcases hapart gid howner' with h | hforgot
          · exact hne h.symm
          · exact hmp (by rw [← heq]; exact hforgot.1)
        obtain ⟨hg', hnone', hmp'⟩ := hg.other_packet (by omega) hseq hwf.antiReplay
          hwf.index_lt hnone heffect
        refine ⟨?_, hg', hnone', by rw [hmp']; exact hmp⟩
        rw [owner_cons, if_neg hseq]
        exact howner
  | complete t r =>
      obtain ⟨ht, hrem⟩ := hf
      refine ⟨UInt64.le_trans ht hlast, ?_⟩
      intro hr hyoung
      rw [hev.index, recordings_eq hm] at hr ⊢
      obtain ⟨howner, hrem⟩ := hrem (by omega) (young_of_le ht hlast hyoung)
      have hseq : (groups gid').seq ≠ (groups gid).seq := by
        intro heq
        have howner' : owner (numbers groups) H (groups gid').seq = some gid := by
          rw [heq]
          exact howner
        rcases hapart gid howner' with h | hforgot
        · exact hne h.symm
        · exact hrem.not_valid hyoung (by rw [← heq]; exact hforgot.2.2)
      refine ⟨?_, hev.remembered _ _ _ hrem hyoung hr⟩
      rw [owner_cons, if_neg hseq]
      exact howner

end Follow

end Fecraw.Ports.FecDecode
