import Fecraw.Ports.Delivery
import Mathlib.Data.Set.Card

/-!
# The decoder's slots and groups

The decoder fills its slots in turn, whatever the packets say, and finds the
packets of a group through a map.  `Wf` says that map and slots belong
together: every entry of a group leads to a slot that holds a packet of that
group, with that index, and the packets of a group agree on its numbers.
Nothing is assumed about the packets.

## Main results

* `place_of_enters`, `place_of_not_enters`: what the first half of `input`
  does with any packet.
* `Wf.input`: every call of `input` that returns keeps `Wf`.
* `slots_of_run`: the entries, slots and anti-replay window after any run.
-/

namespace Fecraw.Ports.FecDecode

open Fecraw.Verified Fecraw.Ports.Packet Fecraw.Ports.RsTable

/-! ## What a group holds -/

/-- A slot that was filled with a packet. -/
def slotOf (h : Header) : FecData where
  used := true
  seq := h.seq
  type := h.type
  dataNum := h.dataNum
  redundantNum := h.redundantNum
  idx := h.innerIndex
  buf := h.body

/-- The numbers of a packet are those of its group. -/
def FecGroup.Agrees (g : FecGroup) (h : Header) : Prop :=
  g.type = some h.type ∧ (h.dataNum ≠ 0 →
    g.dataNum = some h.dataNum ∧ g.redundantNum = some h.redundantNum ∧
      g.len = some h.body.length)

/-- An entry of a group leads to a slot with a packet, one of `S`, of that group. -/
structure Entry (S : Set Bytes) (slots : Nat → FecData) (seq : UInt32) (g : FecGroup)
    (e : Nat × Nat) : Prop where
  slot_lt : e.2 < fecBuffNum
  packet : ∃ s ∈ S, ∃ h, parseHeader s = some h ∧ h.seq = seq ∧ h.innerIndex = e.1 ∧
    slots e.2 = slotOf h ∧ g.Agrees h

/-- The numbers that a group has learnt are in range. -/
def FecGroup.Numbered (g : FecGroup) : Prop :=
  ∀ x, g.dataNum = some x → 1 ≤ x ∧ ∃ y, g.redundantNum = some y ∧ x + y < maxFecPacketNum

/-- The packets of a group are in its slots. -/
structure GroupWf (S : Set Bytes) (slots : Nat → FecData) (seq : UInt32) (g : FecGroup) :
    Prop where
  nonempty : g.groupMp ≠ []
  nodup : g.keys.Nodup
  entry : ∀ e ∈ g.groupMp, Entry S slots seq g e
  numbered : g.Numbered

/-- The map of the groups and the slots belong together. -/
structure SlotsWf (S : Set Bytes) (d : FecDecodeManager) : Prop where
  antiReplay : d.antiReplay.Wf
  index_lt : d.index < fecBuffNum
  group : ∀ seq g, d.mp seq = some g → GroupWf S d.fecData seq g

theorem slotsWf_init (S : Set Bytes) : SlotsWf S {} where
  antiReplay := AntiReplay.wf_init
  index_lt := by decide
  group := by simp

section Group

variable {S : Set Bytes} {slots : Nat → FecData} {seq : UInt32} {g : FecGroup} {h : Header}

/-- A group in the map has a type. -/
theorem GroupWf.typed (hg : GroupWf S slots seq g) : g.type ≠ none := by
  obtain ⟨e, he⟩ := List.exists_mem_of_ne_nil _ hg.nonempty
  obtain ⟨-, -, h, -, -, -, -, htype, -⟩ := (hg.entry e he).packet
  rw [htype]
  simp

/-- All that `join` can do. -/
inductive Joins (g : FecGroup) (h : Header) : FecGroup × Bool → Prop where
  | mismatch {t} (htype : g.type = some t) (hne : t ≠ h.type) : Joins g h (g, false)
  | bare (htype : g.type = none ∨ g.type = some h.type) (hzero : h.dataNum = 0) :
      Joins g h ({ g with type := some h.type }, true)
  | first (htype : g.type = none ∨ g.type = some h.type) (hpos : h.dataNum ≠ 0)
      (hnone : g.dataNum = none) :
      Joins g h ({ g with
        type := some h.type
        dataNum := some h.dataNum
        redundantNum := some h.redundantNum
        len := some h.body.length }, true)
  | again (htype : g.type = none ∨ g.type = some h.type) (hpos : h.dataNum ≠ 0)
      (hsome : g.dataNum ≠ none) :
      Joins g h ({ g with type := some h.type },
        decide (g.dataNum = some h.dataNum ∧ g.redundantNum = some h.redundantNum ∧
          g.len = some h.body.length))

theorem joins_join (g : FecGroup) (h : Header) : Joins g h (g.join h) := by
  obtain ⟨type, dataNum, redundantNum, len, fecDone, groupMp⟩ := g
  -- with the type settled, the three cases of the numbers
  have hnumbers : ∀ t : Option Nat, t = none ∨ t = some h.type →
      Joins ⟨t, dataNum, redundantNum, len, fecDone, groupMp⟩ h
        (FecGroup.join ⟨some h.type, dataNum, redundantNum, len, fecDone, groupMp⟩ h) := by
    intro t ht
    unfold FecGroup.join
    by_cases hzero : h.dataNum = 0
    · simp only [hzero, reduceCtorEq, ne_eq, if_false, if_true, not_true]
      exact .bare ht hzero
    · cases dataNum with
      | none =>
          simp only [hzero, reduceCtorEq, ne_eq, if_false, if_true, not_true]
          exact .first ht hzero rfl
      | some x =>
          simp only [hzero, reduceCtorEq, ne_eq, if_false, not_true]
          exact .again ht hzero (by simp)
  cases type with
  | none => exact hnumbers none (.inl rfl)
  | some t =>
      by_cases ht : t = h.type
      · subst ht
        exact hnumbers _ (.inr rfl)
      · have hjoin : FecGroup.join ⟨some t, dataNum, redundantNum, len, fecDone, groupMp⟩ h
            = (⟨some t, dataNum, redundantNum, len, fecDone, groupMp⟩, false) := by
          unfold FecGroup.join
          simp [ht]
        rw [hjoin]
        exact .mismatch rfl ht

/-- A packet that is let into a group leaves its packets there, and agrees with
the group as the others do. -/
theorem join_spec {g' : FecGroup} (hjoin : g.join h = (g', true)) :
    g'.groupMp = g.groupMp ∧ g'.fecDone = g.fecDone ∧ g'.Agrees h ∧
      ∀ h₀, g.Agrees h₀ → g'.Agrees h₀ := by
  have hall := joins_join g h
  rw [hjoin] at hall
  -- a type that is there is the packet's
  have htypes : ∀ h₀, g.Agrees h₀ → g.type = none ∨ g.type = some h.type →
      some h.type = some h₀.type := by
    intro h₀ hagrees htype
    rcases htype with hnone | hsome
    · exact absurd (hagrees.1.symm.trans hnone) (by simp)
    · exact hsome.symm.trans hagrees.1
  generalize hres : (g', true) = r at hall
  cases hall with
  | mismatch htype hne => exact absurd (Prod.mk.inj hres).2 (by simp)
  | bare htype hzero =>
      obtain rfl := (Prod.mk.inj hres).1
      exact ⟨rfl, rfl, ⟨rfl, fun hpos => absurd hzero hpos⟩,
        fun h₀ hagrees => ⟨htypes h₀ hagrees htype, hagrees.2⟩⟩
  | first htype hpos hnone =>
      obtain rfl := (Prod.mk.inj hres).1
      refine ⟨rfl, rfl, ⟨rfl, fun _ => ⟨rfl, rfl, rfl⟩⟩, fun h₀ hagrees => ?_⟩
      refine ⟨htypes h₀ hagrees htype, fun hpos₀ => ?_⟩
      exact absurd ((hagrees.2 hpos₀).1.symm.trans hnone) (by simp)
  | again htype hpos hsome =>
      obtain ⟨rfl, hsame⟩ := Prod.mk.inj hres
      exact ⟨rfl, rfl, ⟨rfl, fun _ => of_decide_eq_true hsame.symm⟩,
        fun h₀ hagrees => ⟨htypes h₀ hagrees htype, hagrees.2⟩⟩

/-- The numbers that a group learns from a packet are in range. -/
theorem join_numbered {g' : FecGroup} (hjoin : g.join h = (g', true)) (hg : g.Numbered)
    (hsum : h.dataNum + h.redundantNum < maxFecPacketNum) : g'.Numbered := by
  have hall := joins_join g h
  rw [hjoin] at hall
  generalize hres : (g', true) = r at hall
  cases hall with
  | mismatch htype hne => exact absurd (Prod.mk.inj hres).2 (by simp)
  | bare htype hzero =>
      obtain rfl := (Prod.mk.inj hres).1
      exact hg
  | first htype hpos hnone =>
      obtain rfl := (Prod.mk.inj hres).1
      intro x hx
      obtain rfl := Option.some.inj hx
      exact ⟨by omega, _, rfl, hsum⟩
  | again htype hpos hsome =>
      obtain ⟨rfl, -⟩ := Prod.mk.inj hres
      exact hg

/-- A packet that is not let into a group of the map leaves the group as it is. -/
theorem join_refused {g' : FecGroup} (htyped : g.type ≠ none) (hjoin : g.join h = (g', false)) :
    g' = g := by
  have hall := joins_join g h
  rw [hjoin] at hall
  generalize hres : (g', false) = r at hall
  cases hall with
  | mismatch htype hne => exact (Prod.mk.inj hres).1
  | bare htype hzero => exact absurd (Prod.mk.inj hres).2 (by simp)
  | first htype hpos hnone => exact absurd (Prod.mk.inj hres).2 (by simp)
  | again htype hpos hsome =>
      obtain ⟨rfl, -⟩ := Prod.mk.inj hres
      rcases htype with hnone | hsame
      · exact absurd hnone htyped
      · rw [← hsame]

/-- A new group takes every packet. -/
theorem join_fresh (h : Header) : (FecGroup.join {} h).2 = true := by
  unfold FecGroup.join
  by_cases hzero : h.dataNum = 0
  · simp [hzero]
  · simp [hzero]

end Group

/-! ## Placing a packet -/

/-- What the header checks guarantee. -/
theorem parseHeader_spec {s : Bytes} {h : Header} (hparse : parseHeader s = some h) :
    h.dataNum + h.redundantNum < maxFecPacketNum ∧ h.body.length + 8 = s.length ∧
      (h.type = 0 → h.dataNum ≠ 0) := by
  unfold parseHeader at hparse
  split at hparse
  · exact absurd hparse (by simp)
  · next hlong =>
      dsimp only at hparse
      split at hparse
      · exact absurd hparse (by simp)
      split at hparse
      · exact absurd hparse (by simp)
      split at hparse
      · exact absurd hparse (by simp)
      next hblob =>
      split at hparse
      · exact absurd hparse (by simp)
      next hsum =>
      obtain rfl := Option.some.inj hparse
      refine ⟨Nat.lt_of_not_le hsum, ?_, fun h0 hzero => hblob ⟨h0, hzero⟩⟩
      rw [List.length_drop]
      omega

namespace FecDecodeManager

/-- The group of a number, as `mp[seq]` finds or makes it. -/
def groupOf (d : FecDecodeManager) (seq : UInt32) : FecGroup := (d.mp seq).getD {}

/-- The packet is stored: its number is not remembered, its group is not
decoded, does not have it and lets it in, and the slot at the cursor is not
one of its own group. -/
structure Enters (d : FecDecodeManager) (now : UInt64) (h : Header) : Prop where
  valid : d.antiReplay.Valid now h.seq
  open_ : (d.groupOf h.seq).fecDone = false
  new : h.innerIndex ∉ (d.groupOf h.seq).keys
  joins : ((d.groupOf h.seq).join h).2 = true
  other : (d.fecData d.index).used = true → (d.fecData d.index).seq ≠ h.seq

/-- The group with the packet in it, in the slot `k`. -/
def grown (d : FecDecodeManager) (h : Header) (k : Nat) : FecGroup :=
  { ((d.groupOf h.seq).join h).1 with groupMp := (h.innerIndex, k) :: (d.groupOf h.seq).groupMp }

end FecDecodeManager

section Place

open FecDecodeManager

variable {S : Set Bytes} {d : FecDecodeManager} {now : UInt64} {s : Bytes} {h : Header}

theorem parse_of_place (hlen : s.length + 100 < bufLen) (hparse : parseHeader s = some h)
    {b : Bool} {a : AntiReplay} (hvalid : d.antiReplay.isVaild now h.seq = (b, a)) :
    d.place now s = if b then placeValid { d with antiReplay := a } now h
      else .ok (.returned 0 { d with antiReplay := a }) := by
  unfold place
  rw [Checked.check_of hlen]
  simp only [Checked.ok_bind, hparse, hvalid]
  cases b <;> rfl

/-- The packet's group is decoded or has the packet. -/
def Has (d : FecDecodeManager) (h : Header) : Prop :=
  (d.groupOf h.seq).fecDone = true ∨ h.innerIndex ∈ (d.groupOf h.seq).keys

theorem placeValid_of_has (hhas : Has d h) :
    d.placeValid now h
      = .ok (.returned (-1) { d with
          mp := Function.update d.mp h.seq (some (d.groupOf h.seq)) }) := by
  unfold Has at hhas
  rw [← FecGroup.slot_isSome_iff] at hhas
  unfold placeValid
  exact if_pos hhas

theorem placeValid_of_join {g' : FecGroup} {b : Bool} (hno : ¬ Has d h)
    (hjoin : (d.groupOf h.seq).join h = (g', b)) :
    d.placeValid now h = if b then d.placeNew now h g'
      else .ok (.returned (-1) { d with mp := Function.update d.mp h.seq (some g') }) := by
  unfold Has at hno
  rw [← FecGroup.slot_isSome_iff] at hno
  unfold groupOf at hno hjoin
  unfold placeValid
  dsimp only
  rw [if_neg hno, hjoin]
  cases b <;> rfl

/-- A new packet takes the slot at the cursor from another group. -/
theorem placeNew_of_other (hwf : d.antiReplay.Wf) (hindex : d.index < fecBuffNum)
    (hbody : h.body.length + 100 < bufLen) (g : FecGroup)
    (hother : (d.fecData d.index).used = true → (d.fecData d.index).seq ≠ h.seq) :
    ∃ a₁ mp₁, Recycled d now h.seq d.antiReplay a₁ mp₁ ∧
      d.placeNew now h g = .ok (.stored h { d with
        antiReplay := a₁
        fecData := Function.update d.fecData d.index (slotOf h)
        mp := Function.update mp₁ h.seq (some { g with
          groupMp := (h.innerIndex, d.index) :: g.groupMp }) }) := by
  rcases recycle_eq_ok hwf now h.seq g rfl with ⟨hused, hown, -⟩ | ⟨a₁, mp₁, hroom, hrec⟩
  · exact absurd hown (hother hused)
  · refine ⟨a₁, mp₁, hroom, ?_⟩
    have hstore := store_eq_ok (d := { d with
        antiReplay := a₁
        mp := Function.update mp₁ h.seq (some g) }) (h := h) hindex hbody
      (Function.update_self _ _ _)
    unfold placeNew
    simp only [hrec, Checked.ok_bind, if_true, hstore, Function.update_idem]
    rfl

/-- When the slot at the cursor is one of the packet's group, the group is
given up. -/
theorem placeNew_of_own (hwf : d.antiReplay.Wf) (now : UInt64) (g : FecGroup)
    (hused : (d.fecData d.index).used = true) (hown : (d.fecData d.index).seq = h.seq) :
    ∃ a, a.Wf ∧ d.placeNew now h g = .ok (.returned (-1) { d with
      antiReplay := a
      mp := Function.update d.mp h.seq none }) := by
  rcases recycle_eq_ok hwf now h.seq g rfl with ⟨-, -, a, hset, hrec⟩ | ⟨a₁, mp₁, hroom, -⟩
  · obtain ⟨n, -, hev⟩ := AntiReplay.evolves_setInvaild hwf (Set.mem_singleton h.seq) hset
    refine ⟨a, hev.wf, ?_⟩
    unfold placeNew
    simp only [hrec, Checked.ok_bind]
    rfl
  · cases hroom with
    | free hfree => exact absurd (hfree.symm.trans hused) (by simp)
    | other _ hne _ => exact absurd hown hne

/-- A packet that enters is in the slot at the cursor, and another group that
used the slot is given up. -/
theorem place_of_enters (hwf : SlotsWf S d) (hlen : s.length + 100 < bufLen)
    (hparse : parseHeader s = some h) (henters : d.Enters now h) :
    ∃ a₁ mp₁, a₁.Wf ∧
      (∀ seq, mp₁ seq = if (d.fecData d.index).used = true ∧ (d.fecData d.index).seq = seq
        then none else d.mp seq) ∧
      d.place now s = .ok (.stored h { d with
        antiReplay := a₁
        fecData := Function.update d.fecData d.index (slotOf h)
        mp := Function.update mp₁ h.seq (some (d.grown h d.index)) }) := by
  obtain ⟨a, hisv, hwfa, -, -⟩ := AntiReplay.isVaild_of_valid hwf.antiReplay henters.valid
  obtain ⟨g', hjoin⟩ : ∃ g', (d.groupOf h.seq).join h = (g', true) :=
    ⟨_, Prod.ext rfl henters.joins⟩
  have hno : ¬ Has { d with antiReplay := a } h := by
    rintro (hdone | hkey)
    · exact absurd (hdone.symm.trans henters.open_) (by simp)
    · exact henters.new hkey
  have hbody := (parseHeader_spec hparse).2.1
  obtain ⟨a₁, mp₁, hroom, hnew⟩ := @placeNew_of_other { d with antiReplay := a } now h hwfa
    hwf.index_lt (by omega) g' henters.other
  refine ⟨a₁, mp₁, hroom.wf hwfa, ?_, ?_⟩
  · intro seq
    cases hroom with
    | free hfree =>
        rw [if_neg (by rintro ⟨hused, -⟩; exact absurd (hfree.symm.trans hused) (by simp))]
    | other hused _ _ =>
        by_cases hseq : (d.fecData d.index).seq = seq
        · rw [if_pos ⟨hused, hseq⟩, ← hseq]
          exact Function.update_self _ _ _
        · rw [if_neg fun hand => hseq hand.2]
          exact Function.update_of_ne (Ne.symm hseq) _ _
  · rw [parse_of_place hlen hparse hisv, if_pos rfl, placeValid_of_join hno hjoin, if_pos rfl, hnew]
    unfold grown
    rw [hjoin, (join_spec hjoin).1]

/-- The group is in the map, or made new. -/
theorem groupOf_cases (d : FecDecodeManager) (seq : UInt32) :
    (d.mp seq = none ∧ d.groupOf seq = {}) ∨ d.mp seq = some (d.groupOf seq) := by
  unfold groupOf
  cases d.mp seq with
  | none => exact .inl ⟨rfl, rfl⟩
  | some g => exact .inr rfl

/-- What `input` leaves of the decoder when it returns early. -/
def Touched (d : FecDecodeManager) (p : Checked Placed) : Prop :=
  ∃ ret a mp, p = .ok (.returned ret { d with antiReplay := a, mp := mp }) ∧
    a.Wf ∧ (mp = d.mp ∨ ∃ seq, mp = Function.update d.mp seq none)

theorem touched_of_unchanged (hwf : d.antiReplay.Wf) {g : FecGroup} (hmp : d.mp h.seq = some g) :
    Touched d (.ok (.returned (-1) { d with mp := Function.update d.mp h.seq (some g) })) :=
  ⟨-1, d.antiReplay, _, rfl, hwf, .inl (by rw [← hmp, Function.update_eq_self])⟩

/-- A packet that does not enter is refused by its group, or clashes with it. -/
theorem placeValid_of_not_enters (hwf : SlotsWf S d) (hvalid : d.antiReplay.Valid now h.seq)
    (hno : ¬ d.Enters now h) : Touched d (d.placeValid now h) := by
  by_cases hhas : Has d h
  · rw [placeValid_of_has hhas]
    rcases groupOf_cases d h.seq with ⟨-, hfresh⟩ | hmp
    · unfold Has at hhas
      rw [hfresh] at hhas
      exact absurd hhas (by simp [FecGroup.keys])
    · exact touched_of_unchanged hwf.antiReplay hmp
  · cases hjoin : (d.groupOf h.seq).join h with
    | mk g' b =>
        rw [placeValid_of_join hhas hjoin]
        cases b with
        | false =>
            rw [if_neg (by simp)]
            rcases groupOf_cases d h.seq with ⟨-, hfresh⟩ | hmp
            · have := join_fresh h
              rw [← hfresh, hjoin] at this
              exact absurd this (by simp)
            · rw [join_refused (hwf.group _ _ hmp).typed hjoin]
              exact touched_of_unchanged hwf.antiReplay hmp
        | true =>
            rw [if_pos rfl]
            have hown : (d.fecData d.index).used = true ∧ (d.fecData d.index).seq = h.seq := by
              by_contra hother
              unfold Has at hhas
              push Not at hhas hother
              exact hno ⟨hvalid, by simpa using hhas.1, hhas.2, by rw [hjoin], hother⟩
            obtain ⟨a, hwfa, hnew⟩ := placeNew_of_own hwf.antiReplay now g' hown.1 hown.2
            exact ⟨-1, a, _, hnew, hwfa, .inr ⟨h.seq, rfl⟩⟩

theorem enters_of_window {a : AntiReplay} (hvalid : d.antiReplay.Valid now h.seq)
    (henters : Enters { d with antiReplay := a } now h) : d.Enters now h :=
  ⟨hvalid, henters.open_, henters.new, henters.joins, henters.other⟩

/-- Any other packet makes `input` return; at most the window, and the group
that it clashes with, are touched. -/
theorem place_of_not_enters (hwf : SlotsWf S d) (hlen : s.length + 100 < bufLen)
    (hno : ∀ h, parseHeader s = some h → ¬ d.Enters now h) : Touched d (d.place now s) := by
  cases hparse : parseHeader s with
  | none =>
      refine ⟨-1, d.antiReplay, d.mp, ?_, hwf.antiReplay, .inl rfl⟩
      unfold place
      rw [Checked.check_of hlen]
      simp only [Checked.ok_bind, hparse]
      rfl
  | some h =>
      by_cases hvalid : d.antiReplay.Valid now h.seq
      · obtain ⟨a, hisv, hwfa, -, hmp⟩ := AntiReplay.isVaild_of_valid hwf.antiReplay hvalid
        rw [parse_of_place hlen hparse hisv, if_pos rfl]
        have hvalid' : a.Valid now h.seq := by
          intro info hinfo
          rw [hmp, Function.update_self] at hinfo
          exact absurd hinfo (by simp)
        exact placeValid_of_not_enters (d := { d with antiReplay := a })
          ⟨hwfa, hwf.index_lt, hwf.group⟩ hvalid'
          fun henters => hno h hparse (enters_of_window hvalid henters)
      · refine ⟨0, d.antiReplay, d.mp, ?_, hwf.antiReplay, .inl rfl⟩
        rw [parse_of_place hlen hparse (AntiReplay.isVaild_of_not_valid hvalid)]
        rfl

end Place

/-! ## Decoding -/

/-- What decoding leaves as it is: the slots, and the groups up to the mark of
a decoded one. -/
structure Kept (d d' : FecDecodeManager) : Prop where
  fecData : d'.fecData = d.fecData
  index : d'.index = d.index
  antiReplay : d.antiReplay.Wf → d'.antiReplay.Wf
  mp : ∀ seq, d'.mp seq = d.mp seq ∨
    ∃ g, d.mp seq = some g ∧ d'.mp seq = some { g with fecDone := true }

theorem Kept.refl (d : FecDecodeManager) : Kept d d where
  fecData := rfl
  index := rfl
  antiReplay := id
  mp := fun _ => .inl rfl

theorem Kept.trans {d₁ d₂ d₃ : FecDecodeManager} (h : Kept d₁ d₂) (h' : Kept d₂ d₃) :
    Kept d₁ d₃ where
  fecData := h'.fecData.trans h.fecData
  index := h'.index.trans h.index
  antiReplay := fun hwf => h'.antiReplay (h.antiReplay hwf)
  mp := by
    intro seq
    rcases h.mp seq with hsame | ⟨g, hg, hdone⟩
    · rw [← hsame]
      exact h'.mp seq
    · rcases h'.mp seq with hsame' | ⟨g', hg', hdone'⟩
      · exact .inr ⟨g, hg, hsame'.trans hdone⟩
      · obtain rfl := Option.some.inj (hdone.symm.trans hg')
        exact .inr ⟨g, hg, hdone'⟩

section Finish

open FecDecodeManager

variable {c : Code} {d d' : FecDecodeManager} {now : UInt64} {stale : Mem} {h : Header}
  {g : FecGroup}

theorem kept_retire {seq : UInt32} (hok : d.retire now seq = .ok d') : Kept d d' := by
  unfold retire at hok
  obtain ⟨a, hset, heq⟩ := Checked.doBind_eq_ok.mp hok
  obtain rfl := Except.ok.inj heq
  refine ⟨rfl, rfl, fun hwf => ?_, fun _ => .inl rfl⟩
  obtain ⟨n, -, hev⟩ := AntiReplay.evolves_setInvaild hwf (Set.mem_singleton seq) hset
  exact hev.wf

theorem kept_ready {out : List Bytes} (hok : d.ready out = .ok d') : Kept d d' := by
  unfold ready at hok
  obtain ⟨-, heq⟩ := Checked.check_bind_eq_ok.mp hok
  obtain rfl := Except.ok.inj heq
  exact ⟨rfl, rfl, id, fun _ => .inl rfl⟩

theorem kept_markDone {seq : UInt32} (hmp : d.mp seq = some g) : Kept d (d.markDone seq g) where
  fecData := rfl
  index := rfl
  antiReplay := id
  mp := by
    intro other
    by_cases hseq : other = seq
    · subst hseq
      exact .inr ⟨g, hmp, Function.update_self _ _ _⟩
    · exact .inl (Function.update_of_ne hseq _ _)

theorem kept_decodeBlob (hmp : d.mp h.seq = some g) (hok : d.decodeBlob c now h g = .ok d') :
    Kept d d' := by
  unfold decodeBlob at hok
  obtain ⟨data, -, hrest⟩ := Checked.doBind_eq_ok.mp hok
  obtain ⟨blob, -, hrest⟩ := Checked.doBind_eq_ok.mp hrest
  cases hout : blob.output with
  | none =>
      rw [hout] at hrest
      exact (kept_markDone hmp).trans (kept_retire hrest)
  | some out =>
      rw [hout] at hrest
      obtain ⟨d₁, hready, hretire⟩ := Checked.doBind_eq_ok.mp hrest
      exact ((kept_markDone hmp).trans (kept_ready hready)).trans (kept_retire hretire)

theorem kept_decodePackets (hmp : d.mp h.seq = some g)
    (hok : d.decodePackets c now stale h g = .ok d') : Kept d d' := by
  unfold decodePackets at hok
  dsimp only at hok
  split at hok
  · obtain ⟨data, -, hrest⟩ := Checked.doBind_eq_ok.mp hok
    split at hrest
    · obtain ⟨d₁, hready, hretire⟩ := Checked.doBind_eq_ok.mp hrest
      exact ((kept_markDone hmp).trans (kept_ready hready)).trans (kept_retire hretire)
    · have hquiet : Kept (d.markDone h.seq g)
          { d.markDone h.seq g with readyForOutput := false } :=
        ⟨rfl, rfl, id, fun _ => .inl rfl⟩
      exact ((kept_markDone hmp).trans hquiet).trans (kept_retire hrest)
  · exact kept_retire hok

/-- The second half of `input` only marks groups and records numbers. -/
theorem kept_finish (hmp : d.mp h.seq = some g) (hok : d.finish c now stale h = .ok d') :
    Kept d d' := by
  have hget : (d.mp h.seq).getD {} = g := by rw [hmp]; rfl
  unfold finish at hok
  rw [hget] at hok
  have hsend : ∀ {p : Prop} [Decidable p],
      (if p then d.ready [h.body.drop 2] else pure d) = .ok d' → Kept d d' := by
    intro p _ hsend
    split at hsend
    · exact kept_ready hsend
    · obtain rfl := Except.ok.inj hsend
      exact .refl d
  dsimp only at hok
  split at hok
  · split at hok
    · exact kept_retire hok
    split at hok
    · exact kept_decodeBlob hmp hok
    · obtain rfl := Except.ok.inj hok
      exact .refl d
  · cases hx : g.dataNum with
    | none =>
        rw [hx] at hok
        exact hsend hok
    | some x =>
        rw [hx] at hok
        dsimp only at hok
        split at hok
        · exact kept_retire hok
        split at hok
        · exact kept_decodePackets hmp hok
        · exact hsend hok

end Finish

/-! ## One call of `input` -/

section Input

open FecDecodeManager

variable {S : Set Bytes} {c : Code} {d d' : FecDecodeManager} {now : UInt64} {stale : Mem}
  {s : Bytes} {h : Header}

/-- A slot that no entry of the group leads to does not matter to it. -/
theorem GroupWf.update_slot {seq : UInt32} {g : FecGroup} {slots : Nat → FecData} {k : Nat}
    {v : FecData} (hg : GroupWf S slots seq g) (hfree : ∀ e ∈ g.groupMp, e.2 ≠ k) :
    GroupWf S (Function.update slots k v) seq g where
  nonempty := hg.nonempty
  nodup := hg.nodup
  entry := by
    intro e he
    obtain ⟨hlt, hpacket⟩ := hg.entry e he
    refine ⟨hlt, ?_⟩
    rw [Function.update_of_ne (hfree e he)]
    exact hpacket
  numbered := hg.numbered

/-- The slot at the cursor belongs to the group that its packet names. -/
theorem SlotsWf.owner (hwf : SlotsWf S d) {seq : UInt32} {g : FecGroup} (hmp : d.mp seq = some g)
    {e : Nat × Nat} (he : e ∈ g.groupMp) :
    (d.fecData e.2).used = true ∧ (d.fecData e.2).seq = seq ∧ (d.fecData e.2).idx = e.1 := by
  obtain ⟨s, -, h, -, hseq, hidx, hslot, -⟩ := ((hwf.group seq g hmp).entry e he).packet
  rw [hslot]
  exact ⟨rfl, hseq, hidx⟩

/-- The group of a packet that enters is in order, with the packet in it. -/
theorem groupWf_grown (hwf : SlotsWf S d) (hs : s ∈ S) (hparse : parseHeader s = some h)
    (henters : d.Enters now h) :
    GroupWf S (Function.update d.fecData d.index (slotOf h)) h.seq (d.grown h d.index) := by
  obtain ⟨g', hjoin⟩ : ∃ g', (d.groupOf h.seq).join h = (g', true) :=
    ⟨_, Prod.ext rfl henters.joins⟩
  obtain ⟨hsame, hdone, hagrees, hothers⟩ := join_spec hjoin
  have hgrown : d.grown h d.index = { g' with
      groupMp := (h.innerIndex, d.index) :: (d.groupOf h.seq).groupMp } := by
    unfold grown
    rw [hjoin]
  rw [hgrown]
  -- the packets that were in the group are in other slots
  have hold : (d.groupOf h.seq).keys.Nodup ∧ (d.groupOf h.seq).Numbered ∧
      ∀ e ∈ (d.groupOf h.seq).groupMp, e.2 ≠ d.index ∧
        Entry S d.fecData h.seq (d.groupOf h.seq) e := by
    rcases groupOf_cases d h.seq with ⟨-, hfresh⟩ | hmp
    · rw [hfresh]
      exact ⟨List.nodup_nil, by simp [FecGroup.Numbered], by simp⟩
    · have hg := hwf.group _ _ hmp
      refine ⟨hg.nodup, hg.numbered, fun e he => ⟨fun hslot => ?_, hg.entry e he⟩⟩
      obtain ⟨hused, hseq, -⟩ := hwf.owner hmp he
      rw [hslot] at hused hseq
      exact henters.other hused hseq
  obtain ⟨hnodup, hnumbered, hentries⟩ := hold
  refine ⟨by simp, List.nodup_cons.mpr ⟨henters.new, hnodup⟩, ?_, ?_⟩
  · intro e he
    rcases List.mem_cons.mp he with rfl | he
    · exact ⟨hwf.index_lt, s, hs, h, hparse, rfl, rfl, Function.update_self _ _ _, hagrees⟩
    · obtain ⟨hne, hlt, s₀, hs₀, h₀, hparse₀, hseq, hidx, hslot, hagrees₀⟩ := hentries e he
      refine ⟨hlt, s₀, hs₀, h₀, hparse₀, hseq, hidx, ?_, hothers h₀ hagrees₀⟩
      rw [Function.update_of_ne hne]
      exact hslot
  · have hnumbers := join_numbered hjoin hnumbered (parseHeader_spec hparse).1
    exact hnumbers

theorem GroupWf.set_fecDone {seq : UInt32} {g : FecGroup} {slots : Nat → FecData}
    (hg : GroupWf S slots seq g) : GroupWf S slots seq { g with fecDone := true } :=
  ⟨hg.nonempty, hg.nodup,
    fun e he => ⟨(hg.entry e he).slot_lt, (hg.entry e he).packet⟩, hg.numbered⟩

/-- Decoding keeps map and slots in order. -/
theorem SlotsWf.kept (hwf : SlotsWf S d) (hkept : Kept d d') : SlotsWf S d' where
  antiReplay := hkept.antiReplay hwf.antiReplay
  index_lt := by rw [hkept.index]; exact hwf.index_lt
  group := by
    intro seq g hmp
    rw [hkept.fecData]
    rcases hkept.mp seq with hsame | ⟨g₀, hg₀, hdone⟩
    · exact hwf.group seq g (hsame.symm.trans hmp)
    · obtain rfl := Option.some.inj (hdone.symm.trans hmp)
      exact (hwf.group seq g₀ hg₀).set_fecDone

/-- A stored packet leaves map and slots in order. -/
theorem SlotsWf.stored (hwf : SlotsWf S d) (hs : s ∈ S) (hparse : parseHeader s = some h)
    (henters : d.Enters now h) {a : AntiReplay} {mp₁ : UInt32 → Option FecGroup} (ha : a.Wf)
    (hmp₁ : ∀ seq, mp₁ seq
      = if (d.fecData d.index).used = true ∧ (d.fecData d.index).seq = seq then none
        else d.mp seq) :
    SlotsWf S { d with
      antiReplay := a
      fecData := Function.update d.fecData d.index (slotOf h)
      mp := Function.update mp₁ h.seq (some (d.grown h d.index)) } where
  antiReplay := ha
  index_lt := hwf.index_lt
  group := by
    intro seq g hmp
    dsimp only at hmp ⊢
    by_cases hseq : seq = h.seq
    · subst hseq
      rw [Function.update_self] at hmp
      obtain rfl := Option.some.inj hmp
      exact groupWf_grown hwf hs hparse henters
    · rw [Function.update_of_ne hseq, hmp₁] at hmp
      split at hmp
      · exact absurd hmp (by simp)
      · next hnot =>
          refine (hwf.group seq g hmp).update_slot fun e he hslot => hnot ?_
          obtain ⟨hused, howner, -⟩ := hwf.owner hmp he
          rw [hslot] at hused howner
          exact ⟨hused, howner⟩

/-- A call that returns early keeps map and slots in order. -/
theorem SlotsWf.touched (hwf : SlotsWf S d) {a : AntiReplay} {mp : UInt32 → Option FecGroup}
    (ha : a.Wf) (hmp : mp = d.mp ∨ ∃ seq, mp = Function.update d.mp seq none) :
    SlotsWf S { d with antiReplay := a, mp := mp } where
  antiReplay := ha
  index_lt := hwf.index_lt
  group := by
    intro seq g hg
    dsimp only at hg ⊢
    rcases hmp with rfl | ⟨seq', rfl⟩
    · exact hwf.group seq g hg
    · by_cases hseq : seq = seq'
      · subst hseq
        rw [Function.update_self] at hg
        exact absurd hg (by simp)
      · rw [Function.update_of_ne hseq] at hg
        exact hwf.group seq g hg

/-- Every call of `input` that returns keeps map and slots in order. -/
theorem SlotsWf.input {ret : Int} (hwf : SlotsWf S d) (hs : s ∈ S)
    (hok : d.input c now stale s = .ok (ret, d')) : SlotsWf S d' := by
  have hlen : s.length + 100 < bufLen := by
    unfold FecDecodeManager.input place at hok
    obtain ⟨p, hplace, -⟩ := Checked.doBind_eq_ok.mp hok
    exact (Checked.check_bind_eq_ok.mp hplace).1
  unfold FecDecodeManager.input at hok
  obtain ⟨p, hplace, hrest⟩ := Checked.doBind_eq_ok.mp hok
  by_cases henters : ∃ h, parseHeader s = some h ∧ d.Enters now h
  · obtain ⟨h, hparse, henters⟩ := henters
    obtain ⟨a, mp₁, ha, hmp₁, hstored⟩ := place_of_enters hwf hlen hparse henters
    obtain rfl := Except.ok.inj (hstored.symm.trans hplace)
    obtain ⟨d₁, hfinish, heq⟩ := Checked.doBind_eq_ok.mp hrest
    obtain ⟨-, rfl⟩ := Prod.mk.inj (Except.ok.inj heq)
    have hkept := (hwf.stored hs hparse henters ha hmp₁).kept
      (kept_finish (Function.update_self _ _ _) hfinish)
    exact ⟨hkept.antiReplay, Ring.next_lt hkept.index_lt, hkept.group⟩
  · push Not at henters
    obtain ⟨ret', a, mp, hreturned, ha, hmp⟩ := place_of_not_enters hwf hlen henters
    obtain rfl := Except.ok.inj (hreturned.symm.trans hplace)
    obtain ⟨-, rfl⟩ := Prod.mk.inj (Except.ok.inj hrest)
    exact hwf.touched ha hmp

end Input

/-! ## Every run -/

/-- A call of the decoder's interface. -/
inductive Event where
  | input (now : UInt64) (stale : Mem) (s : Bytes)
  | output

/-- The packet that a call brings. -/
def Event.packet? : Event → Option Bytes
  | .input _ _ s => some s
  | .output => none

/-- One call, with what it outputs. -/
def step (c : Code) (d : FecDecodeManager) : Event → Checked (FecDecodeManager × List Bytes)
  | .input now stale s => do
      let (_, d) ← d.input c now stale s
      return (d, [])
  | .output => .ok d.output

/-- The packets of a run. -/
def packets (evs : List Event) : Set Bytes := {s | ∃ ev ∈ evs, ev.packet? = some s}

theorem SlotsWf.step {S : Set Bytes} {c : Code} {d d' : FecDecodeManager} {ev : Event}
    {out : List Bytes} (hwf : SlotsWf S d) (hS : ∀ s, ev.packet? = some s → s ∈ S)
    (hok : step c d ev = .ok (d', out)) : SlotsWf S d' := by
  cases ev with
  | input now stale s =>
      obtain ⟨⟨ret, d₁⟩, hin, heq⟩ := Checked.doBind_eq_ok.mp hok
      obtain ⟨rfl, -⟩ := Prod.mk.inj (Except.ok.inj heq)
      exact hwf.input (hS s rfl) hin
  | output =>
      have hout : d' = d.output.1 := (congrArg Prod.fst (Except.ok.inj hok)).symm
      rw [hout]
      unfold FecDecodeManager.output
      split
      · exact ⟨hwf.antiReplay, hwf.index_lt, hwf.group⟩
      · exact hwf

theorem slotsWf_run {c : Code} {evs : List Event} {d : FecDecodeManager} {outs : List (List Bytes)}
    (hrun : run (step c) {} evs = .ok (d, outs)) : SlotsWf (packets evs) d :=
  (run_invariant (Q := fun _ _ => True)
    (fun _ _ ev _ hev hwf hok => ⟨hwf.step (fun _ hs => ⟨ev, hev, hs⟩) hok, trivial⟩)
    (slotsWf_init _) hrun).1

/-- Two entries that lead to one slot are the same. -/
theorem SlotsWf.entry_inj {S : Set Bytes} {d : FecDecodeManager} (hwf : SlotsWf S d)
    {seq seq' : UInt32} {g g' : FecGroup} {i i' k : Nat} (hmp : d.mp seq = some g)
    (hmp' : d.mp seq' = some g') (he : (i, k) ∈ g.groupMp) (he' : (i', k) ∈ g'.groupMp) :
    seq = seq' ∧ i = i' := by
  obtain ⟨-, hseq, hidx⟩ := hwf.owner hmp he
  obtain ⟨-, hseq', hidx'⟩ := hwf.owner hmp' he'
  exact ⟨hseq.symm.trans hseq', hidx.symm.trans hidx'⟩

/-- There are no more groups than slots. -/
theorem SlotsWf.card_le {S : Set Bytes} {d : FecDecodeManager} (hwf : SlotsWf S d) :
    Set.ncard {seq | (d.mp seq).isSome} ≤ fecBuffNum := by
  -- every group is sent to the slot of its first entry
  have hslot : ∀ seq, (d.mp seq).isSome → ∃ k < fecBuffNum, (d.fecData k).seq = seq := by
    intro seq hsome
    obtain ⟨g, hmp⟩ := Option.isSome_iff_exists.mp hsome
    obtain ⟨e, he⟩ := List.exists_mem_of_ne_nil _ (hwf.group seq g hmp).nonempty
    exact ⟨e.2, ((hwf.group seq g hmp).entry e he).slot_lt, (hwf.owner hmp he).2.1⟩
  have hsub : {seq | (d.mp seq).isSome}
      ⊆ ((Finset.range fecBuffNum).image fun k => (d.fecData k).seq) := by
    intro seq hseq
    obtain ⟨k, hk, rfl⟩ := hslot seq hseq
    exact Finset.mem_coe.mpr (Finset.mem_image_of_mem _ (Finset.mem_range.mpr hk))
  have hcard := Set.ncard_le_ncard hsub (Finset.finite_toSet _)
  rw [Set.ncard_coe_finset] at hcard
  exact (hcard.trans Finset.card_image_le).trans (by rw [Finset.card_range])

/-- After any calls on any packets, map and slots belong together, and the
anti-replay window is in order. -/
theorem slots_of_run {c : Code} {evs : List Event} {d : FecDecodeManager}
    {outs : List (List Bytes)} (hrun : run (step c) {} evs = .ok (d, outs)) :
    (∀ seq g, d.mp seq = some g → g.groupMp ≠ [] ∧ g.keys.Nodup ∧
      ∀ i k, (i, k) ∈ g.groupMp → k < fecBuffNum ∧ (d.fecData k).used = true ∧
        (d.fecData k).seq = seq ∧ (d.fecData k).idx = i ∧
        ∃ s ∈ packets evs, ∃ h, parseHeader s = some h ∧ h.seq = seq ∧ h.innerIndex = i ∧
          (d.fecData k).buf = h.body) ∧
    (∀ seq seq' g g' i i' k, d.mp seq = some g → d.mp seq' = some g' →
      (i, k) ∈ g.groupMp → (i', k) ∈ g'.groupMp → seq = seq' ∧ i = i') ∧
    Set.ncard {seq | (d.mp seq).isSome} ≤ fecBuffNum ∧
    d.antiReplay.Wf ∧
    ∀ ops, ∃ a outs, run AntiReplay.call d.antiReplay ops = .ok (a, outs) ∧ a.Wf := by
  have hwf := slotsWf_run hrun
  refine ⟨?_, ?_, hwf.card_le, hwf.antiReplay, fun ops => AntiReplay.calls_total hwf.antiReplay ops⟩
  · intro seq g hmp
    have hg := hwf.group seq g hmp
    refine ⟨hg.nonempty, hg.nodup, fun i k he => ?_⟩
    obtain ⟨hlt, s, hs, h, hparse, hseq, hidx, hslot, -⟩ := hg.entry (i, k) he
    obtain ⟨hused, hown, hat⟩ := hwf.owner hmp he
    refine ⟨hlt, hused, hown, hat, s, hs, h, hparse, hseq, hidx, ?_⟩
    rw [hslot]
    rfl
  · intro seq seq' g g' i i' k hmp hmp' he he'
    exact hwf.entry_inj hmp hmp' he he'

/-- The first of three packets of a group, alone in the decoder. -/
theorem slots_of_run_single : ∃ d outs,
    run (step Code.repetition) {} [.input 0 (fun _ => 0) [0, 0, 0, 7, 0, 2, 1, 0, 9]]
      = .ok (d, outs) ∧
    (d.mp 7).isSome = true ∧ Set.ncard {seq | (d.mp seq).isSome} ≤ fecBuffNum ∧
    d.antiReplay.Wf := by
  obtain ⟨⟨d, outs⟩, hrun, hsome⟩ : ∃ r,
      run (step Code.repetition) {} [.input 0 (fun _ => 0) [0, 0, 0, 7, 0, 2, 1, 0, 9]] = .ok r ∧
        (r.1.mp 7).isSome = true :=
    Checked.exists_of_any (by decide +kernel)
  obtain ⟨-, -, hcard, hwf, -⟩ := slots_of_run hrun
  exact ⟨d, outs, hrun, hsome, hcard, hwf⟩

end Fecraw.Ports.FecDecode
