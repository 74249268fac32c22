import Fecraw.Ports.SentGroup

/-!
# Delivering the packets of sent groups

What one packet of a valid group does to a decoder that holds only packets
of valid groups, and from it what a whole delivery does, in any order, with
loss, duplication and interleaving of groups.

`Effect` lists all that one packet can do: it is ignored because its number
is in the anti-replay window, refused because it is not needed, it displaces
its own group when the ring has come round, or it is stored.

## Main results

* `input_effect`: a packet of a valid group has one of the four effects.
-/

namespace Fecraw.Ports.FecDecode

open Fecraw.Verified Fecraw.Ports.Packet Fecraw.Ports.RsTable Fecraw.Ports.BlobCodec
open SentGroup

/-! ## Joining a group -/

/-- A group after packet `i` of `G` was checked against it. -/
def joined (G : SentGroup) (g : FecGroup) (i : Nat) : FecGroup :=
  if G.bare i then { g with type := some G.mode }
  else { g with
    type := some G.mode
    dataNum := some G.x
    redundantNum := some G.y
    len := some G.len }

/-- What a decoder may know of `G`: nothing, or some of its packets. -/
def Partial (c : Code) (slots : Nat → FecData) (G : SentGroup) (g : FecGroup) : Prop :=
  g = {} ∨ Holds c slots G g

section Join

variable {c : Code} {G : SentGroup} {g : FecGroup} {slots : Nat → FecData}

theorem known_of_not_bare {i : Nat} (hG : G.Valid c) (hi : ¬ G.bare i) (S : List Nat) :
    G.known (i :: S) := by
  rcases hG.mode with hmode | hmode
  · exact .inl hmode
  · refine .inr ⟨i, by simp, ?_⟩
    by_contra hlt
    exact hi ⟨hmode, by omega⟩

theorem known_of_bare {i : Nat} (hi : G.bare i) {S : List Nat} :
    G.known (i :: S) ↔ G.known S := by
  rw [known_cons]
  constructor
  · rintro (h | h)
    · exact h
    · have := hi.2
      omega
  · exact .inl

/-- Packets of one group agree on its numbers. -/
theorem join_eq (hG : G.Valid c) (hg : Partial c slots G g) (i : Nat) :
    g.join (G.header c i) = (joined G g i, true) := by
  have hx := hG.x_pos
  have htype : (if g.type = none then { g with type := some G.mode } else g)
      = { g with type := some G.mode } := by
    rcases hg with rfl | hg
    · rfl
    · rw [if_neg (by simp [hg.type]), ← hg.type]
  unfold FecGroup.join joined
  simp only [SentGroup.header, htype, ne_eq, not_true_eq_false, if_false]
  by_cases hbare : G.bare i
  · simp only [hbare, if_true]
  · simp only [hbare, if_false]
    rw [if_neg (by omega)]
    by_cases hnum : g.dataNum = none
    · rw [if_pos hnum, hG.length_body hbare]
    · rcases hg with rfl | hg
      · exact absurd rfl hnum
      · have hknown : G.known g.keys := by
          by_contra hno
          exact hnum (hg.no_numbers hno)
        obtain ⟨hdn, hrn, hlen⟩ := hg.numbers hknown
        rw [if_neg hnum, hdn, hrn, hlen, hG.length_body hbare]
        simp

/-- A slot for packet `i`. -/
def filled (c : Code) (G : SentGroup) (i : Nat) : FecData where
  used := true
  seq := G.seq
  type := G.mode
  dataNum := if G.bare i then 0 else G.x
  redundantNum := if G.bare i then 0 else G.y
  idx := i
  buf := G.body c i

/-- A group after packet `i` of `G` was put into slot `k`. -/
def entered (G : SentGroup) (g : FecGroup) (i k : Nat) : FecGroup :=
  { joined G g i with groupMp := (i, k) :: g.groupMp }

theorem joined_fecDone (i : Nat) : (joined G g i).fecDone = g.fecDone := by
  unfold joined
  split <;> rfl

theorem keys_entered (i k : Nat) : (entered G g i k).keys = i :: g.keys := rfl

/-- A slot that holds nothing of the group can take its next packet. -/
theorem holds_entered (hG : G.Valid c) (hg : Partial c slots G g) {i k : Nat}
    (hi : i < G.x + G.y) (hnew : i ∉ g.keys) (hk : k < fecBuffNum)
    (hfree : ∀ e ∈ g.groupMp, e.2 ≠ k) :
    Holds c (Function.update slots k (filled c G i)) G (entered G g i k) where
  type := by
    unfold entered joined
    split <;> rfl
  nodup := by
    rw [keys_entered, List.nodup_cons]
    refine ⟨hnew, ?_⟩
    rcases hg with rfl | hg
    · exact List.nodup_nil
    · exact hg.nodup
  index_lt := by
    rw [keys_entered]
    intro j hj
    rcases List.mem_cons.mp hj with rfl | hj
    · exact hi
    · rcases hg with rfl | hg
      · exact absurd hj (by simp [FecGroup.keys])
      · exact hg.index_lt j hj
  slot := by
    intro e he
    rcases List.mem_cons.mp he with rfl | he
    · simp only [Function.update_self]
      exact ⟨hk, rfl, rfl, rfl⟩
    · rcases hg with rfl | hg
      · exact absurd he (by simp)
      · rw [Function.update_of_ne (hfree e he)]
        exact hg.slot e he
  numbers := by
    rw [keys_entered]
    intro hknown
    unfold entered joined
    by_cases hbare : G.bare i
    · rw [if_pos hbare]
      rw [known_of_bare hbare] at hknown
      rcases hg with rfl | hg
      · rcases hknown with hm | ⟨j, hj, -⟩
        · rw [hbare.1] at hm
          exact absurd hm (by decide)
        · exact absurd hj (by simp [FecGroup.keys])
      · exact hg.numbers hknown
    · rw [if_neg hbare]
      exact ⟨rfl, rfl, rfl⟩
  no_numbers := by
    rw [keys_entered]
    intro hno
    have hbare : G.bare i := by
      by_contra hbare
      exact hno (known_of_not_bare hG hbare _)
    rw [known_of_bare hbare] at hno
    unfold entered joined
    rw [if_pos hbare]
    rcases hg with rfl | hg
    · rfl
    · exact hg.no_numbers hno

end Join

/-! ## The effect of one packet -/

/-- What making room does to the anti-replay window and the groups: the
slot at the cursor is free, or another group that uses it is given up. -/
inductive Recycled (d : FecDecodeManager) (now : UInt64) (seq : UInt32) (a : AntiReplay) :
    AntiReplay → (UInt32 → Option FecGroup) → Prop where
  | free (hfree : (d.fecData d.index).used = false) : Recycled d now seq a a d.mp
  | other {a'} (hused : (d.fecData d.index).used = true)
      (hne : (d.fecData d.index).seq ≠ seq)
      (hold : a.setInvaild now (d.fecData d.index).seq = .ok a') :
      Recycled d now seq a a' (Function.update d.mp (d.fecData d.index).seq none)

/-- All that packet `i` of `G` can do to a decoder, with what it outputs. -/
inductive Effect (c : Code) (G : SentGroup) (i : Nat) (now : UInt64)
    (d : FecDecodeManager) : FecDecodeManager → List Bytes → Prop where
  /-- The number of the group is in the anti-replay window. -/
  | ignored (hold : ¬ d.antiReplay.Valid now G.seq) : Effect c G i now d d []
  /-- The group is decoded already, or has the packet. -/
  | refused {g a} (hvalid : d.antiReplay.isVaild now G.seq = (true, a))
      (hmp : d.mp G.seq = some g) (hno : g.fecDone = true ∨ i ∈ g.keys) :
      Effect c G i now d { d with antiReplay := a } []
  /-- The ring has come round to the group's own slots. -/
  | displaced {a a'} (hvalid : d.antiReplay.isVaild now G.seq = (true, a))
      (hused : (d.fecData d.index).used = true) (hown : (d.fecData d.index).seq = G.seq)
      (hold : a.setInvaild now G.seq = .ok a') :
      Effect c G i now d
        { d with antiReplay := a', mp := Function.update d.mp G.seq none } []
  /-- The packet is stored, and its group decoded if it can be. -/
  | stored {a a₁ mp₁ g d'} (hvalid : d.antiReplay.isVaild now G.seq = (true, a))
      (hg : (d.mp G.seq).getD {} = g) (hopen : g.fecDone = false) (hnew : i ∉ g.keys)
      (hroom : Recycled d now G.seq a a₁ mp₁)
      (hslots : d'.fecData = Function.update d.fecData d.index (filled c G i))
      (hindex : d'.index = Ring.next fecBuffNum d.index)
      (hready : d'.readyForOutput = false)
      (hmp : d'.mp = Function.update mp₁ G.seq (some { entered G g i d.index with
        fecDone := decide (G.decodable (i :: g.keys)) }))
      (hanti : if G.decodable (i :: g.keys) then
          a₁.setInvaild now G.seq = .ok d'.antiReplay
        else d'.antiReplay = a₁) :
      Effect c G i now d d' (G.outputOf g.keys i)

/-- The decoder's own entry for a group is open as long as it cannot be
decoded. -/
structure Tracked (c : Code) (slots : Nat → FecData) (G : SentGroup) (g : FecGroup) :
    Prop where
  holds : Holds c slots G g
  open_ : g.fecDone = false → ¬ G.decodable g.keys

/-- What the result of `input` and `output` is. -/
def Delivers (c : Code) (d : FecDecodeManager) (now : UInt64) (stale : Mem) (s : Bytes)
    (d' : FecDecodeManager) (out : List Bytes) : Prop :=
  ∃ ret d₁, d.input c now stale s = .ok (ret, d₁) ∧ d₁.output = (d', out)

section Effect

variable {c : Code} {G : SentGroup} {d : FecDecodeManager}

theorem output_of_quiet {d : FecDecodeManager} (h : d.readyForOutput = false) :
    d.output = (d, []) := by
  unfold FecDecodeManager.output
  rw [if_neg (by simp [h])]

/-- Making room never fails. -/
theorem recycle_eq_ok {a : AntiReplay} (hwf : a.Wf) (now : UInt64) (seq : UInt32)
    (g : FecGroup) (ha : d.antiReplay = a) :
    ((d.fecData d.index).used = true ∧ (d.fecData d.index).seq = seq ∧
      ∃ a', a.setInvaild now seq = .ok a' ∧
        FecDecodeManager.recycle { d with mp := Function.update d.mp seq (some g) } now seq
          = .ok ({ d with antiReplay := a', mp := Function.update d.mp seq none }, false)) ∨
    (∃ a₁ mp₁, Recycled d now seq a a₁ mp₁ ∧
      FecDecodeManager.recycle { d with mp := Function.update d.mp seq (some g) } now seq
        = .ok ({ d with antiReplay := a₁, mp := Function.update mp₁ seq (some g) }, true)) := by
  subst ha
  unfold FecDecodeManager.recycle
  by_cases hused : (d.fecData d.index).used = true
  · obtain ⟨a', -, hold, -, -⟩ :=
      AntiReplay.setInvaild_evolves hwf now (Set.mem_singleton (d.fecData d.index).seq)
    by_cases hown : (d.fecData d.index).seq = seq
    · left
      rw [hown] at hold
      refine ⟨hused, hown, a', hold, ?_⟩
      simp only [hused, if_true, hown, hold, Checked.ok_bind, Function.update_idem]
      simp [pure, Except.pure]
    · right
      refine ⟨a', _, .other hused hown hold, ?_⟩
      simp only [hused, if_true, hold, Checked.ok_bind]
      rw [Function.update_comm (Ne.symm hown)]
      simp [pure, Except.pure, hown]
  · right
    have hfree : (d.fecData d.index).used = false := by simpa using hused
    refine ⟨_, _, .free hfree, ?_⟩
    simp [hfree, pure, Except.pure]

theorem Recycled.wf {now : UInt64} {seq : UInt32} {a a₁ : AntiReplay}
    {mp₁ : UInt32 → Option FecGroup} (hwf : a.Wf) (h : Recycled d now seq a a₁ mp₁) :
    a₁.Wf := by
  cases h with
  | free _ => exact hwf
  | other _ _ hold =>
      obtain ⟨_, _, hev⟩ := AntiReplay.evolves_setInvaild hwf (Set.mem_singleton _) hold
      exact hev.wf

/-- Once room was made, the slot at the cursor can take a packet of the group. -/
theorem Recycled.holds_entered {now : UInt64} {a a₁ : AntiReplay}
    {mp₁ : UInt32 → Option FecGroup} {g : FecGroup} {i : Nat} (hG : G.Valid c)
    (hroom : Recycled d now G.seq a a₁ mp₁) (hpart : Partial c d.fecData G g)
    (hi : i < G.x + G.y) (hnew : i ∉ g.keys) (hindex : d.index < fecBuffNum) :
    Holds c (Function.update d.fecData d.index (filled c G i)) G
      (entered G g i d.index) := by
  apply FecDecode.holds_entered hG hpart hi hnew hindex
  intro e he heq
  rcases hpart with rfl | hholds
  · exact absurd he (by simp)
  · obtain ⟨-, hused, hseq, -⟩ := hholds.slot e he
    rw [heq] at hused hseq
    cases hroom with
    | free hfree => exact absurd (hfree.symm.trans hused) (by simp)
    | other _ hne _ => exact hne hseq

/-- The group of a packet, as the decoder has it before the packet. -/
private theorem partial_getD (htracked : ∀ g, d.mp G.seq = some g → Tracked c d.fecData G g) :
    Partial c d.fecData G ((d.mp G.seq).getD {}) := by
  cases hmp : d.mp G.seq with
  | none => exact .inl rfl
  | some g => exact .inr (htracked g hmp).holds

private theorem not_decodable_getD (hG : G.Valid c)
    (htracked : ∀ g, d.mp G.seq = some g → Tracked c d.fecData G g)
    (hopen : ((d.mp G.seq).getD {}).fecDone = false) :
    ¬ G.decodable ((d.mp G.seq).getD {}).keys := by
  cases hmp : d.mp G.seq with
  | none =>
      intro hdec
      have hx := hG.x_pos
      have hlen : G.x ≤ 0 := hdec.1
      omega
  | some g =>
      rw [hmp] at hopen
      exact (htracked g hmp).open_ hopen

/-- The second half of `input`, once room was made. -/
private theorem store_effect (hG : G.Valid c) {i : Nat} (hi : i < G.x + G.y)
    (hlen : (G.body c i).length + 100 < bufLen) {a a₁ : AntiReplay}
    {mp₁ : UInt32 → Option FecGroup} (hwf : a₁.Wf)
    (hindex : d.index < fecBuffNum) (hready : d.readyForOutput = false) {now : UInt64}
    (stale : Mem) (hvalid : d.antiReplay.isVaild now G.seq = (true, a)) {g : FecGroup}
    (hg : (d.mp G.seq).getD {} = g) (hpart : Partial c d.fecData G g)
    (hopen : g.fecDone = false) (hdec : ¬ G.decodable g.keys) (hnew : i ∉ g.keys)
    (hroom : Recycled d now G.seq a a₁ mp₁) :
    ∃ d₂ d₃ d' out,
      FecDecodeManager.store { d with
        antiReplay := a₁
        mp := Function.update mp₁ G.seq (some (joined G g i)) } (G.header c i) = .ok d₂ ∧
      d₂.finish c now stale (G.header c i) = .ok d₃ ∧
      FecDecodeManager.output { d₃ with index := Ring.next fecBuffNum d₃.index }
        = (d', out) ∧
      Effect c G i now d d' out := by
  have hholds := hroom.holds_entered hG hpart hi hnew hindex
  set d₂ : FecDecodeManager := { d with
    antiReplay := a₁
    fecData := Function.update d.fecData d.index (filled c G i)
    mp := Function.update mp₁ G.seq (some (entered G g i d.index)) } with hd₂
  have hstore : FecDecodeManager.store { d with
      antiReplay := a₁
      mp := Function.update mp₁ G.seq (some (joined G g i)) } (G.header c i) = .ok d₂ := by
    have hgroup : (joined G g i).groupMp = g.groupMp := by
      unfold joined
      split <;> rfl
    have h := FecDecodeManager.store_eq_ok (h := G.header c i) (g := joined G g i)
      (d := { d with
        antiReplay := a₁
        mp := Function.update mp₁ G.seq (some (joined G g i)) })
      hindex hlen (Function.update_self _ _ _)
    rw [h]
    simp only [SentGroup.header, Function.update_idem, hgroup]
    rfl
  have hmp : d₂.mp G.seq = some (entered G g i d.index) := Function.update_self _ _ _
  by_cases hfull : G.decodable (i :: g.keys)
  · have hfin := finish_of_decodable hG hmp hholds (keys_entered i d.index) hdec hfull
      hready hlen now stale
    obtain ⟨a₂, -, hold, -, -⟩ :=
      AntiReplay.setInvaild_evolves hwf now (Set.mem_singleton G.seq)
    have hretire : FecDecodeManager.retire { d₂.markDone G.seq (entered G g i d.index) with
        readyForOutput := true
        outputBuf := G.outputOf g.keys i } now G.seq
          = .ok { d₂.markDone G.seq (entered G g i d.index) with
            readyForOutput := true
            outputBuf := G.outputOf g.keys i
            antiReplay := a₂ } := by
      unfold FecDecodeManager.retire
      simp only [FecDecodeManager.markDone, hd₂, hold, Checked.ok_bind]
      rfl
    refine ⟨d₂, _, _, _, hstore, hfin.trans hretire, rfl, ?_⟩
    apply Effect.stored hvalid hg hopen hnew hroom
    · rfl
    · rfl
    · rfl
    · simp [FecDecodeManager.markDone, hd₂, hfull, entered]
    · rw [if_pos hfull]
      exact hold
  · obtain ⟨d₃, hfin, hout, hslots, hidx, hanti, hmp₃⟩ :=
      finish_of_not_decodable hG hmp hholds (keys_entered i d.index) hfull hready now stale
    refine ⟨d₂, d₃, _, _, hstore, hfin, FecDecodeManager.output_with_index d₃ _, ?_⟩
    rw [hout]
    apply Effect.stored hvalid hg hopen hnew hroom
    · exact hslots
    · exact congrArg (Ring.next fecBuffNum) hidx
    · rfl
    · show d₃.mp = _
      rw [hmp₃]
      simp [hd₂, hfull, entered, joined_fecDone, hopen]
    · rw [if_neg hfull]
      exact hanti

/-- A packet of a valid group, by what the window says about its number. -/
theorem place_packet (hG : G.Valid c) {i : Nat} (hi : i < G.x + G.y)
    (hlen : (G.packet c i).length + 100 < bufLen) {now : UInt64} {fresh : Bool} {a : AntiReplay}
    (hisv : d.antiReplay.isVaild now G.seq = (fresh, a)) :
    d.place now (G.packet c i) =
      if fresh then FecDecodeManager.placeValid { d with antiReplay := a } now (G.header c i)
      else .ok (.returned 0 { d with antiReplay := a }) := by
  unfold FecDecodeManager.place
  rw [Checked.check_of hlen, hG.header_eq hi, Checked.ok_bind]
  dsimp only
  rw [show (G.header c i).seq = G.seq from rfl, hisv]
  cases fresh <;> rfl

/-- A packet of a valid group that reaches a decoder which knows only valid
packets of that group does one of four things, and never aborts. -/
theorem input_effect (hG : G.Valid c) {i : Nat} (hi : i < G.x + G.y)
    (hlen : (G.packet c i).length + 100 < bufLen) (hwf : d.antiReplay.Wf)
    (hindex : d.index < fecBuffNum) (hready : d.readyForOutput = false)
    (htracked : ∀ g, d.mp G.seq = some g → Tracked c d.fecData G g)
    (now : UInt64) (stale : Mem) :
    ∃ d' out, Delivers c d now stale (G.packet c i) d' out ∧ Effect c G i now d d' out := by
  have hbody : (G.body c i).length + 100 < bufLen := by
    unfold SentGroup.packet at hlen
    rw [List.length_append] at hlen
    omega
  by_cases hvalid : d.antiReplay.Valid now G.seq
  · obtain ⟨a, hisv, hwfa, -, -⟩ := AntiReplay.isVaild_of_valid hwf hvalid
    have hplace := (place_packet hG hi hlen hisv).trans (if_pos rfl)
    have hpart := partial_getD htracked
    have hsync := fun hopen => not_decodable_getD hG htracked hopen
    generalize hg : (d.mp G.seq).getD {} = g at hpart hsync
    by_cases hno : g.fecDone = true ∨ i ∈ g.keys
    · have hmp : d.mp G.seq = some g := by
        cases hmp : d.mp G.seq with
        | none =>
            rw [hmp, Option.getD_none] at hg
            subst hg
            exact absurd hno (by simp [FecGroup.keys])
        | some g' =>
            rw [hmp, Option.getD_some] at hg
            rw [hg]
      refine ⟨{ d with antiReplay := a }, [], ⟨-1, _, ?_, output_of_quiet hready⟩,
        .refused hisv hmp hno⟩
      have hvalidPlace : FecDecodeManager.placeValid { d with antiReplay := a } now
          (G.header c i) = .ok (.returned (-1) { d with antiReplay := a }) := by
        unfold FecDecodeManager.placeValid
        simp only [SentGroup.header, hg]
        rw [if_pos (hno.imp id FecGroup.slot_isSome_iff.mpr), ← hmp,
          Function.update_eq_self]
        rfl
      unfold FecDecodeManager.input
      rw [hplace]
      simp only [hvalidPlace, Checked.ok_bind]
      rfl
    · have hopen : g.fecDone = false := by
        by_contra hd
        exact hno (.inl (by simpa using hd))
      have hnew : i ∉ g.keys := fun hin => hno (.inr hin)
      have hvalidPlace : FecDecodeManager.placeValid { d with antiReplay := a } now
          (G.header c i) = FecDecodeManager.placeNew { d with antiReplay := a } now
            (G.header c i) (joined G g i) := by
        unfold FecDecodeManager.placeValid
        simp only [SentGroup.header, hg]
        rw [if_neg (by
          rintro (hd | hs)
          · exact hno (.inl hd)
          · exact hno (.inr (FecGroup.slot_isSome_iff.mp hs)))]
        have hjoin := join_eq hG hpart i
        simp only [SentGroup.header] at hjoin
        rw [hjoin]
      have hnewPlace : d.place now (G.packet c i)
          = FecDecodeManager.placeNew { d with antiReplay := a } now (G.header c i)
            (joined G g i) := hplace.trans hvalidPlace
      rcases recycle_eq_ok (d := { d with antiReplay := a }) hwfa now G.seq (joined G g i) rfl
        with ⟨hused, hown, a', hold, hrec⟩ | ⟨a₁, mp₁, hroom, hrec⟩
      · refine ⟨{ d with antiReplay := a', mp := Function.update d.mp G.seq none }, [],
          ⟨-1, _, ?_, output_of_quiet hready⟩, .displaced hisv hused hown hold⟩
        unfold FecDecodeManager.input
        rw [hnewPlace]
        unfold FecDecodeManager.placeNew
        simp only [SentGroup.header] at hrec ⊢
        rw [hrec]
        rfl
      · have hroom' : Recycled d now G.seq a a₁ mp₁ := by
          cases hroom with
          | free hfree => exact .free hfree
          | other hused hne hold => exact .other hused hne hold
        obtain ⟨d₂, d₃, d', out, hstore, hfin, hout, heffect⟩ := store_effect hG hi hbody
          (hroom.wf hwfa) hindex hready stale hisv hg hpart hopen (hsync (hg ▸ hopen)) hnew
          hroom'
        refine ⟨d', out, ⟨0, _, ?_, hout⟩, heffect⟩
        unfold FecDecodeManager.input
        rw [hnewPlace]
        unfold FecDecodeManager.placeNew
        simp only [SentGroup.header] at hrec hstore hfin ⊢
        rw [hrec]
        simp only [Checked.ok_bind, if_true, hstore]
        simp only [pure, Except.pure, Checked.ok_bind, hfin]
  · have hisv := AntiReplay.isVaild_of_not_valid hvalid
    have hplace := (place_packet hG hi hlen hisv).trans (if_neg Bool.false_ne_true)
    refine ⟨d, [], ⟨0, d, ?_, output_of_quiet hready⟩, .ignored hvalid⟩
    unfold FecDecodeManager.input
    rw [hplace]
    rfl

end Effect

end Fecraw.Ports.FecDecode
