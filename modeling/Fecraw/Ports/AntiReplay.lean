import Fecraw.Verified.Checked
import Fecraw.Verified.Ring

/-!
# The decoder's anti-replay window

A port of the `anti_replay_t` of `fec_manager.h`.  It remembers the sequence
numbers of groups that are finished or given up, the last 30000 of them and
each for at most two minutes, so that late packets of such a group are
dropped.

`Wf` is the representation invariant: the ring and the map are inverse to
each other.  Under it the two assertions of `set_invaild` hold.

## Main results

* `evolves_isVaild`, `setInvaild_evolves`: both operations keep `Wf` and do
  not abort, and a number stays remembered until 30000 others were recorded
  or its time is up.
-/

namespace Fecraw.Ports

open Fecraw.Verified

/-- `anti_replay_buff_size`. -/
def antiReplayBuffSize : Nat := 30000

/-- `anti_replay_timeout`, in milliseconds. -/
def antiReplayTimeout : UInt64 := 120 * 1000

/-- `info_t`. -/
structure Info where
  myTime : UInt64
  index : Nat
deriving Repr, DecidableEq

/-- `anti_replay_t`; an empty cell of `replay_buffer` holds `-1`. -/
structure AntiReplay where
  replayBuffer : Nat → Option UInt32 := fun _ => none
  mp : UInt32 → Option Info := fun _ => none
  index : Nat := 0

namespace AntiReplay

/-- Take a number out of the map and the ring. -/
def forget (a : AntiReplay) (seq : UInt32) (info : Info) : AntiReplay :=
  { a with
    replayBuffer := Function.update a.replayBuffer info.index none
    mp := Function.update a.mp seq none }

/-- `is_vaild`: a number whose time is up is forgotten on the way. -/
def isVaild (a : AntiReplay) (now : UInt64) (seq : UInt32) : Bool × AntiReplay :=
  match a.mp seq with
  | none => (true, a)
  | some info =>
      if now - info.myTime > antiReplayTimeout then (true, a.forget seq info)
      else (false, a)

/-- Forget the number in the cell that is about to be overwritten. -/
def evict (a : AntiReplay) : Checked AntiReplay :=
  match a.replayBuffer a.index with
  | none => pure a
  | some old => do
      Checked.check ((a.mp old).isSome)
      return { a with mp := Function.update a.mp old none }

/-- `set_invaild`. -/
def setInvaild (a : AntiReplay) (now : UInt64) (seq : UInt32) : Checked AntiReplay :=
  match a.isVaild now seq with
  | (false, a) => pure a
  | (true, a) => do
      let a ← a.evict
      Checked.check (a.mp seq = none)
      return { a with
        replayBuffer := Function.update a.replayBuffer a.index (some seq)
        mp := Function.update a.mp seq (some ⟨now, a.index⟩)
        index := Ring.next antiReplayBuffSize a.index }

/-- The ring and the map are inverse to each other. -/
structure Wf (a : AntiReplay) : Prop where
  index_lt : a.index < antiReplayBuffSize
  cell : ∀ i seq, a.replayBuffer i = some seq → ∃ info, a.mp seq = some info ∧ info.index = i
  entry : ∀ seq info, a.mp seq = some info →
    a.replayBuffer info.index = some seq ∧ info.index < antiReplayBuffSize

theorem wf_init : Wf {} where
  index_lt := by decide
  cell := by simp
  entry := by simp

/-- The number is one that `is_vaild` lets pass. -/
def Valid (a : AntiReplay) (now : UInt64) (seq : UInt32) : Prop :=
  ∀ info, a.mp seq = some info → now - info.myTime > antiReplayTimeout

theorem wf_forget {a : AntiReplay} {seq : UInt32} {info : Info} (hwf : a.Wf)
    (hmp : a.mp seq = some info) : (a.forget seq info).Wf where
  index_lt := hwf.index_lt
  cell := by
    intro i other hcell
    dsimp only [forget] at hcell ⊢
    by_cases hi : i = info.index
    · subst hi
      simp at hcell
    · rw [Function.update_of_ne hi] at hcell
      obtain ⟨info', hmp', hidx⟩ := hwf.cell i other hcell
      have hne : other ≠ seq := by
        rintro rfl
        obtain rfl := Option.some.inj (hmp.symm.trans hmp')
        exact hi hidx.symm
      exact ⟨info', by rw [Function.update_of_ne hne]; exact hmp', hidx⟩
  entry := by
    intro other info' hmp'
    dsimp only [forget] at hmp' ⊢
    by_cases hne : other = seq
    · subst hne
      simp at hmp'
    · rw [Function.update_of_ne hne] at hmp'
      obtain ⟨hcell, hlt⟩ := hwf.entry other info' hmp'
      have hi : info'.index ≠ info.index := by
        intro heq
        rw [heq, (hwf.entry seq info hmp).1] at hcell
        exact hne (Option.some.inj hcell).symm
      exact ⟨by rw [Function.update_of_ne hi]; exact hcell, hlt⟩

/-- A number that is remembered is refused, and nothing changes. -/
theorem isVaild_of_not_valid {a : AntiReplay} {now : UInt64} {seq : UInt32}
    (h : ¬ a.Valid now seq) : a.isVaild now seq = (false, a) := by
  unfold Valid at h
  push Not at h
  obtain ⟨info, hmp, hyoung⟩ := h
  unfold isVaild
  rw [hmp]
  exact if_neg hyoung

/-- A number that is let pass is not in the map afterwards. -/
theorem isVaild_of_valid {a : AntiReplay} {now : UInt64} {seq : UInt32}
    (hwf : a.Wf) (h : a.Valid now seq) :
    ∃ a', a.isVaild now seq = (true, a') ∧ a'.Wf ∧ a'.index = a.index ∧
      a'.mp = Function.update a.mp seq none := by
  unfold isVaild
  cases hmp : a.mp seq with
  | none =>
      refine ⟨a, rfl, hwf, rfl, ?_⟩
      rw [← hmp, Function.update_eq_self]
  | some info =>
      refine ⟨a.forget seq info, ?_, wf_forget hwf hmp, rfl, rfl⟩
      simp only [h info hmp, if_true]

/-- Eviction never fails, and takes the number at the cursor out of the map. -/
theorem evict_eq_ok {a : AntiReplay} (hwf : a.Wf) :
    ∃ a', a.evict = .ok a' ∧ a'.replayBuffer = a.replayBuffer ∧ a'.index = a.index ∧
      ∀ seq, a'.mp seq = if a.replayBuffer a.index = some seq then none else a.mp seq := by
  unfold evict
  cases hcell : a.replayBuffer a.index with
  | none => exact ⟨a, rfl, rfl, rfl, by simp⟩
  | some old =>
      obtain ⟨info, hmp, -⟩ := hwf.cell _ _ hcell
      refine ⟨{ a with mp := Function.update a.mp old none }, ?_, rfl, rfl, ?_⟩
      · simp only [Checked.check_of (p := (a.mp old).isSome) (by simp [hmp])]
        rfl
      · intro seq
        by_cases hseq : seq = old
        · subst hseq
          simp
        · simp [Function.update_of_ne hseq, Ne.symm hseq]

/-- Recording a number that is not in the map overwrites the cell at the
cursor, and only the number that was there is lost. -/
theorem setInvaild_of_valid {a : AntiReplay} {now : UInt64} {seq : UInt32}
    (hwf : a.Wf) (h : a.Valid now seq) :
    ∃ a', a.setInvaild now seq = .ok a' ∧ a'.Wf ∧
      a'.index = Ring.next antiReplayBuffSize a.index ∧
      a'.mp seq = some ⟨now, a.index⟩ ∧
      ∀ other, other ≠ seq → a'.mp other = a.mp other ∨
        (a'.mp other = none ∧ ∃ info, a.mp other = some info ∧ info.index = a.index) := by
  obtain ⟨a₁, hvalid, hwf₁, hidx₁, hmp₁⟩ := isVaild_of_valid hwf h
  obtain ⟨a₂, hevict, hbuf₂, hidx₂, hmp₂⟩ := evict_eq_ok hwf₁
  have hnone₁ : a₁.mp seq = none := by rw [hmp₁, Function.update_self]
  have hnone₂ : a₂.mp seq = none := by
    rw [hmp₂]
    split
    · rfl
    · exact hnone₁
  refine ⟨{ a₂ with
    replayBuffer := Function.update a₂.replayBuffer a₂.index (some seq)
    mp := Function.update a₂.mp seq (some ⟨now, a₂.index⟩)
    index := Ring.next antiReplayBuffSize a₂.index }, ?_, ?_, ?_, ?_, ?_⟩
  · unfold setInvaild
    rw [hvalid]
    simp only [hevict, Checked.ok_bind, Checked.check_of hnone₂]
    rfl
  · have hlt : a₂.index < antiReplayBuffSize := by
      rw [hidx₂]
      exact hwf₁.index_lt
    refine ⟨Ring.next_lt hlt, ?_, ?_⟩
    · intro i other hcell
      dsimp only at hcell ⊢
      by_cases hi : i = a₂.index
      · subst hi
        rw [Function.update_self] at hcell
        obtain rfl := Option.some.inj hcell
        exact ⟨_, Function.update_self _ _ _, rfl⟩
      · rw [Function.update_of_ne hi, hbuf₂] at hcell
        obtain ⟨info, hmp, hidx⟩ := hwf₁.cell i other hcell
        have hne : other ≠ seq := by
          rintro rfl
          rw [hnone₁] at hmp
          exact absurd hmp (by simp)
        refine ⟨info, ?_, hidx⟩
        rw [Function.update_of_ne hne, hmp₂, if_neg, hmp]
        intro hcur
        obtain ⟨info', hmp', hidx'⟩ := hwf₁.cell _ _ hcur
        obtain rfl := Option.some.inj (hmp.symm.trans hmp')
        rw [hidx₂] at hi
        exact hi (hidx.symm.trans hidx')
    · intro other info hmp
      dsimp only at hmp ⊢
      by_cases hne : other = seq
      · subst hne
        rw [Function.update_self] at hmp
        obtain rfl := Option.some.inj hmp
        exact ⟨Function.update_self _ _ _, hlt⟩
      · rw [Function.update_of_ne hne, hmp₂] at hmp
        split at hmp
        · exact absurd hmp (by simp)
        · next hcur =>
            obtain ⟨hcell, hinfo⟩ := hwf₁.entry other info hmp
            have hi : info.index ≠ a₂.index := by
              rintro heq
              rw [heq, hidx₂] at hcell
              exact hcur hcell
            exact ⟨by rw [Function.update_of_ne hi, hbuf₂]; exact hcell, hinfo⟩
  · show Ring.next antiReplayBuffSize a₂.index = _
    rw [hidx₂, hidx₁]
  · show Function.update a₂.mp seq _ seq = _
    rw [Function.update_self, hidx₂, hidx₁]
  · intro other hne
    show Function.update a₂.mp seq _ other = _ ∨ (Function.update a₂.mp seq _ other = _ ∧ _)
    rw [Function.update_of_ne hne, hmp₂]
    have hmp : a₁.mp other = a.mp other := by rw [hmp₁, Function.update_of_ne hne]
    split
    · next hcur =>
        obtain ⟨info, hinfo, hidx⟩ := hwf₁.cell _ _ hcur
        exact .inr ⟨rfl, info, hmp ▸ hinfo, hidx.trans hidx₁⟩
    · exact .inl hmp

theorem setInvaild_of_not_valid {a : AntiReplay} {now : UInt64} {seq : UInt32}
    (h : ¬ a.Valid now seq) : a.setInvaild now seq = .ok a := by
  unfold setInvaild
  rw [isVaild_of_not_valid h]
  rfl

/-! ## Staying remembered -/

/-- The number was recorded at time `t`, and `r` others have been since. -/
def Remembered (a : AntiReplay) (seq : UInt32) (t : UInt64) (r : Nat) : Prop :=
  ∃ k, a.mp seq = some ⟨t, k⟩ ∧ Ring.Ago antiReplayBuffSize a.index k (r + 1)

theorem Remembered.not_valid {a : AntiReplay} {now t : UInt64} {seq : UInt32} {r : Nat}
    (h : a.Remembered seq t r) (hyoung : now - t ≤ antiReplayTimeout) :
    ¬ a.Valid now seq := by
  obtain ⟨k, hmp, -⟩ := h
  intro hvalid
  exact UInt64.not_lt.mpr hyoung (hvalid _ hmp)

/-- What a sequence of operations at time `now` may do to the window: `n`
numbers, all of them in `L`, were recorded. -/
structure Evolves (now : UInt64) (L : Set UInt32) (a a' : AntiReplay) (n : Nat) : Prop where
  wf : a'.Wf
  index : a'.index = (Ring.next antiReplayBuffSize)^[n] a.index
  absent : ∀ seq, seq ∉ L → a.mp seq = none → a'.mp seq = none
  remembered : ∀ seq t r, a.Remembered seq t r → now - t ≤ antiReplayTimeout →
    r + n < antiReplayBuffSize → a'.Remembered seq t (r + n)

theorem Evolves.refl {now : UInt64} {L : Set UInt32} {a : AntiReplay} (hwf : a.Wf) :
    Evolves now L a a 0 where
  wf := hwf
  index := rfl
  absent := fun _ _ h => h
  remembered := fun _ _ _ h _ _ => h

theorem Evolves.trans {now : UInt64} {L : Set UInt32} {a₁ a₂ a₃ : AntiReplay} {n m : Nat}
    (h : Evolves now L a₁ a₂ n) (h' : Evolves now L a₂ a₃ m) :
    Evolves now L a₁ a₃ (n + m) where
  wf := h'.wf
  index := by rw [h'.index, h.index, ← Function.iterate_add_apply, Nat.add_comm]
  absent := fun seq hseq hnone => h'.absent seq hseq (h.absent seq hseq hnone)
  remembered := by
    intro seq t r hrem hyoung hr
    rw [← Nat.add_assoc]
    exact h'.remembered seq t (r + n) (h.remembered seq t r hrem hyoung (by omega)) hyoung
      (by omega)

/-- Asking about a number records nothing. -/
theorem evolves_isVaild {now : UInt64} {L : Set UInt32} {a a' : AntiReplay} {seq : UInt32}
    (hwf : a.Wf) (h : a.isVaild now seq = (true, a')) : Evolves now L a a' 0 := by
  have hvalid : a.Valid now seq := by
    by_contra hno
    rw [isVaild_of_not_valid hno] at h
    exact absurd h (by simp)
  obtain ⟨a'', hok, hwf', hidx, hmp⟩ := isVaild_of_valid hwf hvalid
  obtain rfl : a'' = a' := (Prod.mk.inj (hok.symm.trans h)).2
  refine ⟨hwf', hidx, ?_, ?_⟩
  · intro other _ hnone
    rw [hmp]
    by_cases heq : other = seq
    · subst heq
      simp
    · rw [Function.update_of_ne heq]
      exact hnone
  · intro other t r hrem hyoung _
    have hne : other ≠ seq := by
      rintro rfl
      exact hrem.not_valid hyoung hvalid
    obtain ⟨k, hmp', hago⟩ := hrem
    exact ⟨k, by rw [hmp, Function.update_of_ne hne]; exact hmp', hidx ▸ hago⟩

/-- One call of `set_invaild` never aborts and records at most one number;
one recorded less than the window's size ago stays remembered. -/
theorem setInvaild_evolves {a : AntiReplay} (hwf : a.Wf) (now : UInt64) {seq : UInt32}
    {L : Set UInt32} (hL : seq ∈ L) :
    ∃ a' n, a.setInvaild now seq = .ok a' ∧ n ≤ 1 ∧ Evolves now L a a' n := by
  by_cases h : a.Valid now seq
  · obtain ⟨a', hok, hwf', hidx, hself, hother⟩ := setInvaild_of_valid hwf h
    refine ⟨a', 1, hok, Nat.le_refl _, hwf', hidx, ?_, ?_⟩
    · intro other hnot hnone
      rcases hother other (fun heq => hnot (heq ▸ hL)) with hkeep | ⟨hgone, -⟩
      · exact hkeep.trans hnone
      · exact hgone
    · intro other t r hrem hyoung hr
      have hne : other ≠ seq := by
        rintro rfl
        exact hrem.not_valid hyoung h
      obtain ⟨k, hmp, hago⟩ := hrem
      have hk : k < antiReplayBuffSize := (hwf.entry _ _ hmp).2
      have hcur : k ≠ a.index := hago.ne_cursor hk (Nat.succ_pos r) hr
      rcases hother other hne with hkeep | ⟨-, info, hinfo, hat⟩
      · exact ⟨k, hkeep.trans hmp, by rw [hidx]; exact hago.next hwf.index_lt⟩
      · obtain rfl := Option.some.inj (hmp.symm.trans hinfo)
        exact absurd hat hcur
  · exact ⟨a, 0, setInvaild_of_not_valid h, Nat.zero_le _, Evolves.refl hwf⟩

theorem evolves_setInvaild {a a' : AntiReplay} {now : UInt64} {seq : UInt32}
    {L : Set UInt32} (hwf : a.Wf) (hL : seq ∈ L) (h : a.setInvaild now seq = .ok a') :
    ∃ n ≤ 1, Evolves now L a a' n := by
  obtain ⟨a'', n, hok, hn, hev⟩ := setInvaild_evolves hwf now hL
  obtain rfl := Except.ok.inj (h.symm.trans hok)
  exact ⟨n, hn, hev⟩

/-- A call of the window's interface. -/
inductive Op where
  | isVaild (now : UInt64) (seq : UInt32)
  | setInvaild (now : UInt64) (seq : UInt32)

/-- One call, with what `is_vaild` answers. -/
def call (a : AntiReplay) : Op → Checked (AntiReplay × Bool)
  | .isVaild now seq => .ok ((a.isVaild now seq).2, (a.isVaild now seq).1)
  | .setInvaild now seq => do
      let a ← a.setInvaild now seq
      return (a, true)

/-- No sequence of calls aborts. -/
theorem calls_total {a : AntiReplay} (hwf : a.Wf) (ops : List Op) :
    ∃ a' outs, run call a ops = .ok (a', outs) ∧ a'.Wf := by
  refine run_total (fun a op _ hwf => ?_) hwf
  cases op with
  | isVaild now seq =>
      refine ⟨_, _, rfl, ?_⟩
      by_cases hvalid : a.Valid now seq
      · obtain ⟨a', hisv, hwf', -, -⟩ := isVaild_of_valid hwf hvalid
        rw [hisv]
        exact hwf'
      · rw [isVaild_of_not_valid hvalid]
        exact hwf
  | setInvaild now seq =>
      obtain ⟨a', n, hset, -, hev⟩ := setInvaild_evolves hwf now (Set.mem_singleton seq)
      refine ⟨a', true, ?_, hev.wf⟩
      show (a.setInvaild now seq >>= fun a => pure (a, true)) = _
      rw [hset]
      rfl

/-- A number that is recorded now is remembered as of now. -/
theorem remembered_setInvaild {a a' : AntiReplay} {now : UInt64} {seq : UInt32}
    (hwf : a.Wf) (hvalid : a.Valid now seq) (h : a.setInvaild now seq = .ok a') :
    a'.Remembered seq now 0 := by
  obtain ⟨a'', hok, -, hidx, hself, -⟩ := setInvaild_of_valid hwf hvalid
  obtain rfl := Except.ok.inj (h.symm.trans hok)
  exact ⟨a.index, hself, by rw [hidx]; exact Ring.ago_self hwf.index_lt⟩

end AntiReplay

end Fecraw.Ports
