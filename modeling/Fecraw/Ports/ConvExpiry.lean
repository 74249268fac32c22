import Fecraw.Ports.LruClock
import Fecraw.Verified.Checked

/-!
# Expired conversations

A table of conversations together with the clock.  Its calls come in any order, and
other parts of the program read the clock between them.  A round of
`clear_inactive0` looks at the oldest conversation only; since the list is sorted,
all others are younger, so that a round that ends early leaves no conversation
that has expired.

The clear function of a table is a parameter and may fail.

## Main results

* `ends_clearLoop_early`: where the loop stops early, nothing has expired.
* `ends_step`: no legal call fails, unless the clear function does.
* `clock_lru_sound`: the clock, the collector and the table over all runs.
-/

namespace Fecraw.Ports.Raw

open Fecraw.Verified

/-! ## The machine -/

/-- The clock, a table, and what its clear function works on. -/
structure ConvState (δ ω : Type) where
  clock : Clock
  conv : ConvManager δ
  world : ω

/-- A call of a table, with what `ev_time` returns during it. -/
inductive ConvCall (δ : Type) where
  | insertConv (conv : UInt32) (data : δ) (rawValue : UInt64)
  | updateActiveTime (conv : UInt32) (rawValue : UInt64)
  | eraseConv (conv : UInt32)
  | clear
  | clearInactive (rawValue rawValue' rawValue'' : UInt64)
  | clearInactive0 (rawValue : UInt64)
  /-- The time is read elsewhere. -/
  | tick (rawValue : UInt64)

/-- `num_to_clean`. -/
def numToClean (size : Nat) : Nat := min (size / convClearRatio + convClearMin) size

namespace ConvState

variable {δ ω : Type} [DecidableEq δ] [Inhabited δ] (clear : ω → δ → Except Fault ω)

/-- `clear_inactive0`. -/
def clearInactive0 (s : ConvState δ ω) (rawValue : UInt64) : Except Fault (ConvState δ ω) := do
  let r ← ConvManager.clearLoop clear (s.clock.getCurrentTime rawValue).2.toNat
    (numToClean s.conv.lru.q.length) s.conv s.world
  return { clock := (s.clock.getCurrentTime rawValue).1, conv := r.1, world := r.2 }

/-- `clear_inactive`, which reads the clock for itself at most twice. -/
def clearInactive (s : ConvState δ ω) (rawValue rawValue' rawValue'' : UInt64) :
    Except Fault (ConvState δ ω) :=
  let t := s.clock.getCurrentTime rawValue
  if convClearInterval < elapsed t.2.toNat s.conv.lastClearTime then
    let t' := t.1.getCurrentTime rawValue'
    clearInactive0 clear
      { s with clock := t'.1, conv := { s.conv with lastClearTime := t'.2.toNat } } rawValue''
  else .ok { s with clock := t.1 }

/-- A call. -/
def step (s : ConvState δ ω) : ConvCall δ → Except Fault (ConvState δ ω × Unit)
  | .insertConv conv data rawValue => do
      let m ← s.conv.insertConv conv data (s.clock.getCurrentTime rawValue).2.toNat
      return ({ s with clock := (s.clock.getCurrentTime rawValue).1, conv := m }, ())
  | .updateActiveTime conv rawValue => do
      let m ← s.conv.updateActiveTime conv (s.clock.getCurrentTime rawValue).2.toNat
      return ({ s with clock := (s.clock.getCurrentTime rawValue).1, conv := m }, ())
  | .eraseConv conv => do
      let r ← ConvManager.eraseConv clear s.conv s.world conv
      return ({ s with conv := r.1, world := r.2 }, ())
  | .clear => do
      let w ← ConvManager.clearAll clear s.conv s.world
      return ({ s with conv := { lastClearTime := s.conv.lastClearTime }, world := w }, ())
  | .clearInactive rawValue rawValue' rawValue'' => do
      let s ← s.clearInactive clear rawValue rawValue' rawValue''
      return (s, ())
  | .clearInactive0 rawValue => do
      let s ← s.clearInactive0 clear rawValue
      return (s, ())
  | .tick rawValue => .ok ({ s with clock := (s.clock.getCurrentTime rawValue).1 }, ())

/-- A call may be made: `insert_conv` for a conversation that is not in the table,
`update_active_time` and `erase_conv` for one that is. -/
def Legal (s : ConvState δ ω) : ConvCall δ → Prop
  | .insertConv conv _ _ => conv ∉ s.conv.convToData
  | .updateActiveTime conv _ | .eraseConv conv => conv ∈ s.conv.convToData
  | _ => True

end ConvState

/-! ## The loop -/

/-- A failure of the clear function. -/
def ClearFails {δ ω : Type} (clear : ω → δ → Except Fault ω) (e : Fault) : Prop :=
  ∃ w d, clear w d = .error e

section loop

variable {δ ω : Type} {clear : ω → δ → Except Fault ω}

theorem ends_clearFunction (w : ω) (d : δ) : Ends (clear w d) (ClearFails clear) fun _ => True := by
  cases hclear : clear w d with
  | ok w' => trivial
  | error e => exact ⟨w, d, hclear⟩

theorem ends_clearAll (m : ConvManager δ) (w : ω) :
    Ends (m.clearAll clear w) (ClearFails clear) fun _ => True :=
  ends_foldlM (fun w e _ _ => ends_clearFunction w e.2) trivial

variable [DecidableEq δ] [Inhabited δ] {m : ConvManager δ} {w : ω} {now : Nat}

/-- A conversation that is erased is one less. -/
theorem ends_eraseConv_length {conv : UInt32} (h : m.Wf now) (hconv : conv ∈ m.convToData) :
    Ends (ConvManager.eraseConv clear m w conv) (ClearFails clear) fun r =>
      r.1.Wf now ∧ r.1.lru.q.length + 1 = m.lru.q.length := by
  obtain ⟨d, hd⟩ := Option.isSome_iff_exists.mp (AList.lookup_isSome.mpr hconv)
  refine (ConvManager.ends_eraseConv h hd (ends_clearFunction w d)).imp ?_
  rintro ⟨m', w'⟩ hok ⟨hwf, -, -⟩
  refine ⟨hwf, ?_⟩
  obtain ⟨w₁, -, hrest⟩ := Checked.doBind_eq_ok.mp hok
  obtain ⟨l, herase, hret⟩ := Checked.doBind_eq_ok.mp hrest
  obtain ⟨rfl, -⟩ := Prod.mk.inj (Except.ok.inj hret)
  obtain ⟨hmem, rfl⟩ := Lru.erase_eq_ok.mp herase
  obtain ⟨e, he, hkey⟩ := List.mem_map.mp ((h.lru.mem conv).mp hmem)
  show (Lru.without m.lru.q conv).length + 1 = m.lru.q.length
  unfold Lru.without
  rw [List.length_eraseP_of_mem he (by simpa using hkey)]
  have := List.length_pos_of_mem he
  omega

/-- The loop erases as many conversations as it may, or stops early, and then nothing
that is left has expired. -/
theorem ends_clearLoop_early (hnow : now < 2 ^ 64) (n : Nat) (h : m.Wf now) :
    Ends (ConvManager.clearLoop clear now n m w) (ClearFails clear) fun r =>
      r.1.Wf now ∧ (r.1.lru.q.length + n = m.lru.q.length ∨
        ∀ e ∈ r.1.lru.q, now - e.2 < convTimeout) := by
  induction n generalizing m w with
  | zero => exact ⟨h, .inl rfl⟩
  | succ n ih =>
      unfold ConvManager.clearLoop
      cases hlast : m.lru.q.getLast? with
      | none =>
          refine ⟨h, .inr fun e he => ?_⟩
          rw [List.getLast?_eq_none_iff.mp hlast] at he
          exact absurd he List.not_mem_nil
      | some e =>
          obtain ⟨conv, ts⟩ := e
          apply ends_ite
          · intro hyoung
            refine ⟨h, .inr fun e he => ?_⟩
            have hts : ts ≤ e.2 := h.lru.le_of_getLast? hlast e he
            have hle := h.lru.le e he
            rw [elapsed_eq (hts.trans hle) hnow] at hyoung
            omega
          · intro _
            have hconv : conv ∈ m.convToData :=
              AList.lookup_isSome.mp (Option.isSome_iff_exists.mpr (h.lookup_of_getLast? hlast))
            apply (ends_eraseConv_length h hconv).bind
            rintro ⟨m', w'⟩ ⟨hwf, hlength⟩
            refine (ih hwf).mono ?_ fun e he => he
            rintro r ⟨hr, hdone | hyoung⟩
            · exact ⟨hr, .inl (by omega)⟩
            · exact ⟨hr, .inr hyoung⟩

end loop

/-! ## Runs -/

namespace ConvState

variable {δ ω : Type} [DecidableEq δ] [Inhabited δ] {clear : ω → δ → Except Fault ω}
  {s s₀ : ConvState δ ω}

/-- The table is sound at the time of the clock. -/
def Sound (s : ConvState δ ω) : Prop := s.conv.Wf s.clock.now

/-- Fewer conversations were cleared than `num_to_clean`. -/
def StoppedEarly (s s' : ConvState δ ω) : Prop :=
  s.conv.lru.q.length < s'.conv.lru.q.length + numToClean s.conv.lru.q.length

/-- No conversation of the table was idle for `conv_timeout`. -/
def NoneExpired (s : ConvState δ ω) : Prop :=
  ∀ conv ∈ s.conv.convToData, ∃ ts, (conv, ts) ∈ s.conv.lru.q ∧ ts ≤ s.clock.now ∧
    s.clock.now - ts < convTimeout

theorem ends_clearInactive0 (h : s.Sound) (rawValue : UInt64) :
    Ends (s.clearInactive0 clear rawValue) (ClearFails clear) fun s' =>
      s'.Sound ∧ (s.StoppedEarly s' → s'.NoneExpired) := by
  have hnow : (s.clock.getCurrentTime rawValue).1.now < 2 ^ 64 := UInt64.toNat_lt _
  have hwf := h.mono (s.clock.now_le rawValue)
  unfold clearInactive0
  rw [Clock.getCurrentTime_eq]
  apply (ends_clearLoop_early hnow _ hwf).bind
  rintro r ⟨hr, hearly⟩
  refine ⟨hr, fun hstopped conv hconv => ?_⟩
  rcases hearly with hall | hyoung
  · exact absurd hstopped (by unfold StoppedEarly; dsimp only; omega)
  · obtain ⟨e, he, rfl⟩ := List.mem_map.mp ((hr.lru.mem conv).mp ((hr.keys conv).mp hconv))
    exact ⟨e.2, he, hr.lru.le e he, hyoung e he⟩

/-- No legal call fails, unless the clear function does. -/
theorem ends_step (h : s.Sound) {call : ConvCall δ} (hlegal : s.Legal call) :
    Ends (s.step clear call) (ClearFails clear) fun r => r.1.Sound := by
  cases call with
  | insertConv conv data rawValue =>
      have hunused : ¬ s.conv.isConvUsed conv :=
        fun hused => hlegal (ConvManager.isConvUsed_iff.mp hused)
      obtain ⟨m, hm, hwf, -⟩ :=
        @ConvManager.Wf.insertConv δ _ s.conv conv data _ _ h (s.clock.now_le rawValue) hunused
      rw [step, Clock.getCurrentTime_eq, hm]
      exact hwf
  | updateActiveTime conv rawValue =>
      obtain ⟨m, hm, hwf, -⟩ := h.updateActiveTime (s.clock.now_le rawValue) hlegal
      rw [step, Clock.getCurrentTime_eq, hm]
      exact hwf
  | eraseConv conv =>
      rw [step]
      apply (ends_eraseConv_length h hlegal).bind
      exact fun r hr => hr.1
  | clear =>
      rw [step]
      apply (ends_clearAll s.conv s.world).bind
      exact fun w _ => ConvManager.wf_init _ _
  | clearInactive rawValue rawValue' rawValue'' =>
      rw [step]
      refine Ends.bind ?_ fun s' (hs' : s'.Sound) => hs'
      unfold clearInactive
      apply ends_ite
      · intro _
        have hle := (s.clock.now_le rawValue).trans
          (Clock.now_le (s.clock.getCurrentTime rawValue).1 rawValue')
        have hwf := h.mono hle
        refine (ends_clearInactive0 ?_ rawValue'').mono (fun s' hs' => hs'.1) fun e he => he
        exact ⟨hwf.keys, hwf.lru⟩
      · intro _
        exact h.mono (s.clock.now_le rawValue)
  | clearInactive0 rawValue =>
      rw [step]
      apply (ends_clearInactive0 h rawValue).bind
      exact fun s' hs' => hs'.1
  | tick rawValue => exact h.mono (s.clock.now_le rawValue)

/-- The table stays sound. -/
theorem sound_of_reached (h₀ : s₀.Sound) (h : Reached (step clear) Legal s₀ s) : s.Sound :=
  h.invariant (fun _ _ _ _ hs hlegal hstep => (ends_step hs hlegal).of_ok hstep) h₀

end ConvState

/-- The clock never goes back; no legal sequence of calls of the collector fails and
it is sound after each; and in every state that a table reaches, its calls fail only
where the clear function does, and a round of `clear_inactive0` that stops early
leaves no conversation that has expired. -/
theorem clock_lru_sound {κ δ ω : Type} [DecidableEq κ] [DecidableEq δ] [Inhabited δ]
    (clear : ω → δ → Except Fault ω) :
    (∀ (clock : Clock) (raws : List UInt64), (clock.readings raws).Pairwise (· ≤ ·)) ∧
    (∀ (clock : Clock) (calls : List (LruCall κ)), LegalRun calls →
      ∃ s, calls.foldlM LruState.step { clock, lru := {} } = .ok s ∧ LruSound calls s.lru) ∧
    ∀ (clock : Clock) (t : Nat) (w : ω) (s : ConvState δ ω),
      Reached (ConvState.step clear) ConvState.Legal
        { clock, conv := { lastClearTime := t }, world := w } s →
      (∀ call, s.Legal call → Ends (s.step clear call) (ClearFails clear) fun _ => True) ∧
      ∀ rawValue, Ends (s.clearInactive0 clear rawValue) (ClearFails clear) fun s' =>
        s.StoppedEarly s' → s'.NoneExpired := by
  refine ⟨Clock.pairwise_readings, fun clock calls => run_of_legal clock, ?_⟩
  intro clock t w s hreached
  have hstart : ConvState.Sound ({ clock, conv := { lastClearTime := t }, world := w } :
      ConvState δ ω) := ConvManager.wf_init _ t
  have hsound := ConvState.sound_of_reached hstart hreached
  refine ⟨fun call hlegal => ?_, fun rawValue => ?_⟩
  · exact (ConvState.ends_step hsound hlegal).mono (fun _ _ => trivial) fun e he => he
  · exact (ConvState.ends_clearInactive0 hsound rawValue).mono (fun s' hs' => hs'.2) fun e he => he

/-- Two keys, and the first again after the clock was set back. -/
def setBack : List (LruCall UInt32) := [.newKey 7 5000000, .newKey 8 6000000, .update 7 1000]

/-- A clear function that does nothing. -/
def keepAll (w : Unit) (_ : Nat) : Except Fault Unit := .ok w

/-- A legal run over a clock that is set back, and a table with one conversation. -/
theorem clock_lru_sound_setBack :
    LegalRun setBack ∧
    (∃ s, setBack.foldlM LruState.step { clock := {}, lru := {} } = .ok s ∧
      LruSound setBack s.lru) ∧
    ∃ s : ConvState Nat Unit, Reached (ConvState.step keepAll) ConvState.Legal
        { clock := {}, conv := { lastClearTime := 0 }, world := () } s ∧
      (7 : UInt32) ∈ s.conv.convToData ∧
      Ends (s.clearInactive0 keepAll 1000) (ClearFails keepAll)
        fun s' => s.StoppedEarly s' → s'.NoneExpired := by
  have hlegal : LegalRun setBack := by
    intro before call after heq
    match before, heq with
    | [], heq => cases heq; rfl
    | [_], heq => cases heq; rfl
    | [_, _], heq => cases heq; rfl
    | _ :: _ :: _ :: _, heq => exact absurd (congrArg List.length heq) (by simp [setBack])
  have hreached : Reached (ConvState.step keepAll) ConvState.Legal
      { clock := {}, conv := { lastClearTime := 0 }, world := () } _ :=
    .next (i := .insertConv 7 3 5000000) .start (by simp [ConvState.Legal]) rfl
  obtain ⟨-, hruns, htable⟩ := @clock_lru_sound UInt32 Nat Unit _ _ _ keepAll
  exact ⟨hlegal, hruns {} _ hlegal, _, hreached, by decide, (htable {} 0 () _ hreached).2 1000⟩

end Fecraw.Ports.Raw
