import Fecraw.Ports.AdaptiveFec

/-!
# Runs of the adaptive FEC controller

The controller over whole runs of `record_sent`, `record_loss`, `set_rtt` and
`adjust`, in any order.  An `adjust` that reaches the evaluation is an
effective one; the log of a run lists its effective evaluations in order.

A quiet evaluation at the minimum counts as a low one too, although the
target is not below the parity then.  It does no harm: the parity is left at
the minimum, and the way up clears the count.

## Main results

* `adjust_moves`: what an effective evaluation can do.
* `step_range_iff`: the starting ratios from which the parity moves by at most
  one and stays in its bounds.
* `hysteresis`: when evaluations are made, and when they raise and lower the
  parity.
-/

namespace Fecraw.Ports.AdaptiveFec

/-! ## One evaluation -/

/-- What an effective evaluation can do to the parity and to the count. -/
inductive Moves (a b : AdaptiveFec) : Prop where
  | up (h : a.parityShards < a.target) (hparity : b.parityShards = a.clamp (a.parityShards + 1))
      (hlow : b.consecutiveLow = 0)
  | down (h : a.target < a.parityShards) (hthree : 3 ≤ a.consecutiveLow + 1)
      (hparity : b.parityShards = a.clamp (a.parityShards - 1)) (hlow : b.consecutiveLow = 0)
  | low (h : a.target < a.parityShards) (hthree : a.consecutiveLow + 1 < 3)
      (hparity : b.parityShards = a.clamp a.parityShards)
      (hlow : b.consecutiveLow = a.consecutiveLow + 1)
  | quiet (h : a.target = a.parityShards) (hrate : a.lossRate < 2 / 100)
      (hparity : b.parityShards = a.clamp a.parityShards)
  | lossy (h : a.target = a.parityShards) (hparity : b.parityShards = a.clamp a.parityShards)
      (hlow : b.consecutiveLow = 0)

section Adjust

variable {a : AdaptiveFec} {now : ℚ}

theorem adjust_of_holds (h : a.holds now) : a.adjust now = (a, false) := if_pos h

theorem adjust_moves (h : ¬ a.holds now) : Moves a (a.adjust now).1 := by
  have hparity : (a.adjust now).1.parityShards = a.clamp a.move.parityShards := by
    unfold adjust
    rw [if_neg h]
  have hlow : (a.adjust now).1.consecutiveLow = a.move.consecutiveLow := by
    unfold adjust
    rw [if_neg h]
  unfold move at hparity hlow
  by_cases hup : a.target > a.parityShards
  · rw [if_pos hup] at hparity hlow
    exact .up hup hparity hlow
  rw [if_neg hup] at hparity hlow
  by_cases hdown : a.target < a.parityShards
  · rw [if_pos hdown] at hparity hlow
    by_cases hthree : a.consecutiveLow + 1 ≥ 3
    · rw [if_pos hthree] at hparity hlow
      exact .down hdown hthree hparity hlow
    · rw [if_neg hthree] at hparity hlow
      exact .low hdown (not_le.mp hthree) hparity hlow
  · rw [if_neg hdown] at hparity hlow
    have htarget : a.target = a.parityShards := by omega
    by_cases hrate : a.lossRate < 2 / 100
    · rw [if_pos hrate] at hparity
      exact .quiet htarget hrate hparity
    · rw [if_neg hrate] at hparity hlow
      exact .lossy htarget hparity hlow

/-- An evaluation starts the next window. -/
theorem adjust_resets (h : ¬ a.holds now) : (a.adjust now).1.lastAdjustTime = now := by
  unfold adjust
  rw [if_neg h]

theorem clamp_of_mem {n : Int} (hlo : a.minParity ≤ n) (hhi : n ≤ a.maxParity) : a.clamp n = n := by
  rw [clamp_of_le hlo, min_eq_left hhi]

theorem clamp_mem (h : a.minParity ≤ a.maxParity) (n : Int) :
    a.minParity ≤ a.clamp n ∧ a.clamp n ≤ a.maxParity := by
  unfold clamp
  dsimp only
  split_ifs <;> omega

/-- A bound that is missed by one is missed by one step. -/
theorem clamp_near {n : Int} (h : a.minParity ≤ a.maxParity) (hlo : a.minParity - 1 ≤ n)
    (hhi : n ≤ a.maxParity + 1) : a.clamp n - n ≤ 1 ∧ n - a.clamp n ≤ 1 := by
  unfold clamp
  dsimp only
  split_ifs <;> omega

theorem target_mem (h : a.minParity ≤ a.maxParity) :
    a.minParity ≤ a.target ∧ a.target ≤ a.maxParity :=
  clamp_mem h _

/-- At a low loss rate the target is the minimum. -/
theorem target_of_quiet (h : a.minParity ≤ a.maxParity) (hrate : a.lossRate < 2 / 100) :
    a.target = a.minParity := by
  unfold target
  rw [if_pos hrate]
  exact clamp_of_mem le_rfl h

end Adjust

/-! ## Runs -/

/-- The calls of the controller, with the time at which `adjust` is called. -/
inductive Event where
  | recordSent (n : Int)
  | recordLoss (n : Int)
  | setRtt (ms : ℚ)
  | adjust (now : ℚ)

/-- One call. -/
def step (a : AdaptiveFec) : Event → AdaptiveFec
  | .recordSent n => a.recordSent n
  | .recordLoss n => a.recordLoss n
  | .setRtt ms => a.setRtt ms
  | .adjust now => (a.adjust now).1

/-- The controller after a run. -/
def after (a : AdaptiveFec) (events : List Event) : AdaptiveFec := events.foldl step a

/-- An effective evaluation: the controller before it, and its time. -/
structure Evaluation where
  before : AdaptiveFec
  now : ℚ

namespace Evaluation

def result (e : Evaluation) : AdaptiveFec := (e.before.adjust e.now).1

/-- The target is below the parity. -/
def Low (e : Evaluation) : Prop := e.before.target < e.before.parityShards

end Evaluation

/-- The evaluation that a call makes. -/
def evaluation (a : AdaptiveFec) : Event → List Evaluation
  | .adjust now => if a.holds now then [] else [⟨a, now⟩]
  | _ => []

/-- The effective evaluations of a run. -/
def evaluations (a : AdaptiveFec) : List Event → List Evaluation
  | [] => []
  | ev :: events => a.evaluation ev ++ (a.step ev).evaluations events

theorem after_concat (a : AdaptiveFec) (events : List Event) (ev : Event) :
    a.after (events ++ [ev]) = (a.after events).step ev := by
  unfold after
  rw [List.foldl_append]
  rfl

theorem evaluations_concat (events : List Event) (ev : Event) : ∀ a : AdaptiveFec,
    a.evaluations (events ++ [ev]) = a.evaluations events ++ (a.after events).evaluation ev := by
  induction events with
  | nil =>
      intro a
      show a.evaluation ev ++ [] = [] ++ a.evaluation ev
      rw [List.append_nil, List.nil_append]
  | cons e events ih =>
      intro a
      show a.evaluation e ++ (a.step e).evaluations (events ++ [ev]) = _
      rw [ih (a.step e), ← List.append_assoc]
      rfl

/-- Calls other than `adjust` leave the parity, its bounds and the count
alone. -/
structure Frame (a b : AdaptiveFec) : Prop where
  data : b.dataShards = a.dataShards
  parity : b.parityShards = a.parityShards
  minParity : b.minParity = a.minParity
  maxParity : b.maxParity = a.maxParity
  low : b.consecutiveLow = a.consecutiveLow
  last : b.lastAdjustTime = a.lastAdjustTime

/-- A call is an effective evaluation, or leaves the controller's own fields
alone. -/
theorem step_cases (a : AdaptiveFec) (ev : Event) :
    (∃ now, ev = .adjust now ∧ ¬ a.holds now ∧ a.step ev = (a.adjust now).1 ∧
      a.evaluation ev = [⟨a, now⟩]) ∨ (Frame a (a.step ev) ∧ a.evaluation ev = []) := by
  cases ev with
  | recordSent n => exact .inr ⟨⟨rfl, rfl, rfl, rfl, rfl, rfl⟩, rfl⟩
  | recordLoss n => exact .inr ⟨⟨rfl, rfl, rfl, rfl, rfl, rfl⟩, rfl⟩
  | setRtt ms => exact .inr ⟨⟨rfl, rfl, rfl, rfl, rfl, rfl⟩, rfl⟩
  | adjust now =>
      by_cases h : a.holds now
      · refine .inr ⟨?_, if_pos h⟩
        show Frame a (a.adjust now).1
        rw [adjust_of_holds h]
        exact ⟨rfl, rfl, rfl, rfl, rfl, rfl⟩
      · exact .inl ⟨now, rfl, h, rfl, if_neg h⟩

/-! ## Steps and range -/

/-- Every `adjust` changes the parity by at most one, and after the first
effective evaluation the parity is in its bounds, of which the lower one
is 2. -/
def StepRange (a : AdaptiveFec) : Prop :=
  ∀ events, (∀ now, |((a.after events).adjust now).1.parityShards
      - (a.after events).parityShards| ≤ 1) ∧
    (a.evaluations events ≠ [] → (a.after events).minParity = 2 ∧
      2 ≤ (a.after events).parityShards ∧
      (a.after events).parityShards ≤ (a.after events).maxParity)

/-- The bounds, and a parity that is out of them by at most one. -/
structure Near (d : Int) (a : AdaptiveFec) : Prop where
  minParity : a.minParity = 2
  maxParity : a.maxParity = d
  parity_ge : 1 ≤ a.parityShards
  parity_le : a.parityShards ≤ d + 1

section Near

variable {d : Int} {a : AdaptiveFec}

theorem Near.bounds (h : Near d a) (hd : 2 ≤ d) : a.minParity ≤ a.maxParity := by
  rw [h.minParity, h.maxParity]
  exact hd

/-- From a parity that is nearly in its bounds, an evaluation moves by one
step and into the bounds. -/
theorem Near.adjust (h : Near d a) (hd : 2 ≤ d) {now : ℚ} (hgo : ¬ a.holds now) :
    |(a.adjust now).1.parityShards - a.parityShards| ≤ 1 ∧
      2 ≤ (a.adjust now).1.parityShards ∧ (a.adjust now).1.parityShards ≤ d := by
  have hle := h.bounds hd
  have hmin := h.minParity
  have hmax := h.maxParity
  have hge := h.parity_ge
  have hlt := h.parity_le
  obtain ⟨htlo, hthi⟩ := target_mem hle
  have hnear := clamp_near hle (by omega : a.minParity - 1 ≤ a.parityShards) (by omega)
  have hmem := clamp_mem hle
  rw [abs_le]
  cases adjust_moves hgo with
  | up hup hparity _ =>
      have hclamp : a.clamp (a.parityShards + 1) = a.parityShards + 1 :=
        clamp_of_mem (by omega) (by omega)
      rw [hparity, hclamp]
      omega
  | down hdown _ hparity _ =>
      have hclamp : a.clamp (a.parityShards - 1) = a.parityShards - 1 :=
        clamp_of_mem (by omega) (by omega)
      rw [hparity, hclamp]
      omega
  | low _ _ hparity _ | quiet _ _ hparity | lossy _ hparity _ =>
      have hin := hmem a.parityShards
      rw [hparity]
      omega

/-- A run from a starting ratio that is nearly in its bounds. -/
theorem near_after (hd : 2 ≤ d) {p : Int} (hlo : 1 ≤ p) (hhi : p ≤ d + 1) (events : List Event) :
    Near d ((init d p).after events) ∧ ((init d p).evaluations events ≠ [] →
      2 ≤ ((init d p).after events).parityShards ∧
        ((init d p).after events).parityShards ≤ d) := by
  induction events using List.reverseRecOn with
  | nil => exact ⟨⟨rfl, rfl, hlo, hhi⟩, fun h => absurd rfl h⟩
  | append_singleton events ev ih =>
      obtain ⟨hnear, hin⟩ := ih
      rw [after_concat, evaluations_concat]
      rcases step_cases ((init d p).after events) ev with
        ⟨now, rfl, hgo, hstep, heval⟩ | ⟨hf, heval⟩
      · obtain ⟨-, hge, hle⟩ := hnear.adjust hd hgo
        obtain ⟨-, hmin, hmax⟩ := ((init d p).after events).adjust_other now
        rw [hstep]
        exact ⟨⟨hmin.trans hnear.minParity, hmax.trans hnear.maxParity, by omega, by omega⟩,
          fun _ => ⟨hge, hle⟩⟩
      · rw [heval, List.append_nil]
        refine ⟨⟨hf.minParity.trans hnear.minParity, hf.maxParity.trans hnear.maxParity, ?_, ?_⟩,
          ?_⟩
        · rw [hf.parity]
          exact hnear.parity_ge
        · rw [hf.parity]
          exact hnear.parity_le
        · rw [hf.parity]
          exact hin

end Near

/-- Fifty packets are enough for a first evaluation. -/
theorem not_holds_fifty (d p : Int) : ¬ ((init d p).recordSent 50).holds 1 := by
  have hsent : wrapInt (0 + 50) = 50 := by decide
  show ¬ (wrapInt (0 + 50) < 50 ∨ ((0 : ℚ) > 0 ∧ (1 : ℚ) - 0 < 3))
  rw [hsent]
  simp

/-- Exactly from the ratios `d:p` with at least two data shards, and a parity
from 1 to `d + 1`, does the parity move by at most one and stay in its
bounds. -/
theorem step_range_iff (d p : Int) :
    StepRange (init d p) ↔ 2 ≤ d ∧ 1 ≤ p ∧ p ≤ d + 1 := by
  constructor
  · intro h
    -- the first evaluation of a window of fifty packets
    obtain ⟨hstep, -⟩ := h [.recordSent 50]
    obtain ⟨-, hrange⟩ := h [.recordSent 50, .adjust 1]
    have hlog : (init d p).evaluations [.recordSent 50, .adjust 1] ≠ [] := by
      show ((init d p).recordSent 50).evaluation (.adjust 1) ++ [] ≠ []
      rw [evaluation, if_neg (not_holds_fifty d p)]
      simp
    obtain ⟨-, hge, hle⟩ := hrange hlog
    obtain ⟨-, -, hmax⟩ := ((init d p).recordSent 50).adjust_other 1
    have hone : |(((init d p).recordSent 50).adjust 1).1.parityShards - p| ≤ 1 := hstep 1
    have hge : 2 ≤ (((init d p).recordSent 50).adjust 1).1.parityShards := hge
    have hle : (((init d p).recordSent 50).adjust 1).1.parityShards ≤ d := hle.trans_eq hmax
    rw [abs_le] at hone
    omega
  · rintro ⟨hd, hlo, hhi⟩ events
    obtain ⟨hnear, hin⟩ := near_after hd hlo hhi events
    refine ⟨fun now => ?_, fun hne => ⟨hnear.minParity, (hin hne).1, ?_⟩⟩
    · by_cases hgo : ((init d p).after events).holds now
      · rw [adjust_of_holds hgo, sub_self, abs_zero]
        exact zero_le_one
      · exact (hnear.adjust hd hgo).1
    · rw [hnear.maxParity]
      exact (hin hne).2

/-- A string with more redundant than data packets is accepted, and the first
evaluation lowers the parity by ten at once. -/
theorem step_range_fails : (RsTable.FecParameter.rsFromStr {} "10:20".toList).isSome ∧
    ¬ StepRange (start "10:20".toList) := by
  refine ⟨by decide, fun h => ?_⟩
  have hone := (h [.recordSent 50]).1 1
  have heval : ¬ |((start "10:20".toList).recordSent 50 |>.adjust 1).1.parityShards - 20| ≤ 1 := by
    decide +kernel
  exact heval hone

/-! ## Hysteresis -/

/-- The time of a call, if it reads the clock. -/
def Event.time : Event → Option ℚ
  | .adjust now => some now
  | _ => none

/-- The clock is positive and does not run backwards. -/
def Timed (events : List Event) : Prop :=
  (events.filterMap Event.time).Pairwise (· ≤ ·) ∧ ∀ t ∈ events.filterMap Event.time, 0 < t

instance (events : List Event) : Decidable (Timed events) := by
  unfold Timed
  infer_instance

/-- The evaluation `e`, after those of `log`, lowers the parity only as the
third low one in a row. -/
def LowersThird (log : List Evaluation) (e : Evaluation) : Prop :=
  e.result.parityShards < e.before.parityShards →
    e.Low ∧ ∃ rest e₁ e₂, log = rest ++ [e₁, e₂] ∧ e₁.Low ∧ e₂.Low

/-- What the log says about the count of low evaluations: where the parity
can be lowered, it counts those in a row. -/
def Counts (low : Int) (log : List Evaluation) : Prop :=
  low = 0 ∨ (low = 1 ∧ ∃ rest e, log = rest ++ [e] ∧ e.Low) ∨
    (low = 2 ∧ ∃ rest e₁ e₂, log = rest ++ [e₁, e₂] ∧ e₁.Low ∧ e₂.Low)

/-- The controller and the log of the run that led to it. -/
structure Tracked (d : Int) (a : AdaptiveFec) (log : List Evaluation) : Prop where
  data : a.dataShards = d
  minParity : a.minParity = 2
  maxParity : a.maxParity = d
  parity_ge : 2 ≤ a.parityShards
  parity_le : a.parityShards ≤ d
  counts : 2 < a.parityShards → Counts a.consecutiveLow log

section Tracked

variable {d : Int} {a : AdaptiveFec} {log : List Evaluation}

theorem Tracked.bounds (h : Tracked d a log) : a.minParity ≤ a.maxParity := by
  have hge := h.parity_ge
  have hle := h.parity_le
  rw [h.minParity, h.maxParity]
  omega

theorem Tracked.frame (h : Tracked d a log) {b : AdaptiveFec} (hf : Frame a b) :
    Tracked d b log := by
  refine ⟨hf.data.trans h.data, hf.minParity.trans h.minParity, hf.maxParity.trans h.maxParity,
    ?_, ?_, ?_⟩
  · rw [hf.parity]
    exact h.parity_ge
  · rw [hf.parity]
    exact h.parity_le
  · rw [hf.parity, hf.low]
    exact h.counts

/-- An evaluation keeps the count in step with the log, raises the parity only
below the target and lowers it only after two low ones. -/
theorem Tracked.moves (h : Tracked d a log) {b : AdaptiveFec} {e : Evaluation} (he : e.before = a)
    (hm : Moves a b) (hdata : b.dataShards = d) (hmin' : b.minParity = 2)
    (hmax' : b.maxParity = d) :
    Tracked d b (log ++ [e]) ∧ (b.parityShards < a.parityShards → e.Low ∧
      ∃ rest e₁ e₂, log = rest ++ [e₁, e₂] ∧ e₁.Low ∧ e₂.Low) ∧
      (a.parityShards < b.parityShards → a.parityShards < a.target) := by
  have hge := h.parity_ge
  have hle := h.parity_le
  have hmin := h.minParity
  have hmax := h.maxParity
  obtain ⟨htlo, hthi⟩ := target_mem h.bounds
  have hsame : a.clamp a.parityShards = a.parityShards := clamp_of_mem (by omega) (by omega)
  have hlowest : a.target < a.parityShards → e.Low := by
    intro hlt
    rw [Evaluation.Low, he]
    exact hlt
  cases hm with
  | up hup hparity hlow =>
      rw [clamp_of_mem (by omega) (by omega)] at hparity
      refine ⟨⟨hdata, hmin', hmax', by omega, by omega, fun _ => .inl hlow⟩, ?_, fun _ => hup⟩
      intro hlt
      omega
  | down hdown hthree hparity hlow =>
      rw [clamp_of_mem (by omega) (by omega)] at hparity
      refine ⟨⟨hdata, hmin', hmax', by omega, by omega, fun _ => .inl hlow⟩, ?_, ?_⟩
      · intro _
        refine ⟨hlowest hdown, ?_⟩
        -- the parity is above the minimum, so the count of at least two is one of low evaluations
        rcases h.counts (by omega) with hzero | ⟨hone, -⟩ | ⟨-, htwo⟩
        · omega
        · omega
        · exact htwo
      · intro hlt
        omega
  | low hdown hthree hparity hlow =>
      rw [hsame] at hparity
      refine ⟨⟨hdata, hmin', hmax', by omega, by omega, fun _ => ?_⟩, ?_, ?_⟩
      · rcases h.counts (by omega) with hzero | ⟨hone, rest, e₁, rfl, he₁⟩ | ⟨htwo, -⟩
        · exact .inr (.inl ⟨by omega, log, e, rfl, hlowest hdown⟩)
        · refine .inr (.inr ⟨by omega, rest, e₁, e, ?_, he₁, hlowest hdown⟩)
          rw [List.append_assoc]
          rfl
        · omega
      · intro hlt
        omega
      · intro hlt
        omega
  | quiet htarget hrate hparity =>
      -- the target is the minimum, and so is the parity
      have hquiet := target_of_quiet h.bounds hrate
      rw [hsame] at hparity
      refine ⟨⟨hdata, hmin', hmax', by omega, by omega, fun hhigh => ?_⟩, ?_, ?_⟩
      · omega
      · intro hlt
        omega
      · intro hlt
        omega
  | lossy htarget hparity hlow =>
      rw [hsame] at hparity
      refine ⟨⟨hdata, hmin', hmax', by omega, by omega, fun _ => .inl hlow⟩, ?_, ?_⟩
      · intro hlt
        omega
      · intro hlt
        omega

theorem Tracked.adjust (h : Tracked d a log) {now : ℚ} (hgo : ¬ a.holds now) :
    Tracked d (a.adjust now).1 (log ++ [⟨a, now⟩]) ∧ LowersThird log ⟨a, now⟩ ∧
      (a.parityShards < (a.adjust now).1.parityShards → a.parityShards < a.target) := by
  obtain ⟨hdata, hmin, hmax⟩ := a.adjust_other now
  exact h.moves rfl (adjust_moves hgo) (hdata.trans h.data) (hmin.trans h.minParity)
    (hmax.trans h.maxParity)

end Tracked

/-- The evaluations of a log, each with those before it. -/
structure Lawful (log : List Evaluation) : Prop where
  apart : log.Pairwise fun e e' => e.now + 3 ≤ e'.now
  sent : ∀ e ∈ log, 50 ≤ e.before.windowSent
  lowers : ∀ pre e post, log = pre ++ e :: post → LowersThird pre e
  raises : ∀ e ∈ log, e.before.parityShards < e.result.parityShards →
    e.before.parityShards < e.before.target

theorem lawful_nil : Lawful [] where
  apart := .nil
  sent := fun _ he => absurd he (by simp)
  lowers := fun pre e post h => absurd h (by simp)
  raises := fun _ he => absurd he (by simp)

theorem Lawful.concat {log : List Evaluation} {e : Evaluation} (h : Lawful log)
    (hapart : ∀ e' ∈ log, e'.now + 3 ≤ e.now) (hsent : 50 ≤ e.before.windowSent)
    (hlowers : LowersThird log e)
    (hraises : e.before.parityShards < e.result.parityShards →
      e.before.parityShards < e.before.target) : Lawful (log ++ [e]) where
  apart := List.pairwise_append.mpr ⟨h.apart, List.pairwise_singleton _ _,
    fun e' he' e'' he'' => List.mem_singleton.mp he'' ▸ hapart e' he'⟩
  sent := fun e' he' => (List.mem_append.mp he').elim (h.sent e')
    fun he' => List.mem_singleton.mp he' ▸ hsent
  lowers := by
    intro pre e' post hsplit
    rcases List.eq_nil_or_concat post with rfl | ⟨post', e'', rfl⟩
    · obtain ⟨rfl, heq⟩ := List.append_inj' hsplit rfl
      obtain rfl := List.singleton_inj.mp heq
      exact hlowers
    · rw [List.concat_eq_append, ← List.cons_append, ← List.append_assoc] at hsplit
      obtain ⟨hlog, -⟩ := List.append_inj' hsplit rfl
      exact h.lowers pre e' post' hlog
  raises := fun e' he' => (List.mem_append.mp he').elim (h.raises e')
    fun he' => List.mem_singleton.mp he' ▸ hraises

/-- The time of the last evaluation bounds the log. -/
def Last (last : ℚ) (log : List Evaluation) : Prop :=
  (log = [] ∧ last = 0) ∨ (0 < last ∧ ∀ e ∈ log, e.now ≤ last)

/-- The clock at an evaluation is three seconds beyond all evaluations before. -/
theorem Last.apart {a : AdaptiveFec} {log : List Evaluation} (h : Last a.lastAdjustTime log)
    {now : ℚ} (hgo : ¬ a.holds now) : ∀ e ∈ log, e.now + 3 ≤ now := by
  intro e he
  rcases h with ⟨rfl, -⟩ | ⟨hpos, hle⟩
  · exact absurd he (by simp)
  · have hthree : ¬ now - a.lastAdjustTime < 3 := fun hlt => hgo (.inr ⟨hpos, hlt⟩)
    have hbefore := hle e he
    linarith

/-- A run from a ratio `d:p` with `2 <= p <= d`. -/
theorem tracked_after {d p : Int} (hp : 2 ≤ p) (hpd : p ≤ d) {events : List Event}
    (htime : Timed events) :
    Tracked d ((init d p).after events) ((init d p).evaluations events) ∧
      Lawful ((init d p).evaluations events) ∧
      Last ((init d p).after events).lastAdjustTime ((init d p).evaluations events) := by
  induction events using List.reverseRecOn with
  | nil => exact ⟨⟨rfl, rfl, rfl, hp, hpd, fun _ => .inl rfl⟩, lawful_nil, .inl ⟨rfl, rfl⟩⟩
  | append_singleton events ev ih =>
      obtain ⟨hmono, hpos⟩ := htime
      rw [List.filterMap_append] at hmono hpos
      obtain ⟨htracked, hlawful, hlast⟩ := ih ⟨(List.pairwise_append.mp hmono).1,
        fun t ht => hpos t (List.mem_append_left _ ht)⟩
      rw [after_concat, evaluations_concat]
      rcases step_cases ((init d p).after events) ev with
        ⟨now, rfl, hgo, hstep, heval⟩ | ⟨hf, heval⟩
      · obtain ⟨hnext, hlowers, hraises⟩ := htracked.adjust hgo
        have hapart := hlast.apart hgo
        have hnow : 0 < now := hpos now (by simp [Event.time])
        rw [hstep, heval]
        refine ⟨hnext, hlawful.concat hapart ?_ hlowers hraises, .inr ⟨?_, ?_⟩⟩
        · exact not_lt.mp fun hlt => hgo (.inl hlt)
        · rw [adjust_resets hgo]
          exact hnow
        · rw [adjust_resets hgo]
          intro e he
          rcases List.mem_append.mp he with he | he
          · have hbefore := hapart e he
            linarith
          · rw [List.mem_singleton.mp he]
      · rw [heval, List.append_nil, hf.last]
        exact ⟨htracked.frame hf, hlawful, hlast⟩

/-- The effective evaluations of a run are three seconds apart and have fifty
packets each; the parity is lowered only by the third low evaluation in a row
and raised only below the target; an `adjust` that is not effective changes
nothing, and the data shards never change. -/
theorem hysteresis {d p : Int} (hp : 2 ≤ p) (hpd : p ≤ d) {events : List Event}
    (htime : Timed events) :
    Lawful ((init d p).evaluations events) ∧
      (∀ pre now post, events = pre ++ .adjust now :: post → ((init d p).after pre).holds now →
        ((init d p).after pre).adjust now = ((init d p).after pre, false)) ∧
      ((init d p).after events).dataShards = d := by
  obtain ⟨htracked, hlawful, -⟩ := tracked_after hp hpd htime
  exact ⟨hlawful, fun pre now post _ hholds => adjust_of_holds hholds, htracked.data⟩

/-- Three windows without loss. -/
def quietEvents : List Event :=
  [.recordSent 50, .adjust 1, .adjust 2, .recordSent 50, .adjust 4, .recordSent 60, .adjust 7]

/-- The third evaluation lowers the parity of `10:5`. -/
theorem hysteresis_quiet : ((init 10 5).evaluations quietEvents).length = 3 ∧
    ((init 10 5).after quietEvents).parityShards = 4 ∧
    Lawful ((init 10 5).evaluations quietEvents) := by
  refine ⟨by decide +kernel, by decide +kernel, ?_⟩
  exact (hysteresis (by decide) (by decide) (by decide +kernel)).1

end Fecraw.Ports.AdaptiveFec
