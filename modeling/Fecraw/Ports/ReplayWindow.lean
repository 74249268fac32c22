import Fecraw.Verified.Ring
import Fecraw.Ports.Conn

/-!
# What the anti-replay window of a connection remembers

`is_vaild` keeps a flag for each of the last 4000 numbers, in a ring that
`re_init` does not clear.  Flags of numbers that were accepted are up, so no
number is accepted twice, whatever an earlier session left behind.  The converse
needs a clean ring: a first number of at least 4000 clears it, a smaller one
does not.

## Main results

* `isVaild_eq_true`: what `is_vaild` accepts.
* `Session.wf_run`: after any sequence of calls, the flags agree with the numbers
  accepted so far.
* `isVaild_once`: no number is accepted twice, nothing behind the window is
  accepted, and after a first number of at least 4000 everything else is.
-/

namespace Fecraw.Ports.Raw

open Fecraw.Verified

namespace AntiReplay

/-- The numbers that the window accepts. -/
def Fresh (r : AntiReplay) (seq : Nat) : Prop :=
  r.maxPacketReceived < seq ∨ seq < r.maxPacketReceived ∧
    r.maxPacketReceived < seq + antiReplayWindowSize ∧
    r.window (seq % antiReplayWindowSize) = false

/-- The ring after the window moved on to `seq`. -/
def advanced (r : AntiReplay) (seq : Nat) : Nat → Bool :=
  if antiReplayWindowSize ≤ seq - r.maxPacketReceived then fun _ => false
  else Ring.lower antiReplayWindowSize (r.maxPacketReceived + 1)
    (seq - r.maxPacketReceived - 1) r.window

theorem isVaild_ahead {r : AntiReplay} {seq : Nat} (h : r.maxPacketReceived < seq) :
    r.isVaild false seq = (true, { r with
      maxPacketReceived := seq
      window := Function.update (r.advanced seq) (seq % antiReplayWindowSize) true }) := by
  unfold isVaild advanced Ring.lower
  rw [if_neg Bool.false_ne_true, if_neg (by omega), if_pos h]

theorem isVaild_behind {r : AntiReplay} {seq : Nat} (hlt : seq < r.maxPacketReceived)
    (hin : r.maxPacketReceived < seq + antiReplayWindowSize)
    (hdown : r.window (seq % antiReplayWindowSize) = false) :
    r.isVaild false seq = (true, { r with
      window := Function.update r.window (seq % antiReplayWindowSize) true }) := by
  unfold isVaild
  rw [if_neg Bool.false_ne_true, if_neg (by omega), if_neg (by omega), if_neg (by omega), hdown]
  rfl

theorem isVaild_of_not_fresh {r : AntiReplay} {seq : Nat} (h : ¬ r.Fresh seq) :
    r.isVaild false seq = (false, r) := by
  unfold Fresh at h
  push Not at h
  obtain ⟨hle, hup⟩ := h
  unfold isVaild
  rw [if_neg Bool.false_ne_true]
  split
  · rfl
  next hne =>
    rw [if_neg (by omega)]
    split
    · rfl
    next hin =>
      rw [if_pos (by simpa using hup (by omega) (by omega))]

theorem isVaild_eq_true {r : AntiReplay} {seq : Nat} :
    (r.isVaild false seq).1 = true ↔ r.Fresh seq := by
  constructor
  · intro h
    by_contra hnot
    rw [isVaild_of_not_fresh hnot] at h
    exact Bool.false_ne_true h
  · rintro (hlt | ⟨hlt, hin, hdown⟩)
    · rw [isVaild_ahead hlt]
    · rw [isVaild_behind hlt hin hdown]

/-- Flags of the new window were there before, and are of numbers already seen. -/
theorem advanced_eq_true {r : AntiReplay} {seq q : Nat} (hq : q < seq)
    (h : r.advanced seq (q % antiReplayWindowSize) = true) :
    q ≤ r.maxPacketReceived ∧ r.window (q % antiReplayWindowSize) = true := by
  unfold advanced at h
  split at h
  · exact absurd h Bool.false_ne_true
  · obtain ⟨hup, hout⟩ := Ring.lower_eq_true h
    refine ⟨not_lt.mp fun hgt => hout q (by omega) (by omega) rfl, hup⟩

/-- What was seen and is still in the window keeps its flag. -/
theorem advanced_of_le {r : AntiReplay} {seq q : Nat} (hlt : r.maxPacketReceived < seq)
    (hq : q ≤ r.maxPacketReceived) (hin : seq < q + antiReplayWindowSize) :
    r.advanced seq (q % antiReplayWindowSize) = r.window (q % antiReplayWindowSize) := by
  unfold advanced
  rw [if_neg (by omega)]
  exact Ring.lower_of_ne fun i hi hlt => (Ring.mod_ne_mod (by omega) (by omega)).symm

end AntiReplay

/-! ## Sessions -/

/-- The window of a session with the numbers accepted so far, oldest first. -/
structure Session where
  window : AntiReplay
  accepted : List Nat := []

namespace Session

/-- A session starts with `re_init`. -/
def start (r : AntiReplay) : Session := { window := r.reInit }

/-- One call of `is_vaild`; `disable_anti_replay` is 0. -/
def step (s : Session) (seq : Nat) : Session where
  window := (s.window.isVaild false seq).2
  accepted := if (s.window.isVaild false seq).1 then s.accepted ++ [seq] else s.accepted

def run (s : Session) (seqs : List Nat) : Session := seqs.foldl step s

/-- In the window, only accepted numbers have their flag up. -/
structure Exact (s : Session) : Prop where
  max_mem : s.window.maxPacketReceived ∈ s.accepted
  accepted_of_flag : ∀ q, q < s.window.maxPacketReceived →
    s.window.maxPacketReceived < q + antiReplayWindowSize →
    s.window.window (q % antiReplayWindowSize) = true → q ∈ s.accepted

/-- The flags of accepted numbers are up. -/
structure Wf (s : Session) : Prop where
  nodup : s.accepted.Nodup
  le_max : ∀ q ∈ s.accepted, q ≤ s.window.maxPacketReceived
  flag_of_accepted : ∀ q ∈ s.accepted,
    s.window.maxPacketReceived < q + antiReplayWindowSize →
    s.window.window (q % antiReplayWindowSize) = true
  max_eq_zero : s.accepted = [] → s.window.maxPacketReceived = 0
  exact_of_head : ∀ first, s.accepted.head? = some first → antiReplayWindowSize ≤ first →
    s.Exact

theorem step_of_not_fresh {s : Session} {seq : Nat} (h : ¬ s.window.Fresh seq) :
    s.step seq = s := by
  unfold step
  rw [AntiReplay.isVaild_of_not_fresh h]
  rfl

theorem wf_start (r : AntiReplay) : (start r).Wf where
  nodup := List.nodup_nil
  le_max := by simp [start]
  flag_of_accepted := by simp [start]
  max_eq_zero := fun _ => rfl
  exact_of_head := by simp [start]

/-- The oldest number stays the oldest. -/
theorem head_append {first seq : Nat} {qs : List Nat}
    (h : (qs ++ [seq]).head? = some first) : qs = [] ∧ first = seq ∨ qs.head? = some first := by
  cases qs with
  | nil => exact .inl ⟨rfl, (Option.some.inj h).symm⟩
  | cons q qs => exact .inr h

/-- An accepted number was not accepted before. -/
theorem Wf.not_mem {s : Session} (hwf : s.Wf) {seq : Nat} (h : s.window.Fresh seq) :
    seq ∉ s.accepted := by
  intro hmem
  rcases h with hlt | ⟨-, hin, hdown⟩
  · exact absurd (hwf.le_max seq hmem) (by omega)
  · rw [hwf.flag_of_accepted seq hmem hin] at hdown
    exact Bool.false_ne_true hdown.symm

theorem wf_step_ahead {s : Session} (hwf : s.Wf) {seq : Nat}
    (hlt : s.window.maxPacketReceived < seq) : (s.step seq).Wf := by
  have hnew := hwf.not_mem (.inl hlt)
  unfold step
  rw [AntiReplay.isVaild_ahead hlt]
  refine ⟨?_, ?_, ?_, by simp, ?_⟩
  · exact List.nodup_append.mpr ⟨hwf.nodup, List.nodup_singleton seq, by grind⟩
  · intro q hq
    rcases List.mem_append.mp hq with hq | hq
    · exact (hwf.le_max q hq).trans hlt.le
    · exact (List.mem_singleton.mp hq).le
  · intro q hq hin
    dsimp only at hin ⊢
    rcases List.mem_append.mp hq with hq | hq
    · have hle := hwf.le_max q hq
      rw [Function.update_of_ne (Ring.mod_ne_mod (by omega) hin),
        AntiReplay.advanced_of_le hlt hle hin]
      exact hwf.flag_of_accepted q hq (by omega)
    · rw [List.mem_singleton.mp hq, Function.update_self]
  · intro first hfirst hlarge
    refine ⟨by simp, fun q hq hin hflag => ?_⟩
    dsimp only at hq hin hflag
    rw [Function.update_of_ne (Ring.mod_ne_mod hq hin)] at hflag
    rcases head_append hfirst with ⟨hnone, rfl⟩ | hfirst
    · -- the first number of a session clears the ring
      have hzero := hwf.max_eq_zero hnone
      unfold AntiReplay.advanced at hflag
      rw [if_pos (by omega)] at hflag
      exact absurd hflag Bool.false_ne_true
    · obtain ⟨hle, hup⟩ := AntiReplay.advanced_eq_true hq hflag
      have hexact := hwf.exact_of_head first hfirst hlarge
      rcases Nat.eq_or_lt_of_le hle with rfl | hlt'
      · exact List.mem_append_left _ hexact.max_mem
      · exact List.mem_append_left _ (hexact.accepted_of_flag q hlt' (by omega) hup)

theorem wf_step_behind {s : Session} (hwf : s.Wf) {seq : Nat}
    (hlt : seq < s.window.maxPacketReceived)
    (hin : s.window.maxPacketReceived < seq + antiReplayWindowSize)
    (hdown : s.window.window (seq % antiReplayWindowSize) = false) : (s.step seq).Wf := by
  have hnew := hwf.not_mem (.inr ⟨hlt, hin, hdown⟩)
  unfold step
  rw [AntiReplay.isVaild_behind hlt hin hdown]
  refine ⟨?_, ?_, ?_, by simp, ?_⟩
  · exact List.nodup_append.mpr ⟨hwf.nodup, List.nodup_singleton seq, by grind⟩
  · intro q hq
    rcases List.mem_append.mp hq with hq | hq
    · exact hwf.le_max q hq
    · exact (List.mem_singleton.mp hq).le.trans hlt.le
  · intro q hq hin'
    dsimp only at hin' ⊢
    by_cases hcell : q % antiReplayWindowSize = seq % antiReplayWindowSize
    · rw [hcell, Function.update_self]
    · rw [Function.update_of_ne hcell]
      rcases List.mem_append.mp hq with hq | hq
      · exact hwf.flag_of_accepted q hq hin'
      · exact absurd (by rw [List.mem_singleton.mp hq]) hcell
  · intro first hfirst hlarge
    rcases head_append hfirst with ⟨hnone, -⟩ | hfirst
    · exact absurd (hwf.max_eq_zero hnone) (by omega)
    · have hexact := hwf.exact_of_head first hfirst hlarge
      refine ⟨List.mem_append_left _ hexact.max_mem, fun q hq hin' hflag => ?_⟩
      dsimp only at hq hin' hflag
      rcases Nat.lt_trichotomy q seq with hlt' | rfl | hgt
      · rw [Function.update_of_ne (Ring.mod_ne_mod hlt' (by omega))] at hflag
        exact List.mem_append_left _ (hexact.accepted_of_flag q hq hin' hflag)
      · simp
      · rw [Function.update_of_ne (Ring.mod_ne_mod hgt (by omega)).symm] at hflag
        exact List.mem_append_left _ (hexact.accepted_of_flag q hq hin' hflag)

theorem wf_step {s : Session} (hwf : s.Wf) (seq : Nat) : (s.step seq).Wf := by
  by_cases hfresh : s.window.Fresh seq
  · rcases hfresh with hlt | ⟨hlt, hin, hdown⟩
    · exact wf_step_ahead hwf hlt
    · exact wf_step_behind hwf hlt hin hdown
  · rw [step_of_not_fresh hfresh]
    exact hwf

theorem wf_run {s : Session} (hwf : s.Wf) (seqs : List Nat) : (s.run seqs).Wf := by
  induction seqs generalizing s with
  | nil => exact hwf
  | cons seq seqs ih => exact ih (wf_step hwf seq)

/-- The maximum never decreases. -/
theorem le_maxPacketReceived_step (s : Session) (seq : Nat) :
    s.window.maxPacketReceived ≤ (s.step seq).window.maxPacketReceived := by
  by_cases hfresh : s.window.Fresh seq
  · unfold step
    rcases hfresh with hlt | ⟨hlt, hin, hdown⟩
    · rw [AntiReplay.isVaild_ahead hlt]
      exact hlt.le
    · rw [AntiReplay.isVaild_behind hlt hin hdown]
  · rw [step_of_not_fresh hfresh]

theorem le_maxPacketReceived_run (s : Session) (seqs : List Nat) :
    s.window.maxPacketReceived ≤ (s.run seqs).window.maxPacketReceived := by
  induction seqs generalizing s with
  | nil => exact le_rfl
  | cons seq seqs ih => exact (le_maxPacketReceived_step s seq).trans (ih (s.step seq))

end Session

/-- After `re_init` with any content of the window and any calls, no number was
accepted twice.  The next call accepts only numbers above
`max_packet_received - 4000`, and all of these that were not accepted yet if the
first accepted number was at least 4000.  Later calls never lower the maximum. -/
theorem isVaild_once (r : AntiReplay) (seqs : List Nat) :
    let s := (Session.start r).run seqs
    s.accepted.Nodup ∧
      (∀ seq, (s.window.isVaild false seq).1 = true →
        s.window.maxPacketReceived < seq + antiReplayWindowSize) ∧
      (∀ first, s.accepted.head? = some first → antiReplayWindowSize ≤ first →
        ∀ seq, seq ∉ s.accepted → s.window.maxPacketReceived < seq + antiReplayWindowSize →
          (s.window.isVaild false seq).1 = true) ∧
      ∀ later, s.window.maxPacketReceived ≤ (s.run later).window.maxPacketReceived := by
  intro s
  have hwf : s.Wf := Session.wf_run (Session.wf_start r) seqs
  refine ⟨hwf.nodup, ?_, ?_, Session.le_maxPacketReceived_run s⟩
  · intro seq hvalid
    rcases AntiReplay.isVaild_eq_true.mp hvalid with hlt | ⟨-, hin, -⟩
    · exact hlt.trans_le (Nat.le_add_right _ _)
    · exact hin
  · intro first hfirst hlarge seq hnew hin
    have hexact := hwf.exact_of_head first hfirst hlarge
    rw [AntiReplay.isVaild_eq_true]
    rcases Nat.lt_trichotomy s.window.maxPacketReceived seq with hlt | rfl | hgt
    · exact .inl hlt
    · exact absurd hexact.max_mem hnew
    · refine .inr ⟨hgt, hin, ?_⟩
      by_contra hflag
      exact hnew (hexact.accepted_of_flag seq hgt hin (by simpa using hflag))

end Fecraw.Ports.Raw
