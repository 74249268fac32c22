import Fecraw.Ports.Pacing

/-!
# Runs of the pacer

The pacer over whole runs of `init`, `wait`, `on_ack` and `on_loss`, in any
order and with any times.

Four things that the comments promise are looked at: the limit on the rate,
the limit on the time that one call blocks, the indices into the two arrays,
and the state `BBR_PROBE_RTT`.  For each, the states in which the code keeps the
promise are given.

## Main results

* `cap_of_run`: all but the unpaced waits keep the rate below the limit, and no
  constant makes up for those.
* `wait_le_iff`: the states in which a call blocks for at most 500 ms.
* `indices_of_run`: runs in which no counter overflows stay in the arrays.
* `probeRtt_missed`: an acknowledgement never turns `BBR_PROBE_BW` into
  `BBR_PROBE_RTT`.
-/

namespace Fecraw.Ports.Pacing

open Fecraw.Verified Fecraw.Verified.Checked RsTable

/-! ## What calls leave alone -/

section Frame

variable {p q : Pacing} {t : ℚ}

theorem mark_frame (p : Pacing) (t : ℚ) :
    (p.mark t).bytesInFlight = p.bytesInFlight ∧ (p.mark t).bwSampleIdx = p.bwSampleIdx ∧
      (p.mark t).enabled = p.enabled ∧ (p.mark t).maxBw = p.maxBw ∧
      (p.mark t).deliveredTime = p.deliveredTime ∧ (p.mark t).state = p.state ∧
      (p.mark t).cycleIdx = p.cycleIdx ∧ (p.mark t).maxBandwidth = p.maxBandwidth := by
  unfold mark
  split
  · exact ⟨rfl, rfl, rfl, rfl, rfl, rfl, rfl, rfl⟩
  · exact ⟨rfl, rfl, rfl, rfl, rfl, rfl, rfl, rfl⟩

/-- The state machine leaves the estimates alone. -/
theorem Turns.frame (h : Turns t p q) :
    q.bytesInFlight = p.bytesInFlight ∧ q.bwSampleIdx = p.bwSampleIdx ∧ q.enabled = p.enabled ∧
      q.maxBw = p.maxBw ∧ q.deliveredTime = p.deliveredTime ∧ q.maxBandwidth = p.maxBandwidth := by
  cases h with
  | stays | drains | probes | cycles | probesRtt => exact ⟨rfl, rfl, rfl, rfl, rfl, rfl⟩
  | holds | returns =>
      obtain ⟨hbytes, hidx, hen, hmax, htime, -, -, hlimit⟩ := mark_frame p t
      exact ⟨hbytes, hidx, hen, hmax, htime, hlimit⟩

/-- The counter of the gains is kept, cleared or counted up. -/
theorem Turns.cycleIdx (h : Turns t p q) :
    q.cycleIdx = p.cycleIdx ∨ q.cycleIdx = 0 ∨
      (p.state = .probeBw ∧ q.cycleIdx = wrapInt (p.cycleIdx + 1)) := by
  cases h with
  | stays | drains => exact .inl rfl
  | probes | returns => exact .inr (.inl rfl)
  | cycles hstate _ | probesRtt hstate _ => exact .inr (.inr ⟨hstate, rfl⟩)
  | holds => exact .inl (mark_frame p t).2.2.2.2.2.2.1

/-- What an acknowledgement leaves alone, and the counters. -/
structure AckFrame (p : Pacing) (rtt t : ℚ) (q : Pacing) : Prop where
  enabled : q.enabled = p.enabled
  cwnd : minCwnd ≤ q.cwnd
  bytesInFlight : 0 ≤ q.bytesInFlight
  bwSampleIdx : q.bwSampleIdx = if p.Samples rtt t then wrapInt (p.bwSampleIdx + 1)
    else p.bwSampleIdx
  cycleIdx : q.cycleIdx = p.cycleIdx ∨ q.cycleIdx = 0 ∨
    (p.state = .probeBw ∧ q.cycleIdx = wrapInt (p.cycleIdx + 1))
  deliveredTime : 0 < rtt → q.deliveredTime = t
  maxBandwidth : q.maxBandwidth = p.maxBandwidth
  /-- The rate is cut to the limit, but not in `BBR_PROBE_RTT`. -/
  rate : q.state ≠ .probeRtt → 0 < p.maxBandwidth → q.pacingRate ≤ p.maxBandwidth

theorem settle_nonneg (p : Pacing) (bytes : Int) : 0 ≤ (p.settle bytes).bytesInFlight := by
  unfold settle
  dsimp only
  split
  · exact le_rfl
  · next h => exact not_lt.mp h

theorem Acked.frame {bytes : Int} {rtt t t' : ℚ} {p₁ p₂ : Pacing}
    (h : Acked p bytes rtt t t' p₁ p₂ q) : AckFrame p rtt t q := by
  obtain ⟨hm, hturn, hscaled, -⟩ := h
  obtain ⟨hbytes, hidx, hen, -, htime, hlimit⟩ := hturn.frame
  have hcycle := hturn.cycleIdx
  rw [hm.cycleIdx, hm.state] at hcycle
  have hkept : p₂.maxBandwidth = p.maxBandwidth := hlimit.trans hm.maxBandwidth
  have hcut := hscaled.cut
  rw [hkept] at hcut
  rw [hscaled.eq]
  exact ⟨hen.trans hm.enabled, hscaled.cwnd,
    (settle_nonneg p bytes).trans_eq (hbytes.trans hm.bytesInFlight).symm,
    hidx.trans hm.bwSampleIdx, hcycle, fun hrtt => htime.trans (hm.deliveredTime hrtt), hkept,
    hcut⟩

/-- A call of the pacer, by kinds. -/
theorem step_cases {ev : Event} {out : Nat} (h : p.step ev = .ok (q, out)) :
    (∃ limit t t', ev = .init limit t t' ∧ q = init limit t t' ∧ out = 0) ∨
      (∃ size, ev = .wait size ∧ q = (p.wait size).1 ∧ out = (p.wait size).2) ∨
      (∃ bytes rtt t t' p₁ p₂, ev = .ack bytes rtt t t' ∧ Acked p bytes rtt t t' p₁ p₂ q ∧
        out = 0) ∨
      (ev = .loss ∧ q = p.onLoss ∧ out = 0) := by
  cases ev with
  | init limit t t' =>
      obtain ⟨rfl, rfl⟩ := Prod.mk.inj (Except.ok.inj h)
      exact .inl ⟨limit, t, t', rfl, rfl, rfl⟩
  | wait size =>
      obtain ⟨rfl, rfl⟩ := Prod.mk.inj (Except.ok.inj h)
      exact .inr (.inl ⟨size, rfl, rfl, rfl⟩)
  | ack bytes rtt t t' =>
      obtain ⟨q', hok, heq⟩ := doBind_eq_ok.mp h
      obtain ⟨rfl, rfl⟩ := Prod.mk.inj (Except.ok.inj heq)
      obtain ⟨p₁, p₂, hacked⟩ := acked_of_ok hok
      exact .inr (.inr (.inl ⟨bytes, rtt, t, t', p₁, p₂, rfl, hacked, rfl⟩))
  | loss =>
      obtain ⟨rfl, rfl⟩ := Prod.mk.inj (Except.ok.inj h)
      exact .inr (.inr (.inr ⟨rfl, rfl, rfl⟩))

theorem enabled_step {ev : Event} {out : Nat} (h : p.step ev = .ok (q, out)) (hp : p.enabled) :
    q.enabled := by
  rcases step_cases h with ⟨_, _, _, -, rfl, -⟩ | ⟨size, -, rfl, -⟩ |
    ⟨_, _, _, _, _, _, -, hacked, -⟩ | ⟨-, rfl, -⟩
  · rfl
  · rw [wait_fst hp]
    exact hp
  · rw [hacked.frame.enabled]
    exact hp
  · exact hp

end Frame

/-! ## The time that a call blocks -/

section Blocks

variable {p : Pacing} {size : Int}

/-- There is no pacing delay, or it is dropped, or it is at most 500 ms in whole
microseconds and the window is not full. -/
def Brief (p : Pacing) (size : Int) : Prop :=
  p.pacingRate ≤ 0 ∨ 10 ^ 6 * size ≤ 500 * p.pacingRate ∨
    (p.bytesInFlight ≤ p.cwnd ∧ 10 ^ 6 * size < 500001 * p.pacingRate)

instance (p : Pacing) (size : Int) : Decidable (p.Brief size) := by
  unfold Brief
  infer_instance

/-- A call blocks for at most 500 ms exactly if it is brief. -/
theorem slept_le_iff (henabled : p.enabled) (hsize : 0 ≤ size) (hle : size ≤ maxDataLen) :
    (p.wait size).2 ≤ 500000 ↔ p.Brief size := by
  rw [wait_slept henabled]
  unfold Brief
  by_cases hrate : p.pacingRate ≤ 0
  · rw [pace_of_nonpos hrate]
    refine ⟨fun _ => .inl hrate, fun _ => ?_⟩
    split <;> omega
  · have hpace := pace_eq (not_le.mp hrate) hsize hle
    by_cases hlong : 500 * p.pacingRate < 10 ^ 6 * size
    · rw [if_pos hlong] at hpace
      -- the delay is at least 500 microseconds, so the polling loop leaves no room for it
      have hmin : 500 ≤ 10 ^ 6 * size / p.pacingRate :=
        (Int.le_ediv_iff_mul_le (not_le.mp hrate)).mpr hlong.le
      have hmax : 10 ^ 6 * size / p.pacingRate < 500001 ↔ 10 ^ 6 * size < 500001 * p.pacingRate :=
        Int.ediv_lt_iff_lt_mul (not_le.mp hrate)
      split
      · omega
      · omega
    · rw [if_neg hlong] at hpace
      refine ⟨fun _ => .inr (.inl (not_lt.mp hlong)), fun _ => ?_⟩
      split <;> omega

/-- Sizes of packets. -/
def Event.Proper : Event → Prop
  | .wait size => 0 ≤ size ∧ size ≤ maxDataLen
  | _ => True

/-- The check that the sizes are those of packets. -/
def Event.proper : Event → Bool
  | .wait size => decide (0 ≤ size ∧ size ≤ maxDataLen)
  | _ => true

theorem proper_of_check (_ : Pacing) (ev : Event) (h : ev.proper) : ev.Proper := by
  cases ev with
  | wait size =>
      have h : 0 ≤ size ∧ size ≤ maxDataLen := of_decide_eq_true h
      exact h
  | init | ack | loss => trivial

/-- In every state that is reached, a call of `wait` blocks for at most 500 ms
exactly if it is brief. -/
theorem wait_le_iff {limit : Int} {t t' : ℚ}
    (hreach : Reached step (fun _ ev => ev.Proper) (init limit t t') p) (hsize : 0 ≤ size)
    (hle : size ≤ maxDataLen) : (p.wait size).2 ≤ 500000 ↔ p.Brief size := by
  have henabled : p.enabled := by
    induction hreach with
    | start => rfl
    | next _ _ hok ih => exact enabled_step hok ih
  exact slept_le_iff henabled hsize hle

/-- Ten bytes that were acknowledged ten seconds after the start. -/
def slowAck : List Event := [.ack 10 (1 / 20) 10 10]

/-- The rate is then two bytes per second, and one packet waits for 500 s. -/
theorem wait_blocks : ∃ p, Reached step (fun _ ev => ev.Proper) (init 0 0 0) p ∧
    ¬ (p.wait 1000).2 ≤ 500000 := by
  obtain ⟨p, outs, -, hreach, hlong⟩ := @exists_reached _ _ _ _ step (fun _ ev => ev.Proper)
    (fun _ ev => ev.proper) (fun r => 500000 < (r.1.wait 1000).2) (init 0 0 0) slowAck
    proper_of_check (by decide +kernel) (by decide +kernel)
  exact ⟨p, hreach, not_le.mpr (of_decide_eq_true hlong)⟩

/-- A packet of 1 byte, after the same acknowledgement, waits for 500 ms. -/
theorem wait_le_iff_slow : ∃ p, Reached step (fun _ ev => ev.Proper) (init 0 0 0) p ∧
    p.Brief 1 ∧ (p.wait 1).2 ≤ 500000 := by
  obtain ⟨p, outs, -, hreach, hbrief⟩ := @exists_reached _ _ _ _ step (fun _ ev => ev.Proper)
    (fun _ ev => ev.proper) (fun r => r.1.Brief 1) (init 0 0 0) slowAck
    proper_of_check (by decide +kernel) (by decide +kernel)
  have hbrief := of_decide_eq_true hbrief
  exact ⟨p, hreach, hbrief, (wait_le_iff hreach (by decide) (by decide)).mpr hbrief⟩

end Blocks

/-! ## The limit on the rate -/

section Cap

/-- A run of `wait`, `on_ack` and `on_loss`, with sizes of packets. -/
def Event.Sends : Event → Prop
  | .init .. => False
  | .wait size => 1 ≤ size ∧ size ≤ maxDataLen
  | _ => True

/-- The sizes that are waited for. -/
def sizes : List Event → List Int
  | [] => []
  | .wait size :: events => size :: sizes events
  | _ :: events => sizes events

/-- The polling loop's share of a call, in microseconds. -/
def polled (p : Pacing) : Int := if p.cwnd < p.bytesInFlight then 500000 else 0

/-- The limit allows for a delay that is no whole number of microseconds, and the
delay at the rate has no more whole ones. -/
def Cut (limit : Int) (p : Pacing) (size : Int) : Prop :=
  p.bytesInFlight ≤ p.cwnd ∧ ¬ limit ∣ 10 ^ 6 * size ∧
    10 ^ 6 * size / p.pacingRate ≤ 10 ^ 6 * size / limit

instance (limit : Int) (p : Pacing) (size : Int) : Decidable (Cut limit p size) := by
  unfold Cut
  infer_instance

/-- A wait that the polling loop alone does not make long enough for the limit
`limit`, and that is not paced to it: there is no rate yet, or the delay is
dropped, or the rate is one of `BBR_PROBE_RTT` above the limit, or a fraction of
a microsecond is cut off. -/
def Unpaced (limit : Int) (p : Pacing) : Event → Bool
  | .wait size => decide (limit * p.polled < 10 ^ 6 * size ∧
      (p.pacingRate ≤ 0 ∨ 10 ^ 6 * size ≤ 500 * p.pacingRate ∨
        (p.state = .probeRtt ∧ limit < p.pacingRate) ∨ Cut limit p size))
  | _ => false

variable {limit : Int} {p : Pacing}

theorem sizes_nonneg : ∀ {events : List Event}, (∀ ev ∈ events, ev.Sends) →
    ∀ size ∈ sizes events, 0 ≤ size := by
  intro events
  induction events with
  | nil => exact fun _ size hsize => absurd hsize (by simp [sizes])
  | cons ev events ih =>
      intro hsends size hsize
      have hrest := ih fun ev hev => hsends ev (List.mem_cons_of_mem _ hev)
      cases ev with
      | wait size' =>
          rcases List.mem_cons.mp hsize with rfl | hsize
          · have hone : 1 ≤ size ∧ size ≤ maxDataLen := hsends (.wait size) (by simp)
            omega
          · exact hrest size hsize
      | init | ack | loss => exact hrest size hsize

/-- The limit is kept, and only in `BBR_PROBE_RTT` the rate may be above it. -/
structure Limited (limit : Int) (p : Pacing) : Prop where
  enabled : p.enabled
  maxBandwidth : p.maxBandwidth = limit
  rate : p.state ≠ .probeRtt → p.pacingRate ≤ limit

theorem limited_init (hlimit : 0 < limit) (t t' : ℚ) : Limited limit (init limit t t') :=
  ⟨rfl, rfl, fun _ => hlimit.le⟩

/-- Every call keeps the rate below the limit. -/
theorem Limited.step (hlimit : 0 < limit) (h : Limited limit p) {ev : Event} {q : Pacing}
    {out : Nat} (hsends : ev.Sends) (hok : p.step ev = .ok (q, out)) : Limited limit q := by
  refine ⟨enabled_step hok h.enabled, ?_, ?_⟩
  · rcases step_cases hok with ⟨_, _, _, rfl, -, -⟩ | ⟨size, -, rfl, -⟩ |
      ⟨_, _, _, _, _, _, -, hacked, -⟩ | ⟨-, rfl, -⟩
    · exact absurd hsends id
    · rw [wait_fst h.enabled]
      exact h.maxBandwidth
    · exact hacked.frame.maxBandwidth.trans h.maxBandwidth
    · exact h.maxBandwidth
  · rcases step_cases hok with ⟨_, _, _, rfl, -, -⟩ | ⟨size, -, rfl, -⟩ |
      ⟨_, _, _, _, _, _, -, hacked, -⟩ | ⟨-, rfl, -⟩
    · exact absurd hsends id
    · rw [wait_fst h.enabled]
      exact h.rate
    · have hcut := hacked.frame.rate
      rw [h.maxBandwidth] at hcut
      exact fun hstate => hcut hstate hlimit
    · exact h.rate

theorem slept_eq (henabled : p.enabled) (size : Int) :
    ((p.wait size).2 : Int) = p.polled + p.pace size := by
  rw [wait_slept henabled]
  unfold polled
  split <;> simp

/-- A wait is worth its size at the limit, unless it is unpaced. -/
theorem Limited.le_slept (hlimit : 0 < limit) (h : Limited limit p) {size : Int} (hsize : 0 ≤ size)
    (hle : size ≤ maxDataLen) (hpaced : Unpaced limit p (.wait size) = false) :
    10 ^ 6 * size ≤ limit * (p.wait size).2 := by
  rw [slept_eq h.enabled]
  have hpaced := of_decide_eq_false hpaced
  by_cases hpoll : limit * p.polled < 10 ^ 6 * size
  · have hno : ¬ (p.pacingRate ≤ 0 ∨ 10 ^ 6 * size ≤ 500 * p.pacingRate ∨
        (p.state = .probeRtt ∧ limit < p.pacingRate) ∨ Cut limit p size) :=
      fun hcause => hpaced ⟨hpoll, hcause⟩
    simp only [not_or, not_le] at hno
    obtain ⟨hrate, hlong, hprobe, hcut⟩ := hno
    have hbelow : p.pacingRate ≤ limit :=
      not_lt.mp fun habove => hprobe ⟨not_not.mp fun hstate =>
        not_le.mpr habove (h.rate hstate), habove⟩
    rw [pace_eq hrate hsize hle, if_pos hlong]
    have hwork : 0 ≤ 10 ^ 6 * size := by omega
    unfold Cut at hcut
    generalize 10 ^ 6 * size = work at hcut hwork ⊢
    have hquot : work < p.pacingRate * (work / p.pacingRate) + p.pacingRate :=
      Int.lt_mul_ediv_self_add hrate
    have hnonneg : 0 ≤ work / p.pacingRate := Int.ediv_nonneg (by omega) hrate.le
    have hscale : p.pacingRate * (work / p.pacingRate) ≤ limit * (work / p.pacingRate) :=
      mul_le_mul_of_nonneg_right hbelow hnonneg
    by_cases hfull : p.cwnd < p.bytesInFlight
    · -- the polling loop makes up for the fraction
      rw [polled, if_pos hfull, mul_add]
      linarith
    · rw [polled, if_neg hfull, zero_add]
      by_cases hwhole : limit ∣ work
      · obtain ⟨m, rfl⟩ := hwhole
        have hm : 0 ≤ m := nonneg_of_mul_nonneg_right hwork hlimit
        have hmore : m ≤ limit * m / p.pacingRate := by
          rw [Int.le_ediv_iff_mul_le hrate, mul_comm]
          exact mul_le_mul_of_nonneg_right hbelow hm
        exact mul_le_mul_of_nonneg_left hmore hlimit.le
      · have hmore : work / limit + 1 ≤ work / p.pacingRate :=
          not_le.mp fun hle => hcut ⟨not_lt.mp hfull, hwhole, hle⟩
        calc work ≤ limit * (work / limit) + limit := (Int.lt_mul_ediv_self_add hlimit).le
          _ = limit * (work / limit + 1) := by ring
          _ ≤ limit * (work / p.pacingRate) := mul_le_mul_of_nonneg_left hmore hlimit.le
  · have hmul : 0 ≤ limit * (p.pace size : Int) := mul_nonneg hlimit.le (Nat.cast_nonneg _)
    linarith

/-- In a run the time slept is worth the sizes, but for the longest packet in
place of every unpaced wait. -/
theorem sum_le_of_limited (hlimit : 0 < limit) : ∀ {events : List Event} {p q : Pacing}
    {outs : List Nat}, Limited limit p → (∀ ev ∈ events, ev.Sends) →
    run step p events = .ok (q, outs) →
      10 ^ 6 * (sizes events).sum ≤
        limit * outs.sum + 10 ^ 6 * maxDataLen * runCount step (Unpaced limit) p events := by
  intro events
  induction events with
  | nil =>
      intro p q outs _ _ h
      obtain ⟨-, rfl⟩ := Prod.mk.inj (Except.ok.inj h)
      simp [sizes, runCount]
  | cons ev events ih =>
      intro p q outs hp hsends h
      obtain ⟨p', out, outs', hstep, hrun, rfl⟩ := run_cons_eq_ok.mp h
      have hone := hsends ev (by simp)
      have hrest := ih (hp.step hlimit hone hstep)
        (fun ev hev => hsends ev (List.mem_cons_of_mem _ hev)) hrun
      rw [runCount_cons events hstep, List.sum_cons, Nat.cast_add, Nat.cast_add, mul_add, mul_add]
      rcases step_cases hstep with ⟨_, _, _, rfl, -, rfl⟩ | ⟨size, rfl, -, rfl⟩ |
        ⟨_, _, _, _, _, _, rfl, -, rfl⟩ | ⟨rfl, -, rfl⟩
      · exact absurd hone id
      · have hsize : 1 ≤ size ∧ size ≤ maxDataLen := hone
        have hcons : (sizes (.wait size :: events)).sum = size + (sizes events).sum := rfl
        rw [hcons, mul_add]
        have hwait : 10 ^ 6 * size ≤ limit * (p.wait size).2 + 10 ^ 6 * maxDataLen *
            ((if Unpaced limit p (.wait size) then 1 else 0 : Nat) : Int) := by
          cases hpaced : Unpaced limit p (.wait size) with
          | false =>
              have := hp.le_slept hlimit (by omega) hsize.2 hpaced
              simpa using this
          | true =>
              have hslept : 0 ≤ limit * ((p.wait size).2 : Int) :=
                mul_nonneg hlimit.le (Nat.cast_nonneg _)
              rw [if_pos rfl, Nat.cast_one, mul_one]
              linarith [hsize.2]
        linarith
      · simpa [sizes, Unpaced] using hrest
      · simpa [sizes, Unpaced] using hrest

/-- No bandwidth was sampled yet, and nothing is in flight. -/
structure Unsampled (t : ℚ) (p : Pacing) : Prop where
  maxBw : p.maxBw = 0
  pacingRate : p.pacingRate = 0
  bytesInFlight : p.bytesInFlight = 0
  state : p.state = .startup
  bwSampleIdx : p.bwSampleIdx = 0
  cwnd : minCwnd ≤ p.cwnd
  deliveredTime : p.deliveredTime = t
  enabled : p.enabled

/-- Without a sample the state machine does not leave `BBR_STARTUP`. -/
theorem Turns.startup {t : ℚ} {p q : Pacing} (h : Turns t p q) (hstate : p.state = .startup)
    (hidx : p.bwSampleIdx = 0) : q = p := by
  cases h with
  | stays => rfl
  | drains _ hthree => omega
  | probes h | cycles h | probesRtt h | holds h | returns h =>
      exact absurd (hstate.symm.trans h) (by simp)

/-- A packet that is sent and acknowledged within a millisecond of the last
one is neither delayed nor sampled. -/
theorem Unsampled.pair {t : ℚ} (h : Unsampled t p) :
    ∃ q, run step p [.wait 1000, .ack 1000 (1 / 20) (t + 1 / 1000) (t + 1 / 1000)] =
      .ok (q, [0, 0]) ∧ Unsampled (t + 1 / 1000) q := by
  have hcwnd := h.cwnd
  unfold minCwnd at hcwnd
  have hslept : (p.wait 1000).2 = 0 := by
    rw [wait_slept h.enabled, pace_of_nonpos h.pacingRate.le,
      if_neg (by rw [h.bytesInFlight]; omega)]
  obtain ⟨w, hw⟩ : ∃ w, (p.wait 1000).1 = w := ⟨_, rfl⟩
  have hwait : w = { p with bytesInFlight := p.bytesInFlight + 1000 } :=
    hw.symm.trans (wait_fst h.enabled 1000)
  have hno : ¬ (w.settle 1000).Samples (1 / 20) (t + 1 / 1000) := by
    rintro ⟨-, hlate⟩
    have htime : (w.settle 1000).deliveredTime = t := by
      rw [hwait]
      exact h.deliveredTime
    rw [htime] at hlate
    linarith
  have hstart : (w.settle 1000).state = .startup := by
    rw [hwait]
    exact h.state
  have hidx : (w.settle 1000).bwSampleIdx = 0 := by
    rw [hwait]
    exact h.bwSampleIdx
  -- the filters take no sample, so the state machine stays in `BBR_STARTUP`
  have hstay : ∀ {p₁ p₂ : Pacing}, Measured (w.settle 1000) (1 / 20) (t + 1 / 1000) p₁ →
      Turns (t + 1 / 1000) p₁ p₂ → p₂ = p₁ := by
    intro p₁ p₂ hm hturn
    refine hturn.startup (hm.state.trans hstart) ?_
    rw [hm.bwSampleIdx, if_neg hno, hidx]
  rcases onAck_cases w 1000 (1 / 20) (t + 1 / 1000) (t + 1 / 1000) with
    ⟨-, hs | ⟨p₁, p₂, hm, hturn, hprobe, -⟩⟩ | ⟨p₁, p₂, q, hok, hm, hturn, hscaled, -⟩
  · exact absurd hs.1 hno
  · rw [hstay hm hturn, hm.state, hstart] at hprobe
    exact absurd hprobe (by simp)
  · obtain rfl := hstay hm hturn
    have hzero : p₂.maxBw = 0 := by
      rw [hm.maxBw hno, hwait]
      exact h.maxBw
    have hbytes : p₂.bytesInFlight = 0 := by
      rw [hm.bytesInFlight, hwait]
      unfold settle
      dsimp only
      rw [h.bytesInFlight]
      rfl
    refine ⟨q, ?_, ?_⟩
    · refine run_cons_eq_ok.mpr ⟨w, 0, [0], ?_, ?_, rfl⟩
      · rw [step, ← hw, ← hslept]
      · refine run_cons_eq_ok.mpr ⟨q, 0, [], ?_, rfl, rfl⟩
        rw [step, hok]
        rfl
    · have hrate := hscaled.rate hzero
      have hge := hscaled.cwnd
      have htime := hm.deliveredTime (by norm_num)
      rw [hscaled.eq]
      refine ⟨hzero, hrate, hbytes, hm.state.trans hstart, ?_, hge, htime, ?_⟩
      · show p₂.bwSampleIdx = 0
        rw [hm.bwSampleIdx, if_neg hno, hidx]
      · show p₂.enabled
        rw [hm.enabled, hwait]
        exact h.enabled

/-- Packets of a thousand bytes, one in a millisecond, each acknowledged at
once. -/
def burst (t : ℚ) : Nat → List Event
  | 0 => []
  | n + 1 =>
      .wait 1000 :: .ack 1000 (1 / 20) (t + 1 / 1000) (t + 1 / 1000) :: burst (t + 1 / 1000) n

/-- The burst is sent without any delay. -/
theorem Unsampled.burst : ∀ (n : Nat) {t : ℚ} {p : Pacing}, Unsampled t p →
    ∃ q outs, run step p (burst t n) = .ok (q, outs) ∧ outs.sum = 0 := by
  intro n
  induction n with
  | zero => exact fun {t p} _ => ⟨p, [], rfl, rfl⟩
  | succ n ih =>
      intro t p h
      obtain ⟨m, hpair, hm⟩ := h.pair
      obtain ⟨q, outs, hrun, hsum⟩ := ih hm
      refine ⟨q, [0, 0] ++ outs, ?_, by simpa using hsum⟩
      exact run_append_eq_ok.mpr ⟨m, [0, 0], outs, hpair, hrun, rfl⟩

theorem sizes_burst (n : Nat) : ∀ t, sizes (burst t n) = List.replicate n 1000 := by
  induction n with
  | zero => exact fun t => rfl
  | succ n ih =>
      intro t
      show 1000 :: sizes (burst (t + 1 / 1000) n) = _
      rw [ih]
      rfl

theorem sends_burst (n : Nat) : ∀ t, ∀ ev ∈ burst t n, ev.Sends := by
  induction n with
  | zero => exact fun t ev hev => absurd hev (by simp [burst])
  | succ n ih =>
      intro t ev hev
      rcases List.mem_cons.mp hev with rfl | hev
      · exact (by decide : (1 : Int) ≤ 1000 ∧ (1000 : Int) ≤ maxDataLen)
      · rcases List.mem_cons.mp hev with rfl | hev
        · trivial
        · exact ih _ ev hev

/-- The time slept in a run falls short of the limit by at most `short`. -/
def Keeps (limit : Int) (short : ℚ) (events : List Event) (outs : List Nat) : Prop :=
  ((sizes events).dropLast.sum : ℚ) / limit - short ≤ (outs.sum : ℚ) / 10 ^ 6

/-- No constant bounds how far runs fall short of the limit. -/
theorem not_keeps (hlimit : 0 < limit) (t t' short : ℚ) :
    ∃ events q outs, (∀ ev ∈ events, ev.Sends) ∧
      run step (init limit t t') events = .ok (q, outs) ∧ ¬ Keeps limit short events outs := by
  have hstart : Unsampled t (init limit t t') :=
    ⟨rfl, rfl, rfl, rfl, rfl, (by decide : minCwnd ≤ initCwnd), rfl, rfl⟩
  have hpos : (0 : ℚ) < limit := by exact_mod_cast hlimit
  obtain ⟨n, hn⟩ := exists_nat_gt (short * limit / 1000)
  obtain ⟨q, outs, hrun, hsum⟩ := hstart.burst (n + 1)
  refine ⟨burst t (n + 1), q, outs, sends_burst (n + 1) t, hrun, ?_⟩
  unfold Keeps
  rw [sizes_burst, List.dropLast_replicate, List.sum_replicate, hsum, not_le]
  have hshort : short < (n : ℚ) * 1000 / limit := by
    rw [lt_div_iff₀ hpos]
    rw [div_lt_iff₀ (by norm_num)] at hn
    linarith
  rw [Nat.add_sub_cancel, nsmul_eq_mul]
  push_cast
  linarith

/-- A run with at most `n` unpaced waits falls short of the limit by the time of
`n` packets at most, however many packets it sends; and whatever the limit,
there are runs that fall short of it by more than any constant. -/
theorem cap_of_run (hlimit : 0 < limit) (t t' : ℚ) :
    (∀ events q outs n, (∀ ev ∈ events, ev.Sends) →
      run step (init limit t t') events = .ok (q, outs) →
      runCount step (Unpaced limit) (init limit t t') events ≤ n →
        Keeps limit (n * maxDataLen / limit) events outs) ∧
    ¬ ∃ short, ∀ events q outs, (∀ ev ∈ events, ev.Sends) →
      run step (init limit t t') events = .ok (q, outs) → Keeps limit short events outs := by
  have hpos : (0 : ℚ) < limit := by exact_mod_cast hlimit
  constructor
  · intro events q outs n hsends hrun hcount
    have hsum := sum_le_of_limited hlimit (limited_init hlimit t t') hsends hrun
    have hlast : (sizes events).dropLast.sum ≤ (sizes events).sum :=
      (List.dropLast_sublist _).sum_le_sum (sizes_nonneg hsends)
    have hfew : 10 ^ 6 * maxDataLen * (runCount step (Unpaced limit) (init limit t t') events : Int)
        ≤ 10 ^ 6 * maxDataLen * n :=
      mul_le_mul_of_nonneg_left (by exact_mod_cast hcount) (by decide)
    unfold Keeps
    generalize outs.sum = slept at hsum ⊢
    generalize (sizes events).dropLast.sum = sent at hlast ⊢
    have hint : 10 ^ 6 * sent ≤ limit * slept + 10 ^ 6 * maxDataLen * n := by linarith
    have hmul : (10 : ℚ) ^ 6 * sent ≤ limit * slept + 10 ^ 6 * maxDataLen * n := by
      exact_mod_cast hint
    rw [← sub_div, div_le_div_iff₀ hpos (by norm_num)]
    linarith
  · rintro ⟨short, hkeeps⟩
    obtain ⟨events, q, outs, hsends, hrun, hnot⟩ := not_keeps hlimit t t' short
    exact hnot (hkeeps events q outs hsends hrun)

/-- A packet before the first sample, a rate of 1000 bytes per second, and two
more packets. -/
def pacedEvents : List Event := [.wait 1400, .ack 1000 (1 / 20) 1 1, .wait 1400, .wait 1400]

/-- The first packet is not paced, the others wait for 2.8 s. -/
theorem cap_of_run_paced : ∃ q outs, run step (init 1000 0 0) pacedEvents = .ok (q, outs) ∧
    outs.sum = 2800000 ∧ Keeps 1000 ((1 : Nat) * maxDataLen / (1000 : Int)) pacedEvents outs := by
  obtain ⟨⟨q, outs⟩, hrun, hsum⟩ := @exists_of_any _ _ (run step (init 1000 0 0) pacedEvents)
    (fun r => r.2.sum = 2800000) (by decide +kernel)
  refine ⟨q, outs, hrun, of_decide_eq_true hsum, ?_⟩
  refine (cap_of_run (by decide) 0 0).1 pacedEvents q outs 1 ?_ hrun (by decide +kernel)
  intro ev hev
  simp only [pacedEvents, List.mem_cons, List.not_mem_nil, or_false] at hev
  rcases hev with rfl | rfl | rfl | rfl
  · exact (by decide : (1 : Int) ≤ 1400 ∧ (1400 : Int) ≤ maxDataLen)
  · trivial
  · exact (by decide : (1 : Int) ≤ 1400 ∧ (1400 : Int) ≤ maxDataLen)
  · exact (by decide : (1 : Int) ≤ 1400 ∧ (1400 : Int) ≤ maxDataLen)

/-- With a limit of 1000 bytes per second, no constant bounds how far runs fall
short of it. -/
theorem limit_exceeded : ¬ ∃ short, ∀ events q outs, (∀ ev ∈ events, ev.Sends) →
    run step (init 1000 0 0) events = .ok (q, outs) → Keeps 1000 short events outs := by
  rintro ⟨short, hkeeps⟩
  obtain ⟨events, q, outs, hsends, hrun, hnot⟩ := @not_keeps 1000 (by decide) 0 0 short
  exact hnot (hkeeps events q outs hsends hrun)

end Cap

/-! ## The indices -/

section Indices

variable {p : Pacing}

/-- The call does not count an `int` beyond its largest value. -/
def NoOverflow (p : Pacing) : Event → Prop
  | .ack _ rtt t _ => (p.Samples rtt t → p.bwSampleIdx ≠ 2 ^ 31 - 1) ∧
      (p.state = .probeBw → p.cycleIdx ≠ 2 ^ 31 - 1)
  | _ => True

/-- The counters are in range, and the window is at least the least one. -/
structure WellFormed (p : Pacing) : Prop where
  bwSampleIdx : 0 ≤ p.bwSampleIdx ∧ p.bwSampleIdx < 2 ^ 31
  cycleIdx : 0 ≤ p.cycleIdx ∧ p.cycleIdx < 2 ^ 31
  cwnd : minCwnd ≤ p.cwnd
  enabled : p.enabled

theorem wellFormed_init (limit : Int) (t t' : ℚ) : WellFormed (init limit t t') :=
  ⟨(by decide : (0 : Int) ≤ 0 ∧ (0 : Int) < 2 ^ 31),
    (by decide : (0 : Int) ≤ 0 ∧ (0 : Int) < 2 ^ 31), (by decide : minCwnd ≤ initCwnd), rfl⟩

/-- Even the largest `cycle_idx` counts on to an index of the gains, the first. -/
theorem tmod_wrapInt {n : Int} (hlo : 0 ≤ n) (hhi : n < 2 ^ 31) :
    0 ≤ (wrapInt (n + 1)).tmod 8 := by
  by_cases hmax : n = 2 ^ 31 - 1
  · rw [hmax]
    decide
  · rw [wrapInt_of_lt (by omega) (by omega), Int.tmod_eq_emod_of_nonneg (by omega)]
    omega

/-- An acknowledgement in a well-formed state stays in the arrays. -/
theorem WellFormed.ack (h : WellFormed p) (bytes : Int) (rtt t t' : ℚ) :
    ∃ p₁ p₂ q, p.onAck bytes rtt t t' = .ok q ∧ Acked p bytes rtt t t' p₁ p₂ q := by
  rcases onAck_cases p bytes rtt t t' with
    ⟨-, ⟨-, hneg⟩ | ⟨p₁, p₂, hm, hturn, hprobe, hneg⟩⟩ | hok
  · have hidx := tmod_ten h.bwSampleIdx.1
    omega
  · exfalso
    obtain ⟨hlo, hhi⟩ := h.cycleIdx
    have hsame : p₁.cycleIdx = p.cycleIdx := hm.cycleIdx
    rcases hturn.cycleIdx with hidx | hidx | ⟨-, hidx⟩
    · rw [hidx, hsame, Int.tmod_eq_emod_of_nonneg hlo] at hneg
      omega
    · rw [hidx] at hneg
      exact absurd hneg (by decide)
    · rw [hidx, hsame] at hneg
      exact absurd (tmod_wrapInt hlo hhi) (not_le.mpr hneg)
  · exact hok

theorem WellFormed.acked (h : WellFormed p) {bytes : Int} {rtt t t' : ℚ} {q : Pacing}
    (hframe : AckFrame p rtt t q) (hno : NoOverflow p (.ack bytes rtt t t')) : WellFormed q := by
  obtain ⟨hlo, hhi⟩ := h.bwSampleIdx
  obtain ⟨hclo, hchi⟩ := h.cycleIdx
  refine ⟨?_, ?_, hframe.cwnd, hframe.enabled.trans h.enabled⟩
  · rw [hframe.bwSampleIdx]
    split
    · next hs =>
        have hmax := hno.1 hs
        rw [wrapInt_of_lt (by omega) (by omega)]
        omega
    · exact ⟨hlo, hhi⟩
  · rcases hframe.cycleIdx with hidx | hidx | ⟨hstate, hidx⟩
    · rw [hidx]
      exact ⟨hclo, hchi⟩
    · rw [hidx]
      decide
    · have hmax := hno.2 hstate
      rw [hidx, wrapInt_of_lt (by omega) (by omega)]
      omega

theorem onLoss_cwnd (p : Pacing) : minCwnd ≤ p.onLoss.cwnd := by
  unfold onLoss
  dsimp only
  split
  · exact le_rfl
  · next h => exact not_lt.mp h

/-- In a well-formed state every call stays in the arrays and leaves the window
and the bytes in flight in range; if no counter overflows, the state is
well-formed after it. -/
theorem WellFormed.step (h : WellFormed p) (ev : Event) : ∃ q out, p.step ev = .ok (q, out) ∧
    minCwnd ≤ q.cwnd ∧ (∀ bytes rtt t t', ev = .ack bytes rtt t t' → 0 ≤ q.bytesInFlight) ∧
    (NoOverflow p ev → WellFormed q) := by
  cases ev with
  | init limit t t' =>
      have hinit := wellFormed_init limit t t'
      exact ⟨_, _, rfl, hinit.cwnd, fun _ _ _ _ heq => absurd heq (by simp), fun _ => hinit⟩
  | wait size =>
      have hq : WellFormed (p.wait size).1 := by
        rw [wait_fst h.enabled]
        exact ⟨h.bwSampleIdx, h.cycleIdx, h.cwnd, h.enabled⟩
      exact ⟨_, _, rfl, hq.cwnd, fun _ _ _ _ heq => absurd heq (by simp), fun _ => hq⟩
  | ack bytes rtt t t' =>
      obtain ⟨p₁, p₂, q, hok, hacked⟩ := h.ack bytes rtt t t'
      have hframe := hacked.frame
      refine ⟨q, 0, ?_, hframe.cwnd, fun _ _ _ _ _ => hframe.bytesInFlight, ?_⟩
      · rw [Pacing.step, hok]
        rfl
      · exact fun hno => h.acked hframe hno
  | loss =>
      refine ⟨_, _, rfl, onLoss_cwnd p, fun _ _ _ _ heq => absurd heq (by simp), fun _ => ?_⟩
      exact ⟨h.bwSampleIdx, h.cycleIdx, onLoss_cwnd p, h.enabled⟩

/-- In every state that is reached without an overflow, the window is in range,
and every call stays in the arrays and leaves the window and the bytes in flight
in range. -/
theorem indices_of_run {limit : Int} {t t' : ℚ}
    (hreach : Reached step NoOverflow (init limit t t') p) :
    minCwnd ≤ p.cwnd ∧ ∀ ev, ∃ q out, p.step ev = .ok (q, out) ∧ minCwnd ≤ q.cwnd ∧
      ∀ bytes rtt t t', ev = .ack bytes rtt t t' → 0 ≤ q.bytesInFlight := by
  have h : WellFormed p := by
    induction hreach with
    | start => exact wellFormed_init limit t t'
    | next _ hno hok ih =>
        obtain ⟨q, out, hok', -, -, hkeep⟩ := ih.step _
        obtain ⟨rfl, -⟩ := Prod.mk.inj (Except.ok.inj (hok.symm.trans hok'))
        exact hkeep hno
  refine ⟨h.cwnd, fun ev => ?_⟩
  obtain ⟨q, out, hok, hcwnd, hbytes, -⟩ := h.step ev
  exact ⟨q, out, hok, hcwnd, hbytes⟩

/-- The first acknowledgement after the start. -/
theorem indices_of_run_ack : ∃ q out, (init 0 0 0).step (.ack 1000 (1 / 20) 1 1) = .ok (q, out) ∧
    minCwnd ≤ q.cwnd := by
  obtain ⟨q, out, hok, hcwnd, -⟩ := (indices_of_run (.start : Reached step NoOverflow
    (init 0 0 0) (init 0 0 0))).2 (.ack 1000 (1 / 20) 1 1)
  exact ⟨q, out, hok, hcwnd⟩

/-- The acknowledgement number `k`, a hundred in a second. -/
def ackAt (k : Nat) : Event := .ack 1000 (1 / 20) ((k + 1) / 100) ((k + 1) / 100)

/-- The counters after `n` acknowledgements. -/
structure Counted (n : Nat) (p : Pacing) : Prop where
  bwSampleIdx : p.bwSampleIdx = wrapInt n
  deliveredTime : p.deliveredTime = n / 100
  wellFormed : n < 2 ^ 31 → WellFormed p ∧ p.cycleIdx ≤ n

theorem Counted.samples {n : Nat} (h : Counted n p) : p.Samples (1 / 20) ((n + 1) / 100) := by
  refine ⟨by norm_num, ?_⟩
  rw [h.deliveredTime]
  linarith

/-- One more acknowledgement, as long as `bw_sample_idx` has not overflown. -/
theorem Counted.next {n : Nat} (h : Counted n p) (hn : n < 2 ^ 31) :
    ∃ q, p.step (ackAt n) = .ok (q, 0) ∧ Counted (n + 1) q := by
  have hidx : p.bwSampleIdx = n := h.bwSampleIdx.trans (wrapInt_of_lt (by omega) (by omega))
  obtain ⟨hwf, hle⟩ := h.wellFormed hn
  obtain ⟨p₁, p₂, q, hok, hacked⟩ := hwf.ack 1000 (1 / 20) ((n + 1) / 100) ((n + 1) / 100)
  have hframe := hacked.frame
  refine ⟨q, ?_, ?_, ?_, fun hn' => ?_⟩
  · unfold ackAt
    rw [Pacing.step, hok]
    rfl
  · rw [hframe.bwSampleIdx, if_pos h.samples, hidx, Nat.cast_add_one]
  · rw [hframe.deliveredTime (by norm_num), Nat.cast_add_one]
  · have hno : NoOverflow p (ackAt n) := ⟨fun _ => by omega, fun _ => by omega⟩
    refine ⟨hwf.acked hframe hno, ?_⟩
    obtain ⟨hlo, -⟩ := hwf.cycleIdx
    rcases hframe.cycleIdx with hc | hc | ⟨-, hc⟩
    · omega
    · omega
    · rw [hc, wrapInt_of_lt (by omega) (by omega)]
      omega

theorem counted_run : ∀ n, n ≤ 2 ^ 31 → ∃ q outs,
    run step (init 0 0 0) ((List.range n).map ackAt) = .ok (q, outs) ∧ Counted n q := by
  intro n
  induction n with
  | zero =>
      intro _
      refine ⟨init 0 0 0, [], rfl, rfl, by norm_num [init],
        fun _ => ⟨wellFormed_init 0 0 0, le_rfl⟩⟩
  | succ n ih =>
      intro hn
      obtain ⟨p, outs, hrun, hcounted⟩ := ih (by omega)
      obtain ⟨q, hstep, hnext⟩ := hcounted.next (by omega)
      refine ⟨q, outs ++ [0], ?_, hnext⟩
      rw [List.range_succ, List.map_append]
      exact run_concat hrun hstep

/-- After 2^31 acknowledgements, a hundred in a second, the next one is stored
in front of `bw_samples`. -/
theorem index_negative : ∃ p, (∃ outs, run step (init 0 0 0)
    ((List.range (2 ^ 31)).map ackAt) = .ok (p, outs)) ∧
      p.step (ackAt (2 ^ 31)) = .error .outOfBounds := by
  obtain ⟨p, outs, hrun, hcounted⟩ := counted_run (2 ^ 31) le_rfl
  have hneg : p.bwSampleIdx.tmod 10 < 0 := by
    rw [hcounted.bwSampleIdx]
    decide
  have herr : p.onAck 1000 (1 / 20) (((2 ^ 31 : Nat) + 1) / 100) (((2 ^ 31 : Nat) + 1) / 100)
      = .error .outOfBounds := by
    rcases measure_cases (p.settle 1000) 1000 (1 / 20) (((2 ^ 31 : Nat) + 1) / 100) with
      ⟨-, -, herr⟩ | ⟨hpos, -⟩
    · unfold onAck
      rw [herr]
      rfl
    · exact absurd (hpos hcounted.samples) (not_le.mpr hneg)
  refine ⟨p, ⟨outs, hrun⟩, ?_⟩
  unfold ackAt
  rw [Pacing.step, herr]
  rfl

end Indices

/-! ## `BBR_PROBE_RTT` -/

section ProbeRtt

variable {p q : Pacing}

/-- The filter has moved the expiry before the state machine looks at it. -/
theorem Acked.stays_probeBw {bytes : Int} {rtt t : ℚ} {p₁ p₂ : Pacing}
    (h : Acked p bytes rtt t t p₁ p₂ q) (hrtt : 0 < rtt) (hstate : p.state = .probeBw)
    (ht : p.minRttExpiry < t) : q.state = .probeBw ∧ q.minRttExpiry = t + minRttWindow := by
  obtain ⟨hm, hturn, hscaled, -⟩ := h
  have hprobe : p₁.state = .probeBw := hm.state.trans hstate
  have hexpiry : p₁.minRttExpiry = t + minRttWindow := by
    rcases hm.expiry hrtt with ⟨-, hle⟩ | hmoved
    · exact absurd ht (not_lt.mpr hle)
    · exact hmoved
  rw [hscaled.eq]
  cases hturn with
  | cycles => exact ⟨hprobe, hexpiry⟩
  | probesRtt _ hlate =>
      rw [hexpiry, minRttWindow] at hlate
      linarith
  | stays h =>
      rw [hprobe] at h
      exact absurd h (by simp)
  | drains h | probes h | holds h | returns h => exact absurd (hprobe.symm.trans h) (by simp)

/-- The bytes in flight came down no later than at `t`. -/
def DownSince (t : ℚ) (p : Pacing) : Prop :=
  p.state = .probeRtt → p.probeRttDone = true ∧ p.probeRttStart ≤ t

/-- The first acknowledgement that finds the bytes in flight down marks the
time. -/
theorem Acked.downSince {bytes : Int} {rtt t t' : ℚ} {p₁ p₂ : Pacing}
    (h : Acked p bytes rtt t t' p₁ p₂ q) (hstate : p.state = .probeRtt)
    (hdown : q.bytesInFlight ≤ probeRttCwnd) (hclock : p.probeRttStart ≤ t') :
    DownSince t' q := by
  obtain ⟨hm, hturn, hscaled, -⟩ := h
  have hprobe : p₁.state = .probeRtt := hm.state.trans hstate
  have hbytes : p₁.bytesInFlight ≤ probeRttCwnd := by
    rw [← hturn.frame.1]
    rw [hscaled.eq] at hdown
    exact hdown
  have hstart : p₁.probeRttStart ≤ t' := hm.probeRttStart.trans_le hclock
  intro hq
  rw [hscaled.eq] at hq ⊢
  cases hturn with
  | holds =>
      show (p₁.mark t').probeRttDone = true ∧ (p₁.mark t').probeRttStart ≤ t'
      unfold mark
      split
      · exact ⟨rfl, le_rfl⟩
      · next hno => exact ⟨by_contra fun hdone => hno ⟨hdone, hbytes⟩, hstart⟩
  | returns => exact absurd hq (by simp)
  | stays h =>
      rw [hprobe] at h
      exact absurd h (by simp)
  | drains h | probes h | cycles h | probesRtt h => exact absurd (hprobe.symm.trans h) (by simp)

/-- A mark that was made is kept until the state is left. -/
theorem Acked.keeps_mark {bytes : Int} {rtt t t' : ℚ} {p₁ p₂ : Pacing} {s : ℚ}
    (h : Acked p bytes rtt t t' p₁ p₂ q) (hstate : p.state = .probeRtt) (hdone : DownSince s p) :
    DownSince s q ∧ (s + probeRttHold < t' → q.state = .probeBw ∧
      q.minRttExpiry = t' + minRttWindow) := by
  obtain ⟨hm, hturn, hscaled, -⟩ := h
  obtain ⟨hmark, hstart⟩ := hdone hstate
  have hprobe : p₁.state = .probeRtt := hm.state.trans hstate
  have hsame : p₁.mark t' = p₁ := if_neg fun hno => hno.1 (hm.probeRttDone.trans hmark)
  rw [hscaled.eq]
  cases hturn with
  | holds _ hheld =>
      rw [hsame] at hheld ⊢
      refine ⟨fun _ => ⟨hm.probeRttDone.trans hmark, hm.probeRttStart.trans_le hstart⟩,
        fun hlate => ?_⟩
      refine absurd ⟨hm.probeRttDone.trans hmark, ?_⟩ hheld
      have hle : p₁.probeRttStart ≤ s := hm.probeRttStart.trans_le hstart
      show probeRttHold < t' - p₁.probeRttStart
      linarith
  | returns =>
      exact ⟨fun hq => absurd hq (by simp), fun _ => ⟨rfl, rfl⟩⟩
  | stays h =>
      rw [hprobe] at h
      exact absurd h (by simp)
  | drains h | probes h | cycles h | probesRtt h => exact absurd (hprobe.symm.trans h) (by simp)

/-- Calls other than `init`, as long as the state is `BBR_PROBE_RTT`. -/
def Probing (p : Pacing) (ev : Event) : Prop :=
  p.state = .probeRtt ∧ ∀ limit t t', ev ≠ .init limit t t'

theorem DownSince.step {s : ℚ} {ev : Event} {out : Nat} (h : DownSince s p)
    (hprobing : Probing p ev) (hok : p.step ev = .ok (q, out)) : DownSince s q := by
  rcases step_cases hok with ⟨limit, t, t', rfl, -, -⟩ | ⟨size, -, rfl, -⟩ |
    ⟨_, _, _, _, _, _, -, hacked, -⟩ | ⟨-, rfl, -⟩
  · exact absurd rfl (hprobing.2 limit t t')
  · unfold wait
    split
    · exact h
    · exact h
  · exact (hacked.keeps_mark hprobing.1 h).1
  · exact h

theorem DownSince.run {s : ℚ} (h : DownSince s p) (hreach : Reached Pacing.step Probing p q) :
    DownSince s q := by
  induction hreach with
  | start => exact h
  | next _ hprobing hok ih => exact ih.step hprobing hok

/-- Acknowledgements as the callers make them: with a positive round-trip time
and one reading of the clock. -/
def Event.Called : Event → Prop
  | .ack _ rtt t t' => 0 < rtt ∧ t' = t
  | _ => True

/-- Such calls never enter `BBR_PROBE_RTT`. -/
theorem ne_probeRtt_step {ev : Event} {out : Nat} (h : p.state ≠ .probeRtt) (hcalled : ev.Called)
    (hok : p.step ev = .ok (q, out)) : q.state ≠ .probeRtt := by
  rcases step_cases hok with ⟨_, _, _, -, rfl, -⟩ | ⟨size, -, rfl, -⟩ |
    ⟨bytes, rtt, t, t', p₁, p₂, rfl, ⟨hm, hturn, hscaled, -⟩, -⟩ | ⟨-, rfl, -⟩
  · exact by simp [init]
  · unfold wait
    split
    · exact h
    · exact h
  · obtain ⟨hrtt, rfl⟩ := hcalled
    have hstate : p₁.state ≠ .probeRtt := hm.state.trans_ne h
    rw [hscaled.eq]
    cases hturn with
    | stays | cycles => exact hstate
    | drains | probes => exact by simp
    | probesRtt _ hlate =>
        -- the filter has just moved the expiry, or it has not passed
        rcases hm.expiry hrtt with ⟨hsame, hle⟩ | hmoved
        · exact absurd hlate (not_lt.mpr (hle.trans_eq hsame.symm))
        · rw [hmoved, minRttWindow] at hlate
          linarith
    | holds h | returns h => exact absurd h hstate
  · exact h

/-- From `BBR_PROBE_BW`, an acknowledgement after the expiry leads to
`BBR_PROBE_BW` again, with the expiry moved on, so that the callers never bring
the pacer to `BBR_PROBE_RTT`.  From there, once the bytes in flight have been
down for longer than the hold time, an acknowledgement would lead back to
`BBR_PROBE_BW`. -/
theorem probeRtt_missed (p : Pacing) :
    (p.state = .probeBw → ∀ bytes rtt t q, 0 < rtt → p.minRttExpiry < t →
      p.onAck bytes rtt t t = .ok q →
        q.state = .probeBw ∧ q.minRttExpiry = t + minRttWindow) ∧
    (∀ limit t t', Reached step (fun _ ev => ev.Called) (init limit t t') p →
      p.state ≠ .probeRtt) ∧
    (p.state = .probeRtt → ∀ bytes rtt t p₁ p₂ bytes' rtt' t' q,
      p.probeRttStart ≤ t → p.onAck bytes rtt t t = .ok p₁ → p₁.bytesInFlight ≤ probeRttCwnd →
      Reached step Probing p₁ p₂ → p₂.state = .probeRtt → t + probeRttHold < t' →
      p₂.onAck bytes' rtt' t' t' = .ok q →
        q.state = .probeBw ∧ q.minRttExpiry = t' + minRttWindow) := by
  refine ⟨?_, ?_, ?_⟩
  · intro hstate bytes rtt t q hrtt ht hok
    obtain ⟨p₁, p₂, hacked⟩ := acked_of_ok hok
    exact hacked.stays_probeBw hrtt hstate ht
  · intro limit t t' hreach
    induction hreach with
    | start => exact by simp [init]
    | next _ hcalled hok ih => exact ne_probeRtt_step ih hcalled hok
  · intro hstate bytes rtt t p₁ p₂ bytes' rtt' t' q hclock hfirst hdown hreach hstate' hlate hok
    obtain ⟨_, _, hacked⟩ := acked_of_ok hfirst
    obtain ⟨_, _, hacked'⟩ := acked_of_ok hok
    have hmarked := (hacked.downSince hstate hdown hclock).run hreach
    exact (hacked'.keeps_mark hstate' hmarked).2 hlate

/-- Four acknowledgements that lead to `BBR_PROBE_BW`. -/
def probingEvents : List Event := (List.range 4).map ackAt

theorem called_ackAt (k : Nat) : (ackAt k).Called := ⟨by norm_num, rfl⟩

/-- Twenty seconds after the start the expiry has passed, and an
acknowledgement does not lead to `BBR_PROBE_RTT`. -/
theorem probeRtt_not_reached : ∃ p q, Reached step (fun _ ev => ev.Called) (init 0 0 0) p ∧
    p.state = .probeBw ∧ p.minRttExpiry < 20 ∧ p.onAck 1000 (1 / 20) 20 20 = .ok q ∧
    q.state ≠ .probeRtt := by
  obtain ⟨⟨p, outs⟩, hrun, hp⟩ := @exists_of_any _ _ (run step (init 0 0 0) probingEvents)
    (fun r => r.1.state = .probeBw ∧ r.1.minRttExpiry < 20 ∧
      (r.1.onAck 1000 (1 / 20) 20 20).toOption.any fun q => q.state ≠ .probeRtt) (by decide +kernel)
  obtain ⟨hstate, hexpiry, hack⟩ := of_decide_eq_true hp
  obtain ⟨q, hok, hq⟩ := exists_of_any hack
  refine ⟨p, q, ?_, hstate, hexpiry, hok, of_decide_eq_true hq⟩
  refine Reached.start.run (fun t ev hev => ?_) hrun
  obtain ⟨k, -, rfl⟩ := List.mem_map.mp hev
  exact called_ackAt k

end ProbeRtt

end Fecraw.Ports.Pacing
