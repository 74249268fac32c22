import Fecraw.Ports.AdaptiveFec
import Fecraw.Verified.Checked

/-!
# The pacer

A port of `pacing_t`: a four-state controller that estimates the bandwidth and
the round-trip time from acknowledgements, and from them sets a window and a
rate.  `wait` is called before a packet is sent and sleeps; `on_ack` is called
for what is received.

Times and rates are `double`s in the source and are read here as exact rational
numbers; a conversion to `int64_t` truncates.  The two counters that index
arrays are 32-bit `int`s.  All calls are made by one event loop, so that
nothing changes while `wait` polls the window, and the mutex is left out.

The clock is read once in the filters of `on_ack` and once more in
`update_state`, so an acknowledgement has two times.

## Main results

* `wait_slept`: how long a call of `wait` sleeps.
* `updateState_cases`: what the state machine can do.
* `updateCwnd_cases`: the window and the rate after it.
* `onAck_cases`: an acknowledgement as a whole.
-/

namespace Fecraw.Ports

open Fecraw.Verified Fecraw.Verified.Checked RsTable

/-- `bbr_state_t`. -/
inductive BbrState where
  | startup
  | drain
  | probeBw
  | probeRtt
deriving Repr, DecidableEq

/-- `pacing_t`. -/
structure Pacing where
  maxBw : Int
  minRtt : ℚ
  smoothedRtt : ℚ
  bytesInFlight : Int
  delivered : Int
  deliveredTime : ℚ
  cwnd : Int
  pacingRate : Int
  state : BbrState
  cycleIdx : Int
  probeRttStart : ℚ
  minRttExpiry : ℚ
  probeRttDone : Bool
  priorCwnd : Int
  bwSamples : Nat → Int
  bwSampleIdx : Int
  maxBandwidth : Int
  enabled : Bool

namespace Pacing

def startupGain : ℚ := 289 / 100
def drainGain : ℚ := 35 / 100
def probeRttCwnd : Int := 4 * 1500
def initCwnd : Int := 32768
def minCwnd : Int := 4096
def minRttWindow : ℚ := 10
def probeRttHold : ℚ := 2 / 10
def probeBwGains : List ℚ := [125 / 100, 75 / 100, 1, 1, 1, 1, 1, 1]

/-- `max_data_len` of the tunnel. -/
def maxDataLen : Int := 3600

/-- `init`, which reads the clock twice. -/
def init (limit : Int) (t t' : ℚ) : Pacing where
  maxBw := 0
  minRtt := 10 ^ 9
  smoothedRtt := 0
  bytesInFlight := 0
  delivered := 0
  deliveredTime := t
  cwnd := initCwnd
  pacingRate := 0
  state := .startup
  cycleIdx := 0
  probeRttStart := 0
  minRttExpiry := t' + minRttWindow
  probeRttDone := false
  priorCwnd := 0
  bwSamples := fun _ => 0
  bwSampleIdx := 0
  maxBandwidth := limit
  enabled := true

/-! ## Sending -/

/-- The loop that polls the window, with the rounds that are left; the
microseconds that it sleeps. -/
def poll (p : Pacing) : Nat → Nat
  | 0 => 0
  | rounds + 1 => if p.bytesInFlight > p.cwnd then 1000 + p.poll rounds else 0

/-- The pacing delay of a packet in microseconds. -/
def delay (p : Pacing) (size : Int) : ℚ := size / p.pacingRate * 10 ^ 6

/-- The microseconds of the pacing delay that are slept. -/
def pace (p : Pacing) (size : Int) : Nat :=
  if 0 < p.pacingRate then
    if 500 < p.delay size then (truncate (p.delay size)).toNat % 2 ^ 32 else 0
  else 0

/-- `wait`, with the microseconds that it sleeps. -/
def wait (p : Pacing) (size : Int) : Pacing × Nat :=
  if ¬ p.enabled then (p, 0)
  else ({ p with bytesInFlight := p.bytesInFlight + size }, p.poll 500 + p.pace size)

/-! ## Acknowledgements -/

/-- The smoothed round-trip time and the filter for the least one. -/
def track (p : Pacing) (rtt t : ℚ) : Pacing :=
  let smoothed := if p.smoothedRtt ≤ 0 then rtt
    else p.smoothedRtt * (875 / 1000) + rtt * (125 / 1000)
  if rtt < p.minRtt ∨ t > p.minRttExpiry then
    { p with smoothedRtt := smoothed, minRtt := rtt, minRttExpiry := t + minRttWindow }
  else { p with smoothedRtt := smoothed }

/-- The largest of the ten samples. -/
def maxSample (samples : Nat → Int) : Int :=
  (List.range 10).foldl (fun m i => if samples i > m then samples i else m) 0

/-- A bandwidth sample. -/
def sample (p : Pacing) (bytes : Int) (elapsed : ℚ) : Checked Pacing := do
  let i := p.bwSampleIdx.tmod 10
  bounds (0 ≤ i ∧ i < 10)
  let samples := Function.update p.bwSamples i.toNat (truncate (bytes / elapsed))
  return { p with
    bwSamples := samples
    bwSampleIdx := wrapInt (p.bwSampleIdx + 1)
    maxBw := maxSample samples }

/-- An acknowledgement at `t` is used for a bandwidth sample. -/
def Samples (p : Pacing) (rtt t : ℚ) : Prop := 0 < rtt ∧ 1 / 1000 < t - p.deliveredTime

instance (p : Pacing) (rtt t : ℚ) : Decidable (p.Samples rtt t) := by
  unfold Samples
  infer_instance

/-- The part of `on_ack` that is skipped for an `rtt_s` that is not positive. -/
def measure (p : Pacing) (bytes : Int) (rtt t : ℚ) : Checked Pacing :=
  if 0 < rtt then do
    let elapsed := t - p.deliveredTime
    let q ← if 1 / 1000 < elapsed then (p.track rtt t).sample bytes elapsed else .ok (p.track rtt t)
    return { q with delivered := q.delivered + bytes, deliveredTime := t }
  else .ok p

/-- `bdp`. -/
def bdp (p : Pacing) : Int :=
  if p.maxBw = 0 ∨ p.minRtt ≥ 10 ^ 8 then initCwnd else truncate (p.maxBw * p.minRtt)

/-- `bw_samples[i]`. -/
def sampleAt (p : Pacing) (i : Int) : Checked Int := do
  bounds (0 ≤ i ∧ i < 10)
  return p.bwSamples i.toNat

/-- `update_state`. -/
def updateState (p : Pacing) (t : ℚ) : Checked Pacing :=
  match p.state with
  | .startup =>
      if 3 ≤ p.bwSampleIdx then do
        let recent ← p.sampleAt ((p.bwSampleIdx - 1).tmod 10)
        let prev ← p.sampleAt ((p.bwSampleIdx - 2).tmod 10)
        if 0 < prev ∧ (recent : ℚ) / prev < 125 / 100 then
          return { p with state := .drain, priorCwnd := p.cwnd }
        else return p
      else .ok p
  | .drain =>
      if p.bytesInFlight ≤ p.bdp then .ok { p with state := .probeBw, cycleIdx := 0 } else .ok p
  | .probeBw =>
      let p := { p with cycleIdx := wrapInt (p.cycleIdx + 1) }
      if t > p.minRttExpiry then
        .ok { p with
          state := .probeRtt
          probeRttStart := t
          priorCwnd := p.cwnd
          probeRttDone := false }
      else .ok p
  | .probeRtt =>
      let p := if ¬ p.probeRttDone ∧ p.bytesInFlight ≤ probeRttCwnd then
        { p with probeRttDone := true, probeRttStart := t } else p
      if p.probeRttDone ∧ t - p.probeRttStart > probeRttHold then
        .ok { p with
          minRttExpiry := t + minRttWindow
          state := .probeBw
          cycleIdx := 0
          cwnd := p.priorCwnd }
      else .ok p

/-- The window and the rate for a gain. -/
def scale (p : Pacing) (gain : ℚ) : Pacing :=
  let cwnd := truncate (p.bdp * gain)
  let rate := truncate (p.maxBw * gain)
  { p with
    cwnd := if cwnd < minCwnd then minCwnd else cwnd
    pacingRate := if p.maxBandwidth > 0 ∧ rate > p.maxBandwidth then p.maxBandwidth else rate }

/-- `update_cwnd`.  In `BBR_PROBE_RTT` the rate is not cut to the limit. -/
def updateCwnd (p : Pacing) : Checked Pacing :=
  match p.state with
  | .startup => .ok (p.scale startupGain)
  | .drain => .ok (p.scale drainGain)
  | .probeBw => do
      let i := p.cycleIdx.tmod 8
      bounds (0 ≤ i ∧ i < 8)
      return p.scale (probeBwGains.getD i.toNat 1)
  | .probeRtt => .ok { p with
      cwnd := probeRttCwnd
      pacingRate := truncate (p.maxBw * (5 / 10)) }

/-- The bytes in flight after an acknowledgement. -/
def settle (p : Pacing) (bytes : Int) : Pacing :=
  { p with bytesInFlight := if p.bytesInFlight - bytes < 0 then 0 else p.bytesInFlight - bytes }

/-- `on_ack`; the clock is `t` in the filters and `t'` in `update_state`. -/
def onAck (p : Pacing) (bytes : Int) (rtt t t' : ℚ) : Checked Pacing := do
  let p ← (p.settle bytes).measure bytes rtt t
  let p ← p.updateState t'
  p.updateCwnd

/-- `on_loss`. -/
def onLoss (p : Pacing) : Pacing :=
  let cwnd := (p.cwnd * 85).tdiv 100
  { p with cwnd := if cwnd < minCwnd then minCwnd else cwnd }

/-! ## Calls -/

/-- The calls of the pacer. -/
inductive Event where
  | init (limit : Int) (t t' : ℚ)
  | wait (size : Int)
  | ack (bytes : Int) (rtt t t' : ℚ)
  | loss

/-- One call, with the microseconds that it sleeps. -/
def step (p : Pacing) : Event → Checked (Pacing × Nat)
  | .init limit t t' => .ok (init limit t t', 0)
  | .wait size => .ok (p.wait size)
  | .ack bytes rtt t t' => do
      let p ← p.onAck bytes rtt t t'
      return (p, 0)
  | .loss => .ok (p.onLoss, 0)

/-! ## How long a call of `wait` sleeps -/

section Wait

variable {p : Pacing} {size : Int}

/-- The loop polls to its end, or not at all. -/
theorem poll_eq (p : Pacing) (rounds : Nat) :
    p.poll rounds = if p.cwnd < p.bytesInFlight then 1000 * rounds else 0 := by
  induction rounds with
  | zero => split <;> rfl
  | succ rounds ih =>
      rw [poll, ih]
      split
      · ring
      · rfl

theorem lt_delay_iff (hrate : 0 < p.pacingRate) :
    500 < p.delay size ↔ 500 * p.pacingRate < 10 ^ 6 * size := by
  have hpos : (0 : ℚ) < p.pacingRate := by exact_mod_cast hrate
  have hdelay : p.delay size = ((10 ^ 6 * size : Int) : ℚ) / p.pacingRate := by
    unfold delay
    push_cast
    ring
  rw [hdelay, lt_div_iff₀ hpos]
  exact_mod_cast Iff.rfl

theorem truncate_delay (hrate : 0 < p.pacingRate) (hsize : 0 ≤ size) :
    truncate (p.delay size) = 10 ^ 6 * size / p.pacingRate := by
  have hrateq : ((p.pacingRate.toNat : Nat) : Int) = p.pacingRate := Int.toNat_of_nonneg hrate.le
  have hdelay : p.delay size = ((10 ^ 6 * size : Int) : ℚ) / (p.pacingRate.toNat : ℚ) := by
    rw [← Int.cast_natCast p.pacingRate.toNat, hrateq]
    unfold delay
    push_cast
    ring
  have hnonneg : 0 ≤ p.delay size := by
    rw [hdelay]
    apply div_nonneg
    · exact_mod_cast (by omega : 0 ≤ 10 ^ 6 * size)
    · exact Nat.cast_nonneg _
  unfold truncate
  rw [if_pos hnonneg, hdelay, Rat.floor_intCast_div_natCast, hrateq]

/-- The pacing delay is dropped up to 500 microseconds, and cut to whole
microseconds beyond. -/
theorem pace_eq (hrate : 0 < p.pacingRate) (hsize : 0 ≤ size) (hle : size ≤ maxDataLen) :
    (p.pace size : Int) = if 500 * p.pacingRate < 10 ^ 6 * size
      then 10 ^ 6 * size / p.pacingRate else 0 := by
  unfold maxDataLen at hle
  unfold pace
  rw [if_pos hrate]
  by_cases h : 500 * p.pacingRate < 10 ^ 6 * size
  · rw [if_pos ((lt_delay_iff hrate).mpr h), if_pos h, truncate_delay hrate hsize]
    have hge : 0 ≤ 10 ^ 6 * size / p.pacingRate := Int.ediv_nonneg (by omega) hrate.le
    have hlt : 10 ^ 6 * size / p.pacingRate ≤ 10 ^ 6 * size := Int.ediv_le_self _ (by omega)
    omega
  · rw [if_neg fun hd => h ((lt_delay_iff hrate).mp hd), if_neg h]
    rfl

theorem pace_of_nonpos (h : p.pacingRate ≤ 0) : p.pace size = 0 := if_neg (not_lt.mpr h)

/-- What a call of `wait` sleeps. -/
theorem wait_slept (h : p.enabled) (size : Int) :
    (p.wait size).2 = (if p.cwnd < p.bytesInFlight then 500000 else 0) + p.pace size := by
  unfold wait
  rw [if_neg (not_not.mpr h), poll_eq]

theorem wait_fst (h : p.enabled) (size : Int) :
    (p.wait size).1 = { p with bytesInFlight := p.bytesInFlight + size } := by
  unfold wait
  rw [if_neg (not_not.mpr h)]

end Wait

/-! ## What an acknowledgement does -/

section Ack

variable {p : Pacing} {bytes : Int} {rtt t : ℚ}

/-- What the filters change, and what they leave alone. -/
structure Measured (p : Pacing) (rtt t : ℚ) (q : Pacing) : Prop where
  bytesInFlight : q.bytesInFlight = p.bytesInFlight
  cwnd : q.cwnd = p.cwnd
  state : q.state = p.state
  cycleIdx : q.cycleIdx = p.cycleIdx
  probeRttStart : q.probeRttStart = p.probeRttStart
  probeRttDone : q.probeRttDone = p.probeRttDone
  enabled : q.enabled = p.enabled
  maxBandwidth : q.maxBandwidth = p.maxBandwidth
  bwSampleIdx : q.bwSampleIdx = if p.Samples rtt t then wrapInt (p.bwSampleIdx + 1)
    else p.bwSampleIdx
  maxBw : ¬ p.Samples rtt t → q.maxBw = p.maxBw
  deliveredTime : 0 < rtt → q.deliveredTime = t
  /-- The filter moves an expiry that has passed. -/
  expiry : 0 < rtt → q.minRttExpiry = p.minRttExpiry ∧ t ≤ p.minRttExpiry ∨
    q.minRttExpiry = t + minRttWindow

/-- The round-trip times touch nothing else. -/
theorem track_other (p : Pacing) (rtt t : ℚ) :
    Measured p rtt t { p.track rtt t with
      bwSampleIdx := if p.Samples rtt t then wrapInt (p.bwSampleIdx + 1) else p.bwSampleIdx
      deliveredTime := t } ∧
      (p.track rtt t).bwSampleIdx = p.bwSampleIdx := by
  unfold track
  dsimp only
  split
  · refine ⟨⟨rfl, rfl, rfl, rfl, rfl, rfl, rfl, rfl, rfl, fun _ => rfl, fun _ => rfl, ?_⟩, rfl⟩
    exact fun _ => .inr rfl
  · next h =>
      refine ⟨⟨rfl, rfl, rfl, rfl, rfl, rfl, rfl, rfl, rfl, fun _ => rfl, fun _ => rfl, ?_⟩, rfl⟩
      exact fun _ => .inl ⟨rfl, not_lt.mp fun hlt => h (.inr hlt)⟩

theorem tmod_ten {i : Int} (h : 0 ≤ i) : 0 ≤ i.tmod 10 ∧ i.tmod 10 < 10 := by
  rw [Int.tmod_eq_emod_of_nonneg h]
  omega

/-- A sample is stored, or the index is negative. -/
theorem sample_cases (p : Pacing) (bytes : Int) (elapsed : ℚ) :
    (p.bwSampleIdx.tmod 10 < 0 ∧ p.sample bytes elapsed = .error .outOfBounds) ∨
      0 ≤ p.bwSampleIdx.tmod 10 ∧ ∃ samples, p.sample bytes elapsed = .ok { p with
        bwSamples := samples
        bwSampleIdx := wrapInt (p.bwSampleIdx + 1)
        maxBw := maxSample samples } := by
  unfold sample
  dsimp only
  by_cases h : p.bwSampleIdx.tmod 10 < 0
  · rw [bounds, if_neg fun hb => absurd hb.1 (not_le.mpr h)]
    exact .inl ⟨h, rfl⟩
  · rw [bounds_of ⟨not_lt.mp h, Int.tmod_lt_of_pos _ (by omega)⟩]
    exact .inr ⟨not_lt.mp h, _, rfl⟩

/-- The filters return, unless a sample is taken at a negative index. -/
theorem measure_cases (p : Pacing) (bytes : Int) (rtt t : ℚ) :
    (p.Samples rtt t ∧ p.bwSampleIdx.tmod 10 < 0 ∧
      p.measure bytes rtt t = .error .outOfBounds) ∨
      (p.Samples rtt t → 0 ≤ p.bwSampleIdx.tmod 10) ∧
        ∃ q, p.measure bytes rtt t = .ok q ∧ Measured p rtt t q := by
  unfold measure
  by_cases hrtt : 0 < rtt
  · obtain ⟨hm, hidx⟩ := track_other p rtt t
    generalize p.track rtt t = p₁ at hm hidx
    rw [if_pos hrtt]
    dsimp only
    by_cases hel : 1 / 1000 < t - p.deliveredTime
    · have hs : p.Samples rtt t := ⟨hrtt, hel⟩
      rw [if_pos hel]
      rcases sample_cases p₁ bytes (t - p.deliveredTime) with
        ⟨hneg, herr⟩ | ⟨hpos, samples, hsample⟩
      · rw [herr]
        exact .inl ⟨hs, hidx ▸ hneg, rfl⟩
      · rw [hsample]
        refine .inr ⟨fun _ => hidx ▸ hpos, _, rfl, hm.bytesInFlight, hm.cwnd, hm.state, hm.cycleIdx,
          hm.probeRttStart, hm.probeRttDone, hm.enabled, hm.maxBandwidth, ?_,
          fun hno => absurd hs hno, fun _ => rfl, hm.expiry⟩
        rw [if_pos hs, ← hidx]
    · have hs : ¬ p.Samples rtt t := fun hs => hel hs.2
      rw [if_neg hel]
      refine .inr ⟨fun hno => absurd hno hs, _, rfl, hm.bytesInFlight, hm.cwnd, hm.state,
        hm.cycleIdx, hm.probeRttStart, hm.probeRttDone, hm.enabled, hm.maxBandwidth, ?_, hm.maxBw,
        fun _ => rfl, hm.expiry⟩
      rw [if_neg hs]
      exact hidx
  · have hs : ¬ p.Samples rtt t := fun hs => hrtt hs.1
    rw [if_neg hrtt]
    exact .inr ⟨fun hno => absurd hno hs, p, rfl, rfl, rfl, rfl, rfl, rfl, rfl, rfl, rfl,
      (if_neg hs).symm, fun _ => rfl, fun hpos => absurd hpos hrtt, fun hpos => absurd hpos hrtt⟩

/-- In `BBR_PROBE_RTT` the time is marked at which the bytes in flight have
come down. -/
def mark (p : Pacing) (t : ℚ) : Pacing :=
  if ¬ p.probeRttDone ∧ p.bytesInFlight ≤ probeRttCwnd then
    { p with probeRttDone := true, probeRttStart := t } else p

/-- The time since the mark is over. -/
def Held (p : Pacing) (t : ℚ) : Prop :=
  p.probeRttDone = true ∧ t - p.probeRttStart > probeRttHold

/-- The transitions of the state machine. -/
inductive Turns (t : ℚ) (p : Pacing) : Pacing → Prop where
  | stays (h : p.state = .startup ∨ p.state = .drain) : Turns t p p
  | drains (h : p.state = .startup) (hidx : 3 ≤ p.bwSampleIdx) :
      Turns t p { p with state := .drain, priorCwnd := p.cwnd }
  | probes (h : p.state = .drain) : Turns t p { p with state := .probeBw, cycleIdx := 0 }
  | cycles (h : p.state = .probeBw) (ht : t ≤ p.minRttExpiry) :
      Turns t p { p with cycleIdx := wrapInt (p.cycleIdx + 1) }
  | probesRtt (h : p.state = .probeBw) (ht : p.minRttExpiry < t) : Turns t p { p with
      cycleIdx := wrapInt (p.cycleIdx + 1)
      state := .probeRtt
      probeRttStart := t
      priorCwnd := p.cwnd
      probeRttDone := false }
  | holds (h : p.state = .probeRtt) (hheld : ¬ (p.mark t).Held t) : Turns t p (p.mark t)
  | returns (h : p.state = .probeRtt) (hheld : (p.mark t).Held t) : Turns t p { p.mark t with
      minRttExpiry := t + minRttWindow
      state := .probeBw
      cycleIdx := 0
      cwnd := (p.mark t).priorCwnd }

/-- The state machine returns from every state, by one of its transitions. -/
theorem updateState_cases (p : Pacing) (t : ℚ) : ∃ q, p.updateState t = .ok q ∧ Turns t p q := by
  unfold updateState
  cases hstate : p.state with
  | startup =>
      dsimp only
      by_cases hidx : 3 ≤ p.bwSampleIdx
      · rw [if_pos hidx]
        unfold sampleAt
        rw [bounds_of (tmod_ten (by omega)), bounds_of (tmod_ten (by omega))]
        simp only [pure, Except.pure, ok_bind]
        split
        · exact ⟨_, rfl, .drains hstate hidx⟩
        · exact ⟨_, rfl, .stays (.inl hstate)⟩
      · rw [if_neg hidx]
        exact ⟨_, rfl, .stays (.inl hstate)⟩
  | drain =>
      dsimp only
      split
      · exact ⟨_, rfl, .probes hstate⟩
      · exact ⟨_, rfl, .stays (.inr hstate)⟩
  | probeBw =>
      dsimp only
      split
      · next ht => exact ⟨_, rfl, .probesRtt hstate ht⟩
      · next ht =>
          have h : Turns t p _ := .cycles hstate (not_lt.mp ht)
          rw [hstate] at h
          exact ⟨_, rfl, h⟩
  | probeRtt =>
      have hmark : (if ¬ p.probeRttDone = true ∧ p.bytesInFlight ≤ probeRttCwnd then
        { p with probeRttDone := true, probeRttStart := t } else p) = p.mark t := rfl
      dsimp only
      simp only [hstate] at hmark
      rw [hmark]
      split
      · next hheld => exact ⟨_, rfl, .returns hstate hheld⟩
      · next hheld => exact ⟨_, rfl, .holds hstate hheld⟩

/-- Only the window and the rate differ; the window is at least the least one,
and the rate is 0 without samples and cut to the limit but in `BBR_PROBE_RTT`. -/
structure Scaled (p q : Pacing) : Prop where
  eq : q = { p with cwnd := q.cwnd, pacingRate := q.pacingRate }
  cwnd : minCwnd ≤ q.cwnd
  rate : p.maxBw = 0 → q.pacingRate = 0
  cut : p.state ≠ .probeRtt → 0 < p.maxBandwidth → q.pacingRate ≤ p.maxBandwidth

theorem scaled_scale (p : Pacing) (gain : ℚ) : Scaled p (p.scale gain) := by
  refine ⟨rfl, ?_, fun hmax => ?_, fun _ hlimit => ?_⟩
  · unfold scale
    dsimp only
    split
    · exact le_rfl
    · next hlt => exact not_lt.mp hlt
  · have hzero : truncate (p.maxBw * gain) = 0 := by
      rw [hmax, Int.cast_zero, zero_mul]
      rfl
    unfold scale
    dsimp only
    rw [hzero, if_neg (by omega)]
  · unfold scale
    dsimp only
    split
    · exact le_rfl
    · next hlow => exact not_lt.mp fun hhigh => hlow ⟨hlimit, hhigh⟩

/-- The window and the rate are set, unless the gain is read at a negative
index. -/
theorem updateCwnd_cases (p : Pacing) :
    (p.state = .probeBw ∧ p.cycleIdx.tmod 8 < 0 ∧ p.updateCwnd = .error .outOfBounds) ∨
      ∃ q, p.updateCwnd = .ok q ∧ Scaled p q ∧ (p.state = .probeRtt → q.cwnd = probeRttCwnd) := by
  unfold updateCwnd
  split
  · next hstate =>
      refine .inr ⟨_, rfl, scaled_scale p _, fun hrtt => ?_⟩
      exact absurd (hstate.symm.trans hrtt) (by simp)
  · next hstate =>
      refine .inr ⟨_, rfl, scaled_scale p _, fun hrtt => ?_⟩
      exact absurd (hstate.symm.trans hrtt) (by simp)
  · next hstate =>
      dsimp only
      by_cases h : p.cycleIdx.tmod 8 < 0
      · rw [bounds, if_neg fun hb => absurd hb.1 (not_le.mpr h)]
        exact .inl ⟨hstate, h, rfl⟩
      · rw [bounds_of ⟨not_lt.mp h, Int.tmod_lt_of_pos _ (by omega)⟩]
        refine .inr ⟨_, rfl, scaled_scale p _, fun hrtt => ?_⟩
        exact absurd (hstate.symm.trans hrtt) (by simp)
  · next hstate =>
      refine .inr ⟨_, rfl, ⟨rfl, (by decide : minCwnd ≤ probeRttCwnd), fun hmax => ?_,
        fun hrtt => absurd hstate hrtt⟩, fun _ => rfl⟩
      dsimp only
      rw [hmax, Int.cast_zero, zero_mul]
      rfl

/-- What an acknowledgement does when it returns. -/
structure Acked (p : Pacing) (bytes : Int) (rtt t t' : ℚ) (p₁ p₂ q : Pacing) : Prop where
  measured : Measured (p.settle bytes) rtt t p₁
  turns : Turns t' p₁ p₂
  scaled : Scaled p₂ q
  probeRtt : p₂.state = .probeRtt → q.cwnd = probeRttCwnd

/-- An acknowledgement returns, unless one of the two counters is negative
where it indexes its array. -/
theorem onAck_cases (p : Pacing) (bytes : Int) (rtt t t' : ℚ) :
    (p.onAck bytes rtt t t' = .error .outOfBounds ∧
      (p.Samples rtt t ∧ p.bwSampleIdx.tmod 10 < 0 ∨
        ∃ p₁ p₂, Measured (p.settle bytes) rtt t p₁ ∧ Turns t' p₁ p₂ ∧ p₂.state = .probeBw ∧
          p₂.cycleIdx.tmod 8 < 0)) ∨
      ∃ p₁ p₂ q, p.onAck bytes rtt t t' = .ok q ∧ Acked p bytes rtt t t' p₁ p₂ q := by
  unfold onAck
  rcases measure_cases (p.settle bytes) bytes rtt t with
    ⟨hs, hneg, herr⟩ | ⟨-, p₁, hmeasure, hm⟩
  · rw [herr]
    exact .inl ⟨rfl, .inl ⟨hs, hneg⟩⟩
  obtain ⟨p₂, hstate, hturn⟩ := updateState_cases p₁ t'
  rw [hmeasure, ok_bind, hstate, ok_bind]
  rcases updateCwnd_cases p₂ with ⟨hprobe, hneg, herr⟩ | ⟨q, hcwnd, hscaled, hrtt⟩
  · exact .inl ⟨herr, .inr ⟨p₁, p₂, hm, hturn, hprobe, hneg⟩⟩
  · exact .inr ⟨p₁, p₂, q, hcwnd, hm, hturn, hscaled, hrtt⟩

theorem acked_of_ok {q : Pacing} {t' : ℚ} (h : p.onAck bytes rtt t t' = .ok q) :
    ∃ p₁ p₂, Acked p bytes rtt t t' p₁ p₂ q := by
  rcases onAck_cases p bytes rtt t t' with ⟨herr, -⟩ | ⟨p₁, p₂, q', hok, hacked⟩
  · rw [herr] at h
    exact absurd h (by simp)
  · obtain rfl := Except.ok.inj (h.symm.trans hok)
    exact ⟨p₁, p₂, hacked⟩

end Ack

end Pacing

end Fecraw.Ports
