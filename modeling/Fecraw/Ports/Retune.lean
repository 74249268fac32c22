import Fecraw.Ports.AdaptiveFec
import Fecraw.Ports.FecEncode

/-!
# Changing the ratio of a live encoder

`conn_timer_cb` writes a new ratio straight into the table of the encoder,
also while a group is partly filled.  The encoder itself changes its
parameters only between two groups, and counts on the table in two ways: in
mode 1 a group is smaller than the last row, and in mode 0 the shards of a
group fit the mtu when it is cut into as many as the last row says.

An `Endpoint` is an encoder with its controller; it takes packets, flushes of
the timer of the group and ticks of `conn_timer_cb`, in any order.

## Main results

* `Tuned.step`: a step that leaves the open group within the table keeps the
  encoder within it.
* `retune_safe`: in every state that such steps reach, no assertion of `input`
  fails and every shard fits the mtu.
-/

namespace Fecraw.Ports.Retune

open Fecraw.Verified Fecraw.Ports.Packet Fecraw.Ports.RsTable Fecraw.Ports.BlobCodec
open Fecraw.Ports.FecEncode FecEncodeManager

/-! ## The endpoint -/

/-- The encoder of a connection and the controller that tunes it. -/
structure Endpoint where
  encoder : FecEncodeManager
  adaptive : AdaptiveFec

inductive Event where
  /-- A packet, or a flush of the open group. -/
  | input (s : Option Bytes)
  /-- `conn_timer_cb`, with what its two counters grew by. -/
  | connTimer (deltaIn deltaOut : UInt64) (now : ℚ)

/-- `conn_timer_cb` with `fec_adaptive` set. -/
def connTimer (st : Endpoint) (deltaIn deltaOut : UInt64) (now : ℚ) : Endpoint :=
  let a := st.adaptive.observe deltaIn deltaOut
  { encoder := { st.encoder with fecPar := a.retune now st.encoder.fecPar }
    adaptive := (a.adjust now).1 }

def step (c : Code) (g : FecParameter) (st : Endpoint) :
    Event → Checked (Endpoint × List Bytes)
  | .input s => do
      let (e, _, out) ← st.encoder.step c g s
      return ({ st with encoder := e }, out)
  | .connTimer deltaIn deltaOut now => .ok (connTimer st deltaIn deltaOut now, [])

/-- The endpoint that the event loops start with, for the ratio string `s`. -/
def start (g : FecParameter) (seq : UInt32) (buf : Mem) (s : List Char) : Endpoint where
  encoder := FecEncodeManager.init g seq buf
  adaptive := AdaptiveFec.start s

/-! ## What is asked of a call -/

/-- The group that a call closes, as it stands when it is closed. -/
inductive Closes (e : FecEncodeManager) : Option Bytes → FecEncodeManager → Prop where
  | flushed (hpending : e.counter ≠ 0) : Closes e none e
  | delayed {p} (hpending : e.counter ≠ 0) (hlong : e.delays (some p) = .ok true) :
      Closes e (some p) e
  | completed {p e₁} (hfits : e.delays (some p) = .ok false) (happend : e.append p = .ok e₁)
      (hfull : e₁.full = .ok true) : Closes e (some p) e₁

/-- The shards of the open group, in the number that the encoder chooses, are
at most `mtu` octets long. -/
def ShardsFit (e : FecEncodeManager) : Prop :=
  ∀ tail x, e.fecPar.getTail = some tail → chooseDataNum e.fecPar e.blob tail = .ok x →
    ((e.blob.output x).2.2 : Int) ≤ e.fecPar.mtu

/-- No assertion of `input` fails, and a group of mode 0 that it closes has
shards of at most `mtu` octets. -/
def Safe (c : Code) (g : FecParameter) (e : FecEncodeManager) (s : Option Bytes) : Prop :=
  (e.input c g s).NoAssert ∧
    ∀ e₀ e₁, e.syncPar g = .ok e₀ → Closes e₀ s e₁ → e₁.fecPar.mode = 0 → ShardsFit e₁

/-- Longer packets are dropped when they are read from the tunnel device. -/
def Short (s : Option Bytes) : Prop := ∀ p, s = some p → p.length ≤ maxDataLen

/-- A packet that may have to start a group of its own fits one. -/
def StartsGroup (e : FecEncodeManager) (s : Option Bytes) : Prop :=
  ∀ p, s = some p → e.fecPar.mode = 0 → e.counter ≠ 0 →
    (roundUpDiv (6 + p.length) e.fecPar.rsCnt : Int) ≤ e.fecPar.mtu

/-- The step leaves the open group within the table: a new ratio has more rows
than the group has packets in mode 1, and enough of them for the blob in mode
0. -/
def Fits (st : Endpoint) : Event → Prop
  | .input s => Short s ∧ StartsGroup st.encoder s
  | .connTimer deltaIn deltaOut now =>
      (st.adaptive.observe deltaIn deltaOut).Retunes now st.encoder.fecPar →
      st.encoder.counter ≠ 0 →
        (st.encoder.fecPar.mode = 1 → (st.encoder.counter : Int) < st.adaptive.dataShards) ∧
        (st.encoder.fecPar.mode = 0 →
          (st.encoder.blob.getShardLen st.adaptive.dataShards.toNat : Int) ≤
            st.encoder.fecPar.mtu)

/-! ## The table and the open group -/

/-- The table of an encoder that runs with the parameters `g`. -/
structure Table (g par : FecParameter) : Prop where
  version : par.version = g.version
  mode : par.mode = 0 ∨ par.mode = 1
  queueLen : par.queueLen = 200
  mtu_lt : par.mtu < 2 ^ 31
  rows_pos : 1 ≤ par.rsCnt
  rows_le : par.rsCnt ≤ 255
  row : ∀ i, i < par.rsCnt → (par.rsPar i).x = i + 1

/-- The open group is within the table. -/
structure Group (e : FecEncodeManager) : Prop where
  packets : e.fecPar.mode = 1 → e.counter < e.fecPar.rsCnt
  few : e.fecPar.mode = 0 → e.counter < 200 ∧ e.blob.counter = e.counter
  short : e.fecPar.mode = 0 → e.blob.currentLen ≤ 4 + e.counter * (2 + maxDataLen)
  empty : e.fecPar.mode = 0 → e.counter = 0 → e.blob.currentLen = 4
  fit : e.fecPar.mode = 0 → e.counter ≠ 0 →
    (e.blob.getShardLen e.fecPar.rsCnt : Int) ≤ e.fecPar.mtu

/-- A group that can be closed. -/
structure Closable (e : FecEncodeManager) : Prop where
  pending : e.counter ≠ 0
  ready : e.readyForOutput = false
  packets : e.fecPar.mode = 1 → e.counter ≤ e.fecPar.rsCnt
  fit : e.fecPar.mode = 0 → (e.blob.getShardLen e.fecPar.rsCnt : Int) ≤ e.fecPar.mtu

theorem Group.closable {e : FecEncodeManager} (h : Group e) (hready : e.readyForOutput = false)
    (hpending : e.counter ≠ 0) : Closable e where
  pending := hpending
  ready := hready
  packets := fun hmode => (h.packets hmode).le
  fit := fun hmode => h.fit hmode hpending

section Table

variable {g par : FecParameter} (htab : Table g par)
include htab

theorem Table.getTail : ∃ tail, par.getTail = some tail ∧ tail.x = par.rsCnt := by
  have hpos := htab.rows_pos
  refine ⟨par.rsPar (par.rsCnt - 1), ?_, ?_⟩
  · unfold FecParameter.getTail
    rw [if_pos hpos]
  · rw [htab.row _ (by omega)]
    omega

private theorem noAssert_tryRow {blob : BlobEncode} {best : Nat × Nat} {i : Nat} (hi : 1 ≤ i)
    (hi' : i < par.rsCnt) : (tryRow par blob best i).NoAssert := by
  have hrow := htab.row (i - 1) (by omega)
  unfold tryRow
  apply (Checked.noAssert_check (by omega)).bind
  intro _ _
  dsimp only
  split
  · exact Checked.noAssert_ok _
  · exact Checked.noAssert_ok _

/-- With a table in order the search for the best row asserts nothing wrong. -/
theorem noAssert_chooseDataNum {blob : BlobEncode} {tail : RsParameter}
    (htail : tail.x = par.rsCnt) : (chooseDataNum par blob tail).NoAssert := by
  have hpos := htab.rows_pos
  unfold chooseDataNum
  apply (Checked.noAssert_check htail.le).bind
  intro _ _
  apply Checked.NoAssert.bind
  · apply Checked.noAssert_foldlM
    intro best i hi
    obtain ⟨hlo, hhi⟩ := List.mem_range'_1.mp hi
    exact noAssert_tryRow htab hlo (by omega)
  · intro best hbest
    have hrange : 1 ≤ best.2 ∧ best.2 ≤ par.rsCnt := by
      rcases foldlM_tryRow hbest with hkeep | ⟨hmem, -⟩
      · rw [hkeep]
        exact ⟨by omega, htail.le⟩
      · obtain ⟨hlo, hhi⟩ := List.mem_range'_1.mp hmem
        exact ⟨hlo, by omega⟩
    apply (Checked.noAssert_check hrange).bind
    intro _ _
    exact Checked.noAssert_ok _

end Table

/-! ## Closing a group -/

section Close

private theorem noAssert_finish {out : List Bytes} {e : FecEncodeManager}
    (hready : e.readyForOutput = false) : (e.finish out).NoAssert := by
  unfold finish
  apply (Checked.noAssert_check hready).bind
  intro _ _
  exact Checked.noAssert_ok _

variable {c : Code} {g : FecParameter} {e : FecEncodeManager} (htab : Table g e.fecPar)
include htab

theorem noAssert_closeGroup (h : Closable e) (hasPacket : Bool) :
    (e.closeGroup c hasPacket).NoAssert := by
  obtain ⟨tail, htail, hx⟩ := htab.getTail
  unfold closeGroup
  split
  · rw [htail]
    apply (noAssert_chooseDataNum htab hx).bind
    intro x _
    apply Checked.noAssert_bounds.bind
    intro _ _
    apply Checked.noAssert_bounds.bind
    intro _ _
    exact noAssert_finish h.ready
  · next hmode =>
      have hmode : e.fecPar.mode = 1 := htab.mode.resolve_left hmode
      apply (Checked.noAssert_check (h.packets hmode)).bind
      intro _ _
      apply Checked.noAssert_bounds.bind
      intro _ _
      apply Checked.noAssert_bounds.bind
      intro _ _
      exact noAssert_finish h.ready

/-- The shards are no longer than those of the last row, or fit the mtu. -/
theorem shardsFit_of_closable (h : Closable e) (hmode : e.fecPar.mode = 0) : ShardsFit e := by
  intro tail x htail hchoose
  obtain ⟨tail', htail', hx⟩ := htab.getTail
  obtain rfl := Option.some.inj (htail.symm.trans htail')
  have hfit := h.fit hmode
  have hmtu := htab.mtu_lt
  obtain ⟨-, -, hrow⟩ := chooseDataNum_eq_ok hchoose
  show (e.blob.getShardLen x : Int) ≤ e.fecPar.mtu
  rcases hrow with rfl | hshort
  · rw [hx]
    exact hfit
  · have hle : e.blob.getShardLen x ≤ e.blob.getShardLenNext x 0 :=
      roundUpDiv_mono x (by omega)
    omega

/-- Between two groups the encoder is within any table. -/
theorem Table.group_of_empty (hcnt : e.counter = 0) (hblob : e.blob.counter = 0)
    (hlen : e.blob.currentLen = 4) : Group e where
  packets := fun _ => by
    have := htab.rows_pos
    omega
  few := fun _ => ⟨by omega, hblob.trans hcnt.symm⟩
  short := fun _ => by omega
  empty := fun _ _ => hlen
  fit := fun _ h => absurd hcnt h

/-- Closing a group leaves the encoder between two groups. -/
theorem closeGroup_empty {e' : FecEncodeManager} {hasPacket : Bool} (hpending : e.counter ≠ 0)
    (h : e.closeGroup c hasPacket = .ok e') :
    e'.fecPar = e.fecPar ∧ e'.counter = 0 ∧ e'.blob.counter = 0 ∧ e'.blob.currentLen = 4 := by
  rcases htab.mode with hmode | hmode
  · obtain ⟨tail, x, -, -, -, -, -, rfl⟩ := closeGroup_blob hmode h
    exact ⟨rfl, rfl, rfl, rfl⟩
  · obtain ⟨-, -, -, rfl⟩ := closeGroup_packets hmode hpending h
    exact ⟨rfl, rfl, rfl, rfl⟩

end Close

/-! ## Appending to a group -/

section Append

variable {g : FecParameter} {e e₁ : FecEncodeManager} {p : Bytes}

theorem noAssert_append (htab : Table g e.fecPar) (hg : Group e) (hp : p.length ≤ maxDataLen) :
    (e.append p).NoAssert := by
  unfold maxDataLen at hp
  unfold FecEncodeManager.append
  dsimp only
  rcases htab.mode with hmode | hmode
  · obtain ⟨hfew, hcnt⟩ := hg.few hmode
    have hshort := hg.short hmode
    have hroom : e.blob.currentLen ≤ 4 + 199 * 3602 := by
      calc e.blob.currentLen ≤ 4 + e.counter * (2 + maxDataLen) := hshort
        _ ≤ 4 + 199 * 3602 := Nat.add_le_add_left (Nat.mul_le_mul (by omega) (by decide)) 4
    rw [if_pos hmode]
    have hinput : (e.blob.input p).NoAssert := by
      unfold BlobEncode.input
      apply (Checked.noAssert_check (by unfold blobBufSize; omega)).bind
      intro _ _
      apply (Checked.noAssert_check (by omega)).bind
      intro _ _
      apply (Checked.noAssert_check (by unfold maxBlobPacketNum; omega)).bind
      intro _ _
      exact Checked.noAssert_ok _
    apply hinput.bind
    intro _ _
    exact Checked.noAssert_ok _
  · rw [if_neg (by omega), if_pos hmode]
    apply (Checked.noAssert_check (by omega)).bind
    intro _ _
    apply Checked.noAssert_bounds.bind
    intro _ _
    exact Checked.noAssert_ok _

/-- What `append` does to the sizes of the open group. -/
theorem append_sizes (htab : Table g e.fecPar) (h : e.append p = .ok e₁) :
    e₁.fecPar = e.fecPar ∧ e₁.readyForOutput = e.readyForOutput ∧
      e₁.counter = e.counter + 1 ∧
      (e.fecPar.mode = 0 → e₁.blob.counter = e.blob.counter + 1 ∧
        e₁.blob.currentLen = e.blob.currentLen + 2 + p.length) := by
  rcases htab.mode with hmode | hmode
  · obtain ⟨blob, hblob, rfl⟩ := append_blob hmode h
    obtain ⟨-, -, -, rfl⟩ := BlobEncode.input_eq_ok hblob
    exact ⟨rfl, rfl, rfl, fun _ => ⟨rfl, rfl⟩⟩
  · obtain ⟨-, -, rfl⟩ := append_packet hmode h
    exact ⟨rfl, rfl, rfl, fun h0 => absurd (h0.symm.trans hmode) (by decide)⟩

/-- A group that is not full after a packet that fits has room for another. -/
theorem Group.append (htab : Table g e.fecPar) (hg : Group e) (hp : p.length ≤ maxDataLen)
    (h : e.append p = .ok e₁) (hfull : e₁.full = .ok false)
    (hfit : e.fecPar.mode = 0 →
      (e.blob.getShardLenNext e.fecPar.rsCnt p.length : Int) ≤ e.fecPar.mtu) : Group e₁ := by
  obtain ⟨tail, htail, hx⟩ := htab.getTail
  obtain ⟨hpar, -, hcnt, hblob⟩ := append_sizes htab h
  unfold full at hfull
  rw [hpar, htail] at hfull
  refine ⟨?_, ?_, ?_, ?_, ?_⟩
  · rw [hpar]
    intro hmode
    have hroom := hg.packets hmode
    rw [if_neg (by omega)] at hfull
    have hne : ¬ e₁.counter = tail.x := by simpa [pure, Except.pure] using hfull
    omega
  · rw [hpar]
    intro hmode
    have hroom := hg.few hmode
    obtain ⟨hbc, -⟩ := hblob hmode
    rw [if_pos hmode] at hfull
    have hne : ¬ (e₁.counter : Int) = e.fecPar.queueLen := by simpa using hfull
    rw [htab.queueLen] at hne
    exact ⟨by omega, by omega⟩
  · rw [hpar]
    intro hmode
    have hshort := hg.short hmode
    obtain ⟨-, hlen⟩ := hblob hmode
    rw [hlen, hcnt, Nat.succ_mul]
    omega
  · intro _ h0
    omega
  · rw [hpar]
    intro hmode _
    obtain ⟨-, hlen⟩ := hblob hmode
    unfold BlobEncode.getShardLen
    rw [hlen]
    exact hfit hmode

/-- A group that a fitting packet completes can be closed. -/
theorem Group.closable_append (htab : Table g e.fecPar) (hg : Group e)
    (hready : e.readyForOutput = false) (h : e.append p = .ok e₁)
    (hfit : e.fecPar.mode = 0 →
      (e.blob.getShardLenNext e.fecPar.rsCnt p.length : Int) ≤ e.fecPar.mtu) :
    Closable e₁ := by
  obtain ⟨hpar, hr, hcnt, hblob⟩ := append_sizes htab h
  refine ⟨by omega, hr.trans hready, ?_, ?_⟩
  · rw [hpar, hcnt]
    exact fun hmode => hg.packets hmode
  · rw [hpar]
    intro hmode
    obtain ⟨-, hlen⟩ := hblob hmode
    unfold BlobEncode.getShardLen
    rw [hlen]
    exact hfit hmode

end Append

/-! ## One call of `input` -/

section Input

variable {c : Code} {g : FecParameter} {e : FecEncodeManager} {s : Option Bytes}
variable (htab : Table g e.fecPar)
include htab

theorem fit_of_delays {p : Bytes} (h : e.delays (some p) = .ok false) :
    e.fecPar.mode = 0 →
      (e.blob.getShardLenNext e.fecPar.rsCnt p.length : Int) ≤ e.fecPar.mtu := by
  intro hmode
  obtain ⟨tail, htail, hx⟩ := htab.getTail
  unfold delays tooLong at h
  rw [if_pos hmode, htail] at h
  have hle : ¬ ((e.blob.getShardLenNext tail.x p.length : Int) > e.fecPar.mtu) := by
    simpa [pure, Except.pure] using h
  rw [← hx]
  omega

theorem noAssert_tooLong (len : Nat) : (e.tooLong len).NoAssert := by
  obtain ⟨tail, htail, -⟩ := htab.getTail
  unfold tooLong
  rw [htail]
  exact Checked.noAssert_ok _

theorem noAssert_full : e.full.NoAssert := by
  obtain ⟨tail, htail, -⟩ := htab.getTail
  unfold full
  rw [htail]
  split
  · exact Checked.noAssert_ok _
  · exact Checked.noAssert_ok _

theorem noAssert_room (hg : Group e) : e.room.NoAssert := by
  obtain ⟨tail, htail, hx⟩ := htab.getTail
  unfold room
  rw [htail]
  split
  · next hmode =>
      obtain ⟨hfew, -⟩ := hg.few hmode
      exact Checked.noAssert_check (by rw [htab.queueLen]; omega)
  · next hmode =>
      have hroom := hg.packets (htab.mode.resolve_left hmode)
      exact Checked.noAssert_check (by omega)

theorem noAssert_rejects : (e.rejects s).NoAssert := by
  cases s with
  | none => exact Checked.noAssert_ok _
  | some p =>
      show (if e.fecPar.mode = 0 ∧ e.counter = 0 then e.tooLong p.length
        else .ok false).NoAssert
      split
      · exact noAssert_tooLong htab p.length
      · exact Checked.noAssert_ok _

theorem noAssert_delays : (e.delays s).NoAssert := by
  unfold delays
  split
  · exact noAssert_tooLong htab _
  · exact Checked.noAssert_ok _

theorem noAssert_appendArg (hg : Group e) (hs : Short s) : (e.appendArg s).NoAssert := by
  cases s with
  | none => exact Checked.noAssert_ok e
  | some p => exact noAssert_append htab hg (hs p rfl)

theorem noAssert_fastSend (h : e.counter ≠ 0 → Closable e) {hasPacket : Bool}
    (hpending : hasPacket = true → e.counter ≠ 0) : (e.fastSend hasPacket).NoAssert := by
  unfold fastSend
  split
  · next hsend =>
      have hpos := hpending hsend.1
      have hcnt := (h hpos).packets hsend.2
      have hle := htab.rows_le
      apply (Checked.noAssert_check (by omega)).bind
      intro _ _
      apply (Checked.noAssert_check (h hpos).ready).bind
      intro _ _
      exact Checked.noAssert_ok _
  · exact Checked.noAssert_ok _

/-- The group in front of the two branches of `about_to_fec`. -/
private theorem closable_of_appendArg (hg : Group e) (hready : e.readyForOutput = false)
    {delayed : Bool} (hdelay : e.delays s = .ok delayed) {e₁ : FecEncodeManager}
    (h : (if delayed then pure e else e.appendArg s) = .ok e₁) :
    Table g e₁.fecPar ∧ (e₁.counter ≠ 0 → Closable e₁) ∧
      (delayed = true → e₁ = e) ∧ (delayed = false → s ≠ none → e₁.counter ≠ 0) := by
  cases delayed with
  | true =>
      obtain rfl := Except.ok.inj h
      exact ⟨htab, hg.closable hready, fun _ => rfl, by simp⟩
  | false =>
      cases s with
      | none =>
          obtain rfl := Except.ok.inj h
          exact ⟨htab, hg.closable hready, by simp, by simp⟩
      | some p =>
          have happend : e.append p = .ok e₁ := h
          obtain ⟨hpar, -, hcnt, -⟩ := append_sizes htab happend
          refine ⟨hpar ▸ htab, fun _ => ?_, by simp, fun _ _ => by omega⟩
          exact hg.closable_append htab hready happend (fit_of_delays htab hdelay)

private theorem noAssert_proceed (hg : Group e) (hready : e.readyForOutput = false)
    (hs : Short s) {delayed : Bool} (hdelay : e.delays s = .ok delayed) :
    (e.proceed c s delayed).NoAssert := by
  unfold proceed
  have happend : (if delayed then pure e else e.appendArg s : Checked _).NoAssert := by
    split
    · exact Checked.noAssert_ok e
    · exact noAssert_appendArg htab hg hs
  apply happend.bind
  intro e₁ he₁
  obtain ⟨htab₁, hclosable, hsame, hpending⟩ := closable_of_appendArg htab hg hready hdelay he₁
  apply (noAssert_full htab₁).bind
  intro isFull _
  split
  · split
    · exact Checked.noAssert_ok _
    · next hcnt =>
        apply (noAssert_closeGroup htab₁ (hclosable hcnt) _).bind
        intro e₂ hclose
        obtain ⟨hpar, h0, hb0, hlen⟩ := closeGroup_empty htab₁ hcnt hclose
        have htab₂ : Table g e₂.fecPar := hpar ▸ htab₁
        have hagain : (if delayed then e₂.appendArg s else pure e₂ : Checked _).NoAssert := by
          split
          · exact noAssert_appendArg htab₂ (htab₂.group_of_empty h0 hb0 hlen) hs
          · exact Checked.noAssert_ok e₂
        apply hagain.bind
        intro _ _
        exact Checked.noAssert_ok _
  · next hbranch =>
      have hopen : s ≠ none ∧ delayed = false := by
        refine ⟨fun h => hbranch (.inl h), ?_⟩
        cases delayed with
        | false => rfl
        | true => exact absurd (.inr (.inl rfl)) hbranch
      apply (noAssert_fastSend htab₁ hclosable fun _ => hpending hopen.2 hopen.1).bind
      intro _ _
      exact Checked.noAssert_ok _

/-- No assertion of `input` fails while the open group is within the table. -/
theorem noAssert_input (hg : Group e) (hready : e.readyForOutput = false) (hs : Short s) :
    (e.input c g s).NoAssert := by
  unfold input
  rw [syncPar_of_version htab.version]
  show (e.inputSynced c s).NoAssert
  unfold inputSynced
  apply (Checked.noAssert_check htab.mode).bind
  intro _ _
  apply (noAssert_rejects htab).bind
  intro reject _
  split
  · exact Checked.noAssert_ok _
  · apply (noAssert_delays htab).bind
    intro delayed hdelay
    apply (noAssert_room htab hg).bind
    intro _ _
    exact noAssert_proceed htab hg hready hs hdelay

/-- Every call is safe while the open group is within the table. -/
theorem safe_of_group (hg : Group e) (hready : e.readyForOutput = false) (hs : Short s) :
    Safe c g e s := by
  refine ⟨noAssert_input htab hg hready hs, ?_⟩
  intro e₀ e₁ hsync hcloses hmode
  rw [syncPar_of_version htab.version] at hsync
  obtain rfl := Except.ok.inj hsync
  cases hcloses with
  | flushed hpending => exact shardsFit_of_closable htab (hg.closable hready hpending) hmode
  | delayed hpending _ => exact shardsFit_of_closable htab (hg.closable hready hpending) hmode
  | completed hfits happend _ =>
      obtain ⟨hpar, -⟩ := append_sizes htab happend
      exact shardsFit_of_closable (g := g) (hpar ▸ htab)
        (hg.closable_append htab hready happend (fit_of_delays htab hfits)) hmode

/-- A call that returns leaves the next group within the table. -/
theorem group_call (hg : Group e) (hs : Short s) (hstart : StartsGroup e s) {r : Int}
    {e' : FecEncodeManager} (h : Call c e s r e') : e'.fecPar = e.fecPar ∧ Group e' := by
  cases h with
  | rejected _ _ => exact ⟨rfl, hg⟩
  | @queued p e₁ _ hroom hfits happend hopen hsend =>
      obtain ⟨hpar, -⟩ := append_sizes htab happend
      have hg₁ := hg.append htab (hs p rfl) happend hopen (fit_of_delays htab hfits)
      rcases htab.mode with hmode | hmode
      · obtain rfl := fastSend_blob (hpar ▸ hmode) hsend
        exact ⟨hpar, hg₁⟩
      · obtain ⟨-, -, -, rfl⟩ := fastSend_packet (hpar ▸ hmode) hsend
        exact ⟨hpar, hg₁.1, hg₁.2, hg₁.3, hg₁.4, hg₁.5⟩
  | @completed p e₁ _ hroom hfits happend hfull hclose =>
      obtain ⟨hpar, -, hcnt, -⟩ := append_sizes htab happend
      have htab₁ : Table g e₁.fecPar := hpar ▸ htab
      obtain ⟨hpar', h0, hb0, hlen⟩ := closeGroup_empty htab₁ (by omega) hclose
      refine ⟨hpar'.trans hpar, Table.group_of_empty (g := g) ?_ h0 hb0 hlen⟩
      rw [hpar', hpar]
      exact htab
  | flushed hroom hpending hclose =>
      obtain ⟨hpar, h0, hb0, hlen⟩ := closeGroup_empty htab hpending hclose
      exact ⟨hpar, Table.group_of_empty (g := g) (hpar ▸ htab) h0 hb0 hlen⟩
  | @delayed p e₁ _ hroom hpending hlong hclose happend =>
      obtain ⟨hmode, -⟩ := delays_true hlong
      obtain ⟨hpar, h0, hb0, hlen⟩ := closeGroup_empty htab hpending hclose
      have htab₁ : Table g e₁.fecPar := hpar ▸ htab
      obtain ⟨hpar', -, hcnt, -⟩ := append_sizes htab₁ happend
      have hfull : e'.full = .ok false := by
        unfold full
        rw [hpar', hpar, if_pos hmode, htab.queueLen, hcnt, h0]
        rfl
      have hfit : (e₁.blob.getShardLenNext e₁.fecPar.rsCnt p.length : Int) ≤ e₁.fecPar.mtu := by
        unfold BlobEncode.getShardLenNext
        rw [hpar, hlen]
        exact hstart p rfl hmode hpending
      refine ⟨hpar'.trans hpar, ?_⟩
      exact (htab₁.group_of_empty h0 hb0 hlen).append htab₁ (hs p rfl) happend hfull fun _ => hfit

end Input

/-! ## Every run -/

section Run

variable {c : Code} {g : FecParameter} {st st' : Endpoint}

/-- The open group is within the encoder's table, and the controller's pair is
in range. -/
structure Tuned (g : FecParameter) (st : Endpoint) : Prop where
  table : Table g st.encoder.fecPar
  group : Group st.encoder
  ready : st.encoder.readyForOutput = false
  ranged : st.adaptive.Ranged

theorem Table.retune {par par' : FecParameter} {s : List Char} (htab : Table g par)
    (hpos : 1 ≤ par'.rsCnt) (h : par.rsFromStr s = some par') : Table g par' := by
  obtain ⟨hversion, hmtu, hqueue, hmode⟩ := rsFromStr_other h
  exact {
    version := hversion.trans htab.version
    mode := hmode ▸ htab.mode
    queueLen := hqueue.trans htab.queueLen
    mtu_lt := hmtu ▸ htab.mtu_lt
    rows_pos := hpos
    rows_le := rsFromStr_rsCnt_le h
    row := rsFromStr_x h }

theorem Tuned.input (h : Tuned g st) {s : Option Bytes} {out : List Bytes}
    (hfits : Fits st (.input s)) (hstep : step c g st (.input s) = .ok (st', out)) :
    Tuned g st' := by
  obtain ⟨⟨e, r, out'⟩, henc, hst⟩ := Checked.doBind_eq_ok.mp hstep
  obtain ⟨rfl, -⟩ := Prod.mk.inj (Except.ok.inj hst)
  obtain ⟨hready, -⟩ := step_numbered h.ready henc
  obtain ⟨e₁, hin, hout⟩ := step_eq_ok.mp henc
  obtain ⟨e₀, hsync, -, hcall⟩ := input_cases hin
  rw [syncPar_of_version h.table.version] at hsync
  obtain rfl := Except.ok.inj hsync
  obtain ⟨hpar, hgroup⟩ := group_call h.table h.group hfits.1 hfits.2 hcall
  have hfields : e.fecPar = e₁.fecPar ∧ e.counter = e₁.counter ∧ e.blob = e₁.blob := by
    unfold output at hout
    split at hout
    · obtain ⟨rfl, -⟩ := Prod.mk.inj hout
      exact ⟨rfl, rfl, rfl⟩
    · obtain ⟨rfl, -⟩ := Prod.mk.inj hout
      exact ⟨rfl, rfl, rfl⟩
  obtain ⟨hpar₁, hcnt₁, hblob₁⟩ := hfields
  refine ⟨?_, ?_, hready, h.ranged⟩
  · show Table g e.fecPar
    rw [hpar₁, hpar]
    exact h.table
  · show Group e
    constructor
    · rw [hpar₁, hcnt₁]
      exact hgroup.packets
    · rw [hpar₁, hcnt₁, hblob₁]
      exact hgroup.few
    · rw [hpar₁, hcnt₁, hblob₁]
      exact hgroup.short
    · rw [hpar₁, hcnt₁, hblob₁]
      exact hgroup.empty
    · rw [hpar₁, hcnt₁, hblob₁]
      exact hgroup.fit

theorem Tuned.connTimer (h : Tuned g st) {deltaIn deltaOut : UInt64} {now : ℚ}
    (hfits : Fits st (.connTimer deltaIn deltaOut now)) :
    Tuned g (connTimer st deltaIn deltaOut now) := by
  have hobs := h.ranged.observe deltaIn deltaOut
  obtain ⟨hdata, -⟩ := st.adaptive.observe_other deltaIn deltaOut
  set a := st.adaptive.observe deltaIn deltaOut with ha
  rcases AdaptiveFec.retune_cases hobs now st.encoder.fecPar with hkeep | ⟨hre, hstr, hcnt⟩
  · have henc : (Retune.connTimer st deltaIn deltaOut now).encoder = st.encoder := by
      show { st.encoder with fecPar := a.retune now st.encoder.fecPar } = st.encoder
      rw [hkeep]
    exact ⟨henc ▸ h.table, henc ▸ h.group, henc ▸ h.ready, hobs.adjust now⟩
  · obtain ⟨-, hmtu, -, hmode⟩ := rsFromStr_other hstr
    have hpos := hobs.data_pos
    rw [hdata] at hcnt hpos
    have htab := h.table.retune (by omega) hstr
    refine ⟨htab, ⟨?_, ?_, ?_, ?_, ?_⟩, h.ready, hobs.adjust now⟩
    · intro hpackets
      show st.encoder.counter < (a.retune now st.encoder.fecPar).rsCnt
      by_cases h0 : st.encoder.counter = 0
      · omega
      · have := (hfits hre h0).1 (hmode ▸ hpackets)
        omega
    · exact fun hblob => h.group.few (hmode ▸ hblob)
    · exact fun hblob => h.group.short (hmode ▸ hblob)
    · exact fun hblob => h.group.empty (hmode ▸ hblob)
    · intro hblob h0
      show (st.encoder.blob.getShardLen (a.retune now st.encoder.fecPar).rsCnt : Int) ≤
        (a.retune now st.encoder.fecPar).mtu
      rw [hcnt, hmtu]
      exact (hfits hre h0).2 (hmode ▸ hblob)

/-- A step that leaves the open group within the table. -/
theorem Tuned.step (h : Tuned g st) {ev : Event} {out : List Bytes} (hfits : Fits st ev)
    (hstep : step c g st ev = .ok (st', out)) : Tuned g st' := by
  cases ev with
  | input s => exact h.input hfits hstep
  | connTimer deltaIn deltaOut now =>
      obtain ⟨rfl, -⟩ := Prod.mk.inj (Except.ok.inj hstep)
      exact h.connTimer hfits

theorem tuned_start {par : FecParameter} {s : List Char} (hs : par.rsFromStr s = some g)
    (hrange : InRange s) (hmode : g.mode = 0 ∨ g.mode = 1)
    (hqueue : g.queueLen = 200) (hmtu : g.mtu < 2 ^ 31) (seq : UInt32) (buf : Mem) :
    Tuned g (start g seq buf s) := by
  have htab : Table g g := {
    version := rfl
    mode := hmode
    queueLen := hqueue
    mtu_lt := hmtu
    rows_pos := rsFromStr_rsCnt_pos hs hrange
    rows_le := rsFromStr_rsCnt_le hs
    row := rsFromStr_x hs }
  exact ⟨htab, Table.group_of_empty (g := g) htab rfl rfl rfl, rfl,
    AdaptiveFec.ranged_start hs hrange⟩

/-- In every state that is reached from the start by steps that leave the open
group within the table, every call of `input` is safe. -/
theorem retune_safe {par : FecParameter} {s : List Char} (hs : par.rsFromStr s = some g)
    (hrange : InRange s) (hmode : g.mode = 0 ∨ g.mode = 1)
    (hqueue : g.queueLen = 200) (hmtu : g.mtu < 2 ^ 31) {seq : UInt32} {buf : Mem}
    (hreach : Reached (step c g) Fits (start g seq buf s) st) {arg : Option Bytes}
    (harg : Short arg) : Safe c g st.encoder arg := by
  have htuned : Tuned g st :=
    hreach.invariant (fun _ _ _ _ hinv hfits hstep => hinv.step hfits hstep)
      (tuned_start hs hrange hmode hqueue hmtu seq buf)
  exact safe_of_group htuned.table htuned.group htuned.ready harg

end Run

/-! ## A change that fits, and one that does not -/

/-- The parameters of mode 1 with the ratio `2:1`. -/
def twoToOne : FecParameter where
  mode := 1
  rsPar := fillFirst (fun _ => ⟨0, 0⟩) ⟨2, 1⟩
  rsCnt := 2

/-- The parity grows from one to two while one packet is in the open group. -/
theorem retune_safe_two_to_one : ∃ st,
    Reached (step Code.repetition twoToOne) Fits
      (start twoToOne 0 (fun _ => 0) "2:1".toList) st ∧
    st.encoder.counter = 1 ∧ Safe Code.repetition twoToOne st.encoder (some [0x45]) := by
  have hs : FecParameter.rsFromStr { mode := 1 } "2:1".toList = some twoToOne :=
    @rsFromStr_printPair { mode := 1 } 2 1 (by decide) (by decide) (by decide)
  have hrange : InRange "2:1".toList := by decide
  have hshort : Short (some [0x45]) := by
    rintro p ⟨⟩
    decide
  obtain ⟨⟨st, out⟩, hstep, hst⟩ : ∃ r, step Code.repetition twoToOne
      (start twoToOne 0 (fun _ => 0) "2:1".toList) (.input (some [0x45])) = .ok r ∧
      decide (r.1.encoder.counter = 1 ∧ r.1.encoder.fecPar.mode = 1 ∧
        r.1.adaptive.dataShards = 2) = true :=
    Checked.exists_of_any (by decide +kernel)
  obtain ⟨hcnt, hmode, hdata⟩ : st.encoder.counter = 1 ∧ st.encoder.fecPar.mode = 1 ∧
    st.adaptive.dataShards = 2 := of_decide_eq_true hst
  have hfits : Fits (start twoToOne 0 (fun _ => 0) "2:1".toList) (.input (some [0x45])) :=
    ⟨hshort, fun p _ h0 => absurd h0 (by decide)⟩
  have hfirst := Reached.start.next hfits hstep
  have htick : Fits st (.connTimer 50 50 1) := by
    intro _ _
    exact ⟨fun _ => by omega, fun h0 => absurd h0 (by omega)⟩
  have hsecond := hfirst.next htick rfl
  exact ⟨_, hsecond, hcnt, retune_safe hs hrange (.inr rfl) rfl (by decide) hsecond hshort⟩

/-- The parameters of mode 1 with the ratios `1:0,2:1`. -/
def twoRows : FecParameter :=
  (FecParameter.rsFromStr { mode := 1 } "1:0,2:1".toList).getD {}

/-- One packet in a group of up to two, and a tick after fifty packets
without loss. -/
def oneThenTick : List Event := [.input (some [0x45]), .connTimer 50 50 1]

/-- The controller knows the first pair only: its new ratio leaves one row, and
the packet after it finds the group full. -/
theorem retune_overfull : ¬ ∀ (c : Code) (par g : FecParameter) (s : List Char) (seq : UInt32)
    (buf : Mem) (st : Endpoint) (arg : Option Bytes),
    par.rsFromStr s = some g → InRange s → g.mode = 0 ∨ g.mode = 1 → g.queueLen = 200 →
    g.mtu < 2 ^ 31 →
    Reached (step c g) (fun _ ev => ∀ s, ev = .input s → Short s) (start g seq buf s) st →
    Short arg → Safe c g st.encoder arg := by
  intro h
  have hs : FecParameter.rsFromStr { mode := 1 } "1:0,2:1".toList = some twoRows := by
    obtain ⟨g, hg⟩ := Option.isSome_iff_exists.mp
      (by decide +kernel :
        (FecParameter.rsFromStr { mode := 1 } "1:0,2:1".toList).isSome = true)
    rw [twoRows, hg]
    rfl
  have hshort : Short (some [0x45]) := by
    rintro p ⟨⟩
    decide
  obtain ⟨⟨st, out⟩, hrun, hst⟩ : ∃ r, run (step Code.repetition twoRows)
      (start twoRows 0 (fun _ => 0) "1:0,2:1".toList) oneThenTick = .ok r ∧
      decide (¬ (r.1.encoder.input Code.repetition twoRows (some [0x45])).NoAssert) = true :=
    Checked.exists_of_any (by decide +kernel)
  have hreach := Reached.run (P := fun _ ev => ∀ s, ev = .input s → Short s) .start ?_ hrun
  · exact of_decide_eq_true hst
      (h _ _ _ _ _ _ st (some [0x45]) hs (by decide) (.inr (by decide +kernel))
        (by decide +kernel) (by decide +kernel) hreach hshort).1
  · intro _ ev hev s hs
    subst hs
    have hin : s = some [0x45] := by simpa [oneThenTick] using hev
    rw [hin]
    exact hshort

end Fecraw.Ports.Retune
