import Fecraw.Ports.AdmissibleGroups
import Fecraw.Ports.Config

/-!
# Which parameters the encoder survives

The encoder asserts that its mode is 0 or 1, and it copies shards into arrays
of `buf_len` octets without looking at their length.  UDPspeeder checks its
options for both; `apply_fec_globals` does not.  Here is what the parameters
must satisfy.

In mode 1 a group of every size up to the last row can be closed.  In mode 0
the packets of a group make a blob, whose length `BlobLen` describes, and the
row with the least traffic, the `Cheapest`, is used for it.

## Main results

* `chooseDataNum_cheapest`: `short_packet_optimize` finds the cheapest row.
* `safe_iff`: no run of the encoder aborts or writes past an array if and only
  if the parameters are `Sound`.
* `accepted_safe_iff`: the same for the parameters of every configuration that
  the parser accepts.
-/

namespace Fecraw.Ports.EncoderSafety

open Fecraw.Verified Fecraw.Ports.Packet Fecraw.Ports.RsTable Fecraw.Ports.BlobCodec
open Fecraw.Ports.FecEncode FecEncodeManager

/-! ## The condition -/

/-- The traffic of a blob of `len` octets in `x` shards. -/
def traffic (g : FecParameter) (len x : Nat) : Nat :=
  (roundUpDiv (len + 2) x + headerOverhead) * (x + (g.rsPar (x - 1)).y)

/-- The last row can be used for every blob, another one if the shards fit the
mtu. -/
def Usable (g : FecParameter) (len x : Nat) : Prop :=
  x = g.rsCnt ∨ (1 ≤ x ∧ x < g.rsCnt ∧ (roundUpDiv (len + 2) x : Int) ≤ g.mtu)

/-- Row `x` comes before row `x'`: it has less traffic, or the same and is the
last row, or the same and is smaller than another row but the last. -/
def Before (g : FecParameter) (len x x' : Nat) : Prop :=
  traffic g len x < traffic g len x' ∨
    (traffic g len x = traffic g len x' ∧ (x = g.rsCnt ∨ (x < x' ∧ x' ≠ g.rsCnt)))

/-- The usable row that comes before all others. -/
def Cheapest (g : FecParameter) (len x : Nat) : Prop :=
  Usable g len x ∧ ∀ x', Usable g len x' → x' ≠ x → Before g len x x'

/-- The lengths of the blobs that packets can make: within the mtu of the last
row, or one packet that did not fit the group before it. -/
def BlobLen (g : FecParameter) (len : Nat) : Prop :=
  7 ≤ (g.rsCnt : Int) * g.mtu ∧ 7 ≤ len ∧
    (((len : Int) ≤ g.rsCnt * g.mtu ∧ len ≤ 4 + 200 * (2 + maxDataLen)) ∨ len ≤ 6 + maxDataLen)

/-- A group of `x` data packets of `len` octets each has a code and fits the
arrays. -/
def Fit (g : FecParameter) (x len : Nat) : Prop :=
  HasCode x (x + (g.rsPar (x - 1)).y) ∧ 8 + len ≤ bufLen

/-- Parameters that the encoder survives. -/
def Sound (g : FecParameter) : Prop :=
  1 ≤ g.rsCnt ∧
    ((g.mode = 0 ∧ ∀ len x, BlobLen g len → Cheapest g len x → Fit g x (roundUpDiv len x)) ∨
      (g.mode = 1 ∧ ∀ i < g.rsCnt, HasCode (i + 1) (i + 1 + (g.rsPar i).y)))

/-- The packets that the encoder is given; `none` is the timer's call. -/
def Sendable (s : Option Bytes) : Prop :=
  ∀ p, s = some p → 1 ≤ p.length ∧ p.length ≤ maxDataLen

/-- No run of the encoder aborts or writes past an array. -/
def Safe (c : Code) (g : FecParameter) : Prop :=
  ∀ (seq : UInt32) (buf : Mem) (ss : List (Option Bytes)), (∀ s ∈ ss, Sendable s) →
    ∃ e os, run (send c g) (init g seq buf) ss = .ok (e, os)

/-! ## The cheapest row -/

section Choose

variable {g : FecParameter} {len x x' : Nat}

theorem Before.asymm (h : Before g len x x') (h' : Before g len x' x) : x = x' := by
  unfold Before at h h'
  omega

/-- There is only one cheapest row. -/
theorem Cheapest.unique (h : Cheapest g len x) (h' : Cheapest g len x') : x = x' := by
  by_contra hne
  exact hne ((h.2 x' h'.1 (Ne.symm hne)).asymm (h'.2 x h.1 hne))

/-- The table of parameters that were read from a string. -/
structure Rows (g : FecParameter) : Prop where
  row : ∀ i < g.rsCnt, (g.rsPar i).x = i + 1
  sum_le : ∀ i < g.rsCnt, i + 1 + (g.rsPar i).y ≤ 510
  rows_le : g.rsCnt ≤ 255
  mtu_lt : g.mtu < 2 ^ 31

/-- The search after the rows up to `m`. -/
def Best (g : FecParameter) (len m x : Nat) : Prop :=
  Usable g len x ∧ (x = g.rsCnt ∨ x ≤ m) ∧
    ∀ x', Usable g len x' → x' = g.rsCnt ∨ x' ≤ m → x' ≠ x → Before g len x x'

theorem traffic_lt (hrows : Rows g) (hlen : len ≤ 4 + 200 * (2 + maxDataLen)) (hx : 1 ≤ x)
    (hx' : x ≤ g.rsCnt) : traffic g len x < 2 ^ 32 := by
  have hshard : roundUpDiv (len + 2) x ≤ len + 2 := by
    rw [roundUpDiv_le_iff hx]
    exact Nat.le_mul_of_pos_left _ hx
  have hsum := hrows.sum_le (x - 1) (by omega)
  unfold traffic headerOverhead
  calc (roundUpDiv (len + 2) x + 40) * (x + (g.rsPar (x - 1)).y)
      ≤ (4 + 200 * (2 + maxDataLen) + 2 + 40) * 510 := Nat.mul_le_mul (by omega) (by omega)
    _ < 2 ^ 32 := by decide

/-- One round of the search. -/
theorem tryRow_best (hrows : Rows g) {blob : BlobEncode}
    (hlen : blob.currentLen ≤ 4 + 200 * (2 + maxDataLen)) (hmtu : 0 ≤ g.mtu) {m : Nat}
    (hm : m + 1 < g.rsCnt) (hbest : Best g blob.currentLen m x) :
    ∃ x', tryRow g blob (traffic g blob.currentLen x, x) (m + 1)
        = .ok (traffic g blob.currentLen x', x') ∧ Best g blob.currentLen (m + 1) x' := by
  obtain ⟨husable, hseen, hall⟩ := hbest
  have hmtu' : (g.mtu % 2 ^ 32).toNat = g.mtu.toNat := by
    have := hrows.mtu_lt
    omega
  have hshard : blob.getShardLenNext (m + 1) 0 = roundUpDiv (blob.currentLen + 2) (m + 1) := rfl
  have hnew : (roundUpDiv (blob.currentLen + 2) (m + 1) + headerOverhead) *
      (m + 1 + (g.rsPar m).y) % 2 ^ 32 = traffic g blob.currentLen (m + 1) :=
    Nat.mod_eq_of_lt (traffic_lt hrows hlen (by omega) (by omega))
  unfold tryRow
  rw [Nat.add_sub_cancel, Checked.check_of (hrows.row m (by omega)), hshard, hmtu']
  simp only [Checked.ok_bind, hnew]
  by_cases hfit : roundUpDiv (blob.currentLen + 2) (m + 1) > g.mtu.toNat
  · -- the row cannot be used
    refine ⟨x, by rw [if_pos hfit]; rfl, husable, by omega, fun x' hx' hle hne => ?_⟩
    by_cases hx'm : x' = m + 1
    · rw [hx'm] at hx'
      unfold Usable at hx'
      omega
    · exact hall x' hx' (by omega) hne
  · rw [if_neg hfit]
    have husable' : Usable g blob.currentLen (m + 1) := .inr ⟨by omega, hm, by omega⟩
    by_cases hless : traffic g blob.currentLen (m + 1) < traffic g blob.currentLen x
    · refine ⟨m + 1, by rw [if_pos hless]; rfl, husable', by omega, fun x' hx' hle hne => ?_⟩
      by_cases hxx : x' = x
      · rw [hxx]
        exact .inl hless
      · have := hall x' hx' (by omega) hxx
        unfold Before at this ⊢
        omega
    · refine ⟨x, by rw [if_neg hless]; rfl, husable, by omega, fun x' hx' hle hne => ?_⟩
      by_cases hx'm : x' = m + 1
      · rw [hx'm]
        unfold Before
        omega
      · exact hall x' hx' (by omega) hne

/-- The search over the rows up to `m`. -/
theorem foldlM_best (hrows : Rows g) (hpos : 1 ≤ g.rsCnt) {blob : BlobEncode}
    (hlen : blob.currentLen ≤ 4 + 200 * (2 + maxDataLen)) (hmtu : 0 ≤ g.mtu) :
    ∀ m, m < g.rsCnt → ∃ x,
      (List.range' 1 m).foldlM (tryRow g blob) (traffic g blob.currentLen g.rsCnt, g.rsCnt)
        = .ok (traffic g blob.currentLen x, x) ∧ Best g blob.currentLen m x := by
  intro m
  induction m with
  | zero =>
      intro _
      refine ⟨g.rsCnt, rfl, .inl rfl, .inl rfl, fun x' hx' hle hne => ?_⟩
      unfold Usable at hx'
      omega
  | succ m ih =>
      intro hm
      obtain ⟨x, hfold, hbest⟩ := ih (by omega)
      obtain ⟨x', htry, hbest'⟩ := tryRow_best hrows hlen hmtu hm hbest
      refine ⟨x', ?_, hbest'⟩
      rw [List.range'_concat, List.foldlM_append, hfold, Nat.one_mul, Nat.add_comm 1 m]
      simp only [Checked.ok_bind, List.foldlM_cons, htry]
      rfl

/-- `short_packet_optimize` finds the cheapest row. -/
theorem chooseDataNum_cheapest (hrows : Rows g) (hpos : 1 ≤ g.rsCnt) {blob : BlobEncode}
    (hlen : blob.currentLen ≤ 4 + 200 * (2 + maxDataLen)) (hmtu : 0 ≤ g.mtu) :
    ∃ tail x, g.getTail = some tail ∧ chooseDataNum g blob tail = .ok x ∧
      Cheapest g blob.currentLen x := by
  have hrow := hrows.row (g.rsCnt - 1) (by omega)
  obtain ⟨x, hfold, husable, hseen, hall⟩ :=
    foldlM_best hrows hpos hlen hmtu (g.rsCnt - 1) (by omega)
  have hx : (g.rsPar (g.rsCnt - 1)).x = g.rsCnt := by omega
  have hbest : (blob.getShardLenNext g.rsCnt 0 + headerOverhead) *
      (g.rsCnt + (g.rsPar (g.rsCnt - 1)).y) % 2 ^ 32 = traffic g blob.currentLen g.rsCnt :=
    Nat.mod_eq_of_lt (traffic_lt hrows hlen hpos (Nat.le_refl _))
  refine ⟨g.rsPar (g.rsCnt - 1), x, if_pos hpos, ?_, husable, fun x' hx' hne => ?_⟩
  · have hrange : 1 ≤ x ∧ x ≤ g.rsCnt := by
      unfold Usable at husable
      omega
    unfold chooseDataNum
    simp only [hx, hbest, Checked.check_of (Nat.le_refl g.rsCnt), Checked.ok_bind, hfold,
      Checked.check_of hrange]
    rfl
  · refine hall x' hx' ?_ hne
    unfold Usable at hx'
    omega

end Choose

/-! ## Closing a group -/

section Close

variable {c : Code} {g : FecParameter} {e : FecEncodeManager}

/-- A blob can be closed exactly if its cheapest row fits the arrays. -/
theorem closeGroup_blob_iff (hrows : Rows g) (hpos : 1 ≤ g.rsCnt) (hmtu : 0 ≤ g.mtu)
    (hpar : e.fecPar = g) (hmode : g.mode = 0) (hready : e.readyForOutput = false)
    (hlen : e.blob.currentLen ≤ 4 + 200 * (2 + maxDataLen)) (hasPacket : Bool) :
    ∃ x, Cheapest g e.blob.currentLen x ∧
      ((∃ e', e.closeGroup c hasPacket = .ok e') ↔
        Fit g x (roundUpDiv e.blob.currentLen x)) := by
  obtain ⟨tail, x, htail, hchoose, hcheap⟩ := chooseDataNum_cheapest hrows hpos hlen hmtu
  rw [← hpar] at htail hchoose hmode
  refine ⟨x, hcheap, ?_, ?_⟩
  · rintro ⟨e', hclose⟩
    obtain ⟨tail', x', htail', hchoose', hcode, hfit, -, -⟩ := closeGroup_blob hmode hclose
    obtain rfl := Option.some.inj (htail.symm.trans htail')
    obtain rfl := Except.ok.inj (hchoose.symm.trans hchoose')
    rw [hpar] at hcode
    exact ⟨hcode, hfit⟩
  · rintro ⟨hcode, hfit⟩
    rw [← hpar] at hcode
    exact closeGroup_of_blob hasPacket hmode htail hchoose hcode hfit hready

/-- A blob that was closed has a cheapest row that fits, and is sent in its shards. -/
theorem closed_cheapest (hrows : Rows g) (hpos : 1 ≤ g.rsCnt) (hmtu : 0 ≤ g.mtu)
    (hpar : e.fecPar = g) (hmode : g.mode = 0)
    (hlen : e.blob.currentLen ≤ 4 + 200 * (2 + maxDataLen)) {x : Nat}
    (hcheap : Cheapest g e.blob.currentLen x) {hasPacket : Bool} {e' : FecEncodeManager}
    (hclose : e.closeGroup c hasPacket = .ok e') :
    Fit g x (roundUpDiv e.blob.currentLen x) ∧ e'.readyForOutput = true ∧ e'.outputBuf ≠ [] ∧
      ∀ q ∈ e'.outputBuf, q.length = 8 + roundUpDiv e.blob.currentLen x := by
  obtain ⟨tail, x₁, htail, hchoose, hcheap₁⟩ := chooseDataNum_cheapest hrows hpos hlen hmtu
  obtain rfl := hcheap.unique hcheap₁
  subst hpar
  obtain ⟨tail', x', htail', hchoose', hcode, hfit, -, rfl⟩ := closeGroup_blob hmode hclose
  obtain rfl := Option.some.inj (htail.symm.trans htail')
  obtain rfl := Except.ok.inj (hchoose.symm.trans hchoose')
  have hx := (chooseDataNum_eq_ok hchoose).1
  refine ⟨⟨hcode, hfit⟩, rfl, ?_, fun q hq => ?_⟩
  · simp only [ne_eq, List.map_eq_nil_iff, List.range_eq_nil]
    omega
  · obtain ⟨i, -, rfl⟩ := List.mem_map.mp hq
    exact length_blobPacket c e.seq e.blob x _ i

/-- A group of mode 1 can be closed exactly if its row has a code. -/
theorem closeGroup_packets_iff (hpar : e.fecPar = g) (hmode : g.mode = 1)
    (hready : e.readyForOutput = false) (hpending : e.counter ≠ 0)
    (hcnt : e.counter ≤ g.rsCnt) (hbodies : ∀ b ∈ e.bodies, b.length ≤ 2 + maxDataLen)
    (hasPacket : Bool) :
    (∃ e', e.closeGroup c hasPacket = .ok e') ↔
      HasCode e.counter (e.counter + (g.rsPar (e.counter - 1)).y) := by
  have hmode' : e.fecPar.mode = 1 := by rw [hpar]; exact hmode
  constructor
  · rintro ⟨e', hclose⟩
    obtain ⟨-, hcode, -, -⟩ := closeGroup_packets hmode' hpending hclose
    rw [hpar] at hcode
    exact hcode
  · intro hcode
    have hlen : groupLen e.bodies ≤ 2 + maxDataLen := groupLen_le_iff.mpr hbodies
    have hle := hcode.le
    unfold closeGroup fits coded finish
    rw [if_neg (by simp [hmode']), hpar, Checked.check_of hcnt]
    simp only [Checked.ok_bind]
    rw [Checked.bounds_of ⟨by unfold maxFecPacketNum; omega, by unfold bufLen; omega⟩,
      Checked.bounds_of hcode, Checked.check_of hready]
    exact ⟨_, rfl⟩

end Close

/-! ## One call in mode 0 -/

/-- Between two calls. -/
structure Open (g : FecParameter) (e : FecEncodeManager) : Prop where
  par : e.fecPar = g
  ready : e.readyForOutput = false

/-- `output` leaves nothing ready. -/
theorem output_fst (e : FecEncodeManager) :
    e.output.1 = { e with readyForOutput := false } := by
  obtain ⟨seq, par, blob, buf, cnt, ready, out, timer⟩ := e
  cases ready <;> rfl

/-- Between two calls in mode 0. -/
structure OpenBlob (g : FecParameter) (e : FecEncodeManager) : Prop extends Open g e where
  few : e.counter < 200
  counter : e.blob.counter = e.counter
  short : e.blob.currentLen ≤ 4 + e.counter * (2 + maxDataLen)
  empty : e.counter = 0 → e.blob.currentLen = 4
  blobLen : e.counter ≠ 0 → BlobLen g e.blob.currentLen

section Blob

variable {c : Code} {g : FecParameter} {e : FecEncodeManager} {p : Bytes}

theorem roundUpDiv_gt_iff {a n : Nat} (hn : 0 < n) {m : Int} :
    (roundUpDiv a n : Int) > m ↔ (n : Int) * m < a := by
  by_cases hm : 0 ≤ m
  · obtain ⟨k, rfl⟩ := Int.eq_ofNat_of_zero_le hm
    have hle := @roundUpDiv_le_iff a n k hn
    constructor
    · intro h
      by_contra hnot
      exact absurd (hle.mpr (by exact_mod_cast not_lt.mp hnot)) (by omega)
    · intro h
      by_contra hnot
      have := hle.mp (by omega)
      have : (a : Int) ≤ n * k := by exact_mod_cast this
      omega
  · have hneg : (n : Int) * m < 0 := mul_neg_of_pos_of_neg (by omega) (by omega)
    constructor
    · intro _
      omega
    · intro _
      omega

/-- A packet is too long when the blob with it is longer than the last row
allows. -/
theorem tooLong_eq (hrows : Rows g) (hpos : 1 ≤ g.rsCnt) (hpar : e.fecPar = g) (n : Nat) :
    e.tooLong n
      = .ok (decide ((g.rsCnt : Int) * g.mtu < (e.blob.currentLen + 2 + n : Nat))) := by
  have hrow := hrows.row (g.rsCnt - 1) (by omega)
  have htail : g.getTail = some (g.rsPar (g.rsCnt - 1)) := if_pos hpos
  unfold tooLong BlobEncode.getShardLenNext
  rw [hpar, htail]
  simp only [Checked.ofOption_some, Checked.ok_bind, hrow, Nat.sub_add_cancel hpos,
    roundUpDiv_gt_iff hpos]
  rfl

theorem append_ok_blob (hmode : e.fecPar.mode = 0) (hcnt : e.blob.counter < 200)
    (hlen : e.blob.currentLen ≤ 4 + 199 * (2 + maxDataLen)) (hp : p.length ≤ maxDataLen) :
    ∃ e₁, e.append p = .ok e₁ ∧ e₁.fecPar = e.fecPar ∧
      e₁.readyForOutput = e.readyForOutput ∧ e₁.counter = e.counter + 1 ∧
      e₁.blob.counter = e.blob.counter + 1 ∧
      e₁.blob.currentLen = e.blob.currentLen + 2 + p.length := by
  unfold maxDataLen at hlen hp
  have hblob : ∃ b, e.blob.input p = .ok b := by
    unfold BlobEncode.input
    rw [Checked.check_of (by unfold blobBufSize; omega), Checked.check_of (by omega),
      Checked.check_of (by unfold maxBlobPacketNum; omega)]
    exact ⟨_, rfl⟩
  obtain ⟨b, hb⟩ := hblob
  obtain ⟨-, -, -, rfl⟩ := BlobEncode.input_eq_ok hb
  exact ⟨_, append_of_blob hmode hb, rfl, rfl, rfl, rfl, rfl⟩

/-- A packet that fits the open group. -/
theorem OpenBlob.append (h : OpenBlob g e) (hmode : g.mode = 0) (hp : 1 ≤ p.length)
    (hp' : p.length ≤ maxDataLen)
    (hfit : ((e.blob.currentLen + 2 + p.length : Nat) : Int) ≤ g.rsCnt * g.mtu) :
    ∃ e₁, e.append p = .ok e₁ ∧ Open g e₁ ∧ e₁.counter = e.counter + 1 ∧
      e₁.blob.counter = e₁.counter ∧
      e₁.blob.currentLen = e.blob.currentLen + 2 + p.length ∧
      e₁.blob.currentLen ≤ 4 + e₁.counter * (2 + maxDataLen) ∧ BlobLen g e₁.blob.currentLen := by
  have hshort := h.short
  have hfew := h.few
  have hroom : e.blob.currentLen ≤ 4 + 199 * (2 + maxDataLen) :=
    hshort.trans (Nat.add_le_add_left (Nat.mul_le_mul_right _ (by omega)) 4)
  obtain ⟨e₁, happend, hpar, hready, hcnt, hbcnt, hlen⟩ := append_ok_blob (p := p)
    (by rw [h.par]; exact hmode) (by rw [h.counter]; exact h.few) hroom hp'
  have hfour : 4 ≤ e.blob.currentLen := by
    by_cases hzero : e.counter = 0
    · rw [h.empty hzero]
    · have := (h.blobLen hzero).2.1
      omega
  refine ⟨e₁, happend, ⟨hpar.trans h.par, hready.trans h.ready⟩, hcnt, ?_, hlen, ?_, ?_⟩
  · rw [hbcnt, hcnt, h.counter]
  · rw [hlen, hcnt, Nat.succ_mul]
    omega
  · rw [hlen]
    refine ⟨by omega, by omega, .inl ⟨hfit, ?_⟩⟩
    calc e.blob.currentLen + 2 + p.length ≤ 4 + 199 * (2 + maxDataLen) + 2 + maxDataLen := by omega
      _ ≤ 4 + 200 * (2 + maxDataLen) := by decide

/-- What is left after closing a blob. -/
theorem closed_blob {e' : FecEncodeManager} {hasPacket : Bool} (hmode : e.fecPar.mode = 0)
    (hclose : e.closeGroup c hasPacket = .ok e') :
    e'.fecPar = e.fecPar ∧ e'.counter = 0 ∧ e'.blob.counter = 0 ∧ e'.blob.currentLen = 4 := by
  obtain ⟨tail, x, -, -, -, -, -, rfl⟩ := closeGroup_blob hmode hclose
  exact ⟨rfl, rfl, rfl, rfl⟩

theorem openBlob_output {e₁ : FecEncodeManager} (hpar : e₁.fecPar = g) (hcnt : e₁.counter < 200)
    (hbcnt : e₁.blob.counter = e₁.counter)
    (hshort : e₁.blob.currentLen ≤ 4 + e₁.counter * (2 + maxDataLen))
    (hempty : e₁.counter = 0 → e₁.blob.currentLen = 4)
    (hlen : e₁.counter ≠ 0 → BlobLen g e₁.blob.currentLen) : OpenBlob g e₁.output.1 := by
  rw [output_fst]
  exact ⟨⟨hpar, rfl⟩, hcnt, hbcnt, hshort, hempty, hlen⟩

/-- A packet that fits a group with room for more is queued. -/
theorem OpenBlob.queue (hrows : Rows g) (hpos : 1 ≤ g.rsCnt) (hmode : g.mode = 0)
    (hqueue : g.queueLen = 200) (h : OpenBlob g e) (hmore : e.counter + 1 < 200)
    (hp : 1 ≤ p.length) (hp' : p.length ≤ maxDataLen)
    (hfit : ((e.blob.currentLen + 2 + p.length : Nat) : Int) ≤ g.rsCnt * g.mtu) :
    ∃ e' o, e.send c g (some p) = .ok (e', o) ∧ OpenBlob g e' ∧ e'.counter = e.counter + 1 ∧
      e'.blob.currentLen = e.blob.currentLen + 2 + p.length := by
  have hmode' : e.fecPar.mode = 0 := by rw [h.par]; exact hmode
  have hroom : e.room = .ok () := by
    unfold room
    rw [if_pos hmode', h.par, hqueue]
    exact Checked.check_of (by omega)
  have hdelays : e.delays (some p) = .ok false := by
    unfold delays
    rw [if_pos hmode']
    exact (tooLong_eq hrows hpos h.par p.length).trans (by rw [decide_eq_false (by omega)])
  obtain ⟨e₁, happend, hopen, hcnt, hbcnt, hlen, hshort₁, hlen₁⟩ := h.append hmode hp hp' hfit
  have hfull : e₁.full = .ok false := by
    unfold full
    rw [hopen.par, if_pos hmode, hqueue, decide_eq_false (by omega)]
  have hfast : e₁.fastSend true = .ok e₁ := by
    unfold fastSend
    rw [if_neg (by rw [hopen.par, hmode]; simp)]
    rfl
  have hcall := Call.queued (c := c) hroom hdelays happend hfull hfast
  refine ⟨_, _, send_of_call (by rw [h.par]) (.inl hmode') hcall, ?_, ?_, ?_⟩
  · exact openBlob_output hopen.par (by omega) hbcnt hshort₁ (fun hne => absurd hne (by omega))
      (fun _ => hlen₁)
  · rw [output_of_not_ready hopen.ready]
    exact hcnt
  · rw [output_of_not_ready hopen.ready]
    exact hlen

/-- Lengths of the blobs of so many packets, as they come about when packets of `lo`
octets and more are taken. -/
structure Growing (g : FecParameter) (lo : Nat) (L : Nat → Nat → Prop) : Prop where
  first : ∀ l, lo ≤ l → l ≤ maxDataLen → ((6 + l : Nat) : Int) ≤ g.rsCnt * g.mtu → L 1 (6 + l)
  next : ∀ n len l, n < 200 → L n len → lo ≤ l → l ≤ maxDataLen →
    ((len + 2 + l : Nat) : Int) ≤ g.rsCnt * g.mtu → L (n + 1) (len + 2 + l)
  /-- The packet did not fit the group before it. -/
  single : ∀ n len l, L n len → lo ≤ l → l ≤ maxDataLen → L 1 (6 + l)
  mtu : ∀ n len, L n len → 0 ≤ g.mtu
  le : ∀ n len, L n len → len ≤ 4 + n * (2 + maxDataLen)

/-- Between two calls in mode 0, with a blob of one of these lengths. -/
structure OpenWith (g : FecParameter) (L : Nat → Nat → Prop) (e : FecEncodeManager) : Prop
    extends Open g e where
  few : e.counter < 200
  counter : e.blob.counter = e.counter
  empty : e.counter = 0 → e.blob.currentLen = 4
  length : e.counter ≠ 0 → L e.counter e.blob.currentLen

theorem openWith_init (g : FecParameter) (L : Nat → Nat → Prop) (seq : UInt32) (buf : Mem) :
    OpenWith g L (init g seq buf) where
  par := rfl
  ready := rfl
  few := by show 0 < 200; omega
  counter := rfl
  empty := fun _ => rfl
  length := fun hne => absurd rfl hne

section With

variable {lo : Nat} {L : Nat → Nat → Prop}

/-- The packets that a call sends are the shards of a blob in its cheapest row. -/
def Cut (g : FecParameter) (L : Nat → Nat → Prop) (out : List Bytes) : Prop :=
  ∀ q ∈ out, ∃ n len x, 1 ≤ n ∧ n ≤ 200 ∧ L n len ∧ Cheapest g len x ∧
    q.length = 8 + roundUpDiv len x

theorem cut_nil : Cut g L [] := by
  intro q hq
  exact absurd hq List.not_mem_nil

/-- With the arrays large enough for every blob, it can be closed. -/
theorem close_with (hrows : Rows g) (hpos : 1 ≤ g.rsCnt) (hmode : g.mode = 0)
    (hL : Growing g lo L)
    (hfits : ∀ n len x, 1 ≤ n → n ≤ 200 → L n len → Cheapest g len x →
      Fit g x (roundUpDiv len x))
    (hopen : Open g e) {n : Nat} (hn : 1 ≤ n) (hn' : n ≤ 200) (hlen : L n e.blob.currentLen)
    (b : Bool) :
    ∃ e', e.closeGroup c b = .ok e' ∧ e'.readyForOutput = true ∧ Cut g L e'.outputBuf := by
  have hmtu := hL.mtu _ _ hlen
  have hle : e.blob.currentLen ≤ 4 + 200 * (2 + maxDataLen) :=
    (hL.le _ _ hlen).trans (Nat.add_le_add_left (Nat.mul_le_mul_right _ hn') 4)
  obtain ⟨x, hcheap, hiff⟩ :=
    closeGroup_blob_iff (c := c) hrows hpos hmtu hopen.par hmode hopen.ready hle b
  obtain ⟨e', hclose⟩ := hiff.mpr (hfits n _ x hn hn' hlen hcheap)
  obtain ⟨-, hready, -, hcut⟩ := closed_cheapest hrows hpos hmtu hopen.par hmode hle hcheap hclose
  exact ⟨e', hclose, hready, fun q hq => ⟨n, _, x, hn, hn', hlen, hcheap, hcut q hq⟩⟩

/-- A call in mode 0 returns, with the arrays large enough for every blob. -/
theorem OpenWith.call (hrows : Rows g) (hpos : 1 ≤ g.rsCnt) (hmode : g.mode = 0)
    (hqueue : g.queueLen = 200) (hL : Growing g lo L)
    (hfits : ∀ n len x, 1 ≤ n → n ≤ 200 → L n len → Cheapest g len x →
      Fit g x (roundUpDiv len x))
    (h : OpenWith g L e) {s : Option Bytes}
    (hs : ∀ p, s = some p → lo ≤ p.length ∧ p.length ≤ maxDataLen) :
    ∃ r e₁, Call c e s r e₁ ∧ OpenWith g L e₁.output.1 ∧ Cut g L e₁.output.2 := by
  have hmode' : e.fecPar.mode = 0 := by rw [h.par]; exact hmode
  have hfew := h.few
  have hroom : e.room = .ok () := by
    unfold room
    rw [if_pos hmode', h.par, hqueue]
    exact Checked.check_of (by omega)
  have hstay : OpenWith g L e.output.1 ∧ Cut g L e.output.2 := by
    rw [output_of_not_ready h.ready]
    exact ⟨h, cut_nil⟩
  -- a group that was closed leaves an empty one
  have hclosed : ∀ {e₁ e' : FecEncodeManager} {b : Bool}, e₁.fecPar = g →
      e₁.closeGroup c b = .ok e' → e'.readyForOutput = true → Cut g L e'.outputBuf →
      OpenWith g L e'.output.1 ∧ Cut g L e'.output.2 := by
    intro e₁ e' b hpar hclose hready hcut
    obtain ⟨hpar', hcnt, hbcnt, hlen⟩ := closed_blob (by rw [hpar]; exact hmode) hclose
    rw [output_of_ready hready]
    exact ⟨⟨⟨hpar'.trans hpar, rfl⟩, by show e'.counter < 200; omega,
      hbcnt.trans hcnt.symm, fun _ => hlen, fun hne => absurd hcnt hne⟩, hcut⟩
  cases s with
  | none =>
      by_cases hzero : e.counter = 0
      · exact ⟨_, _, .rejected hzero (by simp), hstay⟩
      · obtain ⟨e', hclose, hready, hcut⟩ := close_with (c := c) hrows hpos hmode hL hfits h.toOpen
          (Nat.one_le_iff_ne_zero.mpr hzero) (by omega) (h.length hzero) false
        exact ⟨_, _, .flushed hroom hzero hclose, hclosed h.par hclose hready hcut⟩
  | some p =>
      obtain ⟨hp, hp'⟩ := hs p rfl
      have htoo := tooLong_eq hrows hpos h.par p.length
      have hdelays : e.delays (some p)
          = .ok (decide ((g.rsCnt : Int) * g.mtu < (e.blob.currentLen + 2 + p.length : Nat))) := by
        unfold delays
        rw [if_pos hmode']
        exact htoo
      have hblob : e.blob.currentLen ≤ 4 + 199 * (2 + maxDataLen) := by
        by_cases hzero : e.counter = 0
        · rw [h.empty hzero]
          omega
        · exact (hL.le _ _ (h.length hzero)).trans
            (Nat.add_le_add_left (Nat.mul_le_mul_right _ (by omega)) 4)
      by_cases hlong : (g.rsCnt : Int) * g.mtu < (e.blob.currentLen + 2 + p.length : Nat)
      · rw [decide_eq_true hlong] at htoo hdelays
        by_cases hzero : e.counter = 0
        · refine ⟨_, _, .rejected hzero fun q hq => ?_, hstay⟩
          obtain rfl := Option.some.inj hq
          exact ⟨hmode', htoo⟩
        · -- the group is closed, and the packet starts the next one
          obtain ⟨e₁, hclose, hready, hcut⟩ := close_with (c := c) hrows hpos hmode hL hfits
            h.toOpen (Nat.one_le_iff_ne_zero.mpr hzero) (by omega) (h.length hzero) true
          obtain ⟨hpar, hcnt, hbcnt, hlen⟩ := closed_blob hmode' hclose
          obtain ⟨e₂, happend, hpar₂, hready₂, hcnt₂, hbcnt₂, hlen₂⟩ := append_ok_blob (e := e₁)
            (p := p) (by rw [hpar]; exact hmode') (by omega) (by omega) hp'
          refine ⟨_, _, .delayed hroom hzero hdelays hclose happend, ?_⟩
          rw [output_of_ready (hready₂.trans hready),
            (append_output (.inl (by rw [hpar]; exact hmode')) happend).2.2.2]
          refine ⟨⟨⟨hpar₂.trans (hpar.trans h.par), rfl⟩, ?_, ?_, ?_, ?_⟩, hcut⟩
          · show e₂.counter < 200
            omega
          · show e₂.blob.counter = e₂.counter
            omega
          · show e₂.counter = 0 → _
            omega
          · intro _
            show L e₂.counter e₂.blob.currentLen
            rw [hcnt₂, hcnt, hlen₂, hlen]
            exact hL.single _ _ _ (h.length hzero) hp hp'
      · rw [decide_eq_false hlong] at hdelays
        obtain ⟨e₁, happend, hpar₁, hready₁, hcnt₁, hbcnt₁, hlen₁⟩ := append_ok_blob (p := p)
          hmode' (by rw [h.counter]; exact h.few) hblob hp'
        have hopen₁ : Open g e₁ := ⟨hpar₁.trans h.par, hready₁.trans h.ready⟩
        have hL₁ : L e₁.counter e₁.blob.currentLen := by
          rw [hcnt₁, hlen₁]
          by_cases hzero : e.counter = 0
          · rw [hzero, h.empty hzero]
            rw [h.empty hzero] at hlong
            exact hL.first _ hp hp' (by omega)
          · exact hL.next _ _ _ h.few (h.length hzero) hp hp' (by omega)
        by_cases hmore : e.counter + 1 < 200
        · have hfull : e₁.full = .ok false := by
            unfold full
            rw [hopen₁.par, if_pos hmode, hqueue, decide_eq_false (by omega)]
          have hfast : e₁.fastSend true = .ok e₁ := by
            unfold fastSend
            rw [if_neg (by rw [hopen₁.par, hmode]; simp)]
            rfl
          refine ⟨_, _, .queued hroom hdelays happend hfull hfast, ?_⟩
          rw [output_of_not_ready hopen₁.ready]
          refine ⟨⟨hopen₁, ?_, ?_, fun hzero => ?_, fun _ => hL₁⟩, cut_nil⟩
          · show e₁.counter < 200
            omega
          · rw [hbcnt₁, hcnt₁, h.counter]
          · exact absurd (hcnt₁.symm.trans hzero) (Nat.succ_ne_zero _)
        · have hfull : e₁.full = .ok true := by
            unfold full
            rw [hopen₁.par, if_pos hmode, hqueue, decide_eq_true (by omega)]
          obtain ⟨e₂, hclose, hready, hcut⟩ := close_with (c := c) hrows hpos hmode hL hfits
            hopen₁ (by omega) (by omega) hL₁ true
          exact ⟨_, _, .completed hroom hdelays happend hfull hclose,
            hclosed hopen₁.par hclose hready hcut⟩

end With

/-- The blobs that packets can make, with their number. -/
theorem growing_blobLen (g : FecParameter) :
    Growing g 1 fun n len => BlobLen g len ∧ len ≤ 4 + n * (2 + maxDataLen) where
  first := by
    intro l hl hl' hfit
    exact ⟨⟨by omega, by omega, .inr (by omega)⟩, by omega⟩
  next := by
    rintro n len l hn ⟨hblob, hle⟩ hl hl' hfit
    have hlen := hblob.2.1
    have hmul : n * (2 + maxDataLen) ≤ 199 * (2 + maxDataLen) :=
      Nat.mul_le_mul_right _ (by omega)
    refine ⟨⟨hblob.1, by omega, .inl ⟨hfit, by omega⟩⟩, ?_⟩
    rw [Nat.succ_mul]
    omega
  single := by
    rintro n len l ⟨hblob, -⟩ hl hl'
    exact ⟨⟨hblob.1, by omega, .inr (by omega)⟩, by omega⟩
  mtu := by
    rintro n len ⟨hblob, -⟩
    by_contra hneg
    have hle := Int.mul_nonpos_of_nonneg_of_nonpos (Int.natCast_nonneg g.rsCnt)
      (show g.mtu ≤ 0 by omega)
    have hseven := hblob.1
    omega
  le := by
    rintro n len ⟨-, hle⟩
    exact hle

theorem openWith_of_openBlob (h : OpenBlob g e) :
    OpenWith g (fun n len => BlobLen g len ∧ len ≤ 4 + n * (2 + maxDataLen)) e :=
  ⟨h.toOpen, h.few, h.counter, h.empty, fun hne => ⟨h.blobLen hne, h.short⟩⟩

theorem openBlob_of_openWith
    (h : OpenWith g (fun n len => BlobLen g len ∧ len ≤ 4 + n * (2 + maxDataLen)) e) :
    OpenBlob g e := by
  refine ⟨h.toOpen, h.few, h.counter, ?_, h.empty, fun hne => (h.length hne).1⟩
  by_cases hzero : e.counter = 0
  · rw [h.empty hzero]
    exact Nat.le_add_right _ _
  · exact (h.length hzero).2

/-- With the arrays large enough for every blob, a call in mode 0 returns. -/
theorem OpenBlob.send (hrows : Rows g) (hpos : 1 ≤ g.rsCnt) (hmode : g.mode = 0)
    (hqueue : g.queueLen = 200)
    (hfits : ∀ len x, BlobLen g len → Cheapest g len x → Fit g x (roundUpDiv len x))
    (h : OpenBlob g e) {s : Option Bytes} (hs : Sendable s) :
    ∃ e' o, e.send c g s = .ok (e', o) ∧ OpenBlob g e' := by
  obtain ⟨r, e₁, hcall, hopen, -⟩ := (openWith_of_openBlob h).call (c := c) hrows hpos hmode hqueue
    (growing_blobLen g) (fun n len x _ _ hlen => hfits len x hlen.1) hs
  exact ⟨_, _, send_of_call (by rw [h.par]) (.inl (by rw [h.par]; exact hmode)) hcall,
    openBlob_of_openWith hopen⟩

end Blob

/-! ## One call in mode 1 -/

/-- Between two calls in mode 1. -/
structure OpenPackets (g : FecParameter) (e : FecEncodeManager) : Prop extends Open g e where
  room : e.counter < g.rsCnt
  bodies : ∀ b ∈ e.bodies, b.length ≤ 2 + maxDataLen

section Packets

variable {c : Code} {g : FecParameter} {e : FecEncodeManager} {p : Bytes}

theorem openPackets_output {e₁ : FecEncodeManager} (hpar : e₁.fecPar = g)
    (hroom : e₁.counter < g.rsCnt) (hbodies : ∀ b ∈ e₁.bodies, b.length ≤ 2 + maxDataLen) :
    OpenPackets g e₁.output.1 := by
  rw [output_fst]
  exact ⟨⟨hpar, rfl⟩, hroom, hbodies⟩

/-- Between two groups. -/
theorem openPackets_of_closed {e₁ : FecEncodeManager} {hasPacket : Bool} (hpos : 1 ≤ g.rsCnt)
    (hpar : e.fecPar = g) (hmode : g.mode = 1) (hpending : e.counter ≠ 0)
    (hclose : e.closeGroup c hasPacket = .ok e₁) : OpenPackets g e₁.output.1 := by
  obtain ⟨-, -, -, rfl⟩ := closeGroup_packets (by rw [hpar]; exact hmode) hpending hclose
  refine openPackets_output hpar (by show 0 < _; omega) ?_
  intro b hb
  exact absurd hb (by simp [FecEncodeManager.bodies])

/-- The next packet of the group. -/
theorem OpenPackets.append (hrows : Rows g) (hmode : g.mode = 1) (h : OpenPackets g e)
    (hp : p.length ≤ maxDataLen) :
    ∃ e₁, e.append p = .ok e₁ ∧ Open g e₁ ∧ e₁.counter = e.counter + 1 ∧
      ∀ b ∈ e₁.bodies, b.length ≤ 2 + maxDataLen := by
  have hmode' : e.fecPar.mode = 1 := by rw [h.par]; exact hmode
  have hroom := h.room
  have hle := hrows.rows_le
  have happend : ∃ e₁, e.append p = .ok e₁ := by
    unfold FecEncodeManager.append
    rw [if_neg (by simp [hmode']), if_pos hmode',
      Checked.check_of (by unfold maxDataLen at hp; omega),
      Checked.bounds_of ⟨by unfold bufLen; omega, by unfold maxFecPacketNum; omega⟩]
    exact ⟨_, rfl⟩
  obtain ⟨e₁, happend⟩ := happend
  have hbodies := bodies_append hmode' happend
  obtain ⟨-, -, rfl⟩ := append_packet hmode' happend
  refine ⟨_, happend, ⟨h.par, h.ready⟩, rfl, ?_⟩
  intro b hb
  rw [hbodies] at hb
  rcases List.mem_append.mp hb with hb | hb
  · exact h.bodies b hb
  · obtain rfl := List.mem_singleton.mp hb
    rw [BlobEncode.length_record]
    omega

/-- With a code for every row, a call in mode 1 returns. -/
theorem OpenPackets.send (hrows : Rows g) (hmode : g.mode = 1)
    (hfits : ∀ i < g.rsCnt, HasCode (i + 1) (i + 1 + (g.rsPar i).y)) (h : OpenPackets g e)
    {s : Option Bytes} (hs : Sendable s) :
    ∃ e' o, e.send c g s = .ok (e', o) ∧ OpenPackets g e' := by
  have hmode' : e.fecPar.mode = 1 := by rw [h.par]; exact hmode
  have hcnt := h.room
  have hpos : 1 ≤ g.rsCnt := by omega
  have hrow := hrows.row (g.rsCnt - 1) (by omega)
  have htail : g.getTail = some (g.rsPar (g.rsCnt - 1)) := if_pos hpos
  have hsend : ∀ {r : Int} {e₁ : FecEncodeManager}, Call c e s r e₁ →
      OpenPackets g e₁.output.1 → ∃ e' o, e.send c g s = .ok (e', o) ∧ OpenPackets g e' := by
    intro r e₁ hcall hopen
    exact ⟨_, _, send_of_call (by rw [h.par]) (.inr hmode') hcall, hopen⟩
  have hroom : e.room = .ok () := by
    unfold FecEncodeManager.room
    rw [if_neg (by simp [hmode']), h.par, htail]
    exact Checked.check_of (by rw [hrow]; omega)
  have hclose : ∀ {e₁ : FecEncodeManager} (b : Bool), Open g e₁ → e₁.counter ≠ 0 →
      e₁.counter ≤ g.rsCnt → (∀ b ∈ e₁.bodies, b.length ≤ 2 + maxDataLen) →
      ∃ e', e₁.closeGroup c b = .ok e' := by
    intro e₁ b hopen hne hle hbodies
    rw [closeGroup_packets_iff hopen.par hmode hopen.ready hne hle hbodies]
    have hrow := hfits (e₁.counter - 1) (by omega)
    rwa [Nat.sub_add_cancel (by omega)] at hrow
  cases s with
  | none =>
      by_cases hzero : e.counter = 0
      · exact hsend (.rejected hzero (by simp)) (openPackets_output h.par h.room h.bodies)
      · obtain ⟨e', hclosed⟩ := hclose false h.toOpen hzero (by omega) h.bodies
        exact hsend (.flushed hroom hzero hclosed)
          (openPackets_of_closed hpos h.par hmode hzero hclosed)
  | some p =>
      obtain ⟨hp, hp'⟩ := hs p rfl
      have hdelays : e.delays (some p) = .ok false := by
        unfold delays
        rw [if_neg (by simp [hmode'])]
      obtain ⟨e₁, happend, hopen, hcnt₁, hbodies₁⟩ := h.append hrows hmode hp'
      have hfull : e₁.full = .ok (decide (e₁.counter = g.rsCnt)) := by
        unfold full
        rw [hopen.par, if_neg (by simp [hmode]), htail]
        simp only [Checked.ofOption_some, Checked.ok_bind, hrow, Nat.sub_add_cancel hpos]
        rfl
      by_cases hlast : e₁.counter = g.rsCnt
      · rw [decide_eq_true hlast] at hfull
        obtain ⟨e₂, hclosed⟩ := hclose true hopen (by omega) (by omega) hbodies₁
        exact hsend (.completed hroom hdelays happend hfull hclosed)
          (openPackets_of_closed hpos hopen.par hmode (by omega) hclosed)
      · rw [decide_eq_false hlast] at hfull
        have hle := hrows.rows_le
        have hfast : ∃ e₂, e₁.fastSend true = .ok e₂ := by
          unfold fastSend
          rw [if_pos ⟨rfl, by rw [hopen.par]; exact hmode⟩, Checked.check_of (by omega),
            Checked.check_of hopen.ready]
          exact ⟨_, rfl⟩
        obtain ⟨e₂, hfast⟩ := hfast
        have hcall := Call.queued (c := c) hroom hdelays happend hfull hfast
        obtain ⟨-, -, -, rfl⟩ := fastSend_packet (by rw [hopen.par]; exact hmode) hfast
        exact hsend hcall (openPackets_output hopen.par (by show e₁.counter < _; omega) hbodies₁)

end Packets

/-! ## Sound parameters are enough -/

section Enough

variable {c : Code} {g : FecParameter}

theorem openBlob_init (g : FecParameter) (seq : UInt32) (buf : Mem) :
    OpenBlob g (init g seq buf) where
  par := rfl
  ready := rfl
  few := by show 0 < 200; omega
  counter := rfl
  short := by show 4 ≤ 4 + 0 * _; omega
  empty := fun _ => rfl
  blobLen := fun hne => absurd rfl hne

theorem safe_of_sound (hrows : Rows g) (hqueue : g.queueLen = 200) (hsound : Sound g) :
    Safe c g := by
  intro seq buf ss hss
  obtain ⟨hpos, ⟨hmode, hfits⟩ | ⟨hmode, hfits⟩⟩ := hsound
  · have hopen := openBlob_init g seq buf
    obtain ⟨e, os, hrun, -⟩ := @run_total _ _ _ _ (send c g) (OpenBlob g) ss _
      (fun e s hs he => he.send hrows hpos hmode hqueue hfits (hss s hs)) hopen
    exact ⟨e, os, hrun⟩
  · have hopen : OpenPackets g (init g seq buf) :=
      ⟨⟨rfl, rfl⟩, hpos, by simp [FecEncodeManager.bodies, init]⟩
    obtain ⟨e, os, hrun, -⟩ := @run_total _ _ _ _ (send c g) (OpenPackets g) ss _
      (fun e s hs he => he.send hrows hmode hfits (hss s hs)) hopen
    exact ⟨e, os, hrun⟩

end Enough

/-! ## And necessary -/

section Necessary

variable {c : Code} {g : FecParameter} {e : FecEncodeManager}

/-- A packet of at least `lo` octets, or the timer's call. -/
def Bounded (lo : Nat) (s : Option Bytes) : Prop :=
  ∀ p, s = some p → lo ≤ p.length ∧ p.length ≤ maxDataLen

/-- No run with such packets aborts or writes past an array. -/
def Returns (c : Code) (g : FecParameter) (lo : Nat) : Prop :=
  ∀ (seq : UInt32) (buf : Mem) (ss : List (Option Bytes)), (∀ s ∈ ss, Bounded lo s) →
    ∃ e os, run (send c g) (init g seq buf) ss = .ok (e, os)

theorem bounded_concat {lo : Nat} {ss : List (Option Bytes)} (hss : ∀ s ∈ ss, Bounded lo s)
    {s : Option Bytes} (hs : Bounded lo s) : ∀ s' ∈ ss ++ [s], Bounded lo s' := by
  intro s' hs'
  rcases List.mem_append.mp hs' with hs' | hs'
  · exact hss s' hs'
  · obtain rfl := List.mem_singleton.mp hs'
    exact hs

/-- The last call of such a run returns. -/
theorem send_of_returns {lo : Nat} (hret : Returns c g lo) {seq : UInt32} {buf : Mem}
    {ss : List (Option Bytes)} (hss : ∀ s ∈ ss, Bounded lo s) {os : List Sending}
    (hrun : run (send c g) (init g seq buf) ss = .ok (e, os)) {s : Option Bytes}
    (hs : Bounded lo s) : ∃ e' o, e.send c g s = .ok (e', o) := by
  obtain ⟨t, os', hall⟩ := hret seq buf (ss ++ [s]) (bounded_concat hss hs)
  obtain ⟨m, os₁, os₂, hrun', hlast, -⟩ := run_append_eq_ok.mp hall
  obtain ⟨rfl, -⟩ := Prod.mk.inj (Except.ok.inj (hrun.symm.trans hrun'))
  obtain ⟨e', o, -, hsend, -, -⟩ := run_cons_eq_ok.mp hlast
  exact ⟨e', o, hsend⟩

theorem getTail_of_tooLong {n : Nat} {b : Bool} (h : e.tooLong n = .ok b) :
    ∃ tail, e.fecPar.getTail = some tail := by
  obtain ⟨tail, htail, -⟩ := Checked.doBind_eq_ok.mp h
  exact ⟨tail, Checked.ofOption_eq_ok.mp htail⟩

theorem bounded_none (lo : Nat) : Bounded lo none := by
  intro p hp
  exact absurd hp (by simp)

theorem bounded_zeros {lo n : Nat} (hn : lo ≤ n) (hn' : n ≤ maxDataLen) :
    Bounded lo (some (List.replicate n 0)) := by
  intro p hp
  obtain rfl := Option.some.inj hp
  rw [List.length_replicate]
  exact ⟨hn, hn'⟩

/-- One packet is enough to see the mode and the table. -/
theorem mode_of_returns {lo : Nat} (hret : Returns c g lo) (hlo : lo ≤ maxDataLen) :
    (g.mode = 0 ∨ g.mode = 1) ∧ 1 ≤ g.rsCnt := by
  obtain ⟨e', o, hsend⟩ := send_of_returns hret (by simp) (run_nil (init g 0 fun _ => 0))
    (bounded_zeros le_rfl hlo)
  generalize List.replicate lo (0 : UInt8) = p at hsend
  obtain ⟨hmode, r, out, e₁, hcall, -⟩ := call_of_send rfl hsend
  refine ⟨hmode, ?_⟩
  have hfits : ∀ {e : FecEncodeManager}, e.fecPar.mode = 0 ∨ e.fecPar.mode = 1 →
      e.room = .ok () → e.delays (some p) = .ok false →
      ∃ tail, e.fecPar.getTail = some tail := by
    intro e hmode hroom hdelays
    rcases hmode with hmode | hmode
    · unfold delays at hdelays
      rw [if_pos hmode] at hdelays
      exact getTail_of_tooLong hdelays
    · obtain ⟨tail, htail, -⟩ := room_packet hmode hroom
      exact ⟨tail, htail⟩
  have htail : ∃ tail, g.getTail = some tail := by
    cases hcall with
    | rejected _ hlong => exact getTail_of_tooLong (hlong p rfl).2
    | queued hroom hdelays _ _ _ => exact hfits hmode hroom hdelays
    | completed hroom hdelays _ _ _ => exact hfits hmode hroom hdelays
    | delayed _ hpending _ _ _ => exact absurd rfl hpending
  obtain ⟨tail, htail⟩ := htail
  exact (getTail_eq_some htail).1

/-! ### Blobs of every length -/

/-- What packets of the given lengths add to a blob. -/
def added (ls : List Nat) : Nat := (ls.map (2 + ·)).sum

/-- The packets of the given lengths. -/
def zeros (ls : List Nat) : List (Option Bytes) :=
  ls.map fun l => some (List.replicate l (0 : UInt8))

/-- Every length within reach is made by `n` packets. -/
theorem exists_lengths {lo : Nat} (hlo : lo ≤ maxDataLen) :
    ∀ {n r : Nat}, 1 ≤ n → n * (2 + lo) ≤ r → r ≤ n * (2 + maxDataLen) →
      ∃ ls : List Nat, ls.length = n ∧ (∀ l ∈ ls, lo ≤ l ∧ l ≤ maxDataLen) ∧ added ls = r := by
  intro n
  induction n with
  | zero => intro r hn; omega
  | succ n ih =>
      intro r _ hge hle
      rw [Nat.succ_mul] at hge hle
      by_cases hn : n = 0
      · subst hn
        refine ⟨[r - 2], rfl, ?_, ?_⟩
        · intro l hl
          obtain rfl := List.mem_singleton.mp hl
          omega
        · unfold added
          simp only [List.map_cons, List.map_nil, List.sum_cons, List.sum_nil]
          omega
      · -- the first packet takes what the others cannot
        obtain ⟨a, ha, ha', hge', hle', hr⟩ : ∃ a, lo ≤ a ∧ a ≤ maxDataLen ∧
            n * (2 + lo) ≤ r - (2 + a) ∧ r - (2 + a) ≤ n * (2 + maxDataLen) ∧ 2 + a ≤ r := by
          have hmul : n * (2 + lo) ≤ n * (2 + maxDataLen) := Nat.mul_le_mul_left n (by omega)
          by_cases hsmall : r ≤ n * (2 + maxDataLen) + (2 + lo)
          · exact ⟨lo, by omega, by omega, by omega, by omega, by omega⟩
          · exact ⟨r - n * (2 + maxDataLen) - 2, by omega, by omega, by omega, by omega, by omega⟩
        obtain ⟨ls, hls, hrange, hsum⟩ := ih (by omega) hge' hle'
        refine ⟨a :: ls, by rw [List.length_cons, hls], ?_, ?_⟩
        · intro l hl
          rcases List.mem_cons.mp hl with rfl | hl
          · exact ⟨ha, ha'⟩
          · exact hrange l hl
        · unfold added at hsum ⊢
          rw [List.map_cons, List.sum_cons, hsum]
          omega

/-- Packets that fit fill the open group. -/
theorem fill_blob (hrows : Rows g) (hpos : 1 ≤ g.rsCnt) (hmode : g.mode = 0)
    (hqueue : g.queueLen = 200) : ∀ {ls : List Nat} {e : FecEncodeManager}, OpenBlob g e →
      e.counter + ls.length < 200 → (∀ l ∈ ls, 1 ≤ l ∧ l ≤ maxDataLen) →
      ((e.blob.currentLen + added ls : Nat) : Int) ≤ g.rsCnt * g.mtu →
      ∃ e' os, run (send c g) e (zeros ls) = .ok (e', os) ∧ OpenBlob g e' ∧
        e'.counter = e.counter + ls.length ∧
        e'.blob.currentLen = e.blob.currentLen + added ls := by
  intro ls
  induction ls with
  | nil =>
      intro e h _ _ _
      exact ⟨e, [], rfl, h, rfl, rfl⟩
  | cons l ls ih =>
      intro e h hcnt hrange hfit
      obtain ⟨hl, hl'⟩ := hrange l (by simp)
      have hadded : added (l :: ls) = 2 + l + added ls := by simp [added]
      rw [hadded] at hfit ⊢
      rw [List.length_cons] at hcnt ⊢
      obtain ⟨e₁, o, hsend, h₁, hcnt₁, hlen₁⟩ := h.queue (c := c) (p := List.replicate l 0) hrows
        hpos hmode hqueue (by omega) (by rw [List.length_replicate]; exact hl)
        (by rw [List.length_replicate]; exact hl') (by rw [List.length_replicate]; omega)
      rw [List.length_replicate] at hlen₁
      obtain ⟨e', os, hrun, h', hcnt', hlen'⟩ := ih h₁ (by omega)
        (fun l hl => hrange l (List.mem_cons_of_mem _ hl)) (by rw [hlen₁]; omega)
      refine ⟨e', o :: os, run_cons_eq_ok.mpr ⟨e₁, o, os, hsend, hrun, rfl⟩, h', ?_, ?_⟩
      · omega
      · omega

theorem bounded_of_mem_zeros {lo : Nat} {ls : List Nat}
    (hrange : ∀ l ∈ ls, lo ≤ l ∧ l ≤ maxDataLen) : ∀ s ∈ zeros ls, Bounded lo s := by
  intro s hs
  obtain ⟨l, hl, rfl⟩ := List.mem_map.mp hs
  exact bounded_zeros (hrange l hl).1 (hrange l hl).2

/-- The lengths of the blobs that `n` packets of at least `lo` octets can make: within
the mtu of the last row, or one packet that did not fit the group before it. -/
def Group (g : FecParameter) (lo n len : Nat) : Prop :=
  ((6 + lo : Nat) : Int) ≤ g.rsCnt * g.mtu ∧ 4 + n * (2 + lo) ≤ len ∧
    len ≤ 4 + n * (2 + maxDataLen) ∧ ((len : Int) ≤ g.rsCnt * g.mtu ∨ n = 1)

/-- Some call closes a blob of this length, and sends it. -/
def Closes (c : Code) (g : FecParameter) (lo len : Nat) : Prop :=
  ∃ ss s e os e' o e₁ e₂ b, (∀ s' ∈ ss ++ [s], Bounded lo s') ∧
    run (send c g) (init g 0 fun _ => 0) ss = .ok (e, os) ∧ e.send c g s = .ok (e', o) ∧
      Open g e₁ ∧ e₁.blob.currentLen = len ∧ e₁.closeGroup c b = .ok e₂ ∧ o.out = e₂.outputBuf

section Closes

variable {lo : Nat}

/-- The timer closes an open group. -/
theorem flush_of_returns (hret : Returns c g lo) {seq : UInt32} {buf : Mem}
    {ss : List (Option Bytes)} (hss : ∀ s ∈ ss, Bounded lo s) {os : List Sending}
    (hrun : run (send c g) (init g seq buf) ss = .ok (e, os)) (hopen : Open g e)
    (hpending : e.counter ≠ 0) :
    ∃ e' o e₁, e.send c g none = .ok (e', o) ∧ e.closeGroup c false = .ok e₁ ∧
      e₁.output = (e', o.out) := by
  obtain ⟨e', o, hsend⟩ := send_of_returns hret hss hrun (bounded_none lo)
  obtain ⟨-, r, out, e₁, hcall, hout, rfl⟩ := call_of_send (by rw [hopen.par]) hsend
  cases hcall with
  | rejected hempty _ => exact absurd hempty hpending
  | flushed _ _ hclose => exact ⟨e', _, e₁, hsend, hclose, hout⟩

theorem output_of_closed {e₁ e' : FecEncodeManager} {b : Bool} {out : List Bytes}
    (hpar : e.fecPar = g) (hmode : g.mode = 0) (hclose : e.closeGroup c b = .ok e₁)
    (hout : e₁.output = (e', out)) : out = e₁.outputBuf := by
  obtain ⟨tail, x, -, -, -, -, -, rfl⟩ := closeGroup_blob (by rw [hpar]; exact hmode) hclose
  exact (congrArg Prod.snd hout).symm

/-- So every blob of the open group is closed by some call. -/
theorem closes_of_pending (hret : Returns c g lo) (hmode : g.mode = 0)
    {ss : List (Option Bytes)} (hss : ∀ s ∈ ss, Bounded lo s) {os : List Sending}
    (hrun : run (send c g) (init g 0 fun _ => 0) ss = .ok (e, os)) (hopen : Open g e)
    (hpending : e.counter ≠ 0) : Closes c g lo e.blob.currentLen := by
  obtain ⟨e', o, e₁, hsend, hclose, hout⟩ := flush_of_returns hret hss hrun hopen hpending
  exact ⟨ss, none, e, os, e', o, e, e₁, false, bounded_concat hss (bounded_none lo), hrun,
    hsend, hopen, rfl, hclose, output_of_closed hopen.par hmode hclose hout⟩

/-- Packets of the given lengths, after which the group is still open. -/
theorem exists_filled (hrows : Rows g) (hpos : 1 ≤ g.rsCnt) (hmode : g.mode = 0)
    (hqueue : g.queueLen = 200) (hlo : 1 ≤ lo) {ls : List Nat} (hfew : ls.length < 200)
    (hrange : ∀ l ∈ ls, lo ≤ l ∧ l ≤ maxDataLen)
    (hfit : ((4 + added ls : Nat) : Int) ≤ g.rsCnt * g.mtu) :
    ∃ e os, run (send c g) (init g 0 fun _ => 0) (zeros ls) = .ok (e, os) ∧ OpenBlob g e ∧
      e.counter = ls.length ∧ e.blob.currentLen = 4 + added ls := by
  obtain ⟨e, os, hrun, hopen, hcnt, hcur⟩ := fill_blob (c := c) hrows hpos hmode hqueue
    (openBlob_init g 0 fun _ => 0) (by show 0 + _ < _; omega)
    (fun l hl => ⟨hlo.trans (hrange l hl).1, (hrange l hl).2⟩) hfit
  exact ⟨e, os, hrun, hopen, hcnt.trans (Nat.zero_add _), hcur⟩

/-- Some run leaves an open group of this length. -/
def Leaves (c : Code) (g : FecParameter) (lo len : Nat) : Prop :=
  ∃ ss e os, (∀ s ∈ ss, Bounded lo s) ∧ run (send c g) (init g 0 fun _ => 0) ss = .ok (e, os) ∧
    Open g e ∧ e.counter ≠ 0 ∧ e.blob.currentLen = len

/-- Fewer than 200 packets make the blob. -/
theorem leaves_of_few (hrows : Rows g) (hpos : 1 ≤ g.rsCnt) (hmode : g.mode = 0)
    (hqueue : g.queueLen = 200) (hlo : 1 ≤ lo) (hlo' : lo ≤ maxDataLen)
    {n len : Nat} (hn : 1 ≤ n) (hn' : n < 200) (hgroup : Group g lo n len)
    (hle : (len : Int) ≤ g.rsCnt * g.mtu) : Leaves c g lo len := by
  obtain ⟨-, hge, hmax, -⟩ := hgroup
  obtain ⟨ls, hcount, hrange, hadded⟩ := exists_lengths hlo' hn (r := len - 4) (by omega) (by omega)
  have hfour : 4 ≤ len := by omega
  obtain ⟨e, os, hrun, hopen, hcnt, hcur⟩ := exists_filled (c := c) hrows hpos hmode hqueue hlo
    (by omega) hrange (by omega)
  exact ⟨_, e, os, bounded_of_mem_zeros hrange, hrun, hopen.toOpen, by omega, by omega⟩

/-- The 200th packet closes a blob itself. -/
theorem closes_of_many (hret : Returns c g lo) (hrows : Rows g) (hpos : 1 ≤ g.rsCnt)
    (hmode : g.mode = 0) (hqueue : g.queueLen = 200) (hlo : 1 ≤ lo) (hlo' : lo ≤ maxDataLen)
    {len : Nat} (hgroup : Group g lo 200 len) (hle : (len : Int) ≤ g.rsCnt * g.mtu) :
    Closes c g lo len := by
  obtain ⟨-, hge, hmax, -⟩ := hgroup
  obtain ⟨ls, hcount, hrange, hadded⟩ := exists_lengths hlo' (show 1 ≤ 200 by omega) (r := len - 4)
    (by omega) (by omega)
  obtain ⟨l, ls, rfl⟩ := List.exists_cons_of_length_pos (show 0 < ls.length by omega)
  rw [List.length_cons] at hcount
  have hl := hrange l (by simp)
  have hadded' : added (l :: ls) = 2 + l + added ls := by simp [added]
  have hrange' : ∀ l' ∈ ls, lo ≤ l' ∧ l' ≤ maxDataLen :=
    fun l' hl' => hrange l' (List.mem_cons_of_mem _ hl')
  obtain ⟨e, os, hrun, hopen, hcnt, hcur⟩ := exists_filled (c := c) hrows hpos hmode hqueue hlo
    (by omega) hrange' (by omega)
  have hlast := bounded_zeros hl.1 hl.2
  have hlen : (List.replicate l (0 : UInt8)).length = l := List.length_replicate
  obtain ⟨e', o, hsend⟩ := send_of_returns hret (bounded_of_mem_zeros hrange') hrun hlast
  generalize List.replicate l (0 : UInt8) = p at hlast hlen hsend
  obtain ⟨e₁, happend, hopen₁, hcnt₁, -, hcur₁, -, -⟩ := hopen.append hmode (p := p) (by omega)
    (by omega) (by omega)
  obtain ⟨-, r, out, e₂, hcall, hout, rfl⟩ := call_of_send (by rw [hopen.par]) hsend
  cases hcall with
  | rejected hempty _ => omega
  | queued _ _ happend' hfull _ =>
      obtain rfl := Except.ok.inj (happend.symm.trans happend')
      unfold full at hfull
      rw [hopen₁.par, if_pos hmode, hqueue, decide_eq_true (by omega)] at hfull
      exact absurd hfull (by simp)
  | completed _ _ happend' _ hclose =>
      obtain rfl := Except.ok.inj (happend.symm.trans happend')
      exact ⟨_, _, e, os, e', _, e₁, e₂, true,
        bounded_concat (bounded_of_mem_zeros hrange') hlast, hrun, hsend, hopen₁, by omega, hclose,
        output_of_closed hopen₁.par hmode hclose hout⟩
  | delayed _ _ hlong _ _ =>
      unfold delays at hlong
      rw [if_pos (by rw [hopen.par]; exact hmode)] at hlong
      have htoo := tooLong_eq hrows hpos hopen.par p.length
      rw [decide_eq_false (by omega)] at htoo
      exact absurd (htoo.symm.trans hlong) (by simp)

/-- A packet that did not fit the group before it is a blob of its own. -/
theorem leaves_of_single (hret : Returns c g lo) (hrows : Rows g) (hpos : 1 ≤ g.rsCnt)
    (hmode : g.mode = 0) (hqueue : g.queueLen = 200) (hlo : 1 ≤ lo) (hlo' : lo ≤ maxDataLen)
    {len : Nat} (hgroup : Group g lo 1 len) (hgt : (g.rsCnt : Int) * g.mtu < len) :
    Leaves c g lo len := by
  obtain ⟨hfirst, hge, hmax, -⟩ := hgroup
  have hrange : ∀ l ∈ [lo], lo ≤ l ∧ l ≤ maxDataLen := by
    intro l hl
    obtain rfl := List.mem_singleton.mp hl
    exact ⟨le_rfl, hlo'⟩
  have hadded : added [lo] = 2 + lo := by simp [added]
  obtain ⟨e, os, hrun, hopen, hcnt, hcur⟩ := exists_filled (c := c) hrows hpos hmode hqueue hlo
    (show [lo].length < 200 by simp) hrange (by omega)
  rw [List.length_singleton] at hcnt
  have hlast : Bounded lo (some (List.replicate (len - 6) (0 : UInt8))) :=
    bounded_zeros (by omega) (by omega)
  have hlen : (List.replicate (len - 6) (0 : UInt8)).length = len - 6 := List.length_replicate
  obtain ⟨e', o, hsend⟩ := send_of_returns hret (bounded_of_mem_zeros hrange) hrun hlast
  have hrun' := run_concat hrun hsend
  have hss := bounded_concat (bounded_of_mem_zeros hrange) hlast
  generalize List.replicate (len - 6) (0 : UInt8) = p at hlast hlen hsend hrun' hss
  have htoo : e.delays (some p) = .ok true := by
    unfold delays
    rw [if_pos (by rw [hopen.par]; exact hmode)]
    exact (tooLong_eq hrows hpos hopen.par p.length).trans (by rw [decide_eq_true (by omega)])
  obtain ⟨-, r, out, e₂, hcall, hout, rfl⟩ := call_of_send (by rw [hopen.par]) hsend
  cases hcall with
  | rejected hempty _ => omega
  | queued _ hdelays _ _ _ => exact absurd (htoo.symm.trans hdelays) (by simp)
  | completed _ hdelays _ _ _ => exact absurd (htoo.symm.trans hdelays) (by simp)
  | @delayed _ e₁ _ _ _ _ hclose happend =>
      have hmode' : e.fecPar.mode = 0 := by rw [hopen.par]; exact hmode
      obtain ⟨hpar₁, hcnt₁, hbcnt₁, hcur₁⟩ := closed_blob hmode' hclose
      obtain ⟨e₃, happend', hpar₃, -, hcnt₃, -, hcur₃⟩ := append_ok_blob (e := e₁) (p := p)
        (by rw [hpar₁]; exact hmode') (by omega) (by omega) (by omega)
      obtain rfl := Except.ok.inj (happend.symm.trans happend')
      have he' : e' = { e₂ with readyForOutput := false } :=
        (congrArg Prod.fst hout).symm.trans (output_fst e₂)
      have hopen' : Open g e' := by
        rw [he']
        exact ⟨hpar₃.trans (hpar₁.trans hopen.par), rfl⟩
      have hcnt₄ : e'.counter = e₂.counter := by rw [he']
      have hcur₄ : e'.blob.currentLen = e₂.blob.currentLen := by rw [he']
      exact ⟨_, e', _, hss, hrun', hopen', by omega, by omega⟩

/-- Every blob of fewer than 200 packets is left open by some run. -/
theorem leaves_of_returns (hret : Returns c g lo) (hrows : Rows g) (hpos : 1 ≤ g.rsCnt)
    (hmode : g.mode = 0) (hqueue : g.queueLen = 200) (hlo : 1 ≤ lo) (hlo' : lo ≤ maxDataLen)
    {n len : Nat} (hn : 1 ≤ n) (hn' : n < 200) (hgroup : Group g lo n len) : Leaves c g lo len := by
  by_cases hle : (len : Int) ≤ g.rsCnt * g.mtu
  · exact leaves_of_few hrows hpos hmode hqueue hlo hlo' hn hn' hgroup hle
  · have hsingle : n = 1 := hgroup.2.2.2.resolve_left hle
    subst hsingle
    exact leaves_of_single hret hrows hpos hmode hqueue hlo hlo' hgroup (by omega)

/-- Every blob that packets can make is closed by some call. -/
theorem closes_of_returns (hret : Returns c g lo) (hrows : Rows g) (hpos : 1 ≤ g.rsCnt)
    (hmode : g.mode = 0) (hqueue : g.queueLen = 200) (hlo : 1 ≤ lo) (hlo' : lo ≤ maxDataLen)
    {n len : Nat} (hn : 1 ≤ n) (hn' : n ≤ 200) (hgroup : Group g lo n len) : Closes c g lo len := by
  rcases Nat.lt_or_eq_of_le hn' with hfew | rfl
  · obtain ⟨ss, e, os, hss, hrun, hopen, hpending, rfl⟩ :=
      leaves_of_returns hret hrows hpos hmode hqueue hlo hlo' hn hfew hgroup
    exact closes_of_pending hret hmode hss hrun hopen hpending
  · have hle := hgroup.2.2.2.resolve_right (by decide)
    exact closes_of_many hret hrows hpos hmode hqueue hlo hlo' hgroup hle

/-- The blobs that packets of any length can make. -/
theorem exists_group {len : Nat} (h : BlobLen g len) : ∃ n, 1 ≤ n ∧ n ≤ 200 ∧ Group g 1 n len := by
  obtain ⟨hseven, hlen, hle | hsmall⟩ := h
  · refine ⟨(len - 4 + 3601) / 3602, ?_⟩
    unfold Group maxDataLen at *
    omega
  · exact ⟨1, le_rfl, by omega, by omega, by omega, by omega, .inr rfl⟩

end Closes

/-! ### Groups of every size -/

/-- In mode 1 a group of every size up to the last row is closed by some run. -/
theorem fit_of_safe_packets (hsafe : Safe c g) (hrows : Rows g) (hmode : g.mode = 1) {i : Nat}
    (hi : i < g.rsCnt) : HasCode (i + 1) (i + 1 + (g.rsPar i).y) := by
  have hss : ∀ k, ∀ s ∈ List.replicate k (some [(0 : UInt8)]), Bounded 1 s := by
    intro k s hs
    obtain rfl := List.eq_of_mem_replicate hs
    exact bounded_zeros (Nat.le_refl 1) (by decide)
  have hbodies : ∀ {e : FecEncodeManager} {k : Nat}, AdmissibleGroups.Filling g e k →
      ∀ b ∈ e.bodies, b.length ≤ 2 + maxDataLen := by
    intro e k he b hb
    rw [he.bodies b hb]
    decide
  by_cases hlast : i + 1 < g.rsCnt
  · -- the timer closes the group
    obtain ⟨e, os, hrun, he⟩ :=
      AdmissibleGroups.filling_run (c := c) hmode hrows.row hrows.rows_le 0 (fun _ => 0) hlast
    have hcnt := he.counter
    obtain ⟨-, -, e', -, hclose, -⟩ :=
      flush_of_returns hsafe (hss _) hrun ⟨he.par, he.ready⟩ (by omega)
    have hcode := (closeGroup_packets_iff he.par hmode he.ready (by omega) (by omega)
      (hbodies he) false).mp ⟨e', hclose⟩
    rw [hcnt, Nat.add_sub_cancel] at hcode
    exact hcode
  · -- the last packet completes the group
    obtain ⟨e, os, hrun, he⟩ :=
      AdmissibleGroups.filling_run (c := c) hmode hrows.row hrows.rows_le 0 (fun _ => 0) hi
    have hcnt := he.counter
    obtain ⟨-, hdelays, e₁, happend, he₁, hfull⟩ := he.append hmode hrows.row hrows.rows_le hi
    have hcnt₁ := he₁.counter
    obtain ⟨e', o, hsend⟩ := send_of_returns hsafe (hss _) hrun
      (bounded_zeros (Nat.le_refl 1) (by decide) : Bounded 1 (some [0]))
    obtain ⟨-, r, out, e₂, hcall, -⟩ := call_of_send (by rw [he.par]) hsend
    cases hcall with
    | rejected _ hlong =>
        have := (hlong [0] rfl).1
        rw [he.par, hmode] at this
        exact absurd this (by decide)
    | queued _ _ happend' hopen _ =>
        obtain rfl := Except.ok.inj (happend.symm.trans happend')
        rw [hfull, decide_eq_true (by omega)] at hopen
        exact absurd hopen (by simp)
    | completed _ _ happend' _ hclose =>
        obtain rfl := Except.ok.inj (happend.symm.trans happend')
        have hcode := (closeGroup_packets_iff he₁.par hmode he₁.ready (by omega) (by omega)
          (hbodies he₁) true).mp ⟨_, hclose⟩
        rw [hcnt₁, Nat.add_sub_cancel] at hcode
        exact hcode
    | delayed _ _ hlong _ _ => exact absurd (hdelays.symm.trans hlong) (by simp)

theorem sound_of_safe (hrows : Rows g) (hqueue : g.queueLen = 200) (hsafe : Safe c g) :
    Sound g := by
  obtain ⟨hmode, hpos⟩ := mode_of_returns hsafe (by decide)
  refine ⟨hpos, ?_⟩
  rcases hmode with hmode | hmode
  · left
    refine ⟨hmode, fun len x hblob hcheap => ?_⟩
    obtain ⟨n, hn, hn', hgroup⟩ := exists_group hblob
    obtain ⟨ss, s, e, os, e', o, e₁, e₂, b, -, -, -, hopen, rfl, hclose, -⟩ :=
      closes_of_returns hsafe hrows hpos hmode hqueue le_rfl (by decide) hn hn' hgroup
    have hgrow := (growing_blobLen g).mtu n e₁.blob.currentLen ⟨hblob, hgroup.2.2.1⟩
    have hle : e₁.blob.currentLen ≤ 4 + 200 * (2 + maxDataLen) :=
      hgroup.2.2.1.trans (Nat.add_le_add_left (Nat.mul_le_mul_right _ hn') 4)
    exact (closed_cheapest hrows hpos hgrow hopen.par hmode hle hcheap hclose).1
  · right
    exact ⟨hmode, fun i hi => fit_of_safe_packets hsafe hrows hmode hi⟩

end Necessary

/-- No run of the encoder aborts or writes past an array if and only if the
parameters are sound. -/
theorem safe_iff {c : Code} {g : FecParameter} (hrows : Rows g) (hqueue : g.queueLen = 200) :
    Safe c g ↔ Sound g :=
  ⟨sound_of_safe hrows hqueue, safe_of_sound hrows hqueue⟩

/-! ## Accepted configurations -/

section Accepted

variable {c : Code} {g : FecParameter}

/-- The shards of a blob within the mtu of the last row are within the mtu. -/
theorem Usable.shard_le {len x : Nat} (h : Usable g len x) (hpos : 1 ≤ g.rsCnt)
    (hle : (len : Int) ≤ g.rsCnt * g.mtu) : (roundUpDiv len x : Int) ≤ g.mtu := by
  rcases h with rfl | ⟨-, -, hfit⟩
  · by_contra hnot
    have hgt := (roundUpDiv_gt_iff hpos).mp (not_le.mp hnot)
    omega
  · have hmono := roundUpDiv_mono x (by omega : len ≤ len + 2)
    omega

/-- With rows in range and an mtu that leaves room for the header, the
parameters of mode 0 are sound. -/
theorem sound_of_mtu_le (hpos : 1 ≤ g.rsCnt) (hmode : g.mode = 0)
    (hcode : ∀ i < g.rsCnt, HasCode (i + 1) (i + 1 + (g.rsPar i).y))
    (hmtu : g.mtu + 8 ≤ bufLen) : Sound g := by
  refine ⟨hpos, .inl ⟨hmode, fun len x hblob hcheap => ?_⟩⟩
  have hx : 1 ≤ x ∧ x ≤ g.rsCnt := by
    have := hcheap.1
    unfold Usable at this
    omega
  refine ⟨?_, ?_⟩
  · have hrow := hcode (x - 1) (by omega)
    rwa [Nat.sub_add_cancel hx.1] at hrow
  · have hshort : roundUpDiv len x ≤ 6 + maxDataLen ∨ (roundUpDiv len x : Int) ≤ g.mtu := by
      rcases hblob.2.2 with ⟨hle, -⟩ | hsmall
      · exact .inr (hcheap.1.shard_le hpos hle)
      · left
        exact ((roundUpDiv_le_iff hx.1).mpr (Nat.le_mul_of_pos_left _ hx.1)).trans hsmall
    unfold bufLen maxDataLen at *
    omega

/-- Every ratio string that is accepted gives a table in order. -/
theorem rows_of_rsFromStr {par par' : FecParameter} {s : List Char}
    (hstr : par.rsFromStr s = some par') {mtu : Int} (hmtu : mtu < 2 ^ 31) :
    Rows { par' with mtu := mtu } := by
  obtain ⟨p, rest, hps, -, -⟩ := rsFromStr_eq_some hstr
  have hsum := rsFromStr_sum_le hstr hps (fun q hq => by
    have := parsePairs_le hps q hq
    omega : ∀ q ∈ p :: rest, q.x + q.y ≤ 510)
  have hrow := rsFromStr_x hstr
  have hcnt := rsFromStr_rsCnt_le hstr
  exact ⟨hrow, hsum, hcnt, hmtu⟩

/-- The parameters of an accepted configuration. -/
theorem rows_of_applyFec {cfg : Config.FecrawConfig} (hranged : Config.Ranged cfg)
    (happly : Config.applyFec cfg = some g) : Rows g ∧ g.queueLen = 200 := by
  obtain ⟨s, par, hstr, rfl⟩ := Config.applyFec_spec happly
  obtain ⟨hrow, hsum, hcnt, hmtu⟩ := rows_of_rsFromStr hstr hranged
  exact ⟨⟨hrow, hsum, hcnt, hmtu⟩, (rsFromStr_other hstr).2.2.1⟩

/-- An accepted configuration is safe for the encoder if and only if its
parameters are sound. -/
theorem accepted_safe_iff {opts : List Config.CliOption} {cfg : Config.FecrawConfig}
    (hparse : Config.parseCli {} opts = some cfg) (happly : Config.applyFec cfg = some g) :
    Safe c g ↔ Sound g := by
  have hranged : Config.Ranged cfg :=
    Config.ranged_parseCli (by unfold Config.Ranged; decide) hparse
  obtain ⟨hrows, hqueue⟩ := rows_of_applyFec hranged happly
  exact safe_iff hrows hqueue

/-- The parameters of the default ratio. -/
theorem applyFec_default {cfg : Config.FecrawConfig} (hstr : cfg.fecStr = "20:10".toList) :
    Config.applyFec cfg = some { ({} : FecParameter) with
      rsPar := fillFirst ({} : FecParameter).rsPar ⟨20, 10⟩
      rsCnt := 20
      timeout := (cfg.fecTimeout * 1000).bmod (2 ^ 32)
      mtu := cfg.fecMtu
      mode := cfg.fecMode } := by
  have hpair := @rsFromStr_printPair {} 20 10 (by decide) (by decide) (by decide)
  have hcopy : Config.strncpy 63 "20:10".toList = Scan.printPair 20 10 := by decide
  unfold Config.applyFec
  rw [hstr, hcopy, hpair]
  rfl

/-- The default configuration of a client is safe. -/
theorem accepted_safe_default : ∃ cfg g, Config.parseCli {} [.client] = some cfg ∧
    Config.applyFec cfg = some g ∧ Safe Code.repetition g := by
  have hparse : Config.parseCli {} [.client] = some { isServer := 0 } := by decide
  have happly := @applyFec_default { isServer := 0 } rfl
  refine ⟨_, _, hparse, happly, (accepted_safe_iff hparse happly).mpr ?_⟩
  refine sound_of_mtu_le (by decide) rfl (fun i hi => ?_) (by decide)
  have hi' : i < 20 := hi
  show HasCode (i + 1) (i + 1 + (fillFirst _ _ i).y)
  rw [fillFirst_apply, if_pos hi']
  exact hasCode_of_le (Nat.le_add_right _ _) (by unfold maxFecPacketNum; dsimp only; omega)

/-- A configuration file with `mode = 2` in the section `[fec]` is accepted, and
the first packet aborts the encoder. -/
theorem mode_two_aborts : ∃ cfg g,
    Config.parseCli {} [.config (some "[general]\nmode = client\n[fec]\nmode = 2\n".toList)]
      = some cfg ∧
    Config.applyFec cfg = some g ∧
    ¬ Checked.NoAssert (run (send Code.repetition g) (init g 0 fun _ => 0) [some [69]]) := by
  have hparse : Config.parseCli {}
      [.config (some "[general]\nmode = client\n[fec]\nmode = 2\n".toList)]
      = some { isServer := 0, fecMode := 2 } := by decide +kernel
  have happly := @applyFec_default { isServer := 0, fecMode := 2 } rfl
  refine ⟨_, _, hparse, happly, ?_⟩
  decide

end Accepted

end Fecraw.Ports.EncoderSafety
