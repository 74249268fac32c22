import Fecraw.Ports.EncodeRun

/-!
# The mtu in mode 0

In mode 0 the encoder rejects a packet that would make shards longer than the mtu
of an empty group, and closes a group before a packet that would make them longer
than the mtu.  A packet that meets a group is not checked against the empty group
that it then starts: it is taken however long it is.

## Main results

* `Short.send`: what one call does, if no such packet meets a group.
* `lawful_iff`: a run obeys the mtu exactly if that never happens.
-/

namespace Fecraw.Ports.MtuLaw

open Fecraw.Verified Fecraw.Ports.Packet Fecraw.Ports.RsTable Fecraw.Ports.BlobCodec
open Fecraw.Ports.FecEncode FecEncodeManager

/-- A packet of `n` octets is too long for an empty group. -/
def TooLong (g : FecParameter) (n : Nat) : Prop :=
  (roundUpDiv (4 + 2 + n) (g.rsPar (g.rsCnt - 1)).x : Int) > g.mtu

/-- A call obeys the mtu: the shards it sends are not longer, and it rejects the
packets that are too long, and no others. -/
structure Lawful (g : FecParameter) (o : Sending) : Prop where
  short : ∀ q ∈ o.out, (q.length : Int) - 8 ≤ g.mtu
  rejects : ∀ p, o.arg = some p → (o.ret = -1 ↔ TooLong g p.length)

/-- A packet that is too long for an empty group comes while there is no other one. -/
def Timely (g : FecParameter) (e : FecEncodeManager) (s : Option Bytes) : Prop :=
  ∀ p, s = some p → TooLong g p.length → e.counter = 0

/-- Between two calls: the open group is within the mtu. -/
structure Short (g : FecParameter) (e : FecEncodeManager) : Prop where
  par : e.fecPar = g
  ready : e.readyForOutput = false
  four_le : 4 ≤ e.blob.currentLen
  empty : e.counter = 0 → e.blob.currentLen = 4
  within : e.counter ≠ 0 →
    (roundUpDiv e.blob.currentLen (g.rsPar (g.rsCnt - 1)).x : Int) ≤ g.mtu

section run

variable {c : Code} {g : FecParameter} {e e' : FecEncodeManager} {p : Bytes}

/-- The check of the length, on the open group. -/
theorem tooLong_eq_ok {b : Bool} {n : Nat} (h : e.tooLong n = .ok b) :
    b = true ↔ (roundUpDiv (e.blob.currentLen + 2 + n)
      (e.fecPar.rsPar (e.fecPar.rsCnt - 1)).x : Int) > e.fecPar.mtu := by
  obtain ⟨tail, htail, h⟩ := Checked.doBind_eq_ok.mp h
  obtain ⟨-, rfl⟩ := getTail_eq_some (Checked.ofOption_eq_ok.mp htail)
  rw [← Except.ok.inj h]
  exact decide_eq_true_iff

/-- The packets of a closed group are within the mtu, if its blob is. -/
theorem length_closed {hasPacket : Bool} (hpar : e.fecPar = g) (hmode : g.mode = 0)
    (hclose : e.closeGroup c hasPacket = .ok e')
    (hwithin : (roundUpDiv e.blob.currentLen (g.rsPar (g.rsCnt - 1)).x : Int) ≤ g.mtu) :
    (∀ q ∈ e'.outputBuf, (q.length : Int) - 8 ≤ g.mtu) ∧ e'.fecPar = g ∧
      e'.readyForOutput = true ∧ e'.counter = 0 ∧ e'.blob.currentLen = 4 := by
  subst hpar
  obtain ⟨tail, x, htail, hx, -, -, -, rfl⟩ := closeGroup_blob hmode hclose
  obtain ⟨-, -, hchoice⟩ := chooseDataNum_eq_ok hx
  refine ⟨fun q hq => ?_, rfl, rfl, rfl, rfl⟩
  obtain ⟨i, -, rfl⟩ := List.mem_map.mp hq
  rw [length_blobPacket]
  unfold BlobEncode.getShardLen
  rcases hchoice with rfl | hfit
  · rw [← (getTail_eq_some htail).2] at hwithin
    omega
  · -- an earlier row was found to be short enough, with two more octets
    have hle : roundUpDiv e.blob.currentLen x ≤ e.blob.getShardLenNext x 0 :=
      roundUpDiv_mono x (by omega)
    omega

/-- A packet is appended to the blob. -/
theorem append_currentLen (hpar : e.fecPar = g) (hmode : g.mode = 0)
    (happend : e.append p = .ok e') :
    e'.fecPar = g ∧ e'.readyForOutput = e.readyForOutput ∧ e'.outputBuf = e.outputBuf ∧
      e'.counter = e.counter + 1 ∧ e'.blob.currentLen = e.blob.currentLen + 2 + p.length := by
  obtain ⟨blob, hblob, rfl⟩ := append_blob (by rw [hpar]; exact hmode) happend
  obtain ⟨-, -, -, rfl⟩ := BlobEncode.input_eq_ok hblob
  exact ⟨hpar, rfl, rfl, rfl, rfl⟩

/-- A packet that does not close the group keeps it within the mtu, and fits an empty
group all the more. -/
theorem Short.fits (h : Short g e) (hmode : g.mode = 0) (hfits : e.delays (some p) = .ok false) :
    (roundUpDiv (e.blob.currentLen + 2 + p.length) (g.rsPar (g.rsCnt - 1)).x : Int) ≤ g.mtu ∧
      ¬ TooLong g p.length := by
  have hfour := h.four_le
  obtain rfl := h.par
  unfold delays at hfits
  rw [if_pos hmode] at hfits
  have hle := mt (tooLong_eq_ok hfits).mpr Bool.false_ne_true
  have hmono : roundUpDiv (4 + 2 + p.length) (e.fecPar.rsPar (e.fecPar.rsCnt - 1)).x ≤
      roundUpDiv (e.blob.currentLen + 2 + p.length) (e.fecPar.rsPar (e.fecPar.rsCnt - 1)).x :=
    roundUpDiv_mono _ (by omega)
  unfold TooLong
  simp only [Option.getD_some] at hle
  exact ⟨by omega, by omega⟩

/-- What was seen of a call that returns 0. -/
theorem lawful_taken_iff {out : List Bytes} {closed : Bool} {n : Nat}
    (hshort : ∀ q ∈ out, (q.length : Int) - 8 ≤ g.mtu) :
    Lawful g ⟨some p, 0, out, closed, n⟩ ↔ ¬ TooLong g p.length := by
  constructor
  · intro h hlong
    exact absurd ((h.rejects p rfl).mpr hlong) (show (0 : Int) ≠ -1 by decide)
  · intro hfits
    refine ⟨hshort, fun q hq => ?_⟩
    obtain rfl := Option.some.inj hq
    exact iff_of_false (show (0 : Int) ≠ -1 by decide) hfits

/-- One call obeys the mtu exactly if it is timely, and then leaves a short group. -/
theorem Short.send (h : Short g e) (hmode : g.mode = 0) {s : Option Bytes} {o : Sending}
    (hsend : e.send c g s = .ok (e', o)) :
    (Lawful g o ↔ Timely g e s) ∧ (Timely g e s → Short g e') := by
  obtain ⟨-, ret, out, e₁, hcall, hout, rfl⟩ :=
    call_of_send (congrArg FecParameter.version h.par) hsend
  have hfour := h.four_le
  cases hcall with
  | rejected hempty hlong =>
      rw [output_of_not_ready h.ready] at hout
      obtain ⟨rfl, rfl⟩ := Prod.mk.inj hout
      have hlaw : Lawful g ⟨s, -1, [], decide (e.seq ≠ e.seq), e.counter⟩ := by
        refine ⟨by simp, fun p hp => iff_of_true rfl ?_⟩
        have hlong' := (tooLong_eq_ok (hlong p hp).2).mp rfl
        rwa [h.empty hempty, h.par] at hlong'
      exact ⟨iff_of_true hlaw fun _ _ _ => hempty, fun _ => h⟩
  | @queued p e₂ _ _ hfits happend _ hfast =>
      obtain ⟨hwithin, hfit⟩ := h.fits hmode hfits
      obtain ⟨hpar, hready, -, hcnt, hlen⟩ := append_currentLen h.par hmode happend
      obtain rfl := fastSend_blob (by rw [hpar]; exact hmode) hfast
      rw [output_of_not_ready (hready.trans h.ready)] at hout
      obtain ⟨rfl, rfl⟩ := Prod.mk.inj hout
      have htimely : Timely g e (some p) := fun q hq hlong =>
        absurd (Option.some.inj hq ▸ hlong) hfit
      refine ⟨iff_of_true ((lawful_taken_iff (by simp)).mpr hfit) htimely, fun _ => ?_⟩
      exact ⟨hpar, hready.trans h.ready, by omega, fun hzero => by omega,
        fun _ => by rw [hlen]; exact hwithin⟩
  | @completed p e₂ _ _ hfits happend _ hclose =>
      obtain ⟨hwithin, hfit⟩ := h.fits hmode hfits
      obtain ⟨hpar, -, -, -, hlen⟩ := append_currentLen h.par hmode happend
      obtain ⟨hshort, hpar', hready', hcnt', hlen'⟩ :=
        length_closed hpar hmode hclose (by rw [hlen]; exact hwithin)
      rw [output_of_ready hready'] at hout
      obtain ⟨rfl, rfl⟩ := Prod.mk.inj hout
      have htimely : Timely g e (some p) := fun q hq hlong =>
        absurd (Option.some.inj hq ▸ hlong) hfit
      refine ⟨iff_of_true ((lawful_taken_iff hshort).mpr hfit) htimely, fun _ => ?_⟩
      exact ⟨hpar', rfl, hlen'.ge, fun _ => hlen', fun hne => absurd hcnt' hne⟩
  | flushed _ hpending hclose =>
      obtain ⟨hshort, hpar', hready', hcnt', hlen'⟩ :=
        length_closed h.par hmode hclose (h.within hpending)
      rw [output_of_ready hready'] at hout
      obtain ⟨rfl, rfl⟩ := Prod.mk.inj hout
      refine ⟨iff_of_true ⟨hshort, by simp⟩ (fun p hp => by cases hp), fun _ => ?_⟩
      exact ⟨hpar', rfl, hlen'.ge, fun _ => hlen', fun hne => absurd hcnt' hne⟩
  | @delayed p e₂ _ _ hpending _ hclose happend =>
      obtain ⟨hshort, hpar', hready', hcnt', hlen'⟩ :=
        length_closed h.par hmode hclose (h.within hpending)
      obtain ⟨hpar, hready, hbuf, hcnt, hlen⟩ := append_currentLen hpar' hmode happend
      rw [output_of_ready (hready.trans hready'), hbuf] at hout
      obtain ⟨rfl, rfl⟩ := Prod.mk.inj hout
      -- the packet meets a group
      have htimely : Timely g e (some p) ↔ ¬ TooLong g p.length :=
        ⟨fun ht hlong => hpending (ht p rfl hlong),
          fun hfit q hq hlong => absurd (Option.some.inj hq ▸ hlong) hfit⟩
      rw [htimely]
      refine ⟨lawful_taken_iff hshort, fun hfit => ?_⟩
      refine ⟨hpar, rfl, ?_, fun hzero => ?_, fun _ => ?_⟩
      · show 4 ≤ e₁.blob.currentLen
        omega
      · exact absurd (hcnt.symm.trans hzero) (Nat.succ_ne_zero _)
      · show (roundUpDiv e₁.blob.currentLen _ : Int) ≤ _
        rw [hlen, hlen']
        exact not_lt.mp hfit

theorem short_init (g : FecParameter) (seq : UInt32) (buf : Mem) : Short g (init g seq buf) :=
  ⟨rfl, rfl, le_rfl, fun _ => rfl, fun hne => absurd rfl hne⟩

end run

/-- In mode 0, whatever packets and flushes a run is made of: every call obeys the mtu
exactly if no packet that is too long for an empty group comes while others wait. -/
theorem lawful_iff {c : Code} {g : FecParameter} (hmode : g.mode = 0) {seq : UInt32} {buf : Mem}
    {ss : List (Option Bytes)} {e : FecEncodeManager} {os : List Sending}
    (hrun : run (send c g) (init g seq buf) ss = .ok (e, os)) :
    (∀ o ∈ os, Lawful g o) ↔ ∀ before s after, ss = before ++ s :: after →
      ∀ e₁ os₁, run (send c g) (init g seq buf) before = .ok (e₁, os₁) → Timely g e₁ s :=
  run_outputs_iff (fun _ _ _ _ hshort hsend => hshort.send hmode hsend) (short_init g seq buf) hrun

/-- Groups of one packet and a copy, with a small mtu. -/
def narrow : FecParameter :=
  { ({ mtu := 100 } : FecParameter) with
    rsPar := fillFirst ({} : FecParameter).rsPar ⟨1, 1⟩
    rsCnt := 1 }

theorem rsFromStr_narrow : FecParameter.rsFromStr { mtu := 100 } "1:1".toList = some narrow :=
  rsFromStr_printPair { mtu := 100 } (d := 1) (p := 1) (by decide) (by decide) (by decide)

/-- A packet and a flush. -/
theorem lawful_iff_single : narrow.mode = 0 ∧ ∃ e os,
    run (send .repetition narrow) (init narrow 7 fun _ => 0) [some [1, 2, 3], none] = .ok (e, os) ∧
      ∀ o ∈ os, Lawful narrow o := by
  obtain ⟨e, os, hrun⟩ : ∃ e os, run (send .repetition narrow) (init narrow 7 fun _ => 0)
      [some [1, 2, 3], none] = .ok (e, os) := ⟨_, _, rfl⟩
  refine ⟨rfl, e, os, hrun, (lawful_iff rfl hrun).mpr ?_⟩
  intro before s after hsplit e₁ os₁ _ p hp hlong
  have hmem : s ∈ [some [1, 2, 3], (none : Option Bytes)] := by rw [hsplit]; simp
  rcases List.mem_pair.mp hmem with rfl | rfl
  · obtain rfl := Option.some.inj hp
    exact absurd hlong (by unfold TooLong; decide)
  · cases hp

/-- A packet of 120 octets that meets a group is taken, and sent in shards of 126
octets, where the mtu is 100. -/
theorem not_lawful_delayed :
    FecParameter.rsFromStr { mtu := 100 } "1:1".toList = some narrow ∧ narrow.mode = 0 ∧ ∃ e os,
      run (send .repetition narrow) (init narrow 7 fun _ => 0)
        [some [1], some (List.replicate 120 0), none] = .ok (e, os) ∧
      ¬ ∀ o ∈ os, ∀ q ∈ o.out, (q.length : Int) - 8 ≤ narrow.mtu := by
  have hany : (run (send .repetition narrow) (init narrow 7 fun _ => 0)
      [some [1], some (List.replicate 120 0), none]).toOption.any (fun r =>
        r.2.any fun o => o.out.any fun q => decide ((q.length : Int) - 8 > narrow.mtu)) = true := by
    decide +kernel
  obtain ⟨⟨e, os⟩, hrun, hlong⟩ := Checked.exists_of_any hany
  refine ⟨rsFromStr_narrow, rfl, e, os, hrun, fun hall => ?_⟩
  obtain ⟨o, ho, hout⟩ := List.any_eq_true.mp hlong
  obtain ⟨q, hq, hgt⟩ := List.any_eq_true.mp hout
  exact absurd (hall o ho q hq) (not_le.mpr (of_decide_eq_true hgt))

end Fecraw.Ports.MtuLaw
