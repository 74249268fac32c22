import Fecraw.Ports.Packet
import Fecraw.Ports.SmallPacket
import Mathlib.Data.List.GetD
import Mathlib.Data.List.Infix

/-!
# The window of small packets over whole runs

The receiver of small packets keeps a window of up to 1000 sequence numbers.
When it overflows, the smallest numbers are dropped until 500 are left,
whenever they were accepted.

A `Log` is the receiver together with the numbers that it has accepted, the
latest first.

## Main results

* `mem_remember`: which numbers a full window keeps.
* `at_most_once_iff`: recent numbers are refused exactly if every cut of the
  window leaves them in it.
* `session_accepted_iff`: a sender that starts again is heard exactly if none
  of its numbers is still in the window.
-/

namespace Fecraw.Ports.Dedup

open Fecraw.Verified Fecraw.Ports.Packet Fecraw.Ports.SmallPacket

/-! ## Runs of the receiver -/

/-- The sequence number in a frame. -/
def seqOf (data : Bytes) : UInt32 := UInt32.ofNat (readU32 (data.drop 1))

structure Log where
  receiver : Receiver := {}
  accepted : List UInt32 := []

/-- One call of `receive`, into a buffer of `buf_len` octets. -/
def Log.receive (l : Log) (data : Bytes) : Option Bytes × Log :=
  match l.receiver.receive data bufLen with
  | (some payload, r) => (some payload, ⟨r, seqOf data :: l.accepted⟩)
  | (none, r) => (none, ⟨r, l.accepted⟩)

/-- The frames of `fs`, one after the other. -/
def Log.after (l : Log) (fs : List Bytes) : Log := fs.foldl (fun l f => (l.receive f).2) l

theorem seqOf_frame (seq : UInt32) (payload : Bytes) :
    seqOf (Sender.frame seq payload) = seq :=
  ofNat_readU32_writeU32 seq payload

@[simp] theorem Log.after_nil (l : Log) : l.after [] = l := rfl

theorem Log.after_append (l : Log) (fs fs' : List Bytes) :
    l.after (fs ++ fs') = (l.after fs).after fs' := List.foldl_append

theorem Log.after_concat (l : Log) (fs : List Bytes) (f : Bytes) :
    l.after (fs ++ [f]) = ((l.after fs).receive f).2 := l.after_append fs [f]

/-- All that one call can do: a frame with a new number is accepted, anything
else is refused and changes nothing. -/
theorem Log.receive_cases (l : Log) (data : Bytes) :
    (isSmallPacket data = true ∧ seqOf data ∉ l.receiver.seen ∧
      l.receive data = (some ((data.drop smallPktHeader).take bufLen),
        ⟨l.receiver.remember (seqOf data), seqOf data :: l.accepted⟩)) ∨
    ((isSmallPacket data = true → seqOf data ∈ l.receiver.seen) ∧
      l.receive data = (none, l)) := by
  unfold Log.receive Receiver.receive
  by_cases hsmall : isSmallPacket data = true
  · rw [if_pos hsmall]
    by_cases hin : seqOf data ∈ l.receiver.seen
    · have hin' : UInt32.ofNat (readU32 (data.drop 1)) ∈ l.receiver.seen := hin
      refine Or.inr ⟨fun _ => hin, ?_⟩
      simp only [hin', if_true]
    · have hin' : UInt32.ofNat (readU32 (data.drop 1)) ∉ l.receiver.seen := hin
      refine Or.inl ⟨hsmall, hin, ?_⟩
      simp only [hin', if_false]
      rfl
  · refine Or.inr ⟨fun h => absurd h hsmall, ?_⟩
    rw [if_neg hsmall]

/-! ## The window -/

/-- Which elements of an ascending list are among its last `n`. -/
theorem mem_drop_iff_countP {L : List UInt32} (hL : L.Pairwise (· < ·)) {k : UInt32}
    (hk : k ∈ L) (n : Nat) :
    k ∈ L.drop (L.length - n) ↔ L.countP (fun j => k < j) < n := by
  obtain ⟨A, B, rfl⟩ := List.append_of_mem hk
  obtain ⟨-, hB, hAB⟩ := List.pairwise_append.mp hL
  obtain ⟨hkB, -⟩ := List.pairwise_cons.mp hB
  have hA : A.countP (fun j => k < j) = 0 := by
    rw [List.countP_eq_zero]
    intro j hj
    have := hAB j hj k (by simp)
    simpa using UInt32.lt_asymm this
  have hB : B.countP (fun j => k < j) = B.length := by
    rw [List.countP_eq_length]
    intro j hj
    simpa using hkB j hj
  have hcount : (A ++ k :: B).countP (fun j => k < j) = B.length := by
    rw [List.countP_append, List.countP_cons_of_neg (by simp), hA, hB, Nat.zero_add]
  have hlen : (A ++ k :: B).length = A.length + B.length + 1 := by
    simp
    omega
  rw [hcount, hlen]
  constructor
  · intro hmem
    by_contra hle
    have hdrop : (A ++ k :: B).drop (A.length + B.length + 1 - n)
        = B.drop (B.length - n) := by
      rw [show A.length + B.length + 1 - n = A.length + (B.length - n + 1) by omega,
        List.drop_length_add_append, List.drop_succ_cons]
    rw [hdrop] at hmem
    exact absurd (hkB k (List.mem_of_mem_drop hmem)) (UInt32.lt_irrefl k)
  · intro hlt
    rw [List.drop_append_of_le_length (by omega)]
    simp

/-- The numbers are ascending and at most 1000. -/
structure Window (r : Receiver) : Prop where
  ascending : r.seen.Pairwise (· < ·)
  length_le : r.seen.length ≤ maxSeen

theorem window_init : Window {} := ⟨List.Pairwise.nil, by decide⟩

/-- The number that is new has a place of its own. -/
theorem ascending_insert {r : Receiver} (h : Window r) {s : UInt32} (hs : s ∉ r.seen) :
    (r.seen.orderedInsert (· ≤ ·) s).Pairwise (· < ·) := by
  have hle : (r.seen.orderedInsert (· ≤ ·) s).Pairwise (· ≤ ·) :=
    List.Pairwise.orderedInsert s r.seen (h.ascending.imp UInt32.le_of_lt)
  have hnodup : (r.seen.orderedInsert (· ≤ ·) s).Nodup := by
    rw [(List.perm_orderedInsert (· ≤ ·) s r.seen).nodup_iff]
    exact List.nodup_cons.mpr ⟨hs, h.ascending.imp UInt32.ne_of_lt⟩
  exact (hle.and hnodup).imp fun h => UInt32.lt_of_le_of_ne h.1 h.2

/-- The window keeps a number if there is room, or if fewer than 500 numbers
are larger. -/
def Keeps (r : Receiver) (s k : UInt32) : Prop :=
  r.seen.length < maxSeen ∨ (s :: r.seen).countP (fun j => k < j) < evictTo

/-- What is in the window after a new number. -/
theorem mem_remember {r : Receiver} (h : Window r) {s : UInt32} (hs : s ∉ r.seen) (k : UInt32) :
    k ∈ (r.remember s).seen ↔ (k = s ∨ k ∈ r.seen) ∧ Keeps r s k := by
  have hlen : (r.seen.orderedInsert (· ≤ ·) s).length = r.seen.length + 1 :=
    List.orderedInsert_length (· ≤ ·) r.seen s
  have hperm := List.perm_orderedInsert (· ≤ ·) s r.seen
  have hmem : k ∈ r.seen.orderedInsert (· ≤ ·) s ↔ k = s ∨ k ∈ r.seen :=
    List.mem_orderedInsert _
  unfold Receiver.remember Keeps
  dsimp only
  by_cases hfull : (r.seen.orderedInsert (· ≤ ·) s).length > maxSeen
  · rw [if_pos hfull]
    dsimp only
    constructor
    · intro hk
      have hin := List.mem_of_mem_drop hk
      have hcount := (mem_drop_iff_countP (ascending_insert h hs) hin evictTo).mp hk
      rw [hperm.countP_eq] at hcount
      exact ⟨hmem.mp hin, Or.inr hcount⟩
    · rintro ⟨hk, hroom | hcount⟩
      · omega
      · have hin := hmem.mpr hk
        rw [← hperm.countP_eq] at hcount
        exact (mem_drop_iff_countP (ascending_insert h hs) hin evictTo).mpr hcount
  · rw [if_neg hfull, hmem]
    constructor
    · exact fun hk => ⟨hk, Or.inl (by omega)⟩
    · exact And.left

theorem Window.remember {r : Receiver} (h : Window r) {s : UInt32} (hs : s ∉ r.seen) :
    Window (r.remember s) := by
  have hlen : (r.seen.orderedInsert (· ≤ ·) s).length = r.seen.length + 1 :=
    List.orderedInsert_length (· ≤ ·) r.seen s
  have hasc := ascending_insert h hs
  have hle := h.length_le
  unfold Receiver.remember
  dsimp only
  split
  · have hsub := List.drop_sublist ((r.seen.orderedInsert (· ≤ ·) s).length - evictTo)
      (r.seen.orderedInsert (· ≤ ·) s)
    constructor
    · dsimp only
      exact hasc.sublist hsub
    · dsimp only
      rw [List.length_drop]
      unfold maxSeen evictTo at *
      omega
  · next hroom => exact ⟨hasc, Nat.le_of_not_lt hroom⟩

/-! ## Recent numbers -/

/-- A log whose window is in order. -/
theorem window_after {l : Log} (h : Window l.receiver) (fs : List Bytes) :
    Window (l.after fs).receiver := by
  induction fs using List.reverseRecOn with
  | nil => exact h
  | append_singleton fs f ih =>
      rw [Log.after_concat]
      rcases (l.after fs).receive_cases f with ⟨-, hnew, hrec⟩ | ⟨-, hrec⟩
      · rw [hrec]
        exact ih.remember hnew
      · rw [hrec]
        exact ih

/-- The numbers that were accepted last. -/
def Log.recent (l : Log) : List UInt32 := l.accepted.take evictTo

/-- Frames with recent numbers are refused. -/
def RefusesRecent (l : Log) : Prop :=
  ∀ data, seqOf data ∈ l.recent → (l.receive data).1 = none

/-- A new frame leaves the recent numbers and its own in the window. -/
def KeepsRecent (l : Log) (data : Bytes) : Prop :=
  isSmallPacket data = true → seqOf data ∉ l.receiver.seen →
    ∀ k ∈ (seqOf data :: l.accepted).take evictTo, Keeps l.receiver (seqOf data) k

/-- Recent numbers are refused if and only if they are in the window. -/
theorem refusesRecent_iff (l : Log) :
    RefusesRecent l ↔ ∀ k ∈ l.recent, k ∈ l.receiver.seen := by
  constructor
  · intro h k hk
    have hframe := isSmallPacket_frame k []
    have hnone := h (Sender.frame k []) (by rw [seqOf_frame]; exact hk)
    rcases l.receive_cases (Sender.frame k []) with ⟨-, -, hrec⟩ | ⟨hin, -⟩
    · rw [hrec] at hnone
      exact absurd hnone (by simp)
    · rw [seqOf_frame] at hin
      exact hin hframe
  · intro h data hdata
    rcases l.receive_cases data with ⟨-, hnew, -⟩ | ⟨-, hrec⟩
    · exact absurd (h _ hdata) hnew
    · rw [hrec]

/-- One call: the recent numbers stay in the window exactly if it keeps them. -/
theorem refusesRecent_receive_iff {l : Log} (hw : Window l.receiver) (hl : RefusesRecent l)
    (data : Bytes) : RefusesRecent (l.receive data).2 ↔ KeepsRecent l data := by
  have hseen := (refusesRecent_iff l).mp hl
  rw [refusesRecent_iff]
  unfold KeepsRecent Log.recent
  rcases l.receive_cases data with ⟨hsmall, hnew, hrec⟩ | ⟨hin, hrec⟩
  · rw [hrec]
    have hold : ∀ k ∈ (seqOf data :: l.accepted).take evictTo,
        k = seqOf data ∨ k ∈ l.receiver.seen := by
      intro k hk
      rcases List.mem_cons.mp hk with rfl | hk
      · exact Or.inl rfl
      · exact Or.inr (hseen k ((List.take_subset_take_left _ (by decide)) hk))
    constructor
    · intro h _ _ k hk
      exact ((mem_remember hw hnew k).mp (h k hk)).2
    · intro h k hk
      exact (mem_remember hw hnew k).mpr ⟨hold k hk, h hsmall hnew k hk⟩
  · rw [hrec]
    constructor
    · intro _ hsmall hnew
      exact absurd (hin hsmall) hnew
    · exact fun _ => hseen

/-- For every sequence of frames: all along it frames with one of the last 500
accepted numbers are refused, if and only if every new frame that meets a
window of 1000 numbers leaves those 500 among its largest. -/
theorem at_most_once_iff (fs : List Bytes) :
    (∀ before, before <+: fs → RefusesRecent (Log.after {} before)) ↔
      ∀ before data, before ++ [data] <+: fs → KeepsRecent (Log.after {} before) data := by
  have hwindow : ∀ before, Window (Log.after {} before).receiver := window_after window_init
  constructor
  · intro h before data hpre
    have hlong := h (before ++ [data]) hpre
    have hshort := h before ((List.prefix_append before [data]).trans hpre)
    rw [Log.after_concat] at hlong
    exact (refusesRecent_receive_iff (hwindow before) hshort data).mp hlong
  · intro h before hpre
    induction before using List.reverseRecOn with
    | nil => exact (refusesRecent_iff _).mpr (by simp [Log.recent])
    | append_singleton before data ih =>
        have hbefore := ih ((List.prefix_append before [data]).trans hpre)
        rw [Log.after_concat]
        exact (refusesRecent_receive_iff (hwindow before) hbefore data).mpr
          (h before data hpre)

theorem toNat_seq {n : Nat} (h : n < 2 ^ 32) : (UInt32.ofNat n).toNat = n := by
  rw [UInt32.toNat_ofNat', Nat.mod_eq_of_lt h]

/-- What a frame with a new number yields. -/
theorem receive_new {l : Log} {s : UInt32} {payload : Bytes} (hs : s ∉ l.receiver.seen)
    (hcap : payload.length ≤ bufLen) :
    l.receive (Sender.frame s payload)
      = (some payload, ⟨l.receiver.remember s, s :: l.accepted⟩) := by
  rcases l.receive_cases (Sender.frame s payload) with ⟨-, -, hrec⟩ | ⟨hin, -⟩
  · have hbody : ((Sender.frame s payload).drop smallPktHeader).take bufLen = payload :=
      List.take_of_length_le hcap
    rw [hrec, hbody, seqOf_frame]
  · have hin' := hin (isSmallPacket_frame s payload)
    rw [seqOf_frame] at hin'
    exact absurd hin' hs

/-- Frames with descending numbers fill the window from its end. -/
theorem after_descending : ∀ {ns : List UInt32}, ns.Pairwise (· > ·) → ns.length ≤ maxSeen →
    (Log.after {} (ns.map (Sender.frame · []))).receiver.seen = ns.reverse := by
  intro ns
  induction ns using List.reverseRecOn with
  | nil => intro _ _; rfl
  | append_singleton ns s ih =>
      intro hdesc hlen
      obtain ⟨hns, -, hs⟩ := List.pairwise_append.mp hdesc
      have hseen := ih hns (by simp at hlen; omega)
      have hlt : ∀ k ∈ ns.reverse, s < k := fun k hk => hs k (List.mem_reverse.mp hk) s (by simp)
      have hfirst : ns.reverse.orderedInsert (· ≤ ·) s = s :: ns.reverse := by
        cases hrev : ns.reverse with
        | nil => rfl
        | cons k ks =>
            exact List.orderedInsert_cons_of_le _ ks
              (UInt32.le_of_lt (hlt k (by rw [hrev]; simp)))
      rw [List.map_append, List.map_singleton, Log.after_concat]
      rcases (Log.after {} (ns.map (Sender.frame · []))).receive_cases (Sender.frame s [])
        with ⟨-, -, hrec⟩ | ⟨hin, -⟩
      · rw [hrec]
        show (Receiver.remember _ (seqOf (Sender.frame s []))).seen = _
        unfold Receiver.remember
        rw [seqOf_frame, hseen, hfirst]
        simp only [List.length_append, List.length_singleton] at hlen
        rw [if_neg (by simp; omega)]
        simp
      · have hs' := hin (isSmallPacket_frame s [])
        rw [seqOf_frame, hseen] at hs'
        exact absurd (hlt s hs') (UInt32.lt_irrefl s)

/-- 1000, 999, …, 1. -/
def thousandDown : List UInt32 := (List.range 1000).reverse.map fun i => UInt32.ofNat (i + 1)

/-- A late packet with a small number: both of its copies are delivered. -/
theorem late_copies_delivered : ∃ fs,
    ((Log.after {} fs).receive (Sender.frame 0 [7])).1 = some [7] ∧
    ((Log.after {} (fs ++ [Sender.frame 0 [7]])).receive (Sender.frame 0 [7])).1 = some [7] := by
  have hdesc : thousandDown.Pairwise (· > ·) := by
    unfold thousandDown
    rw [List.pairwise_map, List.pairwise_reverse]
    apply List.pairwise_lt_range.imp_of_mem
    intro i j hi hj hij
    have := List.mem_range.mp hi
    have := List.mem_range.mp hj
    rw [gt_iff_lt, UInt32.lt_iff_toNat_lt, toNat_seq (by omega), toNat_seq (by omega)]
    omega
  have hlen : thousandDown.length = 1000 := by simp [thousandDown]
  have hpos : ∀ k ∈ thousandDown.reverse, 0 < k := by
    intro k hk
    unfold thousandDown at hk
    rw [List.mem_reverse, List.mem_map] at hk
    obtain ⟨i, hi, rfl⟩ := hk
    have := List.mem_range.mp (List.mem_reverse.mp hi)
    rw [UInt32.lt_iff_toNat_lt, toNat_seq (by omega)]
    exact Nat.succ_pos i
  have hseen := after_descending hdesc (by rw [hlen]; decide)
  have hnew : (0 : UInt32) ∉ thousandDown.reverse :=
    fun h => absurd (hpos 0 h) (UInt32.lt_irrefl 0)
  have hnew' : (0 : UInt32) ∉
      (Log.after {} (thousandDown.map (Sender.frame · []))).receiver.seen := by
    rw [hseen]
    exact hnew
  refine ⟨thousandDown.map (Sender.frame · []), ?_, ?_⟩
  · rw [receive_new hnew' (by decide)]
  · rw [Log.after_concat, receive_new hnew' (by decide)]
    have hgone : (0 : UInt32) ∉ (Receiver.remember
        (Log.after {} (thousandDown.map (Sender.frame · []))).receiver 0).seen := by
      rw [mem_remember (window_after window_init _) hnew']
      rintro ⟨-, hroom | hfew⟩
      · rw [hseen, List.length_reverse, hlen] at hroom
        exact absurd hroom (by unfold maxSeen; omega)
      · have hall : thousandDown.reverse.countP (fun j => 0 < j) = thousandDown.reverse.length :=
          List.countP_eq_length.mpr fun j hj => by simpa using hpos j hj
        rw [hseen, List.countP_cons_of_neg (by decide), hall, List.length_reverse, hlen] at hfew
        exact absurd hfew (by unfold evictTo; omega)
    have hagain := @receive_new
      ⟨Receiver.remember (Log.after {} (thousandDown.map (Sender.frame · []))).receiver 0,
        0 :: (Log.after {} (thousandDown.map (Sender.frame · []))).accepted⟩ 0 [7] hgone (by decide)
    exact congrArg Prod.fst hagain

/-! ## Sessions of the sender -/

/-- The frames that a sender builds for its packets, in order.  Packets that
are not small take another path. -/
def buildAll : Sender → List Bytes → List Bytes
  | _, [] => []
  | s, p :: ps =>
      match s.buildFrame p bufLen with
      | (some f, s') => f :: buildAll s' ps
      | (none, s') => buildAll s' ps

/-- The packets that `build_frame` takes. -/
def smalls (threshold : Int) (ps : List Bytes) : List Bytes :=
  ps.filter fun p => (p.length : Int) < threshold ∧ smallPktHeader + p.length ≤ bufLen

/-- The numbers of the frames count up from the sender's. -/
theorem buildAll_eq : ∀ (ps : List Bytes) (s : Sender),
    buildAll s ps
      = (smalls s.threshold ps).mapIdx fun i p => Sender.frame (s.seq + UInt32.ofNat i) p := by
  intro ps
  induction ps with
  | nil => intro s; rfl
  | cons p ps ih =>
      intro s
      unfold buildAll Sender.buildFrame smalls
      by_cases hlong : (p.length : Int) ≥ s.threshold
      · rw [if_pos hlong, List.filter_cons_of_neg (by simp; omega)]
        exact ih s
      · rw [if_neg hlong]
        by_cases hcap : smallPktHeader + p.length > bufLen
        · rw [if_pos hcap, List.filter_cons_of_neg (by simp; omega)]
          exact ih s
        · rw [if_neg hcap, List.filter_cons_of_pos (by simp; omega), List.mapIdx_cons]
          have hrest := ih { s with seq := s.seq + 1 }
          simp only [hrest, smalls]
          congr 1
          · simp
          · congr 1
            funext i q
            congr 1
            rw [Nat.add_comm, UInt32.ofNat_add, UInt32.add_assoc]
            rfl

theorem length_of_mem_smalls {threshold : Int} {ps : List Bytes} {p : Bytes}
    (hp : p ∈ smalls threshold ps) : p.length ≤ bufLen := by
  have := (List.mem_filter.mp hp).2
  simp only [Bool.decide_and, Bool.and_eq_true, decide_eq_true_eq] at this
  omega

/-- After any copies of other frames of the session, in any order, the first
copy of frame `i` is accepted and its payload delivered. -/
def Heard (l : Log) (frames : List Bytes) : Prop :=
  ∀ (before : List Nat) (i : Nat), (∀ j ∈ before, j < frames.length) → i < frames.length →
    i ∉ before →
    ((l.after (before.map fun j => frames.getD j [])).receive (frames.getD i [])).1
      = some ((frames.getD i []).drop smallPktHeader)

section Session

variable {l : Log} {payloads : List Bytes}

/-- The frames of a session that starts from zero. -/
def session (payloads : List Bytes) : List Bytes :=
  payloads.mapIdx fun i p => Sender.frame (UInt32.ofNat i) p

theorem getD_session {i : Nat} (hi : i < payloads.length) :
    (session payloads).getD i [] = Sender.frame (UInt32.ofNat i) (payloads.getD i []) := by
  unfold session
  rw [List.getD_eq_getElem _ _ (by simpa using hi), List.getElem_mapIdx,
    List.getD_eq_getElem _ _ hi]

/-- Whatever comes of a session, the window holds no other numbers than those
it held before and those that came. -/
theorem seen_session (hw : Window l.receiver) :
    ∀ {before : List Nat}, (∀ j ∈ before, j < payloads.length) →
      ∀ s ∈ (l.after (before.map fun j => (session payloads).getD j [])).receiver.seen,
        s ∈ l.receiver.seen ∨ ∃ j ∈ before, s = UInt32.ofNat j := by
  intro before
  induction before using List.reverseRecOn with
  | nil => exact fun _ s hs => Or.inl hs
  | append_singleton before j ih =>
      intro hbefore s hs
      have hj : j < payloads.length := hbefore j (by simp)
      rw [List.map_append, List.map_singleton, Log.after_concat, getD_session hj] at hs
      have hind := ih fun k hk => hbefore k (List.mem_append_left _ hk)
      have hwin := window_after hw (before.map fun j => (session payloads).getD j [])
      have hold : ∀ s ∈ (l.after (before.map fun j => (session payloads).getD j [])).receiver.seen,
          s ∈ l.receiver.seen ∨ ∃ k ∈ before ++ [j], s = UInt32.ofNat k := by
        intro s hs
        rcases hind s hs with h | ⟨k, hk, h⟩
        · exact Or.inl h
        · exact Or.inr ⟨k, List.mem_append_left _ hk, h⟩
      rcases Log.receive_cases _ (Sender.frame (UInt32.ofNat j) (payloads.getD j []))
        with ⟨-, hnew, hrec⟩ | ⟨-, hrec⟩
      · rw [hrec] at hs
        rcases ((mem_remember hwin hnew s).mp hs).1 with rfl | hs
        · exact Or.inr ⟨j, by simp, seqOf_frame _ _⟩
        · exact hold s hs
      · rw [hrec] at hs
        exact hold s hs

theorem heard_session_iff (hw : Window l.receiver) (hlen : ∀ p ∈ payloads, p.length ≤ bufLen) :
    Heard l (session payloads) ↔
      payloads.length ≤ 2 ^ 32 ∧ ∀ s ∈ l.receiver.seen, payloads.length ≤ s.toNat := by
  have hcount : (session payloads).length = payloads.length := by simp [session]
  unfold Heard
  rw [hcount]
  constructor
  · intro h
    have hold : ∀ s ∈ l.receiver.seen, payloads.length ≤ s.toNat := by
      intro s hs
      by_contra hlt
      have hfirst := h [] s.toNat (by simp) (by omega) (by simp)
      rw [List.map_nil, Log.after_nil, getD_session (by omega), UInt32.ofNat_toNat] at hfirst
      rcases l.receive_cases (Sender.frame s (payloads.getD s.toNat []))
        with ⟨-, hnew, -⟩ | ⟨-, hrec⟩
      · rw [seqOf_frame] at hnew
        exact hnew hs
      · rw [hrec] at hfirst
        exact absurd hfirst (by simp)
    refine ⟨?_, hold⟩
    by_contra hbig
    -- no number is large enough to be in the window, so frame 0 stays in it
    have hempty : l.receiver.seen = [] := by
      apply List.eq_nil_iff_forall_not_mem.mpr
      intro s hs
      have hs' := hold s hs
      have hlt := s.toNat_lt
      omega
    have hsecond := h [0] (2 ^ 32) (by simp; omega) (by omega) (by simp)
    have hfirst : UInt32.ofNat 0 ∉ l.receiver.seen := by
      rw [hempty]
      simp
    have hcap : (payloads.getD 0 []).length ≤ bufLen := by
      rw [List.getD_eq_getElem _ _ (by omega)]
      exact hlen _ (List.getElem_mem _)
    have hafter : l.after [Sender.frame (UInt32.ofNat 0) (payloads.getD 0 [])]
        = ⟨l.receiver.remember (UInt32.ofNat 0), UInt32.ofNat 0 :: l.accepted⟩ :=
      congrArg Prod.snd (receive_new hfirst hcap)
    rw [List.map_singleton, getD_session (by omega), getD_session (by omega), hafter] at hsecond
    rcases Log.receive_cases ⟨l.receiver.remember (UInt32.ofNat 0), UInt32.ofNat 0 :: l.accepted⟩
      (Sender.frame (UInt32.ofNat (2 ^ 32)) (payloads.getD (2 ^ 32) []))
      with ⟨-, hnew, -⟩ | ⟨-, hrec⟩
    · apply hnew
      rw [seqOf_frame]
      refine (mem_remember hw hfirst _).mpr ⟨Or.inl rfl, Or.inl ?_⟩
      rw [hempty]
      decide
    · rw [hrec] at hsecond
      exact absurd hsecond (by simp)
  · rintro ⟨hbound, hold⟩ before i hbefore hi hnew
    have hfresh : UInt32.ofNat i ∉
        (l.after (before.map fun j => (session payloads).getD j [])).receiver.seen := by
      intro hin
      rcases seen_session hw hbefore _ hin with hs | ⟨j, hj, heq⟩
      · have hs' := hold _ hs
        rw [toNat_seq (by omega)] at hs'
        omega
      · have hjlt := hbefore j hj
        have hnat := congrArg UInt32.toNat heq
        rw [toNat_seq (by omega), toNat_seq (by omega)] at hnat
        exact hnew (hnat ▸ hj)
    have hcap : (payloads.getD i []).length ≤ bufLen := by
      rw [List.getD_eq_getElem _ _ hi]
      exact hlen _ (List.getElem_mem hi)
    rw [getD_session hi, receive_new hfresh hcap]
    rfl

end Session

/-- For whatever the receiver got before: a sender that starts again is heard,
in whichever order its frames come, if and only if it has at most 2 ^ 32 small
packets and no number below their count is left in the window. -/
theorem session_accepted_iff (earlier : List Bytes) (threshold redundancy : Int)
    (packets : List Bytes) :
    Heard (Log.after {} earlier) (buildAll (Sender.init threshold redundancy) packets) ↔
      (smalls threshold packets).length ≤ 2 ^ 32 ∧
        ∀ s ∈ (Log.after {} earlier).receiver.seen,
          (smalls threshold packets).length ≤ s.toNat := by
  have hframes : buildAll (Sender.init threshold redundancy) packets
      = session (smalls threshold packets) := by
    rw [buildAll_eq]
    unfold session Sender.init
    congr 1
    funext i p
    rw [UInt32.zero_add]
  rw [hframes]
  exact heard_session_iff (window_after window_init earlier) fun p hp => length_of_mem_smalls hp

/-- The first packet after a restart is taken for the one before it. -/
theorem restarted_sender_not_heard : ¬ ∀ (earlier packets : List Bytes),
    Heard (Log.after {} (buildAll (Sender.init 256 2) earlier))
      (buildAll (Sender.init 256 2) packets) := by
  intro h
  have hlost := h [[1, 2, 3]] [[4, 5, 6]] [] 0 (by simp) (by decide) (by simp)
  exact absurd hlost (by decide)

end Fecraw.Ports.Dedup
