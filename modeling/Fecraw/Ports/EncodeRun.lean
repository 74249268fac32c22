import Fecraw.Ports.Receiver

/-!
# Runs of the encoder

A run of the encoder is a sequence of calls of `input`, each followed by
`output`.  `groupsOf` divides what a run took and sent into groups: a call
that advances the sequence number closes a group.  What it sends belongs to
the closed group; the packet it takes does too, unless the counter shows
that the packet has opened the next group already.

## Main results

* `run_groups_blob`, `run_groups_packets`: in either mode, the packets sent
  for a group are those of a valid `SentGroup` made of the packets that were
  taken into it.
-/

namespace Fecraw.Ports.FecEncode

open Fecraw.Verified Fecraw.Ports.Packet Fecraw.Ports.RsTable Fecraw.Ports.BlobCodec
open FecDecode (SentGroup)

/-- What was seen of one call of `input`. -/
structure Sending where
  arg : Option Bytes
  ret : Int
  out : List Bytes
  /-- The sequence number was advanced. -/
  closed : Bool
  /-- `counter` after the call. -/
  counter : Nat

/-- The packet that a call accepted, if any. -/
def Sending.taken (s : Sending) : List Bytes := if s.ret = 0 then s.arg.toList else []

/-- What a run took into one group and sent for it. -/
structure Emitted where
  accepted : List Bytes := []
  packets : List Bytes := []
deriving Repr, DecidableEq

/-- The groups of a run; the last one is still open. -/
def groupsOf : Emitted → List Sending → List Emitted
  | m, [] => [m]
  | m, s :: rest =>
      if s.closed then
        if s.counter = 0 then
          ⟨m.accepted ++ s.taken, m.packets ++ s.out⟩ :: groupsOf {} rest
        else ⟨m.accepted, m.packets ++ s.out⟩ :: groupsOf ⟨s.taken, []⟩ rest
      else groupsOf ⟨m.accepted ++ s.taken, m.packets ++ s.out⟩ rest

namespace FecEncodeManager

/-- One call with what was seen of it. -/
def send (c : Code) (g : FecParameter) (e : FecEncodeManager) (s : Option Bytes) :
    Checked (FecEncodeManager × Sending) := do
  let (e', ret, out) ← e.step c g s
  return (e', ⟨s, ret, out, decide (e'.seq ≠ e.seq), e'.counter⟩)

end FecEncodeManager

open FecEncodeManager

/-- A group as it was sent, with the numbers of a row of the table. -/
structure SentAs (c : Code) (g : FecParameter) (mode : Nat) (m : Emitted) (G : SentGroup) :
    Prop where
  shaped : G.Shaped
  mode_eq : G.mode = mode
  accepted : G.accepted = m.accepted
  packets : m.packets = (List.range (G.x + G.y)).map (G.packet c)
  code : HasCode G.x (G.x + G.y)
  row : mode = 0 ∨ 0 < G.y → ∃ i < g.rsCnt, G.x = i + 1 ∧ G.y = (g.rsPar i).y

/-- The packets sent for a group are all those of a shaped group with the
accepted packets. -/
def Carries (c : Code) (g : FecParameter) (mode : Nat) (seq : UInt32) (m : Emitted) : Prop :=
  m.packets ≠ [] → ∃ G : SentGroup, G.seq = seq ∧ SentAs c g mode m G

/-- A closed group has the redundancy of the row of its size. -/
def Closes (c : Code) (g : FecParameter) (mode : Nat) (seq : UInt32) (m : Emitted) : Prop :=
  ∃ G : SentGroup, G.seq = seq ∧ SentAs c g mode m G ∧ G.x ≤ g.rsCnt ∧
    G.y = (g.rsPar (G.x - 1)).y

theorem Closes.carries {c : Code} {g : FecParameter} {mode : Nat} {seq : UInt32} {m : Emitted}
    (h : Closes c g mode seq m) : Carries c g mode seq m := by
  intro _
  obtain ⟨G, hseq, hsent, -⟩ := h
  exact ⟨G, hseq, hsent⟩

/-- The rows of a table that `rs_from_str` fills. -/
structure Rows (g : FecParameter) : Prop where
  x : ∀ i < g.rsCnt, (g.rsPar i).x = i + 1
  few : g.rsCnt ≤ 255

section Run

variable {c : Code} {g : FecParameter}

/-- A call that returned, with the parameters in force. -/
theorem call_of_send {e e' : FecEncodeManager} {s : Option Bytes} {o : Sending}
    (hversion : e.fecPar.version = g.version) (h : e.send c g s = .ok (e', o)) :
    (e.fecPar.mode = 0 ∨ e.fecPar.mode = 1) ∧
      ∃ ret out e₁, Call c e s ret e₁ ∧ e₁.output = (e', out) ∧
        o = ⟨s, ret, out, decide (e'.seq ≠ e.seq), e'.counter⟩ := by
  obtain ⟨⟨e₂, ret, out⟩, hstep, h⟩ := Checked.doBind_eq_ok.mp h
  obtain ⟨rfl, rfl⟩ := Prod.mk.inj (Except.ok.inj h)
  obtain ⟨e₁, hin, hout⟩ := step_eq_ok.mp hstep
  obtain ⟨e₀, hsync, hmode, hcall⟩ := input_cases hin
  rw [syncPar_of_version hversion] at hsync
  obtain rfl := Except.ok.inj hsync
  exact ⟨hmode, ret, out, e₁, hcall, hout, rfl⟩

theorem send_of_call {e e₁ : FecEncodeManager} {s : Option Bytes} {r : Int}
    (hversion : e.fecPar.version = g.version)
    (hmode : e.fecPar.mode = 0 ∨ e.fecPar.mode = 1) (h : Call c e s r e₁) :
    e.send c g s = .ok (e₁.output.1,
      ⟨s, r, e₁.output.2, decide (e₁.output.1.seq ≠ e.seq), e₁.output.1.counter⟩) := by
  unfold send step
  rw [input_of_call hversion hmode h]
  rfl

/-- What one call does to the open group: it joins the packet to it, or it
closes it with the packet or before the packet. -/
inductive Advance (Inv : FecEncodeManager → Emitted → Prop) (Closed : UInt32 → Emitted → Prop)
    (e : FecEncodeManager) (m : Emitted) : FecEncodeManager → Sending → Prop where
  | stays {e' o} (hclosed : o.closed = false) (hseq : e'.seq = e.seq)
      (hinv : Inv e' ⟨m.accepted ++ o.taken, m.packets ++ o.out⟩) :
      Advance Inv Closed e m e' o
  | closes {e' o} (hclosed : o.closed = true) (hseq : e'.seq = e.seq + 1)
      (hcounter : o.counter = 0)
      (hgroup : Closed e.seq ⟨m.accepted ++ o.taken, m.packets ++ o.out⟩)
      (hinv : Inv e' {}) : Advance Inv Closed e m e' o
  | splits {e' o} (hclosed : o.closed = true) (hseq : e'.seq = e.seq + 1)
      (hcounter : o.counter ≠ 0)
      (hgroup : Closed e.seq ⟨m.accepted, m.packets ++ o.out⟩)
      (hinv : Inv e' ⟨o.taken, []⟩) : Advance Inv Closed e m e' o

private theorem add_ofNat_succ (seq : UInt32) (k : Nat) :
    seq + UInt32.ofNat (k + 1) = seq + 1 + UInt32.ofNat k := by
  rw [UInt32.ofNat_add, UInt32.add_assoc, UInt32.add_comm (UInt32.ofNat k)]
  rfl

/-- If every call advances the open group, the groups of a run are closed ones,
each under its own number, and one that is open. -/
theorem run_divides {ι : Type} {f : FecEncodeManager → ι → Checked (FecEncodeManager × Sending)}
    {Inv : FecEncodeManager → Emitted → Prop} {Closed : UInt32 → Emitted → Prop} {ok : ι → Prop}
    (hstep : ∀ e m e' i o, ok i → Inv e m → f e i = .ok (e', o) → Advance Inv Closed e m e' o) :
    ∀ {is : List ι} {e e' : FecEncodeManager} {m : Emitted} {os : List Sending},
      (∀ i ∈ is, ok i) → Inv e m → run f e is = .ok (e', os) →
      ∃ closed n, groupsOf m os = closed ++ [n] ∧
        (∀ k n, closed[k]? = some n → Closed (e.seq + UInt32.ofNat k) n) ∧
        e'.seq = e.seq + UInt32.ofNat closed.length ∧ Inv e' n := by
  intro is
  induction is with
  | nil =>
      intro e e' m os _ hinv hrun
      obtain ⟨rfl, rfl⟩ := Prod.mk.inj (Except.ok.inj hrun)
      exact ⟨[], m, rfl, by simp, by simp, hinv⟩
  | cons i is ih =>
      intro e e' m os hok hinv hrun
      obtain ⟨e₁, o, os', hone, hrun', rfl⟩ := run_cons_eq_ok.mp hrun
      have hok' : ∀ j ∈ is, ok j := fun j hj => hok j (List.mem_cons_of_mem _ hj)
      -- a group that is closed here comes before those of the rest of the run
      have hcons : ∀ {group rest : Emitted}, e₁.seq = e.seq + 1 → Closed e.seq group →
          Inv e₁ rest → ∃ closed n, group :: groupsOf rest os' = closed ++ [n] ∧
            (∀ k n, closed[k]? = some n → Closed (e.seq + UInt32.ofNat k) n) ∧
            e'.seq = e.seq + UInt32.ofNat closed.length ∧ Inv e' n := by
        intro group rest hseq hgroup hinv'
        obtain ⟨closed, n, heq, hall, hlast, hn⟩ := ih hok' hinv' hrun'
        refine ⟨group :: closed, n, by rw [heq]; rfl, ?_, ?_, hn⟩
        · intro k n hk
          cases k with
          | zero =>
              obtain rfl := Option.some.inj hk
              simpa using hgroup
          | succ k =>
              rw [add_ofNat_succ, ← hseq]
              exact hall k n hk
        · rw [hlast, hseq, List.length_cons, add_ofNat_succ]
      rw [groupsOf]
      cases hstep e m e₁ i o (hok i (by simp)) hinv hone with
      | stays hclosed hseq hinv' =>
          rw [if_neg (by simp [hclosed]), ← hseq]
          exact ih hok' hinv' hrun'
      | closes hclosed hseq hcounter hgroup hinv' =>
          rw [if_pos hclosed, if_pos hcounter]
          exact hcons hseq hgroup hinv'
      | splits hclosed hseq hcounter hgroup hinv' =>
          rw [if_pos hclosed, if_neg hcounter]
          exact hcons hseq hgroup hinv'

/-- What holds of every closed group and of the open one, holds of each group
of a run. -/
theorem run_groups {Inv : FecEncodeManager → Emitted → Prop}
    {Closed P : UInt32 → Emitted → Prop} (ok : Option Bytes → Prop)
    (hstep : ∀ e m e' s o, ok s → Inv e m → e.send c g s = .ok (e', o) →
      Advance Inv Closed e m e' o)
    (hclosed : ∀ seq m, Closed seq m → P seq m) (hopen : ∀ e m, Inv e m → P e.seq m)
    {ss : List (Option Bytes)} {e e' : FecEncodeManager} {m : Emitted} {os : List Sending}
    (hok : ∀ s ∈ ss, ok s) (hinv : Inv e m) (hrun : run (send c g) e ss = .ok (e', os)) :
    ∀ k n, (groupsOf m os)[k]? = some n → P (e.seq + UInt32.ofNat k) n := by
  intro k n hk
  obtain ⟨closed, last, heq, hall, hseq, hlast⟩ := run_divides hstep hok hinv hrun
  rw [heq] at hk
  rcases lt_trichotomy k closed.length with hlt | rfl | hgt
  · rw [List.getElem?_append_left hlt] at hk
    exact hclosed _ _ (hall k n hk)
  · rw [List.getElem?_concat_length] at hk
    obtain rfl := Option.some.inj hk
    rw [← hseq]
    exact hopen e' last hlast
  · rw [List.getElem?_eq_none (by simp; omega)] at hk
    exact absurd hk (by simp)

/-! ## Mode 0 -/

/-- The encoder in mode 0, with the packets of the open group; nothing of it
has been sent. -/
structure BlobOpen (g : FecParameter) (e : FecEncodeManager) (m : Emitted) : Prop where
  par : e.fecPar = g
  ready : e.readyForOutput = false
  counter : e.counter = m.accepted.length
  holds : BlobEncode.Holds e.blob m.accepted
  unsent : m.packets = []

/-- The packets of a closed group of mode 0 are those of a shaped group. -/
private theorem closes_blob (hrows : Rows g) (hmode : g.mode = 0)
    {e e' : FecEncodeManager} {hasPacket : Bool} {ps : List Bytes}
    (hclose : e.closeGroup c hasPacket = .ok e') (hpar : e.fecPar = g)
    (hholds : BlobEncode.Holds e.blob ps) :
    Closes c g 0 e.seq ⟨ps, e'.outputBuf⟩ ∧ e'.seq = e.seq + 1 ∧ e'.counter = 0 ∧
      e'.readyForOutput = true ∧ e'.outputBuf ≠ [] ∧ e'.fecPar = g ∧
      BlobEncode.Holds e'.blob [] := by
  subst hpar
  obtain ⟨tail, x, -, hx, hcode, -, -, rfl⟩ := closeGroup_blob hmode hclose
  obtain ⟨hpos, hle, -⟩ := chooseDataNum_eq_ok hx
  obtain ⟨i, rfl⟩ : ∃ i, x = i + 1 := ⟨x - 1, by omega⟩
  rw [Nat.add_sub_cancel] at hcode ⊢
  have hfew := hrows.few
  refine ⟨?_, rfl, rfl, rfl, ?_, rfl, BlobEncode.holds_clear _⟩
  · let G : SentGroup := {
      seq := e.seq
      mode := 0
      x := i + 1
      y := (e.fecPar.rsPar i).y
      len := e.blob.getShardLen (i + 1)
      data := (e.blob.output (i + 1)).2.1
      accepted := ps }
    have hshaped : G.Shaped := {
      mode := .inl rfl
      x_pos := by show 1 ≤ i + 1; omega
      x_le := by show i + 1 ≤ 255; omega
      sum_le := hcode.le
      length_data := e.blob.length_shards _
      length_shard := e.blob.length_of_mem_shards _
      blob := fun _ => ⟨BlobEncode.flatten_shards hholds (by omega), hholds.bounded,
        hholds.few⟩
      packets := fun h => absurd h Nat.zero_ne_one }
    refine ⟨G, rfl, ⟨hshaped, rfl, rfl, List.map_congr_left fun j _ => ?_, hcode,
      fun _ => ⟨i, hle, rfl, rfl⟩⟩, hle, rfl⟩
    have hbare : ¬ G.bare j := FecDecode.not_bare_of_blob rfl j
    unfold SentGroup.packet SentGroup.body
    rw [if_neg hbare, if_neg hbare, if_neg hbare]
    rfl
  · simp

theorem output_of_ready {e : FecEncodeManager} (h : e.readyForOutput = true) :
    e.output = ({ e with readyForOutput := false }, e.outputBuf) := by
  unfold output
  rw [if_pos h]

theorem output_of_not_ready {e : FecEncodeManager} (h : e.readyForOutput = false) :
    e.output = (e, []) := by
  unfold output
  rw [if_neg (by simp [h])]

/-- One call in mode 0. -/
theorem advance_blob (hrows : Rows g) (hmode : g.mode = 0) {e e' : FecEncodeManager}
    {m : Emitted} {s : Option Bytes} {o : Sending} (hinv : BlobOpen g e m)
    (h : e.send c g s = .ok (e', o)) :
    Advance (BlobOpen g) (Closes c g 0) e m e' o := by
  obtain ⟨-, ret, out, e₁, hcall, hout, rfl⟩ :=
    call_of_send (congrArg FecParameter.version hinv.par) h
  have hmode' : e.fecPar.mode = 0 := by rw [hinv.par]; exact hmode
  have hunsent := hinv.unsent
  cases hcall with
  | rejected hempty _ =>
      rw [output_of_not_ready hinv.ready] at hout
      obtain ⟨rfl, rfl⟩ := Prod.mk.inj hout
      refine .stays (by simp) rfl ?_
      simpa [Sending.taken] using hinv
  | @queued p e₂ _ _ _ happend _ hsend =>
      obtain ⟨blob, hblob, rfl⟩ := append_blob hmode' happend
      obtain rfl := fastSend_blob (by exact hmode') hsend
      rw [output_of_not_ready (by exact hinv.ready)] at hout
      obtain ⟨rfl, rfl⟩ := Prod.mk.inj hout
      refine .stays (by simp) rfl ⟨hinv.par, hinv.ready, ?_, ?_, ?_⟩
      · simp [Sending.taken, hinv.counter]
      · exact BlobEncode.holds_input hinv.holds hblob
      · simpa using hunsent
  | @completed p e₂ _ _ _ happend _ hclose =>
      obtain ⟨blob, hblob, rfl⟩ := append_blob hmode' happend
      obtain ⟨hgroup, hseq, hcnt, hready, -, hpar, hholds⟩ :=
        closes_blob hrows hmode hclose hinv.par (BlobEncode.holds_input hinv.holds hblob)
      rw [output_of_ready hready] at hout
      obtain ⟨rfl, rfl⟩ := Prod.mk.inj hout
      refine .closes ?_ hseq hcnt ?_ ⟨hpar, rfl, hcnt, hholds, rfl⟩
      · simp [hseq]
      · simpa [Sending.taken, hunsent] using hgroup
  | flushed _ _ hclose =>
      obtain ⟨hgroup, hseq, hcnt, hready, -, hpar, hholds⟩ :=
        closes_blob hrows hmode hclose hinv.par hinv.holds
      rw [output_of_ready hready] at hout
      obtain ⟨rfl, rfl⟩ := Prod.mk.inj hout
      refine .closes ?_ hseq hcnt ?_ ⟨hpar, rfl, hcnt, hholds, rfl⟩
      · simp [hseq]
      · simpa [Sending.taken, hunsent] using hgroup
  | @delayed p e₂ _ _ _ _ hclose happend =>
      obtain ⟨hgroup, hseq, hcnt, hready, -, hpar, hholds⟩ :=
        closes_blob hrows hmode hclose hinv.par hinv.holds
      obtain ⟨blob, hblob, rfl⟩ := append_blob (by rw [hpar]; exact hmode) happend
      rw [output_of_ready (by exact hready)] at hout
      obtain ⟨rfl, rfl⟩ := Prod.mk.inj hout
      refine .splits ?_ hseq ?_ ?_ ⟨hpar, rfl, ?_, ?_, rfl⟩
      · simp [hseq]
      · simp
      · simpa [hunsent] using hgroup
      · simp [Sending.taken, hcnt]
      · exact BlobEncode.holds_input hholds hblob

/-- In mode 0, the packets sent for each group of a run are those of a shaped
group. -/
theorem run_groups_blob (hrows : Rows g) (hmode : g.mode = 0) {seq : UInt32} {buf : Mem}
    {ss : List (Option Bytes)} {e' : FecEncodeManager} {os : List Sending}
    (hrun : run (send c g) (init g seq buf) ss = .ok (e', os)) :
    ∀ k n, (groupsOf {} os)[k]? = some n → Carries c g 0 (seq + UInt32.ofNat k) n := by
  have hinv : BlobOpen g (init g seq buf) {} :=
    ⟨rfl, rfl, rfl, BlobEncode.holds_clear ⟨buf, 0, 0⟩, rfl⟩
  have hstep : ∀ e m e' s o, True → BlobOpen g e m → e.send c g s = .ok (e', o) →
      Advance (BlobOpen g) (Closes c g 0) e m e' o :=
    fun _ _ _ _ _ _ hinv h => advance_blob hrows hmode hinv h
  refine run_groups (fun _ => True) hstep (fun _ _ h => h.carries) ?_ (fun _ _ => trivial) hinv hrun
  intro e m hinv hne
  exact absurd hinv.unsent hne

/-! ## Mode 1 -/

/-- The group that the packets `ps` make in mode 1 with `y` redundant
packets. -/
def packetGroup (seq : UInt32) (y : Nat) (ps : List Bytes) : SentGroup where
  seq := seq
  mode := 1
  x := ps.length
  y := y
  len := groupLen (ps.map BlobEncode.record)
  data := ps.map fun p => pad (groupLen (ps.map BlobEncode.record)) (BlobEncode.record p)
  accepted := ps

theorem groupLen_le_iff {bodies : List Bytes} {m : Nat} :
    groupLen bodies ≤ m ↔ ∀ b ∈ bodies, b.length ≤ m := by
  unfold groupLen
  rw [foldl_max_le_iff]
  simp

theorem le_groupLen {bodies : List Bytes} {b : Bytes} (hb : b ∈ bodies) :
    b.length ≤ groupLen bodies :=
  groupLen_le_iff.mp (Nat.le_refl _) b hb

theorem shaped_packetGroup {seq : UInt32} {y : Nat} {ps : List Bytes} (hpos : ps ≠ [])
    (hle : ps.length ≤ 255) (hsum : ps.length + y ≤ 256)
    (hshort : ∀ p ∈ ps, p.length ≤ maxDataLen) : (packetGroup seq y ps).Shaped where
  mode := .inr rfl
  x_pos := List.length_pos_iff.mpr hpos
  x_le := hle
  sum_le := hsum
  length_data := by simp [packetGroup]
  length_shard := by
    intro d hd
    obtain ⟨p, hp, rfl⟩ := List.mem_map.mp hd
    have hle := le_groupLen (List.mem_map_of_mem (f := BlobEncode.record) hp)
    unfold pad
    rw [List.length_append, List.length_replicate]
    show _ = groupLen (ps.map BlobEncode.record)
    omega
  blob := fun h => absurd h Nat.one_ne_zero
  packets := by
    refine fun _ => ⟨rfl, fun p hp => ⟨hshort p hp, ?_⟩⟩
    have hle := le_groupLen (List.mem_map_of_mem (f := BlobEncode.record) hp)
    rw [BlobEncode.length_record] at hle
    exact hle

/-- The packets of the group are those that the encoder sends. -/
theorem packet_packetGroup (seq : UInt32) (y : Nat) (ps : List Bytes) (i : Nat) :
    (packetGroup seq y ps).packet c i
      = groupPacket c seq y (ps.map BlobEncode.record) i := by
  unfold SentGroup.packet SentGroup.body groupPacket
  rw [List.length_map]
  by_cases hi : i < ps.length
  · have hbare : (packetGroup seq y ps).bare i := ⟨rfl, hi⟩
    rw [if_pos hbare, if_pos hbare, if_pos hbare, if_pos hi, dataPacket]
    show packetHeader seq 1 0 0 i ++ BlobEncode.record (ps.getD i []) = _
    rw [List.getD_eq_getElem _ _ hi, List.getD_eq_getElem _ _ (by simpa using hi),
      List.getElem_map]
  · have hbare : ¬ (packetGroup seq y ps).bare i := fun h => hi h.2
    rw [if_neg hbare, if_neg hbare, if_neg hbare, if_neg hi, redundantPacket,
      List.length_map, List.map_map]
    rfl

/-- The encoder in mode 1, with the packets of the open group; they are sent
already. -/
structure PacketOpen (c : Code) (g : FecParameter) (e : FecEncodeManager) (m : Emitted) :
    Prop where
  par : e.fecPar = g
  ready : e.readyForOutput = false
  counter : e.counter = m.accepted.length
  few : e.counter = 0 ∨ e.counter < g.rsCnt
  bodies : e.bodies = m.accepted.map BlobEncode.record
  short : ∀ p ∈ m.accepted, p.length ≤ maxDataLen
  sent : m.packets = (List.range e.counter).map
    (groupPacket c e.seq 0 (m.accepted.map BlobEncode.record))

/-- The packets of a group of mode 1, closed or not, are those of a shaped
group. -/
theorem sentAs_packets {seq : UInt32} {m : Emitted} {y : Nat}
    (hle : m.accepted.length ≤ 255) (hcode : HasCode m.accepted.length (m.accepted.length + y))
    (hy : 0 < y → ∃ i < g.rsCnt, m.accepted.length = i + 1 ∧ y = (g.rsPar i).y)
    (hshort : ∀ p ∈ m.accepted, p.length ≤ maxDataLen)
    (hsent : m.packets = (List.range (m.accepted.length + y)).map
      (groupPacket c seq y (m.accepted.map BlobEncode.record)))
    (hpos : m.accepted ≠ []) : SentAs c g 1 m (packetGroup seq y m.accepted) := by
  refine ⟨shaped_packetGroup hpos hle hcode.le hshort, rfl, rfl, ?_, hcode, ?_⟩
  · rw [hsent]
    exact List.map_congr_left fun i _ => (packet_packetGroup _ _ _ _).symm
  · rintro (hm | hypos)
    · exact absurd hm Nat.one_ne_zero
    · exact hy hypos

/-- A group of mode 1 is closed with the redundancy of row `i`. -/
theorem closes_packets {seq : UInt32} {m : Emitted} {i : Nat} (hrows : Rows g)
    (hi : i < g.rsCnt) (hlen : m.accepted.length = i + 1)
    (hcode : HasCode (i + 1) (i + 1 + (g.rsPar i).y))
    (hshort : ∀ p ∈ m.accepted, p.length ≤ maxDataLen)
    (hsent : m.packets = (List.range (m.accepted.length + (g.rsPar i).y)).map
      (groupPacket c seq (g.rsPar i).y (m.accepted.map BlobEncode.record))) :
    Closes c g 1 seq m := by
  have hfew := hrows.few
  refine ⟨packetGroup seq (g.rsPar i).y m.accepted, rfl,
    sentAs_packets (by omega) (hlen ▸ hcode) (fun _ => ⟨i, hi, hlen, rfl⟩) hshort hsent
      (List.ne_nil_of_length_pos (by omega)), ?_, ?_⟩
  · show m.accepted.length ≤ g.rsCnt
    omega
  · show (g.rsPar i).y = (g.rsPar (m.accepted.length - 1)).y
    rw [hlen, Nat.add_sub_cancel]

/-- Data packets depend neither on the redundancy nor on later packets. -/
theorem groupPacket_of_lt {seq : UInt32} {y y' : Nat} {bodies more : List Bytes} {i : Nat}
    (hi : i < bodies.length) :
    groupPacket c seq y (bodies ++ more) i = groupPacket c seq y' bodies i := by
  unfold groupPacket
  rw [if_pos (by rw [List.length_append]; omega), if_pos hi,
    List.getD_append _ _ _ _ hi]

/-- `append` in mode 1 adds a body. -/
theorem bodies_append {e e' : FecEncodeManager} {p : Bytes}
    (hmode : e.fecPar.mode = 1) (h : e.append p = .ok e') :
    e'.bodies = e.bodies ++ [BlobEncode.record p] := by
  obtain ⟨-, -, rfl⟩ := append_packet hmode h
  unfold FecEncodeManager.bodies
  simp only
  rw [List.range_succ, List.map_append]
  congr 1
  · apply List.map_congr_left
    intro i hi
    rw [Function.update_of_ne (Nat.ne_of_lt (List.mem_range.mp hi))]
  · simp [BlobEncode.record]

/-- The packet that is sent at once is a packet of the group. -/
private theorem groupPacket_bodies {e : FecEncodeManager} {seq : UInt32} {y i : Nat}
    (hi : i < e.counter) :
    groupPacket c seq y e.bodies i = dataPacket seq (e.inputBuf i) i := by
  have hlen : i < e.bodies.length := by simpa [FecEncodeManager.bodies] using hi
  unfold groupPacket
  rw [if_pos hlen, List.getD_eq_getElem _ _ hlen]
  simp [FecEncodeManager.bodies]

/-- What was sent before, in terms of the group after one more packet. -/
private theorem PacketOpen.sent_eq {e : FecEncodeManager} {m : Emitted}
    (hinv : PacketOpen c g e m) (y : Nat) (more : List Bytes) :
    m.packets = (List.range e.counter).map
      (groupPacket c e.seq y (m.accepted.map BlobEncode.record ++ more)) := by
  rw [hinv.sent]
  apply List.map_congr_left
  intro i hi
  rw [hinv.counter] at hi
  exact (groupPacket_of_lt (by simpa using hi)).symm

private theorem range_append_range' (n y : Nat) :
    List.range (n + y) = List.range n ++ List.range' n y := by
  rw [List.range_eq_range', List.range_eq_range', ← List.range'_append_1, Nat.zero_add]

private theorem PacketOpen.short_append {e : FecEncodeManager} {m : Emitted} {p : Bytes}
    (hinv : PacketOpen c g e m) (hp : p.length ≤ maxDataLen) :
    ∀ q ∈ m.accepted ++ [p], q.length ≤ maxDataLen := by
  intro q hq
  rcases List.mem_append.mp hq with hq | hq
  · exact hinv.short q hq
  · obtain rfl := List.mem_singleton.mp hq
    exact hp

/-- A packet that there is room for makes the group one larger. -/
private theorem PacketOpen.append {e e₁ : FecEncodeManager} {m : Emitted} {p : Bytes}
    (hinv : PacketOpen c g e m) (hrows : Rows g) (hmode : g.mode = 1)
    (hroom : e.room = .ok ()) (happend : e.append p = .ok e₁) :
    e₁.fecPar = g ∧ e₁.readyForOutput = false ∧ e₁.seq = e.seq ∧
      e₁.counter = (m.accepted ++ [p]).length ∧ e₁.counter ≤ g.rsCnt ∧
      (e₁.full = .ok false → e₁.counter < g.rsCnt) ∧
      e₁.bodies = (m.accepted ++ [p]).map BlobEncode.record := by
  have hmode' : e.fecPar.mode = 1 := by rw [hinv.par]; exact hmode
  have hbodies := bodies_append hmode' happend
  obtain ⟨tail, htail, hlt⟩ := room_packet hmode' hroom
  rw [hinv.par] at htail
  obtain ⟨-, -, rfl⟩ := append_packet hmode' happend
  have htailx : tail.x = g.rsCnt := by
    obtain ⟨hpos, rfl⟩ := getTail_eq_some htail
    rw [hrows.x _ (by omega)]
    omega
  refine ⟨hinv.par, hinv.ready, rfl, ?_, ?_, ?_, ?_⟩
  · simp [hinv.counter]
  · show e.counter + 1 ≤ g.rsCnt
    omega
  · intro hopen
    show e.counter + 1 < g.rsCnt
    unfold FecEncodeManager.full at hopen
    rw [if_neg (by simp [hmode'])] at hopen
    simp only [hinv.par, htail, Checked.ofOption_some, Checked.ok_bind] at hopen
    have hne := of_decide_eq_false (Except.ok.inj hopen)
    omega
  · rw [hbodies, hinv.bodies, List.map_append]
    rfl

/-- One call in mode 1. -/
theorem advance_packets (hrows : Rows g) (hmode : g.mode = 1) {e e' : FecEncodeManager}
    {m : Emitted} {s : Option Bytes} {o : Sending}
    (hs : ∀ p, s = some p → p.length ≤ maxDataLen) (hinv : PacketOpen c g e m)
    (h : e.send c g s = .ok (e', o)) :
    Advance (PacketOpen c g) (Closes c g 1) e m e' o := by
  obtain ⟨-, ret, out, e₁, hcall, hout, rfl⟩ :=
    call_of_send (congrArg FecParameter.version hinv.par) h
  have hmode' : e.fecPar.mode = 1 := by rw [hinv.par]; exact hmode
  cases hcall with
  | rejected hempty _ =>
      rw [output_of_not_ready hinv.ready] at hout
      obtain ⟨rfl, rfl⟩ := Prod.mk.inj hout
      refine .stays (by simp) rfl ?_
      simpa [Sending.taken] using hinv
  | @queued p e₂ _ hroom _ happend hopen hsend =>
      obtain ⟨hpar, hready, hseq, hcnt, -, hfew, hbodies⟩ :=
        hinv.append hrows hmode hroom happend
      obtain ⟨-, -, -, rfl⟩ := fastSend_packet (by rw [hpar]; exact hmode) hsend
      rw [output_of_ready rfl] at hout
      obtain ⟨rfl, rfl⟩ := Prod.mk.inj hout
      refine .stays (by simp [hseq]) hseq ⟨hpar, rfl, hcnt, .inr (hfew hopen), hbodies,
        hinv.short_append (hs p rfl), ?_⟩
      show m.packets ++ [dataPacket e₂.seq (e₂.inputBuf (e₂.counter - 1)) (e₂.counter - 1)]
        = (List.range e₂.counter).map
          (groupPacket c e₂.seq 0 ((m.accepted ++ [p]).map BlobEncode.record))
      have hone : e₂.counter = e.counter + 1 := by
        rw [hcnt, hinv.counter]
        simp
      rw [hinv.sent_eq 0 [BlobEncode.record p],
        ← groupPacket_bodies (c := c) (y := 0) (by omega), hbodies, hone, hseq,
        List.map_append, Nat.add_sub_cancel, List.range_succ, List.map_append]
      rfl
  | @completed p e₂ _ hroom _ happend _ hclose =>
      obtain ⟨hpar, hready, hseq, hcnt, hfew, -, hbodies⟩ :=
        hinv.append hrows hmode hroom happend
      have hone : e₂.counter = e.counter + 1 := by
        rw [hcnt, hinv.counter]
        simp
      obtain ⟨-, hcode, -, rfl⟩ :=
        closeGroup_packets (by rw [hpar]; exact hmode) (by omega) hclose
      rw [output_of_ready rfl] at hout
      obtain ⟨rfl, rfl⟩ := Prod.mk.inj hout
      refine .closes (by simp [hseq]) (by rw [← hseq]) rfl ?_
        ⟨hpar, rfl, rfl, .inl rfl, rfl, by simp, rfl⟩
      have hrow : (e₂.fecPar.rsPar (e₂.counter - 1)).y = (g.rsPar e.counter).y := by
        rw [hpar, hone, Nat.add_sub_cancel]
      rw [hrow] at hcode ⊢
      apply closes_packets (i := e.counter) hrows (by omega) (hcnt.symm.trans hone) (hone ▸ hcode)
      · exact hinv.short_append (hs p rfl)
      · generalize (g.rsPar e.counter).y = y
        show m.packets ++ ([e₂.counter - 1] ++ List.range' e₂.counter y).map
            (groupPacket c e₂.seq y e₂.bodies)
          = (List.range ((m.accepted ++ [p]).length + y)).map
            (groupPacket c e.seq y ((m.accepted ++ [p]).map BlobEncode.record))
        rw [hinv.sent_eq y [BlobEncode.record p], hbodies, hseq, ← hcnt, hone,
          Nat.add_sub_cancel, range_append_range' (e.counter + 1) y, List.range_succ,
          List.append_assoc, List.map_append, List.map_append]
        simp
  | flushed _ hpending hclose =>
      obtain ⟨-, hcode, -, rfl⟩ := closeGroup_packets hmode' hpending hclose
      rw [output_of_ready rfl] at hout
      obtain ⟨rfl, rfl⟩ := Prod.mk.inj hout
      refine .closes (by simp) rfl rfl ?_ ⟨hinv.par, rfl, rfl, .inl rfl, rfl, by simp, rfl⟩
      simp only [Sending.taken, Option.toList_none, ite_self, List.append_nil]
      have hfew := hinv.few
      have hlen := hinv.counter
      obtain ⟨i, hi⟩ : ∃ i, e.counter = i + 1 := ⟨e.counter - 1, by omega⟩
      have hrow : (e.fecPar.rsPar (e.counter - 1)).y = (g.rsPar i).y := by
        rw [hinv.par, hi, Nat.add_sub_cancel]
      rw [hrow] at hcode ⊢
      refine closes_packets (i := i) hrows (by omega) ?_ (hi ▸ hcode) ?_ ?_
      · exact hlen.symm.trans hi
      · exact hinv.short
      · generalize (g.rsPar i).y = y
        show m.packets ++ ([] ++ List.range' e.counter y).map (groupPacket c e.seq y e.bodies)
          = (List.range (m.accepted.length + y)).map
            (groupPacket c e.seq y (m.accepted.map BlobEncode.record))
        rw [hinv.sent_eq y [], hinv.bodies, ← hinv.counter, List.append_nil, List.nil_append,
          range_append_range', List.map_append]
  | @delayed p e₂ _ _ _ hlong hclose happend =>
      rw [(delays_true hlong).1] at hmode'
      exact absurd hmode' (by decide)

/-- The packets that are sent for an open group are the data packets. -/
theorem PacketOpen.sentAs {e : FecEncodeManager} {m : Emitted} (hinv : PacketOpen c g e m)
    (hrows : Rows g) (hne : m.packets ≠ []) : SentAs c g 1 m (packetGroup e.seq 0 m.accepted) := by
  have hpos : m.accepted ≠ [] := by
    intro hnil
    apply hne
    rw [hinv.sent, hinv.counter, hnil]
    rfl
  have hfew := hinv.few
  have hall := hrows.few
  have hle : m.accepted.length ≤ 255 := by
    rw [← hinv.counter]
    omega
  refine sentAs_packets hle (hasCode_of_le le_rfl hle) (fun h => absurd h (by omega)) hinv.short
    ?_ hpos
  rw [Nat.add_zero, ← hinv.counter]
  exact hinv.sent

/-- In mode 1, the packets sent for each group of a run are those of a shaped
group, also for the one that is still open. -/
theorem run_groups_packets (hrows : Rows g) (hmode : g.mode = 1) {seq : UInt32} {buf : Mem}
    {ss : List (Option Bytes)} (hss : ∀ p, some p ∈ ss → p.length ≤ maxDataLen)
    {e' : FecEncodeManager} {os : List Sending}
    (hrun : run (send c g) (init g seq buf) ss = .ok (e', os)) :
    ∀ k n, (groupsOf {} os)[k]? = some n → Carries c g 1 (seq + UInt32.ofNat k) n := by
  have hinv : PacketOpen c g (init g seq buf) {} :=
    ⟨rfl, rfl, rfl, .inl rfl, rfl, by simp, rfl⟩
  have hstep : ∀ e m e' s o, (∀ p, s = some p → p.length ≤ maxDataLen) → PacketOpen c g e m →
      e.send c g s = .ok (e', o) → Advance (PacketOpen c g) (Closes c g 1) e m e' o :=
    fun _ _ _ _ _ hs hinv h => advance_packets hrows hmode hs hinv h
  refine run_groups (fun s => ∀ p, s = some p → p.length ≤ maxDataLen) hstep
    (fun _ _ h => h.carries) ?_ ?_ hinv hrun
  · intro e m hinv hne
    exact ⟨_, rfl, hinv.sentAs hrows hne⟩
  · rintro s hs p rfl
    exact hss p hs

end Run

end Fecraw.Ports.FecEncode
