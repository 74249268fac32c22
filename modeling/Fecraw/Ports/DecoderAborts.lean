import Fecraw.Ports.DecoderSlots

/-!
# When the decoder aborts

The decoder takes packets from the network, and asserts that the erasure
decoder succeeds whenever it has counted enough packets of a group.  It
counts all indices, also those past the last shard of the group, of which
the erasure decoder does not know.

## Main results

* `input_ok_iff`: a call aborts exactly when the packet completes a group of
  which too few packets are shards.
* `decoder_returns_iff`: the same over whole runs.
-/

namespace Fecraw.Ports.FecDecode

open Fecraw.Verified Fecraw.Ports.Packet Fecraw.Ports.RsTable Fecraw.Ports.BlobCodec
open FecDecodeManager

/-! ## The condition -/

/-- The data shards, and all shards, of a group that has learnt its numbers. -/
def FecGroup.x (g : FecGroup) : Nat := g.dataNum.getD 0

def FecGroup.n (g : FecGroup) : Nat := g.dataNum.getD 0 + g.redundantNum.getD 0

/-- How many of the packets of a group are shards of it. -/
def FecGroup.shards (g : FecGroup) : Nat := (g.keys.filter (· < g.n)).length

/-- A group that just got the packet `h`, with packets of the lengths `lens`,
is decoded: in mode 0 with the number of data shards, in mode 1 also with one
packet more, and only if the lengths are as announced. -/
def Decodes (lens : List Nat) (h : Header) (g : FecGroup) : Prop :=
  if h.type = 0 then g.groupMp.length = h.dataNum
  else g.dataNum ≠ none ∧ g.x ≤ g.groupMp.length ∧ g.groupMp.length ≤ g.x + 1 ∧
    (∀ l ∈ lens, 2 ≤ l) ∧ some (lens.foldl max 0) = g.len

/-- The packet makes its group be decoded. -/
def Completes (d : FecDecodeManager) (h : Header) : Prop :=
  Decodes (h.body.length :: d.lens (d.groupOf h.seq)) h (d.grown h d.index)

/-- The packet completes a group that has too few shards. -/
def Starves (d : FecDecodeManager) (now : UInt64) (s : Bytes) : Prop :=
  ∃ h, parseHeader s = some h ∧ d.Enters now h ∧ Completes d h ∧
    (d.grown h d.index).shards < (d.grown h d.index).x

/-! ## The second half of `input` -/

section Finish

variable {S : Set Bytes} {c : Code} {d : FecDecodeManager} {now : UInt64} {stale : Mem}
  {h : Header} {g : FecGroup}

theorem retire_ok (hwf : d.antiReplay.Wf) (seq : UInt32) : ∃ d', d.retire now seq = .ok d' := by
  obtain ⟨a, -, hset, -, -⟩ := AntiReplay.setInvaild_evolves hwf now (Set.mem_singleton seq)
  refine ⟨{ d with antiReplay := a }, ?_⟩
  unfold retire
  rw [hset]
  rfl

theorem card_present_got (hnodup : g.keys.Nodup) (n : Nat) (f : Bytes → Bytes) :
    (Code.present n fun i => (d.got g i).map f).card = (g.keys.filter (· < n)).length := by
  have hset : Code.present n (fun i => (d.got g i).map f)
      = (g.keys.filter (· < n)).toFinset := by
    ext i
    unfold Code.present
    rw [Finset.mem_filter, Finset.mem_range, Option.isSome_map, got_isSome_iff,
      List.mem_toFinset, List.mem_filter]
    simp [and_comm]
  rw [hset, List.toFinset_card_of_nodup (hnodup.filter _)]

/-- A stored packet of the group, by its index. -/
theorem got_mem {i : Nat} {b : Bytes} (hgot : d.got g i = some b) :
    ∃ e ∈ g.groupMp, (d.fecData e.2).buf = b := by
  unfold got at hgot
  obtain ⟨k, hk, rfl⟩ := Option.map_eq_some_iff.mp hgot
  exact ⟨(i, k), FecGroup.mem_of_slot_eq_some hk, rfl⟩

/-- The erasure decoder on the stored packets, made to the given size. -/
theorem decode_isSome_iff (hc : ∀ k n, 1 ≤ k → k ≤ n → n < maxFecPacketNum → c.Total k n)
    (hnodup : g.keys.Nodup) (hnumbered : g.Numbered) (hx : g.dataNum ≠ none) {m : Nat}
    {f : Bytes → Bytes} (hsize : ∀ i b, d.got g i = some b → (f b).length = m) :
    (g.shards < g.x → c.decode g.x g.n m (fun i => (d.got g i).map f) = none) ∧
    (g.x ≤ g.shards → ∃ data, c.decode g.x g.n m (fun i => (d.got g i).map f) = some data ∧
      data.length = g.x ∧ ∀ b ∈ data, b.length = m) := by
  obtain ⟨x, hx⟩ := Option.ne_none_iff_exists'.mp hx
  obtain ⟨hpos, y, hy, hsum⟩ := hnumbered x hx
  have hxeq : g.x = x := by
    unfold FecGroup.x
    rw [hx]
    rfl
  have hneq : g.n = x + y := by
    unfold FecGroup.n
    rw [hx, hy]
    rfl
  have htotal : c.Total g.x g.n := by
    rw [hxeq, hneq]
    exact hc x (x + y) hpos (Nat.le_add_right x y) hsum
  have hcard : (Code.present g.n fun i => (d.got g i).map f).card = g.shards :=
    card_present_got hnodup g.n f
  rw [← hcard]
  refine ⟨htotal.few m _, fun henough => htotal.enough m _ henough ?_⟩
  intro i b _ hb
  obtain ⟨b₀, hgot, rfl⟩ := Option.map_eq_some_iff.mp hb
  exact hsize i b₀ hgot

/-- The shards of a blob all have the length of the packet. -/
theorem length_got_blob (hg : GroupWf S d.fecData h.seq g) (hagrees : g.Agrees h)
    (htype : h.type = 0) (hpos : h.dataNum ≠ 0) {i : Nat} {b : Bytes}
    (hgot : d.got g i = some b) : b.length = h.body.length := by
  obtain ⟨e, he, rfl⟩ := got_mem hgot
  obtain ⟨-, s₀, -, h₀, hparse, -, -, hslot, hagrees₀⟩ := hg.entry e he
  have htype₀ : h₀.type = 0 := by
    have := Option.some.inj (hagrees₀.1.symm.trans hagrees.1)
    omega
  have hlen₀ := (hagrees₀.2 ((parseHeader_spec hparse).2.2 htype₀)).2.2
  have hlen := (hagrees.2 hpos).2.2
  rw [hslot]
  exact Option.some.inj (hlen₀.symm.trans hlen)

/-- Decoding a blob aborts exactly if there are too few shards. -/
theorem decodeBlob_ok_iff (hc : ∀ k n, 1 ≤ k → k ≤ n → n < maxFecPacketNum → c.Total k n)
    (hwf : d.antiReplay.Wf) (hready : d.readyForOutput = false)
    (hg : GroupWf S d.fecData h.seq g) (hagrees : g.Agrees h) (htype : h.type = 0)
    (hpos : h.dataNum ≠ 0) (hbody : h.body.length + 100 < bufLen) :
    (∃ d', d.decodeBlob c now h g = .ok d') ↔ ¬ g.shards < g.x := by
  obtain ⟨hx, hy, -⟩ := hagrees.2 hpos
  obtain ⟨hxpos, y, -, hsum⟩ := hg.numbered _ hx
  have hxeq : g.x = h.dataNum := by
    unfold FecGroup.x
    rw [hx]
    rfl
  obtain ⟨hfew, henough⟩ := decode_isSome_iff (f := id) hc hg.nodup hg.numbered (by simp [hx])
    fun i b hgot => length_got_blob hg hagrees htype hpos hgot
  simp only [Option.map_id_fun, id_eq] at hfew henough
  show (∃ d', (Checked.ofOption (c.decode g.x g.n h.body.length (d.got g)) >>= fun data => _)
    = .ok d') ↔ _
  constructor
  · rintro ⟨d', hok⟩ hlack
    obtain ⟨data, hdata, -⟩ := Checked.doBind_eq_ok.mp hok
    rw [Checked.ofOption_eq_ok, hfew hlack] at hdata
    exact absurd hdata (by simp)
  · intro hnot
    obtain ⟨data, hdata, hcount, hlens⟩ := henough (by omega)
    have hle : data.length ≤ 254 := by
      unfold maxFecPacketNum at hsum
      omega
    have hbytes : data.length * h.body.length + 100 < blobBufSize := by
      have hmul : data.length * h.body.length ≤ 254 * 3699 := by
        apply Nat.mul_le_mul hle
        unfold bufLen maxDataLen at hbody
        omega
      have hfits : 254 * 3699 + 100 < blobBufSize := by decide
      omega
    obtain ⟨blob, hblob, -⟩ := BlobDecode.input_shards data {} hlens (by simp)
      (by show 0 + _ ≤ _; omega) (by show 0 + _ + _ < _; omega)
    rw [hdata]
    simp only [Checked.ofOption_some, Checked.ok_bind, hblob]
    cases blob.output with
    | none => exact retire_ok (d := d.markDone h.seq g) hwf _
    | some out =>
        dsimp only
        rw [ready_eq_ok (d := d.markDone h.seq g) hready]
        exact retire_ok (d := { d.markDone h.seq g with readyForOutput := true, outputBuf := out })
          hwf _

/-- Decoding packets aborts exactly if the lengths are as announced and there
are too few shards. -/
theorem decodePackets_ok_iff (hc : ∀ k n, 1 ≤ k → k ≤ n → n < maxFecPacketNum → c.Total k n)
    (hwf : d.antiReplay.Wf) (hready : d.readyForOutput = false)
    (hnodup : g.keys.Nodup) (hnumbered : g.Numbered) (hx : g.dataNum ≠ none) :
    (∃ d', d.decodePackets c now stale h g = .ok d') ↔
      ¬ (((∀ l ∈ d.lens g, 2 ≤ l) ∧ some ((d.lens g).foldl max 0) = g.len) ∧
        g.shards < g.x) := by
  unfold decodePackets
  dsimp only
  by_cases hlens : (∀ l ∈ d.lens g, 2 ≤ l) ∧ some ((d.lens g).foldl max 0) = g.len
  · rw [if_pos hlens]
    obtain ⟨hfew, henough⟩ := decode_isSome_iff (d := d) (m := (d.lens g).foldl max 0)
      (f := FecEncode.FecEncodeManager.pad ((d.lens g).foldl max 0)) hc hnodup hnumbered hx (by
        intro i b hgot
        obtain ⟨e, he, rfl⟩ := got_mem hgot
        have hle : (d.fecData e.2).buf.length ≤ (d.lens g).foldl max 0 :=
          (FecEncode.FecEncodeManager.foldl_max_le_iff.mp (Nat.le_refl _)).2 _
            (List.mem_map_of_mem he)
        unfold FecEncode.FecEncodeManager.pad
        rw [List.length_append, List.length_replicate]
        omega)
    constructor
    · rintro ⟨d', hok⟩ ⟨-, hlack⟩
      obtain ⟨data, hdata, -⟩ := Checked.doBind_eq_ok.mp hok
      change Checked.ofOption (c.decode g.x g.n _ _) = _ at hdata
      rw [Checked.ofOption_eq_ok, hfew hlack] at hdata
      exact absurd hdata (by simp)
    · intro hnot
      obtain ⟨data, hdata, -, -⟩ := henough (by
        by_contra hlack
        exact hnot ⟨hlens, by omega⟩)
      change ∃ d', (Checked.ofOption (c.decode g.x g.n _ _) >>= fun data => _) = .ok d'
      rw [hdata]
      simp only [Checked.ofOption_some, Checked.ok_bind]
      split
      · rw [ready_eq_ok (d := d.markDone h.seq g) hready]
        exact retire_ok
          (d := { d.markDone h.seq g with readyForOutput := true, outputBuf := _ }) hwf _
      · exact retire_ok (d := { d.markDone h.seq g with readyForOutput := false }) hwf _
  · rw [if_neg hlens]
    exact ⟨fun _ hand => hlens hand.1, fun _ => retire_ok hwf _⟩

/-- The second half of `input` aborts exactly if it decodes a group with too
few shards. -/
theorem finish_ok_iff (hc : ∀ k n, 1 ≤ k → k ≤ n → n < maxFecPacketNum → c.Total k n)
    (hwf : SlotsWf S d) (hready : d.readyForOutput = false) (hmp : d.mp h.seq = some g)
    (hagrees : g.Agrees h) (hblob : h.type = 0 → h.dataNum ≠ 0)
    (hbody : h.body.length + 100 < bufLen) (now : UInt64) (stale : Mem) :
    (∃ d', d.finish c now stale h = .ok d') ↔ ¬ (Decodes (d.lens g) h g ∧ g.shards < g.x) := by
  have hget : (d.mp h.seq).getD {} = g := by rw [hmp]; rfl
  have hg := hwf.group _ _ hmp
  have hsend : ∀ (p : Prop) [Decidable p],
      ∃ d', (if p then d.ready [h.body.drop 2] else pure d) = .ok d' := by
    intro p _
    split
    · exact ⟨_, ready_eq_ok hready⟩
    · exact ⟨d, rfl⟩
  unfold finish Decodes
  rw [hget]
  dsimp only
  by_cases htype : h.type = 0
  · rw [if_pos htype, if_pos htype]
    by_cases hmany : g.groupMp.length > h.dataNum
    · rw [if_pos hmany]
      exact ⟨fun _ hand => by omega, fun _ => retire_ok hwf.antiReplay _⟩
    · rw [if_neg hmany]
      by_cases hfull : g.groupMp.length = h.dataNum
      · rw [if_pos hfull, decodeBlob_ok_iff hc hwf.antiReplay hready hg hagrees htype
          (hblob htype) hbody]
        simp only [hfull, true_and]
      · rw [if_neg hfull]
        exact ⟨fun _ hand => hfull hand.1, fun _ => ⟨d, rfl⟩⟩
  · rw [if_neg htype, if_neg htype]
    cases hx : g.dataNum with
    | none => exact ⟨fun _ hand => hand.1.1 rfl, fun _ => hsend _⟩
    | some x =>
        have hxeq : g.x = x := by
          unfold FecGroup.x
          rw [hx]
          rfl
        dsimp only
        by_cases hmany : g.groupMp.length > x + 1
        · rw [if_pos hmany]
          exact ⟨fun _ hand => by omega, fun _ => retire_ok hwf.antiReplay _⟩
        · rw [if_neg hmany]
          by_cases hfull : g.groupMp.length ≥ x
          · rw [if_pos hfull, decodePackets_ok_iff hc hwf.antiReplay hready hg.nodup hg.numbered
              (by simp [hx])]
            constructor
            · intro hnot hand
              exact hnot ⟨hand.1.2.2.2, hand.2⟩
            · intro hnot hand
              exact hnot ⟨⟨by simp, by omega, by omega, hand.1⟩, hand.2⟩
          · rw [if_neg hfull]
            exact ⟨fun _ hand => by omega, fun _ => hsend _⟩

end Finish

/-! ## One call -/

section Input

variable {S : Set Bytes} {c : Code} {d : FecDecodeManager} {now : UInt64} {stale : Mem}
  {s : Bytes} {h : Header}

/-- The lengths of the packets of a group, with the new one. -/
theorem lens_grown (hwf : SlotsWf S d) (henters : d.Enters now h) (a : AntiReplay)
    (mp : UInt32 → Option FecGroup) :
    lens { d with
        antiReplay := a
        fecData := Function.update d.fecData d.index (slotOf h)
        mp := mp } (d.grown h d.index)
      = h.body.length :: d.lens (d.groupOf h.seq) := by
  unfold lens grown
  dsimp only
  rw [List.map_cons, Function.update_self]
  refine congrArg (_ :: ·) (List.map_congr_left fun e he => ?_)
  have hne : e.2 ≠ d.index := by
    intro hslot
    rcases groupOf_cases d h.seq with ⟨-, hfresh⟩ | hmp
    · rw [hfresh] at he
      exact absurd he (by simp)
    · obtain ⟨hused, hseq, -⟩ := hwf.owner hmp he
      rw [hslot] at hused hseq
      exact henters.other hused hseq
  rw [Function.update_of_ne hne]

/-- A call of `input` aborts exactly if the packet completes a group that has
too few shards. -/
theorem input_ok_iff (hc : ∀ k n, 1 ≤ k → k ≤ n → n < maxFecPacketNum → c.Total k n)
    (hwf : SlotsWf S d) (hready : d.readyForOutput = false) (hs : s ∈ S)
    (hlen : s.length + 100 < bufLen) :
    (∃ r, d.input c now stale s = .ok r) ↔ ¬ Starves d now s := by
  unfold FecDecodeManager.input
  by_cases hany : ∃ h, parseHeader s = some h ∧ d.Enters now h
  · obtain ⟨h, hparse, henters⟩ := hany
    obtain ⟨hsum, hbody, hblob⟩ := parseHeader_spec hparse
    obtain ⟨a, mp₁, ha, hmp₁, hplace⟩ := place_of_enters hwf hlen hparse henters
    have hstored := hwf.stored hs hparse henters ha hmp₁
    have hlens := lens_grown hwf henters a
      (Function.update mp₁ h.seq (some (d.grown h d.index)))
    have hagrees : (d.grown h d.index).Agrees h :=
      (join_spec (Prod.ext rfl henters.joins)).2.2.1
    generalize hd₁ : ({ d with
        antiReplay := a
        fecData := Function.update d.fecData d.index (slotOf h)
        mp := Function.update mp₁ h.seq (some (d.grown h d.index)) } : FecDecodeManager) = d₁
      at hplace hstored hlens
    have hready₁ : d₁.readyForOutput = false := by rw [← hd₁]; exact hready
    have hmp : d₁.mp h.seq = some (d.grown h d.index) := by
      rw [← hd₁]
      exact Function.update_self _ _ _
    have hfinish := finish_ok_iff hc hstored hready₁ hmp hagrees hblob (by omega) now stale
    have hstarves : Starves d now s ↔
        Decodes (d₁.lens (d.grown h d.index)) h (d.grown h d.index) ∧
          (d.grown h d.index).shards < (d.grown h d.index).x := by
      unfold Starves Completes
      rw [hlens]
      constructor
      · rintro ⟨h', hparse', -, hcomp, hlack⟩
        obtain rfl := Option.some.inj (hparse.symm.trans hparse')
        exact ⟨hcomp, hlack⟩
      · rintro ⟨hcomp, hlack⟩
        exact ⟨h, hparse, henters, hcomp, hlack⟩
    rw [hplace, hstarves, ← hfinish]
    constructor
    · rintro ⟨r, hok⟩
      change (d₁.finish c now stale h >>= fun d => _) = _ at hok
      obtain ⟨d', hfin, -⟩ := Checked.doBind_eq_ok.mp hok
      exact ⟨d', hfin⟩
    · rintro ⟨d', hfin⟩
      refine ⟨(0, { d' with index := Ring.next fecBuffNum d'.index }), ?_⟩
      show (d₁.finish c now stale h >>= fun d => _) = _
      rw [hfin]
      rfl
  · have hno : ∀ h, parseHeader s = some h → ¬ d.Enters now h := by
      intro h hparse henters
      exact hany ⟨h, hparse, henters⟩
    obtain ⟨ret, a, mp, hplace, -, -⟩ := place_of_not_enters hwf hlen hno
    rw [hplace]
    refine ⟨?_, fun _ => ⟨_, rfl⟩⟩
    rintro - ⟨h, hparse, henters, -⟩
    exact hno h hparse henters

end Input

/-! ## Whole runs -/

/-- What comes from the network, and when. -/
structure Datagram where
  now : UInt64
  stale : Mem
  s : Bytes

/-- `from_fec_to_normal`: `input`, then `output`. -/
def fromFecToNormal (c : Code) (d : FecDecodeManager) (p : Datagram) :
    Checked (FecDecodeManager × List Bytes) := do
  let (_, d) ← d.input c p.now p.stale p.s
  return d.output

/-- Between two packets: map and slots are in order, and nothing waits. -/
structure Idle (S : Set Bytes) (d : FecDecodeManager) : Prop where
  slots : SlotsWf S d
  ready : d.readyForOutput = false

theorem fromFecToNormal_ok_iff {S : Set Bytes} {c : Code} {d : FecDecodeManager} {p : Datagram}
    (hc : ∀ k n, 1 ≤ k → k ≤ n → n < maxFecPacketNum → c.Total k n) (hidle : Idle S d)
    (hs : p.s ∈ S) (hlen : p.s.length + 100 < bufLen) :
    (∃ r, fromFecToNormal c d p = .ok r) ↔ ¬ Starves d p.now p.s := by
  rw [← input_ok_iff hc hidle.slots hidle.ready hs hlen]
  constructor
  · rintro ⟨r, hok⟩
    obtain ⟨⟨ret, d₁⟩, hin, -⟩ := Checked.doBind_eq_ok.mp hok
    exact ⟨(ret, d₁), hin⟩
  · rintro ⟨⟨ret, d₁⟩, hin⟩
    refine ⟨d₁.output, ?_⟩
    unfold fromFecToNormal
    rw [hin]
    rfl

theorem Idle.fromFecToNormal {S : Set Bytes} {c : Code} {d d' : FecDecodeManager} {p : Datagram}
    {out : List Bytes} (hidle : Idle S d) (hs : p.s ∈ S)
    (hok : fromFecToNormal c d p = .ok (d', out)) : Idle S d' := by
  obtain ⟨⟨ret, d₁⟩, hin, heq⟩ := Checked.doBind_eq_ok.mp hok
  have hslots := hidle.slots.input hs hin
  have hout : d' = d₁.output.1 := (congrArg Prod.fst (Except.ok.inj heq)).symm
  rw [hout]
  unfold FecDecodeManager.output
  by_cases hready : d₁.readyForOutput = true
  · rw [if_pos hready]
    exact ⟨⟨hslots.antiReplay, hslots.index_lt, hslots.group⟩, rfl⟩
  · rw [if_neg hready]
    exact ⟨hslots, by simpa using hready⟩

/-- A run on any packets aborts exactly at a packet that completes a group
with too few shards. -/
theorem decoder_returns_iff {c : Code}
    (hc : ∀ k n, 1 ≤ k → k ≤ n → n < maxFecPacketNum → c.Total k n) {ps : List Datagram}
    (hlen : ∀ p ∈ ps, p.s.length + 100 < bufLen) :
    (∃ d outs, run (fromFecToNormal c) {} ps = .ok (d, outs)) ↔
      ∀ pre p post, ps = pre ++ p :: post → ∀ d outs,
        run (fromFecToNormal c) {} pre = .ok (d, outs) → ¬ Starves d p.now p.s := by
  have hidle : Idle {s | ∃ p ∈ ps, p.s = s} {} := ⟨slotsWf_init _, rfl⟩
  refine run_ok_iff ?_ ?_ hidle
  · intro d d' p out hp hd hok
    exact hd.fromFecToNormal ⟨p, hp, rfl⟩ hok
  · intro d p hp hd
    exact fromFecToNormal_ok_iff hc hd ⟨p, hp, rfl⟩ (hlen p hp)

/-- A single data packet of a group of one is decoded. -/
theorem decoder_returns_single : ∃ d outs,
    run (fromFecToNormal Code.systematic) {} [⟨0, fun _ => 0, [0, 0, 0, 7, 0, 1, 0, 0, 0, 0, 0, 0]⟩]
      = .ok (d, outs) := by
  refine (decoder_returns_iff (fun k n _ hk _ => Code.systematic_total hk) ?_).mpr ?_
  · intro p hp
    obtain rfl := List.mem_singleton.mp hp
    decide
  · intro pre p post hsplit d outs hrun
    obtain rfl : pre = [] := by
      have := congrArg List.length hsplit
      simp only [List.length_append, List.length_cons, List.length_nil] at this
      exact List.length_eq_zero_iff.mp (by omega)
    obtain ⟨rfl, -⟩ := List.cons.inj hsplit
    obtain ⟨rfl, -⟩ := Prod.mk.inj (Except.ok.inj hrun)
    rintro ⟨h, hparse, -, -, hlack⟩
    have hh : parseHeader [0, 0, 0, 7, 0, 1, 0, 0, 0, 0, 0, 0]
        = some ⟨7, 0, 1, 0, 0, [0, 0, 0, 0]⟩ := by decide
    obtain rfl := Option.some.inj (hh.symm.trans hparse)
    exact absurd hlack (by decide)

/-- A packet with an index past the last shard of its group aborts the decoder. -/
theorem foreign_index_aborts :
    ¬ Checked.NoAssert (run (fromFecToNormal Code.systematic) {}
      [⟨0, fun _ => 0, [0, 0, 0, 7, 0, 1, 0, 5]⟩]) := by
  decide +kernel

end Fecraw.Ports.FecDecode
