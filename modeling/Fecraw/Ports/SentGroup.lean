import Fecraw.Ports.FecDecode

/-!
# Groups as they are sent

What the encoder puts on the wire for one group, in either mode, and what a
perfect receiver makes of it.  `SentGroup` is the group itself: its numbers,
its data shards and the packets that were accepted into it.  `Shaped` says
how these belong together, `Valid` that the code can make up for losses; the
encoder is shown elsewhere to send such groups only.

`outputOf` is the receiver's purpose, stated without slots, rings or
windows: given which packets of the group it has, what the next one makes
it output.

## Main results

* `parseHeader_packet`: every packet of a valid group passes the decoder's
  header checks.
* `decodeBlob_eq_ok`, `decodePackets_eq_ok`: a decoder that holds enough
  packets of a valid group gives its packets back.
-/

namespace Fecraw.Ports.FecDecode

open Fecraw.Verified Fecraw.Ports.Packet Fecraw.Ports.RsTable Fecraw.Ports.BlobCodec
open FecEncode.FecEncodeManager (packetHeader pad)
open FecDecodeManager (retire)

/-- One group of the encoder. -/
structure SentGroup where
  seq : UInt32
  mode : Nat
  x : Nat
  y : Nat
  len : Nat
  /-- The data shards. -/
  data : List Bytes
  /-- The packets that were accepted into the group. -/
  accepted : List Bytes

namespace SentGroup

variable (c : Code) (G : SentGroup)

/-- In mode 1 the data packets are sent before the group's numbers are known. -/
def bare (i : Nat) : Prop := G.mode = 1 ∧ i < G.x

instance (i : Nat) : Decidable (G.bare i) := by
  unfold bare
  infer_instance

/-- What follows the header of packet `i`. -/
def body (i : Nat) : Bytes :=
  if G.bare i then BlobEncode.record (G.accepted.getD i [])
  else c.shard G.x (G.x + G.y) G.len G.data i

/-- Packet `i` of the group. -/
def packet (i : Nat) : Bytes :=
  packetHeader G.seq G.mode (if G.bare i then 0 else G.x) (if G.bare i then 0 else G.y) i
    ++ G.body c i

/-- The numbers and the contents of a group belong together. -/
structure Shaped : Prop where
  mode : G.mode = 0 ∨ G.mode = 1
  x_pos : 1 ≤ G.x
  x_le : G.x ≤ 255
  sum_le : G.x + G.y ≤ 256
  length_data : G.data.length = G.x
  length_shard : ∀ d ∈ G.data, d.length = G.len
  blob : G.mode = 0 →
    (∃ stale, G.data.flatten
      = writeU32 G.accepted.length ++ BlobEncode.records G.accepted ++ stale) ∧
    (∀ p ∈ G.accepted, p.length ≤ 65535) ∧ G.accepted.length ≤ maxBlobPacketNum
  packets : G.mode = 1 →
    G.data = G.accepted.map (fun p => pad G.len (BlobEncode.record p)) ∧
    ∀ p ∈ G.accepted, p.length ≤ maxDataLen ∧ 2 + p.length ≤ G.len

/-- The decoder takes all packets of the group, and the code can make up for
lost ones. -/
structure Valid : Prop extends G.Shaped where
  sum_lt : G.mode = 0 ∨ 0 < G.y → G.x + G.y < maxFecPacketNum
  mds : G.mode = 0 ∨ 0 < G.y → c.Mds G.x (G.x + G.y)

/-! ## What the receiver is for -/

/-- The numbers of the group are on one of the packets. -/
def known (S : List Nat) : Prop := G.mode = 0 ∨ ∃ i ∈ S, G.x ≤ i

/-- The packets determine the group. -/
def decodable (S : List Nat) : Prop := G.x ≤ S.length ∧ G.known S

instance (S : List Nat) : Decidable (G.known S) := by
  unfold known
  infer_instance

instance (S : List Nat) : Decidable (G.decodable S) := by
  unfold decodable
  infer_instance

/-- What packet `i` makes a receiver output that has the packets `S`, not
enough to decode the group. -/
def outputOf (S : List Nat) (i : Nat) : List Bytes :=
  if G.decodable (i :: S) then
    if G.mode = 0 then G.accepted
    else ((List.range G.x).filter (· ∉ S)).map fun j => G.accepted.getD j []
  else if G.bare i then [G.accepted.getD i []]
  else []

variable {c G}

theorem known_cons {S : List Nat} {i : Nat} :
    G.known (i :: S) ↔ G.known S ∨ G.x ≤ i := by
  unfold known
  simp only [List.mem_cons, exists_eq_or_imp]
  rw [or_assoc, or_comm (a := G.x ≤ i)]

/-! ## Sizes -/

namespace Shaped

theorem length_accepted (h : G.Shaped) (hmode : G.mode = 1) :
    G.accepted.length = G.x := by
  have := h.length_data
  rw [(h.packets hmode).1, List.length_map] at this
  exact this

theorem accepted_mem (h : G.Shaped) (hmode : G.mode = 1) {i : Nat} (hi : i < G.x) :
    G.accepted.getD i [] ∈ G.accepted := by
  rw [List.getD_eq_getElem _ _ (by rw [h.length_accepted hmode]; exact hi)]
  exact List.getElem_mem _

theorem length_body_le (h : G.Shaped) (i : Nat) : (G.body c i).length ≤ G.len := by
  unfold body
  split
  · next hbare =>
      rw [BlobEncode.length_record]
      exact ((h.packets hbare.1).2 _ (h.accepted_mem hbare.1 hbare.2)).2
  · rw [Code.length_shard h.length_data h.length_shard]

theorem length_body (h : G.Shaped) {i : Nat} (hi : ¬ G.bare i) :
    (G.body c i).length = G.len := by
  unfold body
  rw [if_neg hi, Code.length_shard h.length_data h.length_shard]

/-- Padded, a body is the shard of its index. -/
theorem pad_body (h : G.Shaped) (i : Nat) :
    pad G.len (G.body c i) = c.shard G.x (G.x + G.y) G.len G.data i := by
  by_cases hbare : G.bare i
  · have hmem : i < G.accepted.length := by
      rw [h.length_accepted hbare.1]
      exact hbare.2
    rw [Code.shard_of_lt hbare.2]
    unfold body
    rw [if_pos hbare, (h.packets hbare.1).1, List.getD_eq_getElem _ _ hmem,
      List.getD_eq_getElem _ _ (by rw [List.length_map]; exact hmem), List.getElem_map]
  · have hlen := h.length_body (c := c) hbare
    unfold pad
    rw [hlen, Nat.sub_self, List.replicate_zero, List.append_nil]
    unfold body
    rw [if_neg hbare]

end Shaped

/-! ## The header checks -/

/-- What the decoder reads from packet `i`. -/
def header (c : Code) (G : SentGroup) (i : Nat) : Header where
  seq := G.seq
  type := G.mode
  dataNum := if G.bare i then 0 else G.x
  redundantNum := if G.bare i then 0 else G.y
  innerIndex := i
  body := G.body c i

private theorem parse_fields (seq : UInt32) (mode x y i : Nat) (body : Bytes)
    (hmode : mode < 256) (hx : x < 256) (hy : y < 256) (hi : i < 256) :
    let s := packetHeader seq mode x y i ++ body
    UInt32.ofNat (readU32 s) = seq ∧ (s.getD 4 0).toNat = mode ∧
      (s.getD 5 0).toNat = x ∧ (s.getD 6 0).toNat = y ∧ (s.getD 7 0).toNat = i ∧
      s.drop 8 = body := by
  refine ⟨?_, ?_, ?_, ?_, ?_, rfl⟩
  · unfold packetHeader
    rw [List.append_assoc]
    exact ofNat_readU32_writeU32 seq _
  · show (UInt8.ofNat ((mode : Int) % 2 ^ 8).toNat).toNat = mode
    rw [UInt8.toNat_ofNat']
    omega
  · show (UInt8.ofNat x).toNat = x
    rw [UInt8.toNat_ofNat', Nat.mod_eq_of_lt hx]
  · show (UInt8.ofNat y).toNat = y
    rw [UInt8.toNat_ofNat', Nat.mod_eq_of_lt hy]
  · show (UInt8.ofNat i).toNat = i
    rw [UInt8.toNat_ofNat', Nat.mod_eq_of_lt hi]

/-- A bare packet carries its own length. -/
theorem readU16_body (h : G.Shaped) {i : Nat} (hi : G.bare i) :
    readU16 (G.body c i) + 2 = (G.body c i).length := by
  have hlen := ((h.packets hi.1).2 _ (h.accepted_mem hi.1 hi.2)).1
  unfold maxDataLen at hlen
  unfold body
  rw [if_pos hi, BlobEncode.length_record, BlobEncode.record, readU16_writeU16,
    Nat.mod_eq_of_lt (by omega), Nat.add_comm]

theorem two_le_length_body (h : G.Shaped) (hmode : G.mode = 1) (i : Nat) :
    2 ≤ (G.body c i).length := by
  by_cases hbare : G.bare i
  · have := readU16_body (c := c) h hbare
    omega
  · have hmem := h.accepted_mem hmode (i := 0) h.x_pos
    have := ((h.packets hmode).2 _ hmem).2
    rw [h.length_body hbare]
    omega

/-- A packet passes the header checks if it does not carry the numbers of its
group, or the decoder accepts these. -/
theorem parseHeader_packet (h : G.Shaped) {i : Nat} (hi : i < G.x + G.y)
    (hnum : G.bare i ∨ G.x + G.y < maxFecPacketNum) :
    parseHeader (G.packet c i) = some (G.header c i) := by
  have hsum := h.sum_le
  have hx := h.x_pos
  have hx' := h.x_le
  unfold maxFecPacketNum at hnum
  have hidx : i < 255 := by
    rcases hnum with hbare | hlt
    · exact Nat.lt_of_lt_of_le hbare.2 hx'
    · omega
  have hmode : G.mode < 256 := by rcases h.mode with hm | hm <;> omega
  have hfields := parse_fields G.seq G.mode (if G.bare i then 0 else G.x)
    (if G.bare i then 0 else G.y) i (G.body c i) hmode (by split <;> omega)
    (by split <;> omega) (by omega)
  obtain ⟨hseq, htype, hdn, hrn, hinner, hbody⟩ := hfields
  unfold parseHeader packet
  rw [if_neg (by simp)]
  simp only [hseq, htype, hdn, hrn, hinner, hbody]
  rw [if_neg, if_neg, if_neg, if_neg]
  · rfl
  · unfold maxFecPacketNum
    split
    · omega
    · next hbare =>
        have hlt := hnum.resolve_left hbare
        omega
  · rintro ⟨hm, h0⟩
    split at h0
    · next hbare =>
        rw [hbare.1] at hm
        exact absurd hm (by decide)
    · omega
  · rintro ⟨-, h0, hne⟩
    split at h0
    · next hbare => exact hne (readU16_body h hbare)
    · omega
  · rintro ⟨hm, hshort⟩
    have := two_le_length_body (c := c) h hm i
    omega

/-- Every packet of a valid group does. -/
theorem Valid.header_eq (h : G.Valid c) {i : Nat} (hi : i < G.x + G.y) :
    parseHeader (G.packet c i) = some (G.header c i) := by
  refine parseHeader_packet h.toShaped hi ?_
  by_cases hbare : G.bare i
  · exact .inl hbare
  · refine .inr (h.sum_lt ?_)
    rcases h.mode with hmode | hmode
    · exact .inl hmode
    · have hge : G.x ≤ i := not_lt.mp fun hlt => hbare ⟨hmode, hlt⟩
      exact .inr (by omega)

end SentGroup

/-! ## A decoder that holds packets of a group -/

namespace FecGroup

/-- The indices of the packets that are there. -/
def keys (g : FecGroup) : List Nat := g.groupMp.map Prod.fst

theorem mem_of_slot_eq_some {g : FecGroup} {i k : Nat} (h : g.slot i = some k) :
    (i, k) ∈ g.groupMp := by
  unfold slot at h
  obtain ⟨l₁, l₂, heq, -⟩ := List.lookup_eq_some_iff.mp h
  rw [heq]
  simp

theorem slot_isSome_iff {g : FecGroup} {i : Nat} : (g.slot i).isSome ↔ i ∈ g.keys := by
  unfold slot keys
  constructor
  · intro h
    obtain ⟨k, hk⟩ := Option.isSome_iff_exists.mp h
    exact List.mem_map.mpr ⟨(i, k), mem_of_slot_eq_some hk, rfl⟩
  · intro h
    obtain ⟨⟨j, k⟩, hmem, rfl⟩ := List.mem_map.mp h
    rw [Option.isSome_iff_ne_none]
    intro hnone
    have hne := List.lookup_eq_none_iff.mp hnone _ hmem
    simp at hne

end FecGroup

/-- The slots of a group hold packets of the sent group `G`. -/
structure Holds (c : Code) (slots : Nat → FecData) (G : SentGroup) (g : FecGroup) :
    Prop where
  type : g.type = some G.mode
  nodup : g.keys.Nodup
  index_lt : ∀ i ∈ g.keys, i < G.x + G.y
  slot : ∀ e ∈ g.groupMp, e.2 < fecBuffNum ∧ (slots e.2).used = true ∧
    (slots e.2).seq = G.seq ∧ (slots e.2).buf = G.body c e.1
  numbers : G.known g.keys →
    g.dataNum = some G.x ∧ g.redundantNum = some G.y ∧ g.len = some G.len
  no_numbers : ¬ G.known g.keys → g.dataNum = none

section Decode

variable {c : Code} {G : SentGroup} {d : FecDecodeManager} {g : FecGroup}

open SentGroup

theorem got_eq_some (hg : Holds c d.fecData G g) {i : Nat} {b : Bytes}
    (h : d.got g i = some b) : b = G.body c i := by
  unfold FecDecodeManager.got at h
  obtain ⟨k, hk, rfl⟩ := Option.map_eq_some_iff.mp h
  exact (hg.slot _ (FecGroup.mem_of_slot_eq_some hk)).2.2.2

theorem got_isSome_iff {i : Nat} : (d.got g i).isSome ↔ i ∈ g.keys := by
  unfold FecDecodeManager.got
  rw [Option.isSome_map]
  exact FecGroup.slot_isSome_iff

/-- As many shards are there as packets are stored. -/
theorem card_present (hg : Holds c d.fecData G g) {f : Bytes → Bytes} :
    (Code.present (G.x + G.y) fun i => (d.got g i).map f).card = g.groupMp.length := by
  have hset : Code.present (G.x + G.y) (fun i => (d.got g i).map f)
      = g.keys.toFinset := by
    ext i
    unfold Code.present
    rw [Finset.mem_filter, Finset.mem_range, Option.isSome_map, got_isSome_iff,
      List.mem_toFinset]
    exact ⟨fun h => h.2, fun h => ⟨hg.index_lt i h, h⟩⟩
  rw [hset, List.toFinset_card_of_nodup hg.nodup, FecGroup.keys, List.length_map]

/-- The stored packets, padded, determine the data shards. -/
theorem decode_padded (hG : G.Valid c) (hg : Holds c d.fecData G g)
    (hdec : G.decodable g.keys) :
    c.decode G.x (G.x + G.y) G.len (fun i => (d.got g i).map (pad G.len))
      = some G.data := by
  have hred : G.mode = 0 ∨ 0 < G.y := by
    rcases hdec.2 with hm | ⟨i, hi, hxi⟩
    · exact .inl hm
    · have := hg.index_lt i hi
      exact .inr (by omega)
  apply hG.mds hred G.len G.data hG.length_data hG.length_shard
  · intro i b hb
    obtain ⟨b', hb', rfl⟩ := Option.map_eq_some_iff.mp hb
    rw [got_eq_some hg hb', hG.pad_body]
  · rw [card_present hg]
    have := hdec.1
    rwa [FecGroup.keys, List.length_map] at this

theorem ready_eq_ok {out : List Bytes} (hready : d.readyForOutput = false) :
    d.ready out = .ok { d with readyForOutput := true, outputBuf := out } := by
  unfold FecDecodeManager.ready
  rw [Checked.check_of hready]
  rfl

/-- Without padding, the shards of mode 0 are what is stored. -/
private theorem got_eq_padded (hG : G.Valid c) (hg : Holds c d.fecData G g)
    (hmode : G.mode = 0) :
    d.got g = fun i => (d.got g i).map (pad G.len) := by
  funext i
  cases hi : d.got g i with
  | none => rfl
  | some b =>
      have hlen := hG.length_body (c := c) (i := i) (fun hb => by
        rw [hb.1] at hmode
        exact absurd hmode (by decide))
      rw [got_eq_some hg hi, Option.map_some, pad, hlen, Nat.sub_self,
        List.replicate_zero, List.append_nil]

/-- A group of mode 0 that is complete is given back in one piece. -/
theorem decodeBlob_eq_ok (hG : G.Valid c) (hg : Holds c d.fecData G g) (hmode : G.mode = 0)
    (hdec : G.decodable g.keys) (hlen : G.len + 100 < bufLen)
    (hready : d.readyForOutput = false) (now : UInt64) {h : Header}
    (hbody : h.body.length = G.len) :
    d.decodeBlob c now h g
      = retire { d.markDone h.seq g with readyForOutput := true, outputBuf := G.accepted }
          now h.seq := by
  obtain ⟨hx, hy, -⟩ := hg.numbers hdec.2
  obtain ⟨⟨stale, hflat⟩, hshort, hfew⟩ := hG.blob hmode
  have hsum := hG.sum_lt (.inl hmode)
  unfold maxFecPacketNum at hsum
  have hdecode : c.decode G.x (G.x + G.y) G.len (d.got g) = some G.data := by
    rw [got_eq_padded hG hg hmode]
    exact decode_padded hG hg hdec
  obtain ⟨b, hb, hbuf⟩ := @BlobDecode.input_shards G.len G.data {} hG.length_shard
    (by simp) (by simp [hG.length_data]; omega) (by
      have hle : G.data.length * G.len ≤ 254 * 3700 := by
        rw [hG.length_data]
        exact Nat.mul_le_mul (by omega) (by unfold bufLen maxDataLen at hlen; omega)
      simp only [blobBufSize, List.length_nil]
      omega)
  have hout : b.output = some G.accepted := by
    have hinput : b.inputBuf
        = writeU32 G.accepted.length ++ BlobEncode.records G.accepted ++ stale := by
      rw [hbuf, hflat]
      rfl
    exact BlobDecode.output_records hinput hshort hfew
  unfold FecDecodeManager.decodeBlob
  simp only [hx, hy, Option.getD_some, hbody, hdecode, Checked.ofOption_some,
    Checked.ok_bind, hb, hout]
  rw [ready_eq_ok (d := d.markDone h.seq g) hready]
  rfl

/-! ## Mode 1 -/

private theorem foldl_max_eq {m : Nat} : ∀ {ls : List Nat} {a : Nat}, a ≤ m →
    (∀ l ∈ ls, l ≤ m) → (a = m ∨ m ∈ ls) → ls.foldl max a = m := by
  intro ls
  induction ls with
  | nil =>
      intro a _ _ hmem
      rcases hmem with h | h
      · exact h
      · exact absurd h (by simp)
  | cons l ls ih =>
      intro a ha hle hmem
      have hl := hle l (by simp)
      rw [List.foldl_cons]
      apply ih (by omega) (fun l' hl' => hle l' (List.mem_cons_of_mem _ hl'))
      rcases hmem with rfl | hmem
      · exact .inl (by omega)
      · rcases List.mem_cons.mp hmem with rfl | hmem
        · exact .inl (by omega)
        · exact .inr hmem

theorem lens_le (hG : G.Valid c) (hg : Holds c d.fecData G g) :
    ∀ l ∈ d.lens g, l ≤ G.len := by
  intro l hl
  obtain ⟨e, he, rfl⟩ := List.mem_map.mp hl
  rw [(hg.slot e he).2.2.2]
  exact hG.length_body_le e.1

/-- A redundant packet has the length of the group. -/
theorem maxLen_eq (hG : G.Valid c) (hg : Holds c d.fecData G g) (hmode : G.mode = 1)
    (hknown : G.known g.keys) : (d.lens g).foldl max 0 = G.len := by
  apply foldl_max_eq (Nat.zero_le _) (lens_le hG hg)
  right
  rcases hknown with hm | ⟨i, hi, hxi⟩
  · rw [hmode] at hm
    exact absurd hm (by decide)
  · obtain ⟨e, he, rfl⟩ := List.mem_map.mp hi
    refine List.mem_map.mpr ⟨e, he, ?_⟩
    rw [(hg.slot e he).2.2.2]
    exact hG.length_body fun hb => by
      have := hb.2
      omega

theorem two_le_lens (hG : G.Valid c) (hg : Holds c d.fecData G g) (hmode : G.mode = 1) :
    ∀ l ∈ d.lens g, 2 ≤ l := by
  intro l hl
  obtain ⟨e, he, rfl⟩ := List.mem_map.mp hl
  rw [(hg.slot e he).2.2.2]
  exact two_le_length_body hG.toShaped hmode e.1

/-- The packet in a data shard is the one that was accepted. -/
theorem unpack_data (hG : G.Valid c) (hmode : G.mode = 1) (stale : Mem) {i : Nat}
    (hi : i < G.x) :
    readU16 (G.data.getD i []) = (G.accepted.getD i []).length ∧
      FecDecodeManager.unpack stale (G.data.getD i []) = G.accepted.getD i [] := by
  set p := G.accepted.getD i [] with hp
  have hmem : i < G.accepted.length := by
    rw [hG.length_accepted hmode]
    exact hi
  have hlens := (hG.packets hmode).2 p (hG.accepted_mem hmode hi)
  unfold maxDataLen at hlens
  have hshard : G.data.getD i []
      = writeU16 p.length ++ (p ++ List.replicate (G.len - (2 + p.length)) 0) := by
    rw [(hG.packets hmode).1, List.getD_eq_getElem _ _ (by rw [List.length_map]; exact hmem),
      List.getElem_map, hp, List.getD_eq_getElem _ _ hmem]
    simp [pad, BlobEncode.record]
  have hread : readU16 (G.data.getD i []) = p.length := by
    rw [hshard, readU16_writeU16, Nat.mod_eq_of_lt (by omega)]
  refine ⟨hread, ?_⟩
  unfold FecDecodeManager.unpack
  rw [hread, hshard]
  apply List.ext_getElem
  · simp
  · intro j h1 h2
    simp only [List.getElem_map, List.getElem_range]
    unfold byteAt
    rw [if_pos (by simp; omega), List.getD_eq_getElem?_getD,
      List.getElem?_append_right (by simp), length_writeU16, Nat.add_sub_cancel_left,
      List.getElem?_append_left h2, List.getElem?_eq_getElem h2, Option.getD_some]

/-- A group of mode 1 gives the packets that are missing, and the one with
index `i` that just arrived. -/
theorem decodePackets_eq_ok (hG : G.Valid c) (hg : Holds c d.fecData G g)
    (hmode : G.mode = 1) (hdec : G.decodable g.keys) (hready : d.readyForOutput = false)
    (now : UInt64) (stale : Mem) {h : Header} {S : List Nat}
    (hkeys : g.keys = h.innerIndex :: S) (hnew : h.innerIndex ∉ S) :
    d.decodePackets c now stale h g
      = retire { d.markDone h.seq g with
          readyForOutput := true
          outputBuf := ((List.range G.x).filter (· ∉ S)).map fun j => G.accepted.getD j [] }
        now h.seq := by
  obtain ⟨hx, hy, hlen⟩ := hg.numbers hdec.2
  have hmax := maxLen_eq hG hg hmode hdec.2
  have hdata := decode_padded hG hg hdec
  have hmissed : (List.range G.x).filter
      (fun i => (d.got g i).isNone || i == h.innerIndex)
        = (List.range G.x).filter (· ∉ S) := by
    apply List.filter_congr
    intro i _
    rw [Bool.eq_iff_iff, Bool.or_eq_true, decide_eq_true_eq, beq_iff_eq,
      ← Option.not_isSome, Bool.not_eq_true', Bool.eq_false_iff, Ne, got_isSome_iff, hkeys,
      List.mem_cons, not_or]
    constructor
    · rintro (hi | rfl)
      · exact hi.2
      · exact hnew
    · intro hi
      by_cases heq : i = h.innerIndex
      · exact .inr heq
      · exact .inl ⟨heq, hi⟩
  have hout : compact (fun i => FecDecodeManager.unpack stale (G.data.getD i []))
      ((List.range G.x).filter (· ∉ S))
        = ((List.range G.x).filter (· ∉ S)).map fun j => G.accepted.getD j [] := by
    rw [compact_eq_map (List.Pairwise.filter _ List.pairwise_lt_range)]
    apply List.map_congr_left
    intro i hi
    exact (unpack_data hG hmode stale (List.mem_range.mp (List.mem_filter.mp hi).1)).2
  have hshort : ∀ i < G.x, readU16 (G.data.getD i []) ≤ maxDataLen := by
    intro i hi
    rw [(unpack_data hG hmode stale hi).1]
    exact ((hG.packets hmode).2 _ (hG.accepted_mem hmode hi)).1
  unfold FecDecodeManager.decodePackets
  simp only [hx, hy, hlen, hmax, Option.getD_some]
  rw [if_pos ⟨two_le_lens hG hg hmode, trivial⟩, hdata, Checked.ofOption_some,
    Checked.ok_bind, if_pos hshort, hmissed, hout,
    ready_eq_ok (d := d.markDone h.seq g) hready]
  rfl

/-! ## The second half of `input` -/

/-- Data packets only, all different, are at most as many as the group has. -/
theorem length_le_of_not_decodable {S : List Nat} (hnodup : S.Nodup)
    (h : ¬ G.decodable S) : S.length ≤ G.x := by
  by_cases hlen : G.x ≤ S.length
  · have hdata : ∀ i ∈ S, i < G.x := by
      intro i hi
      by_contra hge
      exact h ⟨hlen, .inr ⟨i, hi, by omega⟩⟩
    have hsub : S.toFinset ⊆ Finset.range G.x := by
      intro i hi
      exact Finset.mem_range.mpr (hdata i (List.mem_toFinset.mp hi))
    have hcard := Finset.card_le_card hsub
    rwa [List.toFinset_card_of_nodup hnodup, Finset.card_range] at hcard
  · omega

theorem output_of_not_ready (hready : d.readyForOutput = false) : d.output.2 = [] := by
  unfold FecDecodeManager.output
  rw [if_neg (by simp [hready])]

/-- The packet that is output on arrival. -/
theorem drop_body {i : Nat} (hi : G.bare i) :
    (G.body c i).drop 2 = G.accepted.getD i [] := by
  unfold body
  rw [if_pos hi, BlobEncode.record, List.drop_left' (length_writeU16 _)]

section Finish

variable {i : Nat} {S : List Nat}

/-- The group has one packet more than before. -/
private theorem length_groupMp (hkeys : g.keys = i :: S) :
    g.groupMp.length = S.length + 1 := by
  have := congrArg List.length hkeys
  rwa [FecGroup.keys, List.length_map, List.length_cons] at this

theorem not_bare_of_blob (hmode : G.mode = 0) (i : Nat) : ¬ G.bare i := by
  intro hb
  rw [hb.1] at hmode
  exact absurd hmode (by decide)

/-- A group that can be decoded is, and is retired. -/
theorem finish_of_decodable (hG : G.Valid c) (hmp : d.mp G.seq = some g)
    (hg : Holds c d.fecData G g) (hkeys : g.keys = i :: S) (hopen : ¬ G.decodable S)
    (hdec : G.decodable (i :: S)) (hready : d.readyForOutput = false)
    (hlen : (G.body c i).length + 100 < bufLen) (now : UInt64) (stale : Mem) :
    d.finish c now stale (G.header c i)
      = retire { d.markDone G.seq g with
          readyForOutput := true
          outputBuf := G.outputOf S i } now G.seq := by
  have hnodup := hg.nodup
  rw [hkeys, List.nodup_cons] at hnodup
  have hsize := length_groupMp hkeys
  have hfew := length_le_of_not_decodable hnodup.2 hopen
  have hfull : G.x ≤ S.length + 1 := by
    have := hdec.1
    rwa [List.length_cons] at this
  have hdec' : G.decodable g.keys := by rwa [hkeys]
  unfold FecDecodeManager.finish outputOf
  simp only [SentGroup.header, hmp, Option.getD_some, hsize, hdec, if_true]
  rcases hG.mode with hmode | hmode
  · have hbare := not_bare_of_blob hmode i
    have hlt : S.length < G.x := by
      by_contra hge
      exact hopen ⟨by omega, .inl hmode⟩
    simp only [hmode, hbare, if_true, if_false]
    rw [if_neg (by omega), if_pos (by omega)]
    rw [hG.length_body hbare] at hlen
    exact decodeBlob_eq_ok hG hg hmode hdec' hlen hready now (hG.length_body hbare)
  · obtain ⟨hdn, -, -⟩ := hg.numbers hdec'.2
    simp only [hmode, hdn, Nat.one_ne_zero, if_false]
    rw [if_neg (by omega), if_pos hfull]
    exact decodePackets_eq_ok hG hg hmode hdec' hready now stale (h := G.header c i) hkeys
      hnodup.1

/-- A group that cannot be decoded yet waits; in mode 1 a data packet is
output at once. -/
theorem finish_of_not_decodable (hG : G.Valid c) (hmp : d.mp G.seq = some g)
    (hg : Holds c d.fecData G g) (hkeys : g.keys = i :: S)
    (hdec : ¬ G.decodable (i :: S)) (hready : d.readyForOutput = false)
    (now : UInt64) (stale : Mem) :
    ∃ d₁, d.finish c now stale (G.header c i) = .ok d₁ ∧ d₁.output.2 = G.outputOf S i ∧
      d₁.fecData = d.fecData ∧ d₁.index = d.index ∧ d₁.antiReplay = d.antiReplay ∧
      d₁.mp = d.mp := by
  have hsize := length_groupMp hkeys
  have hx := hG.x_pos
  have hout : G.outputOf S i = if G.bare i then [G.accepted.getD i []] else [] := by
    unfold outputOf
    rw [if_neg hdec]
  have hfin : d.finish c now stale (G.header c i)
      = if G.bare i then d.ready [(G.body c i).drop 2] else pure d := by
    unfold FecDecodeManager.finish
    simp only [SentGroup.header, hmp, Option.getD_some, hsize]
    rcases hG.mode with hmode | hmode
    · have hbare := not_bare_of_blob hmode i
      have hlt : S.length + 1 < G.x := by
        by_contra hge
        exact hdec ⟨by rw [List.length_cons]; omega, .inl hmode⟩
      simp only [hmode, hbare, if_true, if_false]
      rw [if_neg (by omega), if_neg (by omega)]
    · -- whether or not the numbers are known, a data packet takes the fast path
      have hcond : (True ∧ (if G.bare i then 0 else G.x) = 0) ↔ G.bare i := by
        by_cases hbare : G.bare i
        · simp [hbare]
        · simp only [hbare, if_false, iff_false]
          omega
      simp only [hmode, Nat.one_ne_zero, if_false, hcond]
      by_cases hknown : G.known (i :: S)
      · have hlt : S.length + 1 < G.x := by
          by_contra hge
          exact hdec ⟨by rw [List.length_cons]; omega, hknown⟩
        obtain ⟨hdn, -, -⟩ := hg.numbers (by rw [hkeys]; exact hknown)
        simp only [hdn]
        rw [if_neg (by omega), if_neg (by omega)]
      · simp only [hg.no_numbers (by rw [hkeys]; exact hknown)]
  rw [hfin, hout]
  by_cases hbare : G.bare i
  · rw [if_pos hbare, if_pos hbare, drop_body hbare, ready_eq_ok hready]
    exact ⟨_, rfl, rfl, rfl, rfl, rfl, rfl⟩
  · rw [if_neg hbare, if_neg hbare]
    exact ⟨d, rfl, output_of_not_ready hready, rfl, rfl, rfl, rfl⟩

end Finish

end Decode

end Fecraw.Ports.FecDecode
