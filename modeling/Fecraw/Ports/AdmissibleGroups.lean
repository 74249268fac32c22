import Fecraw.Ports.EncodeRun

/-!
# Group sizes of the encoder and of the decoder

`rs_from_str` accepts a pair with `x + y = 255`, and a pair whose sum
overflows an `int`, which can make a row with `x + y = 256`; the header check of
the decoder drops a packet with `data_num + redundant_num >= 255`.  A table with
such a row makes the encoder send packets that every decoder drops.

## Main results

* `agree_iff`: every packet of every run is stored by a decoder that has not
  seen its number, if and only if the encoder has no code for the rows whose sum
  is 255 or more.
-/

namespace Fecraw.Ports.AdmissibleGroups

open Fecraw.Verified Fecraw.Verified.Scan Fecraw.Ports.Packet Fecraw.Ports.RsTable
open Fecraw.Ports.BlobCodec Fecraw.Ports.FecEncode Fecraw.Ports.FecDecode FecEncodeManager

/-- A decoder that has not seen the number `seq`. -/
structure Unseen (d : FecDecodeManager) (seq : UInt32) : Prop where
  index_lt : d.index < fecBuffNum
  antiReplay : d.antiReplay.Wf
  group : d.mp seq = none
  slots : ∀ k, (d.fecData k).used = true → (d.fecData k).seq ≠ seq
  number : d.antiReplay.mp seq = none

/-- The decoder puts the packet into a slot. -/
def Stored (d : FecDecodeManager) (now : UInt64) (q : Bytes) : Prop :=
  ∃ h d', d.place now q = .ok (.stored h d')

/-- The number on a packet. -/
def numberOf (q : Bytes) : UInt32 := UInt32.ofNat (readU32 q)

/-- A row that the encoder can close a group with, and whose numbers a decoder
does not take. -/
def Refused (x y : Nat) : Prop := maxFecPacketNum ≤ x + y ∧ HasCode x (x + y)

/-- The rows of the sums 255 and 256, but for `255:1`, which is not in the table
of `get_code`. -/
theorem refused_iff {x y : Nat} (hx : x ≤ 255) :
    Refused x y ↔ x + y = 255 ∨ (x + y = 256 ∧ x ≠ 255) := by
  unfold Refused HasCode maxFecPacketNum
  omega

/-- Every packet that an encoder sends with this table, in either mode and
whatever the other parameters are, is stored by a decoder that has not seen
its number.  Packets longer than `max_data_len` reach neither of them. -/
def Agree (c : Code) (g : FecParameter) : Prop :=
  ∀ (mode mtu queueLen : Int), mode = 0 ∨ mode = 1 →
    let par := { g with mode := mode, mtu := mtu, queueLen := queueLen }
    ∀ (seq : UInt32) (buf : Mem) (ss : List (Option Bytes)),
      (∀ p, some p ∈ ss → p.length ≤ maxDataLen) →
      ∀ e os, run (send c par) (init par seq buf) ss = .ok (e, os) →
        ∀ o ∈ os, ∀ q ∈ o.out, q.length ≤ maxDataLen →
          ∀ d now, Unseen d (numberOf q) → Stored d now q

/-! ## The decoder's side -/

section Decoder

variable {d : FecDecodeManager} {now : UInt64} {q : Bytes} {h : Header}

theorem body_of_parseHeader (hparse : parseHeader q = some h) :
    h.seq = numberOf q ∧ h.body.length ≤ q.length := by
  unfold parseHeader at hparse
  split at hparse
  · exact absurd hparse (by simp)
  · dsimp only at hparse
    split at hparse
    · exact absurd hparse (by simp)
    · split at hparse
      · exact absurd hparse (by simp)
      · split at hparse
        · exact absurd hparse (by simp)
        · split at hparse
          · exact absurd hparse (by simp)
          · obtain rfl := Option.some.inj hparse
            exact ⟨rfl, by simp⟩

/-- A group that is not there yet takes any packet. -/
theorem join_empty (h : Header) : ∃ g, ({} : FecGroup).join h = (g, true) := by
  unfold FecGroup.join
  simp only [if_true, ne_eq, not_true_eq_false, if_false]
  split
  · exact ⟨_, rfl⟩
  · exact ⟨_, rfl⟩

/-- A packet that passes the header checks is stored. -/
theorem stored_of_parseHeader (hq : q.length ≤ maxDataLen) (hparse : parseHeader q = some h)
    (hd : Unseen d (numberOf q)) : Stored d now q := by
  obtain ⟨hseq, hbody⟩ := body_of_parseHeader hparse
  rw [← hseq] at hd
  have hlen : q.length + 100 < bufLen := by
    unfold bufLen
    omega
  have hvalid : d.antiReplay.Valid now h.seq := by
    intro info hinfo
    rw [hd.number] at hinfo
    exact absurd hinfo (by simp)
  obtain ⟨a, hisv, hwfa, -, -⟩ := AntiReplay.isVaild_of_valid hd.antiReplay hvalid
  obtain ⟨g, hjoin⟩ := join_empty h
  have hplace : d.place now q
      = FecDecodeManager.placeNew { d with antiReplay := a } now h g := by
    unfold FecDecodeManager.place
    rw [Checked.check_of hlen, hparse]
    simp only [Checked.ok_bind, hisv]
    unfold FecDecodeManager.placeValid
    simp only [hd.group, Option.getD_none, hjoin]
    rw [if_neg (by simp [FecGroup.slot])]
  have hroom : ∃ d₁, FecDecodeManager.recycle
      { d with antiReplay := a, mp := Function.update d.mp h.seq (some g) } now h.seq
        = .ok (d₁, true) ∧ d₁.index = d.index := by
    unfold FecDecodeManager.recycle
    by_cases hused : (d.fecData d.index).used = true
    · obtain ⟨a', -, hold, -, -⟩ := AntiReplay.setInvaild_evolves hwfa now
        (Set.mem_singleton (d.fecData d.index).seq)
      have hne := hd.slots _ hused
      simp only [hused, if_true, hold, Checked.ok_bind, ne_eq, hne, not_false_eq_true,
        decide_true]
      exact ⟨_, rfl, rfl⟩
    · simp only [hused, Bool.false_eq_true, if_false]
      exact ⟨_, rfl, rfl⟩
  obtain ⟨d₁, hrec, hindex⟩ := hroom
  unfold Stored
  rw [hplace]
  unfold FecDecodeManager.placeNew FecDecodeManager.store
  simp only [hrec, Checked.ok_bind, if_true]
  rw [Checked.check_of (by rw [hindex]; exact hd.index_lt), Checked.check_of (by omega)]
  exact ⟨h, _, rfl⟩

/-- A packet that fails them is refused. -/
theorem place_of_parseHeader_none (hq : q.length ≤ maxDataLen)
    (hparse : parseHeader q = none) : d.place now q = .ok (.returned (-1) d) := by
  have hlen : q.length + 100 < bufLen := by
    unfold bufLen
    omega
  unfold FecDecodeManager.place
  rw [Checked.check_of hlen, hparse]
  rfl

end Decoder

/-! ## Tables without a refused row -/

section Encoder

variable {c : Code} {g : FecParameter}

/-- What was sent for the open group stays with it. -/
theorem exists_group_of_open : ∀ {os : List Sending} {m : Emitted} {q : Bytes},
    q ∈ m.packets → ∃ (k : Nat) (n : Emitted), (groupsOf m os)[k]? = some n ∧ q ∈ n.packets := by
  intro os
  induction os with
  | nil =>
      intro m q hq
      exact ⟨0, m, rfl, hq⟩
  | cons o os ih =>
      intro m q hq
      rw [groupsOf]
      split
      · split
        · exact ⟨0, _, rfl, List.mem_append_left _ hq⟩
        · exact ⟨0, _, rfl, List.mem_append_left _ hq⟩
      · exact ih (List.mem_append_left _ hq)

/-- What a call sent is among the packets of a group. -/
theorem exists_group_of_sent : ∀ {os : List Sending} {m : Emitted} {o : Sending} {q : Bytes},
    o ∈ os → q ∈ o.out →
    ∃ (k : Nat) (n : Emitted), (groupsOf m os)[k]? = some n ∧ q ∈ n.packets := by
  intro os
  induction os with
  | nil =>
      intro m o q ho
      exact absurd ho (by simp)
  | cons o' os ih =>
      intro m o q ho hq
      rw [groupsOf]
      rcases List.mem_cons.mp ho with rfl | ho
      · split
        · split
          · exact ⟨0, _, rfl, List.mem_append_right _ hq⟩
          · exact ⟨0, _, rfl, List.mem_append_right _ hq⟩
        · exact exists_group_of_open (List.mem_append_right _ hq)
      · split
        · split
          · obtain ⟨k, n, hk, hn⟩ := ih (m := {}) ho hq
            exact ⟨k + 1, n, by rw [List.getElem?_cons_succ]; exact hk, hn⟩
          · obtain ⟨k, n, hk, hn⟩ := ih (m := ⟨o'.taken, []⟩) ho hq
            exact ⟨k + 1, n, by rw [List.getElem?_cons_succ]; exact hk, hn⟩
        · exact ih ho hq

/-- A packet of a group that was sent passes the header checks. -/
theorem parseHeader_of_carries {mode : Nat} {seq : UInt32} {n : Emitted} {q : Bytes}
    (hsum : ∀ i < g.rsCnt, ¬ Refused (i + 1) (g.rsPar i).y)
    (hn : Carries c g mode seq n) (hq : q ∈ n.packets) : ∃ h, parseHeader q = some h := by
  obtain ⟨G, -, hsent⟩ := hn (List.ne_nil_of_mem hq)
  rw [hsent.packets] at hq
  obtain ⟨i, hi, rfl⟩ := List.mem_map.mp hq
  have hlt : i < G.x + G.y := List.mem_range.mp hi
  refine ⟨_, SentGroup.parseHeader_packet hsent.shaped hlt ?_⟩
  by_cases hbare : G.bare i
  · exact .inl hbare
  · -- a packet with the numbers of its group has those of a row
    have hrow : mode = 0 ∨ 0 < G.y := by
      rcases hsent.shaped.mode with hmode | hmode
      · exact .inl (hsent.mode_eq.symm.trans hmode)
      · have hge : G.x ≤ i := not_lt.mp fun h => hbare ⟨hmode, h⟩
        exact .inr (by omega)
    obtain ⟨j, hj, hx, hy⟩ := hsent.row hrow
    have hcode := hsent.code
    rw [hx, hy] at hcode ⊢
    exact .inr (not_le.mp fun hle => hsum j hj ⟨hle, hcode⟩)

/-- If the encoder has no code for rows that the decoder refuses, the two
agree. -/
theorem agree_of_rows (hx : ∀ i < g.rsCnt, (g.rsPar i).x = i + 1) (hfew : g.rsCnt ≤ 255)
    (hsum : ∀ i < g.rsCnt, ¬ Refused (i + 1) (g.rsPar i).y) : Agree c g := by
  intro mode mtu queueLen hmode par seq buf ss hss e os hrun o ho q hq hlen d now hd
  have hrows : Rows par := ⟨hx, hfew⟩
  obtain ⟨k, n, hk, hn⟩ := exists_group_of_sent (m := {}) ho hq
  rcases hmode with rfl | rfl
  · obtain ⟨h, hparse⟩ :=
      parseHeader_of_carries (g := par) hsum (run_groups_blob hrows rfl hrun k n hk) hn
    exact stored_of_parseHeader hlen hparse hd
  · obtain ⟨h, hparse⟩ :=
      parseHeader_of_carries (g := par) hsum (run_groups_packets hrows rfl hss hrun k n hk) hn
    exact stored_of_parseHeader hlen hparse hd

/-! ## A refused row -/

/-- A header with such numbers fails the checks. -/
theorem parseHeader_of_sum (mode : Nat) {seq : UInt32} {x y i : Nat} {body : Bytes}
    (hx : x < 256) (hy : y < 256) (hsum : 255 ≤ x + y) :
    parseHeader (packetHeader seq mode x y i ++ body) = none := by
  have hdata : ((packetHeader seq mode x y i ++ body).getD 5 0).toNat = x := by
    show (UInt8.ofNat x).toNat = x
    rw [UInt8.toNat_ofNat', Nat.mod_eq_of_lt hx]
  have hredundant : ((packetHeader seq mode x y i ++ body).getD 6 0).toNat = y := by
    show (UInt8.ofNat y).toNat = y
    rw [UInt8.toNat_ofNat', Nat.mod_eq_of_lt hy]
  unfold parseHeader
  rw [hdata, hredundant]
  split
  · rfl
  · dsimp only
    split
    · rfl
    · split
      · rfl
      · split
        · rfl
        · rw [if_pos (by unfold maxFecPacketNum; omega)]

/-- A fresh decoder has seen nothing. -/
theorem unseen_fresh (seq : UInt32) : Unseen {} seq :=
  ⟨by decide, AntiReplay.wf_init, rfl, by simp, rfl⟩

/-- A packet that a fresh decoder refuses shows that the two disagree. -/
theorem not_agree_of_refused (mode mtu queueLen : Int) (hmode : mode = 0 ∨ mode = 1)
    {seq : UInt32} {buf : Mem} {ss : List (Option Bytes)}
    (hss : ∀ p, some p ∈ ss → p.length ≤ maxDataLen) {e : FecEncodeManager}
    {os : List Sending}
    (hrun : run (send c { g with mode := mode, mtu := mtu, queueLen := queueLen })
      (init { g with mode := mode, mtu := mtu, queueLen := queueLen } seq buf) ss
        = .ok (e, os))
    {o : Sending} (ho : o ∈ os) {q : Bytes} (hq : q ∈ o.out) (hlen : q.length ≤ maxDataLen)
    (hparse : parseHeader q = none) : ¬ Agree c g := by
  intro hagree
  obtain ⟨h, d', hstored⟩ := hagree mode mtu queueLen hmode seq buf ss hss e os hrun o ho q hq
    hlen {} 0 (unseen_fresh _)
  rw [place_of_parseHeader_none hlen hparse] at hstored
  exact absurd (Except.ok.inj hstored) (by simp)

/-! ### In mode 1 -/

/-- An open group of mode 1 with `k` packets of one octet. -/
structure Filling (g : FecParameter) (e : FecEncodeManager) (k : Nat) : Prop where
  par : e.fecPar = g
  ready : e.readyForOutput = false
  counter : e.counter = k
  bodies : ∀ b ∈ e.bodies, b.length = 3

section Filling

variable {e : FecEncodeManager} {k : Nat} (hmode : g.mode = 1)
  (hx : ∀ i < g.rsCnt, (g.rsPar i).x = i + 1) (hfew : g.rsCnt ≤ 255)
include hmode hx hfew

omit hmode hfew in
theorem getTail_eq (hk : k < g.rsCnt) :
    ∃ tail, g.getTail = some tail ∧ tail.x = g.rsCnt := by
  refine ⟨g.rsPar (g.rsCnt - 1), if_pos (by omega), ?_⟩
  rw [hx _ (by omega)]
  omega

theorem Filling.append (he : Filling g e k) (hk : k < g.rsCnt) :
    e.room = .ok () ∧ e.delays (some [0]) = .ok false ∧
      ∃ e₁, e.append [0] = .ok e₁ ∧ Filling g e₁ (k + 1) ∧
        e₁.full = .ok (decide (k + 1 = g.rsCnt)) := by
  obtain ⟨tail, htail, htailx⟩ := getTail_eq hx hk
  have hmode' : e.fecPar.mode = 1 := by rw [he.par]; exact hmode
  have happend : e.append [0] = .ok { e with
      inputBuf := Function.update e.inputBuf e.counter (writeU16 1 ++ [0])
      counter := e.counter + 1
      timer := e.timer || decide (e.counter = 0) } := by
    unfold FecEncodeManager.append
    rw [if_neg (by simp [hmode']), if_pos hmode', Checked.check_of (by decide),
      Checked.bounds_of ⟨by decide, by rw [he.counter]; unfold maxFecPacketNum; omega⟩]
    rfl
  refine ⟨?_, ?_, _, happend, ⟨he.par, he.ready, ?_, ?_⟩, ?_⟩
  · unfold FecEncodeManager.room
    rw [if_neg (by simp [hmode']), he.par, htail]
    exact Checked.check_of (by rw [he.counter]; omega)
  · unfold FecEncodeManager.delays
    rw [if_neg (by simp [hmode'])]
  · show e.counter + 1 = k + 1
    rw [he.counter]
  · intro b hb
    rw [bodies_append hmode' happend] at hb
    rcases List.mem_append.mp hb with hb | hb
    · exact he.bodies b hb
    · obtain rfl := List.mem_singleton.mp hb
      rfl
  · unfold FecEncodeManager.full
    rw [if_neg (by simp [hmode'])]
    show (do
      let tail ← Checked.ofOption e.fecPar.getTail
      return decide (e.counter + 1 = tail.x)) = _
    rw [he.par, htail, he.counter, ← htailx]
    rfl

/-- One more packet, while the group does not become full. -/
theorem Filling.next (he : Filling g e k) (hk : k + 1 < g.rsCnt) :
    ∃ e' o, e.send c g (some [0]) = .ok (e', o) ∧ Filling g e' (k + 1) := by
  obtain ⟨hroom, hdelay, e₁, happend, he₁, hfull⟩ :=
    he.append hmode hx hfew (by omega : k < g.rsCnt)
  have hcnt := he₁.counter
  have hsend : e₁.fastSend true = .ok { e₁ with
      readyForOutput := true
      outputBuf := [dataPacket e₁.seq (e₁.inputBuf (e₁.counter - 1)) (e₁.counter - 1)] } := by
    unfold FecEncodeManager.fastSend
    rw [if_pos ⟨rfl, by rw [he₁.par]; exact hmode⟩, Checked.check_of (by omega),
      Checked.check_of he₁.ready]
    rfl
  have hcall := Call.queued (c := c) hroom hdelay happend
    (by rw [hfull, decide_eq_false (by omega)]) hsend
  refine ⟨_, _, send_of_call (by rw [he.par]) (.inr (by rw [he.par]; exact hmode)) hcall, ?_⟩
  exact ⟨he₁.par, rfl, he₁.counter, he₁.bodies⟩

/-- A group with any number of packets below the last row can be reached. -/
theorem filling_run (seq : UInt32) (buf : Mem) : ∀ {k : Nat}, k < g.rsCnt →
    ∃ e os, run (send c g) (init g seq buf) (List.replicate k (some [0])) = .ok (e, os) ∧
      Filling g e k := by
  intro k
  induction k with
  | zero =>
      intro _
      exact ⟨_, [], rfl, rfl, rfl, rfl, by simp [init, FecEncodeManager.bodies]⟩
  | succ k ih =>
      intro hk
      obtain ⟨e, os, hrun, he⟩ := ih (by omega)
      obtain ⟨e', o, hsend, he'⟩ := he.next (c := c) hmode hx hfew hk
      refine ⟨e', os ++ [o], ?_, he'⟩
      rw [List.replicate_succ']
      exact run_concat hrun hsend

omit hx hfew in
/-- Closing a group whose row is refused and has some redundancy makes a packet
that decoders drop. -/
theorem Filling.closes {i : Nat} (he : Filling g e (i + 1)) (hi : i < g.rsCnt)
    (hsum : Refused (i + 1) (g.rsPar i).y) (hy : 0 < (g.rsPar i).y) (hasPacket : Bool) :
    ∃ e', e.closeGroup c hasPacket = .ok e' ∧ e'.readyForOutput = true ∧
      ∃ q ∈ e'.outputBuf, q.length ≤ maxDataLen ∧ parseHeader q = none := by
  have hmode' : e.fecPar.mode = 1 := by rw [he.par]; exact hmode
  have hrow : (e.fecPar.rsPar (e.counter - 1)).y = (g.rsPar i).y := by
    rw [he.par, he.counter, Nat.add_sub_cancel]
  have hlen : groupLen e.bodies ≤ 3 := groupLen_le_iff.mpr fun b hb =>
    Nat.le_of_eq (he.bodies b hb)
  obtain ⟨hge, hcode⟩ := hsum
  have hle := hcode.le
  unfold maxFecPacketNum at hge
  have hok : ∃ e', e.closeGroup c hasPacket = .ok e' := by
    unfold FecEncodeManager.closeGroup fits coded FecEncodeManager.finish
    rw [if_neg (by simp [hmode']), Checked.check_of (by rw [he.par, he.counter]; omega)]
    simp only [hrow]
    rw [Checked.bounds_of ⟨by rw [he.counter]; unfold maxFecPacketNum; omega,
      by unfold bufLen maxDataLen; omega⟩, Checked.bounds_of (by rwa [he.counter]),
      Checked.check_of he.ready]
    exact ⟨_, rfl⟩
  obtain ⟨e', hclose⟩ := hok
  refine ⟨e', hclose, ?_⟩
  obtain ⟨-, -, -, rfl⟩ := closeGroup_packets hmode' (by rw [he.counter]; omega) hclose
  refine ⟨rfl, groupPacket c e.seq (g.rsPar i).y e.bodies (i + 1), ?_, ?_, ?_⟩
  · rw [hrow, he.counter]
    apply List.mem_map_of_mem
    rw [List.mem_append, List.mem_range'_1]
    exact .inr ⟨Nat.le_refl _, by omega⟩
  · have hbodies : e.bodies.length = i + 1 := by
      simp [FecEncodeManager.bodies, he.counter]
    unfold groupPacket
    rw [if_neg (by omega)]
    unfold redundantPacket
    rw [List.length_append, length_packetHeader, Code.length_shard (by simp)]
    · unfold maxDataLen
      omega
    · intro b hb
      obtain ⟨b', hb', rfl⟩ := List.mem_map.mp hb
      have := le_groupLen hb'
      unfold pad
      rw [List.length_append, List.length_replicate]
      omega
  · have hbodies : e.bodies.length = i + 1 := by
      simp [FecEncodeManager.bodies, he.counter]
    unfold groupPacket
    rw [if_neg (by omega)]
    exact parseHeader_of_sum 1 (by omega) (by omega) (by omega)

end Filling

/-- A refused row with some redundancy is used in mode 1. -/
theorem not_agree_of_redundant (hx : ∀ i < g.rsCnt, (g.rsPar i).x = i + 1)
    (hfew : g.rsCnt ≤ 255) {i : Nat} (hi : i < g.rsCnt)
    (hsum : Refused (i + 1) (g.rsPar i).y) (hy : 0 < (g.rsPar i).y) : ¬ Agree c g := by
  let par : FecParameter := { g with mode := 1 }
  have hx' : ∀ i < par.rsCnt, (par.rsPar i).x = i + 1 := hx
  have hfew' : par.rsCnt ≤ 255 := hfew
  have hshort : ∀ (n : Nat) (last : Option Bytes), last = none ∨ last = some [0] →
      ∀ p, some p ∈ List.replicate n (some [0]) ++ [last] → p.length ≤ maxDataLen := by
    intro n last hlast p hp
    have hone : p = [0] := by
      rcases List.mem_append.mp hp with hp | hp
      · exact Option.some.inj (List.eq_of_mem_replicate hp)
      · rcases hlast with rfl | rfl
        · exact absurd hp (by simp)
        · simpa using hp
    rw [hone]
    decide
  by_cases hlast : i + 1 < g.rsCnt
  · -- the timer flushes the group
    obtain ⟨e, os, hrun, he⟩ := filling_run (c := c) rfl hx' hfew' 0 (fun _ => 0) hlast
    obtain ⟨hroom, -, -⟩ := he.append rfl hx' hfew' hlast
    obtain ⟨e₁, hclose, hready, q, hq, hlen, hparse⟩ :=
      he.closes (c := c) rfl hi hsum hy false
    have hcall := Call.flushed hroom (by rw [he.counter]; omega) hclose
    have hsend := send_of_call (g := par) (by rw [he.par])
      (.inr (by rw [he.par])) hcall
    rw [output_of_ready hready] at hsend
    exact not_agree_of_refused 1 g.mtu g.queueLen (.inr rfl)
      (hshort _ _ (.inl rfl)) (run_concat hrun hsend) List.mem_concat_self hq hlen
      hparse
  · -- the last packet completes the group
    obtain ⟨e, os, hrun, he⟩ := filling_run (c := c) rfl hx' hfew' 0 (fun _ => 0) hi
    obtain ⟨hroom, hdelay, e₀, happend, he₀, hfull⟩ := he.append rfl hx' hfew' hi
    obtain ⟨e₁, hclose, hready, q, hq, hlen, hparse⟩ :=
      he₀.closes (c := c) rfl hi hsum hy true
    have hcall := Call.completed hroom hdelay happend
      (by rw [hfull, decide_eq_true (show i + 1 = g.rsCnt by omega)]) hclose
    have hsend := send_of_call (g := par) (by rw [he.par])
      (.inr (by rw [he.par])) hcall
    rw [output_of_ready hready] at hsend
    exact not_agree_of_refused 1 g.mtu g.queueLen (.inr rfl)
      (hshort _ _ (.inr rfl)) (run_concat hrun hsend) List.mem_concat_self hq hlen
      hparse

/-! ### In mode 0 -/

/-- When no smaller row keeps to `mtu`, the last one is chosen. -/
theorem chooseDataNum_eq_tail {par : FecParameter} {blob : BlobEncode} {tail : RsParameter}
    (hx : ∀ i < par.rsCnt, (par.rsPar i).x = i + 1) (hpos : 1 ≤ tail.x)
    (hle : tail.x ≤ par.rsCnt)
    (hlong : ∀ i, 1 ≤ i → i < tail.x → (par.mtu % 2 ^ 32).toNat < blob.getShardLenNext i 0) :
    chooseDataNum par blob tail = .ok tail.x := by
  have hfold : ∀ (is : List Nat) (best : Nat × Nat), (∀ i ∈ is, 1 ≤ i ∧ i < tail.x) →
      is.foldlM (tryRow par blob) best = .ok best := by
    intro is
    induction is with
    | nil => intro best _; rfl
    | cons i is ih =>
        intro best his
        obtain ⟨hi, hlt⟩ := his i (by simp)
        have hrow : tryRow par blob best i = .ok best := by
          unfold tryRow
          rw [Checked.check_of (by rw [hx _ (by omega)]; omega)]
          simp only [Checked.ok_bind]
          rw [if_pos (hlong i hi hlt)]
          rfl
        rw [List.foldlM_cons, hrow]
        exact ih best fun j hj => his j (List.mem_cons_of_mem _ hj)
  unfold chooseDataNum
  rw [Checked.check_of hle]
  simp only [Checked.ok_bind]
  rw [hfold _ _ (by
    intro i hi
    have := List.mem_range'_1.mp hi
    omega)]
  simp only [Checked.ok_bind]
  rw [Checked.check_of ⟨hpos, hle⟩]
  rfl

/-- A configuration of mode 0 with the same rows and a small mtu. -/
def smallMtu (g : FecParameter) : FecParameter := { g with mode := 0, mtu := 14, queueLen := 200 }

/-- A packet that fills 255 shards of 14 octets. -/
def longPacket : Bytes := List.replicate 3554 0

theorem length_longPacket : longPacket.length = 3554 := List.length_replicate

theorem mode_smallMtu (g : FecParameter) : (smallMtu g).mode = 0 := rfl

theorem getTail_smallMtu (hcnt : g.rsCnt = 255) : (smallMtu g).getTail = some (g.rsPar 254) := by
  have hcnt' : (smallMtu g).rsCnt = 255 := hcnt
  unfold FecParameter.getTail
  rw [hcnt']
  rfl

/-- The packet fits, and the group stays open. -/
theorem queued_longPacket (hcnt : g.rsCnt = 255) (htailx : (g.rsPar 254).x = 255)
    {e : FecEncodeManager} (he : init (smallMtu g) 0 (fun _ => 0) = e) :
    ∃ e₁, Call c e (some longPacket) 0 e₁ ∧ e₁.fecPar = smallMtu g ∧
      e₁.readyForOutput = false ∧ e₁.counter = 1 ∧ e₁.blob.currentLen = 3560 := by
  have hplen := length_longPacket
  have hpar : e.fecPar = smallMtu g := by rw [← he]; rfl
  have hready : e.readyForOutput = false := by rw [← he]; rfl
  have hempty : e.counter = 0 ∧ e.blob.currentLen = 4 ∧ e.blob.counter = 0 := by
    rw [← he]
    exact ⟨rfl, rfl, rfl⟩
  have hmode : e.fecPar.mode = 0 := by rw [hpar]; rfl
  obtain ⟨blob, hblob⟩ : ∃ blob, e.blob.input longPacket = .ok blob := by
    unfold BlobEncode.input
    rw [hplen, hempty.2.1, hempty.2.2, Checked.check_of (by decide),
      Checked.check_of (by decide), Checked.check_of (by decide)]
    exact ⟨_, rfl⟩
  have hcur : blob.currentLen = 3560 := by
    obtain ⟨-, -, -, rfl⟩ := BlobEncode.input_eq_ok hblob
    show e.blob.currentLen + 2 + longPacket.length = 3560
    omega
  obtain ⟨e₁, happend⟩ : ∃ e₁, e.append longPacket = .ok e₁ := ⟨_, append_of_blob hmode hblob⟩
  have he₁ : e₁.fecPar = smallMtu g ∧ e₁.readyForOutput = false ∧ e₁.counter = 1 ∧
      e₁.blob = blob := by
    rw [append_of_blob hmode hblob] at happend
    obtain rfl := Except.ok.inj happend
    exact ⟨hpar, hready, congrArg (· + 1) hempty.1, rfl⟩
  obtain ⟨hpar₁, hready₁, hcnt₁, hblob₁⟩ := he₁
  refine ⟨e₁, ?_, hpar₁, hready₁, hcnt₁, by rw [hblob₁, hcur]⟩
  apply Call.queued _ _ happend
  · unfold FecEncodeManager.full
    rw [hpar₁, if_pos (mode_smallMtu g), hcnt₁]
    rfl
  · unfold FecEncodeManager.fastSend
    rw [hpar₁, if_neg (by simp [smallMtu])]
    rfl
  · unfold FecEncodeManager.room
    rw [hpar, if_pos (mode_smallMtu g), hempty.1]
    exact Checked.check_of (show (0 : Int) < 200 by decide)
  · have hle : roundUpDiv (4 + 2 + 3554) 255 ≤ 14 := (roundUpDiv_le_iff (by decide)).mpr (by decide)
    unfold FecEncodeManager.delays FecEncodeManager.tooLong
    rw [hpar, if_pos (mode_smallMtu g), getTail_smallMtu hcnt, Option.getD_some, hplen]
    simp only [Checked.ofOption_some, Checked.ok_bind, BlobEncode.getShardLenNext, htailx,
      hempty.2.1]
    exact congrArg Except.ok (decide_eq_false (by show ¬ ((_ : Int) > 14); omega))

/-- No smaller number of shards keeps to the limit. -/
theorem chooseDataNum_smallMtu (hx : ∀ i < g.rsCnt, (g.rsPar i).x = i + 1) (hcnt : g.rsCnt = 255)
    {blob : BlobEncode} (hcur : blob.currentLen = 3560) :
    chooseDataNum (smallMtu g) blob (g.rsPar 254) = .ok 255 := by
  have hcnt' : (smallMtu g).rsCnt = 255 := hcnt
  have hx' : ∀ i < (smallMtu g).rsCnt, ((smallMtu g).rsPar i).x = i + 1 := hx
  have htailx : (g.rsPar 254).x = 255 := hx 254 (by omega)
  rw [← htailx]
  apply chooseDataNum_eq_tail hx' (by omega) (by omega)
  intro i hi hlt
  show 14 < roundUpDiv (blob.currentLen + 2 + 0) i
  by_contra hle
  rw [Nat.not_lt, roundUpDiv_le_iff hi, hcur] at hle
  omega

/-- Without redundancy the only such row is the one of 255 data packets; mode
0 uses it for a long blob and short shards. -/
theorem not_agree_of_bare (hx : ∀ i < g.rsCnt, (g.rsPar i).x = i + 1)
    (hcnt : g.rsCnt = 255) (hy : (g.rsPar 254).y = 0) : ¬ Agree c g := by
  obtain ⟨e, he⟩ : ∃ e, init (smallMtu g) 0 (fun _ => 0) = e := ⟨_, rfl⟩
  have hpar : e.fecPar = smallMtu g := by rw [← he]; rfl
  have hmode : e.fecPar.mode = 0 := by rw [hpar]; rfl
  obtain ⟨e₁, hqueued, hpar₁, hready₁, hcnt₁, hcur⟩ :=
    queued_longPacket (c := c) hcnt (hx 254 (by omega)) he
  have hmode₁ : e₁.fecPar.mode = 0 := by rw [hpar₁]; rfl
  have htail : e₁.fecPar.getTail = some (g.rsPar 254) := by rw [hpar₁, getTail_smallMtu hcnt]
  have hchoose : chooseDataNum e₁.fecPar e₁.blob (g.rsPar 254) = .ok 255 := by
    rw [hpar₁]
    exact chooseDataNum_smallMtu hx hcnt hcur
  have hrow : (e₁.fecPar.rsPar (255 - 1)).y = 0 := by rw [hpar₁]; exact hy
  have hshard : e₁.blob.getShardLen 255 ≤ 14 := (roundUpDiv_le_iff (by decide)).mpr (by omega)
  obtain ⟨e₂, hclose⟩ := closeGroup_of_blob (c := c) false hmode₁ htail hchoose
    (by rw [hrow]; exact hasCode_of_le le_rfl le_rfl) (by unfold bufLen; omega) hready₁
  have hflushed : Call c e₁ none 0 e₂ := by
    apply Call.flushed _ (by omega) hclose
    unfold FecEncodeManager.room
    rw [hpar₁, if_pos (mode_smallMtu g), hcnt₁]
    exact Checked.check_of (show (1 : Int) < 200 by decide)
  obtain ⟨tail, x, htail', hchoice, -, -, -, rfl⟩ := closeGroup_blob hmode₁ hclose
  obtain rfl : g.rsPar 254 = tail := Option.some.inj (htail.symm.trans htail')
  obtain rfl : 255 = x := Except.ok.inj (hchoose.symm.trans hchoice)
  have hsend₁ := send_of_call (g := smallMtu g) (by rw [hpar]) (.inl hmode) hqueued
  rw [output_of_not_ready hready₁] at hsend₁
  have hsend₂ := send_of_call (g := smallMtu g) (by rw [hpar₁]) (.inl hmode₁) hflushed
  rw [output_of_ready rfl] at hsend₂
  have hstart : run (send c (smallMtu g)) e [] = .ok (e, []) := run_nil e
  have hrun := run_concat (run_concat hstart hsend₁) hsend₂
  rw [← he] at hrun
  have hfirst : 0 < 255 + (e₁.fecPar.rsPar (255 - 1)).y := by omega
  refine not_agree_of_refused 0 14 200 (.inl rfl) ?_ hrun
    List.mem_concat_self (List.mem_map_of_mem (List.mem_range.mpr hfirst)) ?_
    (parseHeader_of_sum 0 (by decide) (by omega) (by omega))
  · intro q hq
    obtain rfl : q = longPacket := by simpa using hq
    rw [length_longPacket]
    decide
  · rw [length_blobPacket]
    unfold maxDataLen
    omega

end Encoder

/-! ## Accepted strings -/

section Accepted

variable {par g : FecParameter} {s : List Char}

/-- Where no pair overflows, a refused row is a listed pair of the sum 255. -/
theorem rows_iff_listed (htable : par.rsFromStr s = some g)
    (hsmall : ∀ tok ∈ stringToVec s, ∀ x y, scanPair tok = (some x, some y) → x + y ≤ 255) :
    (∀ i < g.rsCnt, ¬ Refused (i + 1) (g.rsPar i).y) ↔
      ∀ tok ∈ stringToVec s, ∀ x y, scanPair tok = (some x, some y) → x + y ≠ 255 := by
  obtain ⟨p₀, rest, hps, -, -⟩ := rsFromStr_eq_some htable
  constructor
  · intro hrows tok htok x y hscan hsum
    obtain ⟨p, hp, hparse⟩ := exists_mem_of_token hps tok htok
    obtain ⟨x', y', hscan', hread⟩ := parsePair_of_sum_le hparse
    obtain ⟨rfl, rfl⟩ : x = x' ∧ y = y' := by simpa [hscan] using hscan'
    obtain ⟨hx, hy, rfl⟩ := hread (by omega)
    obtain ⟨hle, hrow⟩ := rsFromStr_row_of_mem htable hps hp (by show 0 < x.toNat; omega)
    dsimp only at hle hrow
    have hcnt := rsFromStr_rsCnt_le htable
    have hne := hrows (x.toNat - 1) (by omega)
    rw [hrow, refused_iff (by omega)] at hne
    dsimp only at hne
    omega
  · intro hlisted i hi hrefused
    have hcnt := rsFromStr_rsCnt_le htable
    rw [refused_iff (by omega)] at hrefused
    have hle : ∀ p ∈ p₀ :: rest, p.x + p.y ≤ 254 := by
      intro p hp
      obtain ⟨tok, htok, hparse⟩ := exists_token_of_mem hps p hp
      obtain ⟨x, y, hscan, hread⟩ := parsePair_of_sum_le hparse
      have hsum := hsmall tok htok x y hscan
      have hne := hlisted tok htok x y hscan
      obtain ⟨hx, hy, rfl⟩ := hread hsum
      dsimp only
      omega
    have := rsFromStr_sum_le htable hps hle i hi
    omega

/-- Encoder and decoder agree on a table exactly when no row is refused, that is,
has the sum 255 or 256 and is not `255:1`; where no listed pair overflows an
`int`, exactly when no listed pair has the sum 255. -/
theorem agree_iff (c : Code) (htable : par.rsFromStr s = some g) :
    (Agree c g ↔ ∀ i < g.rsCnt, ¬ Refused (i + 1) (g.rsPar i).y) ∧
      ((∀ tok ∈ stringToVec s, ∀ x y, scanPair tok = (some x, some y) → x + y ≤ 255) →
        (Agree c g ↔
          ∀ tok ∈ stringToVec s, ∀ x y, scanPair tok = (some x, some y) → x + y ≠ 255)) := by
  have hx := rsFromStr_x htable
  have hfew := rsFromStr_rsCnt_le htable
  have hrows : Agree c g ↔ ∀ i < g.rsCnt, ¬ Refused (i + 1) (g.rsPar i).y := by
    refine ⟨fun hagree i hi hsum => ?_, agree_of_rows hx hfew⟩
    rcases Nat.eq_zero_or_pos (g.rsPar i).y with hy | hy
    · rw [refused_iff (by omega)] at hsum
      obtain rfl : i = 254 := by omega
      exact not_agree_of_bare hx (by omega) hy hagree
    · exact not_agree_of_redundant hx hfew hi hsum hy hagree
  exact ⟨hrows, fun hsmall => hrows.trans (rows_iff_listed htable hsmall)⟩

/-- The default ratio is one that both sides agree on. -/
theorem agree_iff_default : ∃ g,
    FecParameter.rsFromStr {} "20:10".toList = some g ∧ Agree .repetition g := by
  have htable : FecParameter.rsFromStr {} "20:10".toList = some _ :=
    rsFromStr_printPair {} (d := 20) (p := 10) (by decide) (by decide) (by decide)
  refine ⟨_, htable, (agree_iff .repetition htable).1.mpr ?_⟩
  intro i hi
  have hi' : i < 20 := hi
  show ¬ Refused (i + 1) (fillFirst _ ⟨20, 10⟩ i).y
  rw [fillFirst_apply, if_pos hi', refused_iff (by omega)]
  show ¬ (i + 1 + 10 = 255 ∨ (i + 1 + 10 = 256 ∧ i + 1 ≠ 255))
  omega

/-- With `1:254` a fresh decoder refuses the redundant packets of the first
packet that is sent. -/
theorem redundant_packet_refused : ∃ g,
    FecParameter.rsFromStr { mode := 1 } "1:254".toList = some g ∧
    ∃ e os, run (send .repetition g) (init g 7 fun _ => 0) [some [1, 2, 3]] = .ok (e, os) ∧
      ∃ o ∈ os, ∃ q ∈ o.out, q.length ≤ maxDataLen ∧ Unseen {} (numberOf q) ∧
        FecDecodeManager.place {} 0 q = .ok (.returned (-1) {}) := by
  have htable : FecParameter.rsFromStr { mode := 1 } "1:254".toList = some _ :=
    rsFromStr_printPair { mode := 1 } (d := 1) (p := 254) (by decide) (by decide) (by decide)
  refine ⟨_, htable, _, _, rfl, _, List.mem_singleton.mpr rfl,
    [0, 0, 0, 7, 1, 1, 254, 1, 0, 3, 1, 2, 3], ?_, by decide, unseen_fresh _,
    place_of_parseHeader_none (by decide) (by decide)⟩
  decide +kernel

end Accepted

end Fecraw.Ports.AdmissibleGroups
