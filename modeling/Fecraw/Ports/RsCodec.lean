import Fecraw.Ports.FecCodec
import Fecraw.Verified.Erasure

/-!
# The packet interface of the erasure code

`lib/rs.cpp` wraps the codec for its callers.  They hold an array of `n`
pointers: `rs_encode2` fills in the last `n - k` packets, `rs_decode2` is
given the array with null pointers for the lost packets, collects the indexes
of the others, moves them to the front and decodes.  Descriptors are made once
for each `(k, n)` and kept in a static table of 256 by 256 entries.

## Main results

* `getCode_fst`, `fresh_tableAfter`: the table is a cache: whatever was looked up
  before, a lookup gives what `fec_new` makes.
* `rsDecode2_rsEncode2`: encoding, losing any `n - k` packets and decoding
  gives the data, with any calls before, between and after.
* `rsCode_mds`, `rsCode_total`: the erasure code the encoder and the decoder
  of this development are proved correct over is this one.
-/

namespace Fecraw.Ports.FecLib

open Fecraw.Verified

variable {k n sz : Nat}

/-! ## Encoding and decoding arrays of packets -/

/-- `fec_encode(code, data, data[i], i, size)`: the source packets are the
first `k` of the array, and packet `i` of it is written. -/
def encodeInto (code : FecParms k n) (data : Fin n → Fin sz → Gf) (i : Nat) :
    Fin n → Fin sz → Gf := fun j =>
  if j.val = i then fecEncode code (fun l => data (Fin.castLE code.le l)) (data j) i else data j

/-- `rs_encode`: the parity packets are computed one by one. -/
def rsEncode (code : FecParms k n) (data : Fin n → Fin sz → Gf) : Fin n → Fin sz → Gf :=
  (List.range' k (n - k)).foldl (encodeInto code) data

/-- The indexes of the pointers that are not null. -/
def received (data : Fin n → Option (Fin sz → Gf)) : List Nat :=
  (List.range n).filter fun i => if h : i < n then (data ⟨i, h⟩).isSome else false

/-- `rs_decode`: `none` is a nonzero return.  The pointers that are there are
moved to the front, and the first `k` of them decoded. -/
def rsDecode (code : FecParms k n) (data : Fin n → Option (Fin sz → Gf)) :
    Option (Fin k → Fin sz → Gf) :=
  let index := received data
  if index.length < k then none
  else
    let moved := compact (fun i => if h : i < n then data ⟨i, h⟩ else none) index
    fecDecode code (fun i => (moved.getD i none).getD fun _ => 0) fun i => index.getD i 0

/-! ## The table of descriptors -/

/-- The static `table`; `none` is a null pointer. -/
abbrev CodeTable := (k n : Nat) → Option (FecParms k n)

/-- `get_code`: the entry, made and stored if it is not there yet. -/
def getCode (table : CodeTable) (k n : Nat) : Option (FecParms k n) × CodeTable :=
  match table k n with
  | some code => (some code, table)
  | none => (fecNew k n, Function.update table k (Function.update (table k) n (fecNew k n)))

/-- `rs_encode2`; without a descriptor it would read through a null pointer. -/
def rsEncode2 (table : CodeTable) (k n : Nat) (data : Fin n → Fin sz → Gf) :
    Option (Fin n → Fin sz → Gf) × CodeTable :=
  ((getCode table k n).1.map fun code => rsEncode code data, (getCode table k n).2)

/-- `rs_decode2`. -/
def rsDecode2 (table : CodeTable) (k n : Nat) (data : Fin n → Option (Fin sz → Gf)) :
    Option (Fin k → Fin sz → Gf) × CodeTable :=
  ((getCode table k n).1.bind fun code => rsDecode code data, (getCode table k n).2)

/-- The table after calls with the pairs `(k, n)`, from the zeroed one. -/
def tableAfter (calls : List (Nat × Nat)) : CodeTable :=
  calls.foldl (fun table c => (getCode table c.1 c.2).2) fun _ _ => none

/-- Every entry is what `fec_new` makes. -/
def CodeTable.Fresh (table : CodeTable) : Prop :=
  ∀ k n code, table k n = some code → fecNew k n = some code

theorem getCode_fst {table : CodeTable} (h : table.Fresh) (k n : Nat) :
    (getCode table k n).1 = fecNew k n := by
  unfold getCode
  split
  · next code hcode => exact (h k n code hcode).symm
  · rfl

/-- A lookup stores only what `fec_new` makes. -/
theorem CodeTable.Fresh.getCode {table : CodeTable} (h : table.Fresh) (k n : Nat) :
    (getCode table k n).2.Fresh := by
  intro k' n' code hcode
  unfold FecLib.getCode at hcode
  split at hcode
  · exact h k' n' code hcode
  · simp only at hcode
    by_cases hk : k' = k
    · subst hk
      rw [Function.update_self] at hcode
      by_cases hn : n' = n
      · subst hn
        rwa [Function.update_self] at hcode
      · rw [Function.update_of_ne hn] at hcode
        exact h _ _ _ hcode
    · rw [Function.update_of_ne hk] at hcode
      exact h _ _ _ hcode

theorem fresh_foldl {calls : List (Nat × Nat)} :
    ∀ {table : CodeTable}, table.Fresh →
      (calls.foldl (fun table c => (getCode table c.1 c.2).2) table).Fresh := by
  induction calls with
  | nil => exact fun h => h
  | cons c calls ih => exact fun h => ih (h.getCode c.1 c.2)

/-- The table of any run of the program holds only what `fec_new` makes. -/
theorem fresh_tableAfter (calls : List (Nat × Nat)) : (tableAfter calls).Fresh :=
  fresh_foldl fun _ _ _ h => absurd h (Option.some_ne_none _).symm

/-! ## Losing packets -/

/-- The first `k` packets are left alone, the others computed from them. -/
theorem rsEncode_eq (code : FecParms k n) (data : Fin n → Fin sz → Gf) (i : Fin n) :
    rsEncode code data i
      = if i.val < k then data i
        else fecEncode code (fun l => data (Fin.castLE code.le l)) (data i) i := by
  have h := foldl_range' (a := k) (n := n - k) (s := data) (f := encodeInto code)
    (P := fun m data' => ∀ i : Fin n, data' i
      = if i.val < k ∨ m ≤ i.val then data i
        else fecEncode code (fun l => data (Fin.castLE code.le l)) (data i) i)
    (fun i => by rw [if_pos (by omega)]) (by
      intro m data' hkm hmn hdata i
      have hsrc : (fun l => data' (Fin.castLE code.le l)) = fun l => data (Fin.castLE code.le l) :=
        funext fun l => (hdata _).trans (if_pos (Or.inl l.isLt))
      unfold encodeInto
      by_cases him : i.val = m
      · rw [if_pos him, if_neg (by omega), hsrc, hdata i, if_pos (by omega), him]
      · rw [if_neg him, hdata i]
        have hiff : (i.val < k ∨ m ≤ i.val) ↔ (i.val < k ∨ m + 1 ≤ i.val) := by omega
        simp only [hiff])
  have hi := h i
  have hiff : (i.val < k ∨ k + (n - k) ≤ i.val) ↔ i.val < k := by
    have := i.isLt
    have := code.le
    omega
  simp only [hiff] at hi
  exact hi

/-- All packets of the array after `rs_encode` are those of the codeword. -/
theorem rsEncode_codeword {code : FecParms k n} (hcode : fecNew k n = some code)
    (data : Fin n → Fin sz → Gf) (fec : Fin sz → Gf) (i : Fin n) :
    rsEncode code data i = fecEncode code (fun l => data (Fin.castLE code.le l)) fec i := by
  rw [rsEncode_eq]
  split
  · next hi =>
      unfold fecEncode
      rw [dif_pos hi]
      rfl
  · rw [fecEncode_eq hcode, fecEncode_eq hcode]

section Receive

variable {code : FecParms k n} {data : Fin n → Option (Fin sz → Gf)}

theorem mem_received {i : Nat} : i ∈ received data ↔ ∃ h : i < n, (data ⟨i, h⟩).isSome := by
  unfold received
  rw [List.mem_filter, List.mem_range]
  constructor
  · rintro ⟨hi, hsome⟩
    rw [dif_pos hi] at hsome
    exact ⟨hi, hsome⟩
  · rintro ⟨hi, hsome⟩
    exact ⟨hi, by rwa [dif_pos hi]⟩

theorem pairwise_received : (received data).Pairwise (· < ·) :=
  List.Pairwise.filter _ List.pairwise_lt_range

/-- The packets that are there, counted. -/
theorem length_received :
    (received data).length = (Finset.univ.filter fun i => (data i).isSome).card := by
  have hnodup : (received data).Nodup := pairwise_received.imp Nat.ne_of_lt
  have hset : (received data).toFinset
      = (Finset.univ.filter fun i => (data i).isSome).map Fin.valEmbedding := by
    ext i
    rw [List.mem_toFinset, mem_received, Finset.mem_map]
    constructor
    · rintro ⟨hi, hsome⟩
      exact ⟨⟨i, hi⟩, Finset.mem_filter.mpr ⟨Finset.mem_univ _, hsome⟩, rfl⟩
    · rintro ⟨j, hj, rfl⟩
      exact ⟨j.isLt, (Finset.mem_filter.mp hj).2⟩
  rw [← List.toFinset_card_of_nodup hnodup, hset, Finset.card_map]

/-- The packets `rs_decode` hands on, when there are enough. -/
theorem rsDecode_eq (code : FecParms k n) (henough : k ≤ (received data).length) :
    ∃ (index : Fin k → Fin n) (pkt : Fin k → Fin sz → Gf), Function.Injective index
      ∧ (∀ i, data (index i) = some (pkt i))
      ∧ rsDecode code data = fecDecode code pkt fun i => index i := by
  have hget : ∀ i : Fin k, ∃ h : i.val < (received data).length,
      ∃ hn : (received data)[i.val] < n, (data ⟨(received data)[i.val], hn⟩).isSome := by
    intro i
    have hi : i.val < (received data).length := Nat.lt_of_lt_of_le i.isLt henough
    exact ⟨hi, mem_received.mp (List.getElem_mem hi)⟩
  choose hlen hlt hsome using hget
  refine ⟨fun i => ⟨(received data)[i.val], hlt i⟩, fun i => (data ⟨_, hlt i⟩).get (hsome i),
    ?_, fun i => (Option.some_get (hsome i)).symm, ?_⟩
  · intro i j hij
    have hnodup : (received data).Nodup := pairwise_received.imp Nat.ne_of_lt
    exact Fin.ext ((hnodup.getElem_inj_iff).mp (Fin.mk.inj hij))
  · unfold rsDecode
    simp only [compact_eq_map pairwise_received]
    rw [if_neg (Nat.not_lt.mpr henough)]
    congr 1
    · funext i
      rw [List.getD_eq_getElem _ _ (by rw [List.length_map]; exact hlen i), List.getElem_map,
        dif_pos (hlt i)]
      exact (Option.get_eq_getD _).symm
    · funext i
      exact List.getD_eq_getElem _ _ (hlen i)

/-- `rs_decode` returns zero exactly if at least `k` pointers are not null. -/
theorem rsDecode_isSome_iff (hcode : fecNew k n = some code) :
    (rsDecode code data).isSome ↔ k ≤ (Finset.univ.filter fun i => (data i).isSome).card := by
  rw [← length_received]
  constructor
  · intro h
    by_contra hfew
    unfold rsDecode at h
    rw [if_pos (by omega)] at h
    exact absurd h (by simp)
  · intro henough
    obtain ⟨index, pkt, hinj, -, hdec⟩ := rsDecode_eq code henough
    rw [hdec, fecDecode_isSome_iff hcode]
    exact ⟨fun i j h => hinj (Fin.ext h), fun i => (index i).isLt⟩

/-- Any `k` packets of a codeword decode to its data. -/
theorem rsDecode_codeword (hcode : fecNew k n = some code) (src : Fin k → Fin sz → Gf)
    (fec : Fin sz → Gf) (hdata : ∀ i b, data i = some b → b = fecEncode code src fec i)
    (henough : k ≤ (Finset.univ.filter fun i => (data i).isSome).card) :
    rsDecode code data = some src := by
  rw [← length_received] at henough
  obtain ⟨index, pkt, hinj, hpkt, hdec⟩ := rsDecode_eq code henough
  have hcodeword : pkt = fun i => fecEncode code src fec (index i) :=
    funext fun i => hdata _ _ (hpkt i)
  rw [hdec, hcodeword]
  exact fecDecode_encode hcode (fun i j h => hinj (Fin.ext h)) (fun i => (index i).isLt) src fec

end Receive

/-- **The round trip of `rs_encode2` and `rs_decode2`**: whatever codes the two
sides used before, any `k` of the packets sent give the data back. -/
theorem rsDecode2_rsEncode2 (sender receiver : List (Nat × Nat)) (hkn : k ≤ n) (hn : n ≤ 255)
    (data : Fin n → Fin sz → Gf) (lost : Fin n → Bool)
    (henough : k ≤ (Finset.univ.filter fun i => lost i = false).card) :
    ∃ sent, (rsEncode2 (tableAfter sender) k n data).1 = some sent
      ∧ (∀ i : Fin k, sent (Fin.castLE hkn i) = data (Fin.castLE hkn i))
      ∧ (rsDecode2 (tableAfter receiver) k n fun i => if lost i then none else some (sent i)).1
        = some fun i => data (Fin.castLE hkn i) := by
  have hcode := fecNew_eq hkn (hn.trans (by decide))
  let code : FecParms k n := ⟨hkn, systematic fecPoints n k⟩
  have hsent : (rsEncode2 (tableAfter sender) k n data).1 = some (rsEncode code data) := by
    unfold rsEncode2
    simp only [getCode_fst (fresh_tableAfter sender), hcode, Option.map_some]
    rfl
  refine ⟨rsEncode code data, hsent, ?_, ?_⟩
  · intro i
    rw [rsEncode_eq]
    exact if_pos i.isLt
  · unfold rsDecode2
    simp only [getCode_fst (fresh_tableAfter receiver), hcode, Option.bind_some]
    apply rsDecode_codeword hcode _ fun _ => 0
    · intro i b hb
      split at hb
      · exact absurd hb (Option.some_ne_none _).symm
      · rw [← Option.some.inj hb]
        exact rsEncode_codeword hcode data _ i
    · have hset : (Finset.univ.filter fun i =>
          (if lost i then none else some (rsEncode code data i)).isSome)
            = Finset.univ.filter fun i => lost i = false := by
        ext i
        cases lost i <;> simp
      exact henough.trans_eq (congrArg Finset.card hset.symm)

/-- Two packets and a parity packet, of which the first is lost. -/
theorem rsDecode2_rsEncode2_two : ∃ sent,
    (rsEncode2 (tableAfter []) 2 3 fun i : Fin 3 => fun _ : Fin 1 =>
      (⟨UInt8.ofNat i.val⟩ : Gf)).1 = some sent ∧
    (rsDecode2 (tableAfter [(1, 2)]) 2 3 fun i : Fin 3 =>
      if i = 0 then none else some (sent i)).1
        = some fun i : Fin 2 => fun _ => (⟨UInt8.ofNat i.val⟩ : Gf) := by
  obtain ⟨sent, hsent, -, hdec⟩ := rsDecode2_rsEncode2 (k := 2) (n := 3) [] [(1, 2)] (by decide)
    (by decide) (fun i : Fin 3 => fun _ : Fin 1 => (⟨UInt8.ofNat i.val⟩ : Gf))
    (fun i => decide (i = 0)) (by decide)
  refine ⟨sent, hsent, ?_⟩
  simpa using hdec

/-! ## The code of the encoder and the decoder -/

/-- A packet as a vector. -/
def toVec (sz : Nat) (b : Bytes) : Fin sz → Gf := fun j => ⟨b.getD j 0⟩

/-- The octets of a vector. -/
def ofVec (v : Fin sz → Gf) : Bytes := List.ofFn fun j => (v j).octet

theorem ofVec_toVec {b : Bytes} (h : b.length = sz) : ofVec (toVec sz b) = b := by
  subst h
  unfold ofVec toVec
  apply List.ext_getElem
  · simp
  · intro i h1 h2
    simp

theorem getElem_ofVec (v : Fin sz → Gf) {j : Nat} (h : j < (ofVec v).length) (hj : j < sz) :
    (ofVec v)[j] = (v ⟨j, hj⟩).octet :=
  List.getElem_ofFn (f := fun j => (v j).octet) h

@[simp] theorem length_ofVec (v : Fin sz → Gf) : (ofVec v).length = sz := List.length_ofFn

theorem toVec_ofVec (v : Fin sz → Gf) : toVec sz (ofVec v) = v := by
  funext j
  unfold toVec ofVec
  simp

/-- Octet `j` of packet `i` of a codeword. -/
def packetOctet (code : FecParms k n) (sz : Nat) (data : List Bytes) (i j : Nat) : UInt8 :=
  if h : j < sz then
    (fecEncode code (fun l => toVec sz (data.getD l [])) (fun _ => 0) i ⟨j, h⟩).octet
  else 0

/-- The erasure code of `lib/rs.cpp`, for shards as byte strings. -/
def rsCode : Code where
  parity k n data i j :=
    (fecNew k n).elim 0 fun code => packetOctet code (data.getD 0 []).length data i j
  decode k n size got :=
    (fecNew k n).bind fun code =>
      (rsDecode code fun i => (got i).map (toVec size)).map fun data =>
        List.ofFn fun i => ofVec (data i)

theorem parity_rsCode {code : FecParms k n} (hcode : fecNew k n = some code) (data : List Bytes)
    (i j : Nat) :
    rsCode.parity k n data i j = packetOctet code (data.getD 0 []).length data i j := by
  unfold rsCode
  simp only [hcode, Option.elim_some]

theorem decode_rsCode {code : FecParms k n} (hcode : fecNew k n = some code) (size : Nat)
    (got : Nat → Option Bytes) :
    rsCode.decode k n size got = (rsDecode code fun i => (got i).map (toVec size)).map fun data =>
      List.ofFn fun i => ofVec (data i) := by
  unfold rsCode
  simp only [hcode, Option.bind_some]

theorem packetOctet_of_lt (code : FecParms k n) (data : List Bytes) (i : Nat) {j : Nat}
    (hj : j < sz) : packetOctet code sz data i j
      = (fecEncode code (fun l => toVec sz (data.getD l [])) (fun _ => 0) i ⟨j, hj⟩).octet :=
  dif_pos hj

/-- A shard of the interface is a packet of the codeword. -/
theorem shard_rsCode {code : FecParms k n} (hcode : fecNew k n = some code)
    {data : List Bytes} (hlen : data.length = k) (hsize : ∀ d ∈ data, d.length = sz) (hk : 1 ≤ k)
    (i : Fin n) :
    rsCode.shard k n sz data i
      = ofVec (fecEncode code (fun l => toVec sz (data.getD l [])) (fun _ => 0) i) := by
  have hget : ∀ l : Nat, l < k → (data.getD l []).length = sz := by
    intro l hl
    rw [List.getD_eq_getElem _ _ (hlen ▸ hl)]
    exact hsize _ (List.getElem_mem _)
  unfold Code.shard
  by_cases hi : i.val < k
  · rw [if_pos hi]
    unfold fecEncode
    rw [dif_pos hi, ofVec_toVec (hget i hi)]
  · rw [if_neg hi]
    apply List.ext_getElem
    · simp
    · intro j h1 h2
      have hj : j < sz := by simpa using h2
      rw [List.getElem_map, List.getElem_range, parity_rsCode hcode, hget 0 (by omega),
        packetOctet_of_lt code data i hj, getElem_ofVec _ h2 hj]

/-- The shards that are there, counted on both sides of the interface. -/
theorem card_present (n : Nat) (got : Nat → Option Bytes) :
    (Finset.univ.filter fun i : Fin n => ((got i).map (toVec sz)).isSome).card
      = (Code.present n got).card := by
  have hset : Code.present n got
      = (Finset.univ.filter fun i : Fin n => ((got i).map (toVec sz)).isSome).map
        Fin.valEmbedding := by
    ext i
    simp only [Code.present, Finset.mem_filter, Finset.mem_range, Finset.mem_map, Finset.mem_univ,
      true_and, Option.isSome_map]
    constructor
    · rintro ⟨hi, hsome⟩
      exact ⟨⟨i, hi⟩, hsome, rfl⟩
    · rintro ⟨j, hj, rfl⟩
      exact ⟨j.isLt, hj⟩
  rw [hset, Finset.card_map]

/-- **The erasure code is maximum-distance-separable**: any `k` shards of a
codeword of `n ≤ 255` determine the data. -/
theorem rsCode_mds (hk : 1 ≤ k) (hkn : k ≤ n) (hn : n ≤ 255) : rsCode.Mds k n := by
  intro size data hlen hsize got hgot hcard
  have hcode := fecNew_eq hkn (hn.trans (by decide))
  have hdec : rsDecode (⟨hkn, systematic fecPoints n k⟩ : FecParms k n)
      (fun i => (got i).map (toVec size)) = some fun l : Fin k => toVec size (data.getD l []) := by
    apply rsDecode_codeword hcode _ fun _ => 0
    · intro i b hb
      obtain ⟨b', hb', rfl⟩ := Option.map_eq_some_iff.mp hb
      rw [hgot i b' hb', shard_rsCode hcode hlen hsize hk, toVec_ofVec]
    · rwa [card_present]
  rw [decode_rsCode hcode, hdec, Option.map_some]
  congr 1
  apply List.ext_getElem
  · simp [hlen]
  · intro l h1 h2
    have hget : data.getD l [] = data[l] := List.getD_eq_getElem _ _ h2
    rw [List.getElem_ofFn]
    exact (ofVec_toVec (hget ▸ hsize _ (List.getElem_mem h2))).trans hget

theorem rsCode_mds_three : rsCode.Mds 2 3 := rsCode_mds (by decide) (by decide) (by decide)

/-- **The decoder returns data exactly if `k` shards are there**, whether or
not they belong together. -/
theorem rsCode_total (_hk : 1 ≤ k) (hkn : k ≤ n) (hn : n ≤ 255) : rsCode.Total k n := by
  have hcode := fecNew_eq hkn (hn.trans (by decide))
  have hiff : ∀ (size : Nat) (got : Nat → Option Bytes),
      (rsDecode (⟨hkn, systematic fecPoints n k⟩ : FecParms k n)
        fun i => (got i).map (toVec size)).isSome ↔ k ≤ (Code.present n got).card := by
    intro size got
    rw [rsDecode_isSome_iff hcode, card_present]
  refine ⟨?_, ?_⟩
  · intro size got hfew
    have hnone := (hiff size got).not.mpr (by omega)
    rw [Option.not_isSome_iff_eq_none] at hnone
    rw [decode_rsCode hcode, hnone, Option.map_none]
  · intro size got henough _
    obtain ⟨data, hdata⟩ := Option.isSome_iff_exists.mp ((hiff size got).mpr henough)
    refine ⟨List.ofFn fun i => ofVec (data i), ?_, by simp, ?_⟩
    · rw [decode_rsCode hcode, hdata, Option.map_some]
    · intro b hb
      obtain ⟨i, rfl⟩ := List.mem_ofFn.mp hb
      exact length_ofVec _

theorem rsCode_total_three : rsCode.Total 2 3 :=
  rsCode_total (by decide) (by decide) (by decide)

end Fecraw.Ports.FecLib
