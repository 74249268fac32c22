import Fecraw.Verified.Bytes
import Mathlib.Data.Finset.Card
import Mathlib.Data.List.GetD

/-!
# Systematic erasure codes

An erasure code turns `k` data shards of one size into `n` shards such that
any `k` of the `n` give the data back.  The code is *systematic* when the
first `k` of the `n` shards are the data themselves.

A `Code` is only the interface: what the parity octets are, and what the
decoder makes of the shards it is given.  `Code.Mds` says that it is a
maximum-distance-separable code for one pair `(k, n)`, so that a development
can ask for it exactly at the pairs it uses.

`Code.Total` says when the decoder returns at all, for shards that need not
come from one codeword.

`Code.repetition` is a concrete code, maximum-distance-separable for `k = 1`;
`Code.systematic` is a total one for every `k ≤ n`.
-/

namespace Fecraw.Verified

/-- The parity octets of a systematic code, and its decoder. -/
structure Code where
  /-- Octet `j` of shard `i ≥ k`, for the given data shards. -/
  parity : (k n : Nat) → List Bytes → (i j : Nat) → UInt8
  /-- The data shards, from shards that are there (`some`) or missing. -/
  decode : (k n size : Nat) → (Nat → Option Bytes) → Option (List Bytes)

namespace Code

variable (c : Code)

/-- Shard `i` of the codeword of `data`, whose shards have `size` octets. -/
def shard (k n size : Nat) (data : List Bytes) (i : Nat) : Bytes :=
  if i < k then data.getD i [] else (List.range size).map (c.parity k n data i)

variable {c}

theorem shard_of_lt {k n size : Nat} {data : List Bytes} {i : Nat} (h : i < k) :
    c.shard k n size data i = data.getD i [] := if_pos h

theorem length_shard {k n size : Nat} {data : List Bytes} (hk : data.length = k)
    (hsize : ∀ d ∈ data, d.length = size) (i : Nat) :
    (c.shard k n size data i).length = size := by
  unfold shard
  split
  · next hi =>
      rw [List.getD_eq_getElem _ _ (hk ▸ hi)]
      exact hsize _ (List.getElem_mem _)
  · simp

/-- The shards that are there. -/
def present (n : Nat) (got : Nat → Option Bytes) : Finset Nat :=
  (Finset.range n).filter fun i => (got i).isSome

variable (c)

/-- Any `k` shards of a codeword determine the data. -/
def Mds (k n : Nat) : Prop :=
  ∀ (size : Nat) (data : List Bytes), data.length = k →
    (∀ d ∈ data, d.length = size) →
    ∀ got : Nat → Option Bytes,
      (∀ i b, got i = some b → b = c.shard k n size data i) →
      k ≤ (present n got).card →
      c.decode k n size got = some data

/-- The decoder returns data exactly if `k` shards are there, whether or not
they are shards of one codeword. -/
structure Total (k n : Nat) : Prop where
  few : ∀ size got, (present n got).card < k → c.decode k n size got = none
  enough : ∀ size got, k ≤ (present n got).card →
    (∀ i b, i < n → got i = some b → b.length = size) →
    ∃ data, c.decode k n size got = some data ∧ data.length = k ∧ ∀ b ∈ data, b.length = size

/-- Every parity shard is a copy of the first data shard, and the decoder
takes the first shard that is there. -/
def repetition : Code where
  parity _ _ data _ j := (data.getD 0 []).getD j 0
  decode k n _ got :=
    if k = 1 then ((List.range n).findSome? got).map fun b => [b]
    else none

/-- Repetition is maximum-distance-separable for a single data shard. -/
theorem repetition_mds (n : Nat) : repetition.Mds 1 n := by
  intro size data hk hsize got hgot hcard
  obtain ⟨d, rfl⟩ := List.length_eq_one_iff.mp hk
  have hd : d.length = size := hsize d (by simp)
  have hcopy : ∀ i, repetition.shard 1 n size [d] i = d := by
    intro i
    unfold shard
    split
    · next hi =>
        obtain rfl : i = 0 := by omega
        rfl
    · apply List.ext_getElem
      · simp [hd]
      · intro j h1 h2
        simp [repetition, h2]
  obtain ⟨i, hi⟩ := Finset.card_pos.mp (Nat.lt_of_lt_of_le Nat.zero_lt_one hcard)
  obtain ⟨hin, hsome⟩ := Finset.mem_filter.mp hi
  have hfind : ∃ b, (List.range n).findSome? got = some b := by
    rw [← Option.isSome_iff_exists, List.findSome?_isSome_iff]
    exact ⟨i, List.mem_range.mpr (Finset.mem_range.mp hin), hsome⟩
  obtain ⟨b, hb⟩ := hfind
  obtain ⟨j, -, hj⟩ := List.exists_of_findSome?_eq_some hb
  have hbd : b = d := (hgot j b hj).trans (hcopy j)
  unfold repetition
  simp only [if_true, hb, hbd, Option.map_some]

/-- Parity shards of zeros: the decoder gives the data shards that are there
and makes up the others. -/
def systematic : Code where
  parity _ _ _ _ _ := 0
  decode k n size got :=
    if k ≤ (present n got).card then
      some ((List.range k).map fun i => (got i).getD (List.replicate size 0))
    else none

theorem systematic_total {k n : Nat} (hk : k ≤ n) : systematic.Total k n where
  few := by
    intro size got hfew
    exact if_neg (by omega)
  enough := by
    intro size got henough hsize
    refine ⟨_, if_pos henough, by simp, ?_⟩
    intro b hb
    obtain ⟨i, hi, rfl⟩ := List.mem_map.mp hb
    cases hgot : got i with
    | none => simp
    | some b => exact hsize i b (Nat.lt_of_lt_of_le (List.mem_range.mp hi) hk) hgot

end Code

end Fecraw.Verified
