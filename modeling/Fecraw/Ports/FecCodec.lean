import Fecraw.Ports.InvertVdm

/-!
# Encoding and decoding packets

The descriptor of a code for `k` data packets out of `n`, and the routines of
`lib/fec.cpp` that use it.  `fec_new` takes the Vandermonde matrix of the
points 0, 1, x, x², …, and multiplies it by the inverse of its top square, so
that the first `k` packets of a codeword are the data.  `fec_encode` computes
one packet of the codeword.  `fec_decode` is given `k` packets with their
indexes; it first moves each data packet to its own place, and then solves for
the others.

A packet is the vector of its `sz` octets, all packets of one call being of
the same size.

## Main results

* `fecNew_eq`: the matrix is the systematic matrix of the points.
* `shuffle_spec`: when `shuffle` finds a conflict, and where the packets are
  otherwise.
* `fecDecode_isSome_iff`: when decoding returns at all.
* `fecDecode_encode`: decoding any `k` packets of a codeword gives the data.
-/

namespace Fecraw.Ports.FecLib

open Fecraw.Verified

/-- `struct fec_parms`, by the two numbers it holds. -/
structure FecParms (k n : Nat) where
  le : k ≤ n
  encMatrix : Matrix (Fin n) (Fin k) Gf

/-- The rows `fec_new` starts from: powers of field elements starting from 0,
whose row cannot be computed with the table. -/
def fecRows (n k : Nat) : Matrix (Fin n) (Fin k) Gf := Matrix.of fun row col =>
  if row.val = 0 then (if col.val = 0 then 1 else 0)
  else fecTables.gfExp (modnn ((row.val - 1) * col.val))

/-- `fec_new`: `none` is the null pointer. -/
def fecNew (k n : Nat) : Option (FecParms k n) :=
  if h : gfSize + 1 < k ∨ gfSize + 1 < n ∨ n < k then none
  else
    have hkn : k ≤ n := by omega
    let tmp := fecRows n k
    let top := invertVdm (tmp.submatrix (Fin.castLE hkn) id)
    let bottom : Fin (n - k) → Fin k → Gf :=
      matmul (fun row : Fin (n - k) => tmp ⟨k + row, by omega⟩) top
    some
      { le := hkn
        encMatrix := Matrix.of fun row col =>
          if h : row.val < k then (if row.val = col.val then 1 else 0)
          else bottom ⟨row - k, by omega⟩ col }

variable {k n sz : Nat}

/-- `fec_encode`: what it leaves in the buffer `fec`. -/
def fecEncode (code : FecParms k n) (src : Fin k → Fin sz → Gf) (fec : Fin sz → Gf)
    (index : Nat) : Fin sz → Gf :=
  if h : index < k then src ⟨index, h⟩
  else if h : index < n then
    (List.finRange k).foldl (fun fec i => addmul fec (src i) (code.encMatrix ⟨index, h⟩ i))
      fun _ => 0
  else fec

/-- The places whose packet is not the data packet of that place. -/
def misplaced (index : Fin k → Nat) : Finset (Fin k) :=
  Finset.univ.filter fun j => index j ≠ j

theorem card_misplaced_swap {index : Fin k → Nat} {i c : Fin k} (hi : index i = c)
    (hic : index i ≠ i) (hc : index c ≠ c) :
    (misplaced (index ∘ Equiv.swap i c)).card < (misplaced index).card := by
  apply Finset.card_lt_card
  rw [Finset.ssubset_iff_of_subset]
  · refine ⟨c, Finset.mem_filter.mpr ⟨Finset.mem_univ c, hc⟩, ?_⟩
    simp [misplaced, hi]
  · intro j hj
    have hne := (Finset.mem_filter.mp hj).2
    refine Finset.mem_filter.mpr ⟨Finset.mem_univ j, ?_⟩
    by_cases hji : j = i
    · rw [hji]
      exact hic
    · by_cases hjc : j = c
      · rw [hjc]
        exact hc
      · rwa [Function.comp_apply, Equiv.swap_apply_of_ne_of_ne hji hjc] at hne

/-- The loop of `shuffle` from place `i` on: packets and indexes are swapped
until the place holds its own data packet or a parity packet. -/
def shuffleFrom {α : Type} (i : Nat) (pkt : Fin k → α) (index : Fin k → Nat) :
    Option ((Fin k → α) × (Fin k → Nat)) :=
  if hi : i < k then
    if hstay : k ≤ index ⟨i, hi⟩ ∨ index ⟨i, hi⟩ = i then shuffleFrom (i + 1) pkt index
    else
      have hc : index ⟨i, hi⟩ < k := by omega
      if hconflict : index ⟨index ⟨i, hi⟩, hc⟩ = index ⟨i, hi⟩ then none
      else
        let swap := Equiv.swap ⟨i, hi⟩ ⟨index ⟨i, hi⟩, hc⟩
        shuffleFrom i (pkt ∘ swap) (index ∘ swap)
  else some (pkt, index)
termination_by (k - i) + (misplaced index).card
decreasing_by
  · omega
  · have := card_misplaced_swap (i := ⟨i, hi⟩) (c := ⟨index ⟨i, hi⟩, hc⟩)
      (rfl : index ⟨i, hi⟩ = index ⟨i, hi⟩) (fun h => hstay (Or.inr h)) hconflict
    omega

/-- `shuffle`: `none` is its error. -/
def shuffle {α : Type} (pkt : Fin k → α) (index : Fin k → Nat) :
    Option ((Fin k → α) × (Fin k → Nat)) := shuffleFrom 0 pkt index

/-- `build_decode_matrix`: a row of the identity for a data packet, a row of
the encoding matrix for a parity packet; then the inverse. -/
def buildDecodeMatrix (code : FecParms k n) (index : Fin k → Nat) :
    Option (Matrix (Fin k) (Fin k) Gf) :=
  if h : ∀ i, index i < k ∨ index i < n then
    invertMat (Matrix.of fun i j =>
      if hi : index i < k then (if i = j then 1 else 0)
      else code.encMatrix ⟨index i, (h i).resolve_left hi⟩ j)
  else none

/-- `fec_decode`: `none` is a nonzero return. -/
def fecDecode (code : FecParms k n) (pkt : Fin k → Fin sz → Gf) (index : Fin k → Nat) :
    Option (Fin k → Fin sz → Gf) :=
  (shuffle pkt index).bind fun (pkt, index) =>
    (buildDecodeMatrix code index).map fun mDec row =>
      if k ≤ index row then
        (List.finRange k).foldl (fun out col => addmul out (pkt col) (mDec row col)) fun _ => 0
      else pkt row

/-! ## The encoding matrix -/

/-- The points of the code: 0, then the powers of `x`. -/
def fecPoints (i : Nat) : Gf := if i = 0 then 0 else power (i - 1)

theorem power_add (i j : Nat) : power (i + j) = power i * power j :=
  (gfMul_logMul.mul_exp_exp i j).symm

theorem power_mul_eq_pow (i j : Nat) : power (i * j) = power i ^ j := by
  induction j with
  | zero => rfl
  | succ j ih => rw [Nat.mul_succ, power_add, ih, pow_succ]

/-- Up to 256 of the points are distinct: 0 is no power, and the powers repeat
after 255. -/
theorem injOn_fecPoints {n : Nat} (hn : n ≤ 256) : Set.InjOn fecPoints (Set.Iio n) := by
  intro i hi j hj h
  have hi' : i < n := hi
  have hj' : j < n := hj
  unfold fecPoints at h
  split at h
  · next hi0 =>
      split at h
      · next hj0 => rw [hi0, hj0]
      · exact absurd h.symm (power_ne_zero _)
  · next hi0 =>
      split at h
      · exact absurd h (power_ne_zero _)
      · next hj0 =>
          have := power_inj (by omega) (by omega) h
          omega

theorem fecRows_eq (n k : Nat) : fecRows n k = powers fecPoints n k := by
  ext i j : 1
  unfold fecRows powers fecPoints
  rw [Matrix.of_apply, Matrix.of_apply]
  by_cases hi : i.val = 0
  · rw [if_pos hi, if_pos hi]
    by_cases hj : j.val = 0
    · rw [if_pos hj, hj, pow_zero]
    · rw [if_neg hj, zero_pow hj]
  · have hlt : (i.val - 1) * j.val % 255 < gfSize := Nat.mod_lt _ (by decide)
    rw [if_neg hi, if_neg hi, modnn_eq_mod, exp_generateGf hlt, ← power_mul_eq_pow]
    exact generator.exp_mod _

/-- `fec_new` makes the systematic matrix of the points: the first of them is
zero, so `invert_vdm` is right. -/
theorem fecNew_eq (hkn : k ≤ n) (hn : n ≤ 256) :
    fecNew k n = some ⟨hkn, systematic fecPoints n k⟩ := by
  have hinj := injOn_fecPoints (hkn.trans hn)
  have htop : (powers fecPoints n k).submatrix (Fin.castLE hkn) id
      = Matrix.vandermonde fun i : Fin k => fecPoints i := rfl
  have hvalid : ¬ (gfSize + 1 < k ∨ gfSize + 1 < n ∨ n < k) := by
    simp only [gfSize_eq]
    omega
  unfold fecNew
  rw [dif_neg hvalid]
  simp only [fecRows_eq, htop, invertVdm_eq_lagrange hinj (Or.inr (Or.inl rfl))]
  congr 2
  ext row col : 1
  rw [Matrix.of_apply]
  split
  · next hrow =>
      have hid := congrFun (congrFun (systematic_top hkn hinj) ⟨row, hrow⟩) col
      have hval : (Fin.castLE hkn ⟨row, hrow⟩) = row := rfl
      rw [Matrix.submatrix_apply, hval, id, Matrix.one_apply] at hid
      rw [hid]
      simp only [Fin.ext_iff]
  · next hrow =>
      have hval : (⟨k + (row - k), by omega⟩ : Fin n) = row := Fin.ext (by simp; omega)
      refine (matmul_apply _ _ _ _).trans (Finset.sum_congr rfl fun j _ => ?_)
      exact congrArg (fun i => powers fecPoints n k i j * lagrange fecPoints k j col) hval

theorem fecNew_some {code : FecParms k n} (h : fecNew k n = some code) :
    n ≤ 256 ∧ code.encMatrix = systematic fecPoints n k := by
  have hn : n ≤ 256 := by
    by_contra hn
    unfold fecNew at h
    rw [dif_pos (by simp only [gfSize_eq]; omega)] at h
    exact absurd h (Option.some_ne_none _).symm
  rw [fecNew_eq code.le hn] at h
  rw [← Option.some.inj h]
  exact ⟨hn, rfl⟩

/-! ## Encoding -/

/-- Packet `i` of the codeword. -/
theorem fecEncode_eq {code : FecParms k n} (hcode : fecNew k n = some code)
    (src : Fin k → Fin sz → Gf) (fec : Fin sz → Gf) (i : Fin n) :
    fecEncode code src fec i = fun j => ∑ l, code.encMatrix i l * src l j := by
  unfold fecEncode
  split
  · next hi =>
      obtain ⟨hn, hmat⟩ := fecNew_some hcode
      have hid := systematic_top code.le (injOn_fecPoints (code.le.trans hn))
      have hrow : ∀ l, code.encMatrix i l = (1 : Matrix (Fin k) (Fin k) Gf) ⟨i, hi⟩ l := by
        intro l
        rw [hmat, ← hid]
        rfl
      funext j
      simp only [hrow, Matrix.one_apply]
      simp
  · rw [dif_pos i.isLt]
    exact foldl_addmul src fun l => code.encMatrix i l

/-! ## Moving the packets to their places -/

section Shuffle

variable {α : Type} {pkt pkt' : Fin k → α} {index index' : Fin k → Nat}

/-- Two places with the same data packet. -/
def Conflict (index : Fin k → Nat) : Prop :=
  ∃ i j, i ≠ j ∧ index i = index j ∧ index i < k

theorem Conflict.of_comp {index : Fin k → Nat} {π : Equiv.Perm (Fin k)}
    (h : Conflict (index ∘ π)) : Conflict index := by
  obtain ⟨i, j, hne, heq, hlt⟩ := h
  exact ⟨π i, π j, fun h => hne (π.injective h), heq, hlt⟩

/-- The places below `i` are settled, and stay so. -/
theorem shuffleFrom_cases (i : Nat) (pkt : Fin k → α) (index : Fin k → Nat) :
    (∀ j : Fin k, j.val < i → index j < k → index j = j) →
    (shuffleFrom i pkt index = none ∧ Conflict index)
      ∨ ∃ π : Equiv.Perm (Fin k), shuffleFrom i pkt index = some (pkt ∘ π, index ∘ π)
        ∧ ∀ j, index (π j) < k → index (π j) = j := by
  induction i, pkt, index using shuffleFrom.induct with
  | case1 i pkt index hi hstay ih =>
      intro hdone
      rw [shuffleFrom, dif_pos hi, dif_pos hstay]
      apply ih
      intro j hj hlt
      by_cases hji : j.val = i
      · obtain rfl : j = ⟨i, hi⟩ := Fin.ext hji
        rcases hstay with h | h
        · omega
        · exact h
      · exact hdone j (by omega) hlt
  | case2 i pkt index hi hstay hc hconflict =>
      intro _
      left
      rw [shuffleFrom, dif_pos hi, dif_neg hstay]
      simp only [hconflict, dite_true, true_and]
      exact ⟨⟨i, hi⟩, ⟨_, hc⟩, fun h => hstay (Or.inr (congrArg Fin.val h).symm),
        hconflict.symm, hc⟩
  | case3 i pkt index hi hstay hc hconflict swap ih =>
      intro hdone
      rw [shuffleFrom, dif_pos hi, dif_neg hstay]
      simp only [hconflict, dite_false]
      have hsettled : ∀ j : Fin k, j.val < i → (index ∘ swap) j < k → (index ∘ swap) j = j := by
        intro j hj hlt
        have hji : j ≠ ⟨i, hi⟩ := fun h => by
          rw [h] at hj
          exact Nat.lt_irrefl i hj
        by_cases hjc : j = ⟨index ⟨i, hi⟩, hc⟩
        · rw [Function.comp_apply, hjc, Equiv.swap_apply_right]
        · rw [Function.comp_apply, Equiv.swap_apply_of_ne_of_ne hji hjc] at hlt ⊢
          exact hdone j hj hlt
      rcases ih hsettled with ⟨hnone, hdup⟩ | ⟨π, hsome, hplace⟩
      · exact Or.inl ⟨hnone, hdup.of_comp⟩
      · exact Or.inr ⟨swap * π, hsome, hplace⟩
  | case4 i pkt index hi =>
      intro hdone
      right
      rw [shuffleFrom, dif_neg hi]
      refine ⟨1, rfl, fun j hlt => hdone j ?_ hlt⟩
      have := j.isLt
      omega

/-- **`shuffle`** comes to an end; its error is two places with the same data
packet, and otherwise it permutes packets and indexes alike so that each data
packet is at its own place. -/
theorem shuffle_spec (pkt : Fin k → α) (index : Fin k → Nat) :
    (shuffle pkt index = none ↔ Conflict index)
      ∧ (¬ Conflict index → ∃ π : Equiv.Perm (Fin k),
        shuffle pkt index = some (pkt ∘ π, index ∘ π)
          ∧ ∀ j, index (π j) < k → index (π j) = j) := by
  have hcases := shuffleFrom_cases 0 pkt index fun j hj => absurd hj (Nat.not_lt_zero j)
  -- Placed packets cannot be in conflict.
  have hexcl : ∀ π : Equiv.Perm (Fin k), (∀ j, index (π j) < k → index (π j) = j) →
      ¬ Conflict index := by
    rintro π hplace ⟨i, j, hne, heq, hlt⟩
    have hi := hplace (π.symm i)
    have hj := hplace (π.symm j)
    rw [Equiv.apply_symm_apply] at hi hj
    have hsame : π.symm i = π.symm j :=
      Fin.ext ((hi hlt).symm.trans (heq.trans (hj (heq ▸ hlt))))
    exact hne (π.symm.injective hsame)
  rcases hcases with ⟨hnone, hdup⟩ | ⟨π, hsome, hplace⟩
  · exact ⟨⟨fun _ => hdup, fun _ => hnone⟩, fun hnot => absurd hdup hnot⟩
  · refine ⟨⟨fun hnone => ?_, fun hdup => absurd hdup (hexcl π hplace)⟩,
      fun _ => ⟨π, hsome, hplace⟩⟩
    exact absurd (hsome.symm.trans hnone) (Option.some_ne_none _)

end Shuffle

/-! ## Decoding -/

section Decode

variable {code : FecParms k n} {index : Fin k → Nat}

/-- With the data packets in place, the rows are those of the encoding
matrix. -/
theorem buildDecodeMatrix_eq (hcode : fecNew k n = some code)
    (hplace : ∀ j, index j < k → index j = j) (hvalid : ∀ i, index i < n) :
    buildDecodeMatrix code index
      = invertMat (code.encMatrix.submatrix (fun i => ⟨index i, hvalid i⟩) id) := by
  obtain ⟨hn, hmat⟩ := fecNew_some hcode
  unfold buildDecodeMatrix
  rw [dif_pos fun i => Or.inr (hvalid i)]
  congr 1
  ext i j : 1
  rw [Matrix.of_apply, Matrix.submatrix_apply, id]
  split
  · next hi =>
      have hid := systematic_top code.le (injOn_fecPoints (code.le.trans hn))
      have hrow : (⟨index i, hvalid i⟩ : Fin n) = Fin.castLE code.le i :=
        Fin.ext (hplace i hi)
      have hentry := congrFun (congrFun hid i) j
      rw [Matrix.submatrix_apply, id, Matrix.one_apply] at hentry
      rw [hrow, hmat, hentry]
  · rfl

theorem buildDecodeMatrix_none (hinvalid : ¬ ∀ i, index i < n) (hkn : k ≤ n) :
    buildDecodeMatrix code index = none := by
  unfold buildDecodeMatrix
  rw [dif_neg]
  intro h
  exact hinvalid fun i => (h i).elim (fun hi => Nat.lt_of_lt_of_le hi hkn) id

/-- The rows chosen are invertible exactly if they are different ones. -/
theorem isUnit_det_rows_iff (hcode : fecNew k n = some code) (q : Fin k → Fin n) :
    IsUnit (code.encMatrix.submatrix q id).det ↔ Function.Injective q := by
  obtain ⟨hn, hmat⟩ := fecNew_some hcode
  constructor
  · intro hunit i j hij
    by_contra hne
    have hrows : (code.encMatrix.submatrix q id) i = (code.encMatrix.submatrix q id) j := by
      funext l
      simp only [Matrix.submatrix_apply, hij]
    rw [Matrix.det_zero_of_row_eq hne hrows] at hunit
    exact not_isUnit_zero hunit
  · intro hq
    rw [hmat]
    exact systematic_isUnit_det code.le (injOn_fecPoints hn) hq

/-- What a successful decoding has computed. -/
theorem fecDecode_of_injective (hcode : fecNew k n = some code) (hinj : Function.Injective index)
    (hvalid : ∀ i, index i < n) (pkt : Fin k → Fin sz → Gf) :
    ∃ π : Equiv.Perm (Fin k), (∀ j, index (π j) < k → index (π j) = j)
      ∧ fecDecode code pkt index = some fun row =>
        if k ≤ index (π row) then fun j => ∑ col,
          (code.encMatrix.submatrix (fun i => ⟨index (π i), hvalid (π i)⟩) id)⁻¹ row col
            * pkt (π col) j
        else pkt (π row) := by
  have hnot : ¬ Conflict index := by
    rintro ⟨i, j, hne, heq, -⟩
    exact hne (hinj heq)
  obtain ⟨π, hshuffle, hplace⟩ := (shuffle_spec pkt index).2 hnot
  have hq : Function.Injective fun i : Fin k => (⟨index (π i), hvalid (π i)⟩ : Fin n) :=
    fun i j h => π.injective (hinj (Fin.mk.inj h))
  have hbuild : buildDecodeMatrix code (index ∘ π)
      = some (code.encMatrix.submatrix (fun i => ⟨index (π i), hvalid (π i)⟩) id)⁻¹ :=
    (buildDecodeMatrix_eq hcode hplace fun i => hvalid (π i)).trans
      ((invertMat_eq_some_iff _ _).mpr ⟨(isUnit_det_rows_iff hcode _).mpr hq, rfl⟩)
  refine ⟨π, hplace, ?_⟩
  unfold fecDecode
  rw [hshuffle, Option.bind_some]
  simp only [hbuild, Option.map_some, Option.some.injEq, Function.comp_apply]
  funext row
  split
  · exact foldl_addmul _ _
  · rfl

/-- **`fec_decode`** returns without an error exactly if the indexes are
different and those of packets of the code. -/
theorem fecDecode_isSome_iff (hcode : fecNew k n = some code) (pkt : Fin k → Fin sz → Gf) :
    (fecDecode code pkt index).isSome ↔ Function.Injective index ∧ ∀ i, index i < n := by
  constructor
  · intro h
    obtain ⟨out, hout⟩ := Option.isSome_iff_exists.mp h
    obtain ⟨s, hshuffle, hrest⟩ := Option.bind_eq_some_iff.mp hout
    have hnot : ¬ Conflict index := by
      intro hconf
      rw [(shuffle_spec pkt index).1.mpr hconf] at hshuffle
      exact absurd hshuffle (Option.some_ne_none _).symm
    obtain ⟨π, hsome, hplace⟩ := (shuffle_spec pkt index).2 hnot
    obtain rfl := Option.some.inj (hsome.symm.trans hshuffle)
    obtain ⟨m, hm, -⟩ := Option.map_eq_some_iff.mp hrest
    have hvalid : ∀ i, (index ∘ π) i < n := by
      by_contra hinvalid
      rw [buildDecodeMatrix_none hinvalid code.le] at hm
      exact absurd hm (Option.some_ne_none _).symm
    have hplace' : ∀ j, (index ∘ π) j < k → (index ∘ π) j = j := hplace
    rw [buildDecodeMatrix_eq hcode hplace' hvalid] at hm
    have hq := (isUnit_det_rows_iff hcode _).mp ((invertMat_eq_some_iff _ _).mp hm).1
    constructor
    · intro i j hij
      have hsame : π.symm i = π.symm j := hq (Fin.ext (by simpa using hij))
      exact π.symm.injective hsame
    · intro i
      have := hvalid (π.symm i)
      rwa [Function.comp_apply, Equiv.apply_symm_apply] at this
  · rintro ⟨hinj, hvalid⟩
    obtain ⟨π, -, hsome⟩ := fecDecode_of_injective hcode hinj hvalid pkt
    rw [hsome]
    rfl

/-- Two copies of the second packet of a code of three are refused. -/
theorem fecDecode_isSome_iff_copies :
    fecDecode (⟨by decide, systematic fecPoints 3 2⟩ : FecParms 2 3)
      (fun _ _ => 0 : Fin 2 → Fin 1 → Gf) (fun _ => 1) = none := by
  have hcode : fecNew 2 3 = some ⟨by decide, systematic fecPoints 3 2⟩ :=
    fecNew_eq (by decide) (by decide)
  rw [← Option.not_isSome_iff_eq_none, fecDecode_isSome_iff hcode]
  rintro ⟨hinj, -⟩
  have hsame : (0 : Fin 2) = 1 := hinj rfl
  exact absurd hsame (by decide)

/-- **Decoding** any `k` different packets of a codeword, in any order, gives
the data. -/
theorem fecDecode_encode (hcode : fecNew k n = some code) (hinj : Function.Injective index)
    (hvalid : ∀ i, index i < n) (data : Fin k → Fin sz → Gf) (fec : Fin sz → Gf) :
    fecDecode code (fun i => fecEncode code data fec (index i)) index = some data := by
  obtain ⟨π, hplace, hsome⟩ := fecDecode_of_injective hcode hinj hvalid
    fun i => fecEncode code data fec (index i)
  rw [hsome]
  congr 1
  funext row
  split
  · next hparity =>
      have hq : Function.Injective fun i : Fin k => (⟨index (π i), hvalid (π i)⟩ : Fin n) :=
        fun i j h => π.injective (hinj (Fin.mk.inj h))
      have hunit := (isUnit_det_rows_iff hcode _).mpr hq
      have hpkt : ∀ col j, fecEncode code data fec (index (π col)) j
          = (code.encMatrix.submatrix (fun i => ⟨index (π i), hvalid (π i)⟩) id
            * Matrix.of data) col j := fun col j =>
        congrFun (fecEncode_eq hcode data fec ⟨index (π col), hvalid (π col)⟩) j
      funext j
      simp only [hpkt]
      rw [← Matrix.mul_apply, ← Matrix.mul_assoc, Matrix.nonsing_inv_mul _ hunit, Matrix.one_mul]
      rfl
  · next hdata =>
      have hrow : index (π row) = row := hplace row (by omega)
      unfold fecEncode
      rw [hrow, dif_pos row.isLt]

end Decode

end Fecraw.Ports.FecLib
