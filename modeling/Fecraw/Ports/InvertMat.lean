import Fecraw.Ports.GaloisField
import Fecraw.Verified.Exchange
import Fecraw.Verified.ForLoop

/-!
# Linear algebra of the erasure code

The vector and matrix routines of `lib/fec.cpp`: `addmul1` with its loop
unrolled sixteen times, `matmul`, and `invert_mat`, which inverts a matrix in
its own storage by Gauss-Jordan elimination with a search for pivots.

A vector of `k` elements is a function on `Fin k`, a matrix one on rows and
columns, so an index out of range cannot be written.  Leaving with an error is
`none`.

## Main results

* `addmul_eq`: the unrolled loop adds a multiple of the source to the
  destination.
* `invertMat_eq_some_iff`: `invert_mat` succeeds exactly on the invertible
  matrices, and leaves the inverse.
-/

namespace Fecraw.Ports.FecLib

open Fecraw.Verified

variable {k : Nat}

/-! ## Adding a multiple of a vector -/

/-- `GF_ADDMULC(dst[i], src[i])`. -/
def gfAddmulc (c : Gf) (src dst : Fin k → Gf) (i : Fin k) : Fin k → Gf :=
  Function.update dst i (dst i + gfMul c (src i))

/-- `UNROLL`. -/
def unroll : Nat := 16

/-- Entry `i` of block `o`. -/
def blockIndex (o : Fin (k / unroll)) (i : Fin unroll) : Fin k :=
  ⟨o * unroll + i, by
    have ho : o.val < k / 16 := o.isLt
    have hi : i.val < 16 := i.isLt
    simp only [unroll]
    omega⟩

/-- Entry `i` after the last whole block. -/
def finalIndex (i : Fin (k % unroll)) : Fin k :=
  ⟨k / unroll * unroll + i, by
    have hi : i.val < k % 16 := i.isLt
    simp only [unroll]
    omega⟩

/-- The sixteen statements of one pass of the unrolled loop. -/
def addmulBlock (c : Gf) (src dst : Fin k → Gf) (o : Fin (k / unroll)) : Fin k → Gf :=
  (List.finRange unroll).foldl (fun dst i => gfAddmulc c src dst (blockIndex o i)) dst

/-- `addmul1`: whole blocks while sixteen entries are left, then the final
components one by one. -/
def addmul1 (dst src : Fin k → Gf) (c : Gf) : Fin k → Gf :=
  let dst := (List.finRange (k / unroll)).foldl (addmulBlock c src) dst
  (List.finRange (k % unroll)).foldl (fun dst i => gfAddmulc c src dst (finalIndex i)) dst

/-- `addmul`: nothing to do for `c = 0`. -/
def addmul (dst src : Fin k → Gf) (c : Gf) : Fin k → Gf :=
  if c ≠ 0 then addmul1 dst src c else dst

/-- `matmul`: the accumulator runs over the inner dimension. -/
def matmul {n m : Nat} (a : Fin n → Fin k → Gf) (b : Fin k → Fin m → Gf) : Fin n → Fin m → Gf :=
  fun row col => (List.finRange k).foldl (fun acc i => acc + gfMul (a row i) (b i col)) 0

/-! ## Inverting a matrix in place -/

/-- The inner loop of the pivot search, along one row: an unused column with a
nonzero entry is found, and a column used twice ends the search with an
error. -/
def searchRow (src : Matrix (Fin k) (Fin k) Gf) (ipiv : Fin k → Nat) (row : Fin k) :
    Option (Option (Fin k × Fin k)) :=
  (List.finRange k).findSome? fun ix =>
    if ipiv ix = 0 then
      if src row ix ≠ 0 then some (some (row, ix)) else none
    else if 1 < ipiv ix then some none
    else none

/-- The pivot `(irow, icol)` of pass `col`: the diagonal entry if it will do,
else the first one the search finds.  `none` is either of its errors. -/
def findPivot (src : Matrix (Fin k) (Fin k) Gf) (ipiv : Fin k → Nat) (col : Fin k) :
    Option (Fin k × Fin k) :=
  if ipiv col ≠ 1 ∧ src col col ≠ 0 then some (col, col)
  else ((List.finRange k).findSome? fun row =>
    if ipiv row ≠ 1 then searchRow src ipiv row else none).join

/-- Swapping two rows, unless they are the same. -/
def swapRows (src : Matrix (Fin k) (Fin k) Gf) (irow icol : Fin k) : Matrix (Fin k) (Fin k) Gf :=
  if irow ≠ icol then src.submatrix (Equiv.swap irow icol) id else src

/-- Scaling the pivot row: the pivot is replaced by 1 first, and nothing is
done if it is 1 already. -/
def scalePivot (src : Matrix (Fin k) (Fin k) Gf) (icol : Fin k) : Matrix (Fin k) (Fin k) Gf :=
  let c := src icol icol
  if c ≠ 1 then
    src.updateRow icol fun ix => gfMul (gfInverse c) (Function.update (src icol) icol 1 ix)
  else src

/-- Removing multiples of the pivot row from the others, with the entry in the
pivot column replaced by 0 first.  Nothing is done if the pivot row is a row
of the identity. -/
def eliminate (src : Matrix (Fin k) (Fin k) Gf) (icol : Fin k) : Matrix (Fin k) (Fin k) Gf :=
  if src icol ≠ Function.update (fun _ => 0) icol 1 then
    Matrix.of fun ix =>
      if ix ≠ icol then addmul (Function.update (src ix) icol 0) (src icol) (src ix icol)
      else src ix
  else src

/-- The storage of `invert_mat`: the matrix, the pivots used, and the pairs
`(indxr[col], indxc[col])`, the last one first. -/
structure InvertState (k : Nat) where
  src : Matrix (Fin k) (Fin k) Gf
  ipiv : Fin k → Nat
  indx : List (Fin k × Fin k)

/-- A pass of the main loop. -/
def invertPass (s : InvertState k) (col : Fin k) : Option (InvertState k) :=
  (findPivot s.src s.ipiv col).bind fun piv =>
    let src := swapRows s.src piv.1 piv.2
    if src piv.2 piv.2 = 0 then none
    else some
      { src := eliminate (scalePivot src piv.2) piv.2
        ipiv := Function.update s.ipiv piv.2 (s.ipiv piv.2 + 1)
        indx := piv :: s.indx }

/-- Swapping two columns, unless they are the same. -/
def swapCols (src : Matrix (Fin k) (Fin k) Gf) (indx : Fin k × Fin k) :
    Matrix (Fin k) (Fin k) Gf :=
  if indx.1 ≠ indx.2 then src.submatrix id (Equiv.swap indx.1 indx.2) else src

/-- `invert_mat`. -/
def invertMat (src : Matrix (Fin k) (Fin k) Gf) : Option (Matrix (Fin k) (Fin k) Gf) :=
  ((List.finRange k).foldlM invertPass ⟨src, fun _ => 0, []⟩).map fun s =>
    s.indx.foldl swapCols s.src

/-! ## The vector routines -/

/-- The entries the two loops of `addmul1` visit, in order. -/
def addmulOrder (k : Nat) : List (Fin k) :=
  (List.finRange (k / unroll)).flatMap (fun o => (List.finRange unroll).map (blockIndex o))
    ++ (List.finRange (k % unroll)).map finalIndex

theorem addmul1_eq_foldl (dst src : Fin k → Gf) (c : Gf) :
    addmul1 dst src c = (addmulOrder k).foldl (gfAddmulc c src) dst := by
  unfold addmul1 addmulOrder addmulBlock
  simp only [List.foldl_append, List.foldl_map, List.foldl_flatMap]

theorem val_blockIndex (o : Fin (k / unroll)) (i : Fin unroll) :
    (blockIndex o i).val = o * 16 + i := rfl

theorem val_finalIndex (i : Fin (k % unroll)) :
    (finalIndex i).val = k / 16 * 16 + i := rfl

/-- Every entry is visited. -/
theorem mem_addmulOrder (i : Fin k) : i ∈ addmulOrder k := by
  have hdm : i.val / 16 * 16 + i.val % 16 = i.val := Nat.div_add_mod' ..
  by_cases hi : i.val < k / 16 * 16
  · apply List.mem_append_left
    have ho : i.val / 16 < k / unroll := by
      simp only [unroll]
      omega
    refine List.mem_flatMap.mpr ⟨⟨i.val / 16, ho⟩, List.mem_finRange _, ?_⟩
    refine List.mem_map.mpr ⟨⟨i.val % 16, Nat.mod_lt _ (by decide)⟩, List.mem_finRange _, ?_⟩
    exact Fin.ext hdm
  · apply List.mem_append_right
    have ht : i.val - k / 16 * 16 < k % unroll := by
      have := i.isLt
      simp only [unroll]
      omega
    refine List.mem_map.mpr ⟨⟨i.val - k / 16 * 16, ht⟩, List.mem_finRange _, ?_⟩
    apply Fin.ext
    rw [val_finalIndex]
    simp only
    omega

/-- No entry is visited twice. -/
theorem nodup_addmulOrder : (addmulOrder k).Nodup := by
  have hin : ∀ o : Fin (k / unroll), ((List.finRange unroll).map (blockIndex o)).Nodup := by
    intro o
    apply (List.nodup_finRange unroll).map
    intro i j h
    have hv := congrArg Fin.val h
    rw [val_blockIndex, val_blockIndex] at hv
    exact Fin.ext (Nat.add_left_cancel hv)
  have hacross : ∀ {o p : Fin (k / unroll)}, o ≠ p →
      List.Disjoint ((List.finRange unroll).map (blockIndex o))
        ((List.finRange unroll).map (blockIndex p)) := by
    intro o p hop i ho hp
    obtain ⟨a, -, rfl⟩ := List.mem_map.mp ho
    obtain ⟨b, -, hb⟩ := List.mem_map.mp hp
    have hv := congrArg Fin.val hb
    rw [val_blockIndex, val_blockIndex] at hv
    have ha : a.val < 16 := a.isLt
    have hb' : b.val < 16 := b.isLt
    exact hop (Fin.ext (by omega))
  apply List.Nodup.append
  · rw [List.nodup_flatMap]
    refine ⟨fun o _ => hin o, ?_⟩
    exact (List.nodup_finRange _).imp fun h => hacross h
  · apply (List.nodup_finRange _).map
    intro i j h
    have hv := congrArg Fin.val h
    rw [val_finalIndex, val_finalIndex] at hv
    exact Fin.ext (Nat.add_left_cancel hv)
  · intro i hblock hfinal
    obtain ⟨o, -, ho⟩ := List.mem_flatMap.mp hblock
    obtain ⟨a, -, rfl⟩ := List.mem_map.mp ho
    obtain ⟨b, -, hb⟩ := List.mem_map.mp hfinal
    have hv := congrArg Fin.val hb
    rw [val_blockIndex, val_finalIndex] at hv
    have ha : a.val < 16 := a.isLt
    have hlt : o.val < k / 16 := o.isLt
    omega

/-- The unrolled loop adds `c` times the source. -/
theorem addmul_eq (dst src : Fin k → Gf) (c : Gf) :
    addmul dst src c = fun i => dst i + c * src i := by
  funext i
  unfold addmul
  split
  · have h := foldl_update (fun i x => x + gfMul c (src i)) nodup_addmulOrder dst i
    rw [if_pos (mem_addmulOrder i)] at h
    rw [addmul1_eq_foldl]
    exact h
  · next hc =>
      rw [not_not.mp hc, zero_mul, add_zero]

/-- The accumulator loop of `matmul` is an entry of the product of matrices. -/
theorem matmul_apply {n m : Nat} (a : Fin n → Fin k → Gf) (b : Fin k → Fin m → Gf) (row : Fin n)
    (col : Fin m) : matmul a b row col = ∑ i, a row i * b i col :=
  (foldl_finRange_add (fun i => a row i * b i col) 0).trans (zero_add _)

/-- A loop over `addmul` accumulates a linear combination. -/
theorem foldl_addmul {sz : Nat} (v : Fin k → Fin sz → Gf) (a : Fin k → Gf) :
    (List.finRange k).foldl (fun out i => addmul out (v i) (a i)) (fun _ => 0)
      = fun j => ∑ i, a i * v i j := by
  have h := foldl_finRange_add (fun i => fun j => a i * v i j) (0 : Fin sz → Gf)
  simp only [addmul_eq]
  refine h.trans ?_
  funext j
  rw [Pi.add_apply, Pi.zero_apply, zero_add, Finset.sum_apply]

/-! ## A pass of the elimination -/

variable {src : Matrix (Fin k) (Fin k) Gf} {ipiv : Fin k → Nat}

/-- With no column used twice, the search along a row finds unused columns
only. -/
theorem searchRow_some (hle : ∀ i, ipiv i ≤ 1) {row : Fin k} {found : Option (Fin k × Fin k)}
    (h : searchRow src ipiv row = some found) :
    ∃ ix, found = some (row, ix) ∧ ipiv ix = 0 ∧ src row ix ≠ 0 := by
  obtain ⟨ix, -, hix⟩ := List.exists_of_findSome?_eq_some h
  simp only [Nat.not_lt.mpr (hle ix), if_false] at hix
  split at hix
  · next hunused =>
      split at hix
      · next hne => exact ⟨ix, (Option.some.inj hix).symm, hunused, hne⟩
      · exact absurd hix (Option.some_ne_none _).symm
  · exact absurd hix (Option.some_ne_none _).symm

theorem searchRow_none {row : Fin k} (h : searchRow src ipiv row = none) {ix : Fin k}
    (hix : ipiv ix = 0) : src row ix = 0 := by
  have hnone := List.findSome?_eq_none_iff.mp h ix (List.mem_finRange ix)
  simp only [hix, if_true] at hnone
  by_contra hne
  rw [if_pos hne] at hnone
  exact absurd hnone (Option.some_ne_none _)

/-- A found pivot is a nonzero entry in an unused row and an unused column. -/
theorem findPivot_some (hle : ∀ i, ipiv i ≤ 1) {col : Fin k} {piv : Fin k × Fin k}
    (h : findPivot src ipiv col = some piv) :
    ipiv piv.1 = 0 ∧ ipiv piv.2 = 0 ∧ src piv.1 piv.2 ≠ 0 := by
  have hunused : ∀ i, ipiv i ≠ 1 → ipiv i = 0 := by
    intro i hi
    have := hle i
    omega
  unfold findPivot at h
  split at h
  · next hdiag =>
      obtain rfl := Option.some.inj h
      exact ⟨hunused col hdiag.1, hunused col hdiag.1, hdiag.2⟩
  · have hfind := Option.join_eq_some_iff.mp h
    obtain ⟨row, -, hrow⟩ := List.exists_of_findSome?_eq_some hfind
    split at hrow
    · next hne =>
        obtain ⟨ix, hfound, hix, hsrc⟩ := searchRow_some hle hrow
        obtain rfl := Option.some.inj hfound
        exact ⟨hunused row hne, hix, hsrc⟩
    · exact absurd hrow (Option.some_ne_none _).symm

/-- A pivot is found if there is one. -/
theorem findPivot_of_ne_zero (hle : ∀ i, ipiv i ≤ 1) (col : Fin k) {row ix : Fin k}
    (hrow : ipiv row = 0) (hix : ipiv ix = 0) (hne : src row ix ≠ 0) :
    ∃ piv, findPivot src ipiv col = some piv := by
  unfold findPivot
  split
  · exact ⟨_, rfl⟩
  · cases hfind : (List.finRange k).findSome? fun row =>
        if ipiv row ≠ 1 then searchRow src ipiv row else none with
    | none =>
        have hnone := List.findSome?_eq_none_iff.mp hfind row (List.mem_finRange row)
        rw [if_pos (by omega)] at hnone
        exact absurd (searchRow_none hnone hix) hne
    | some found =>
        obtain ⟨r, -, hr⟩ := List.exists_of_findSome?_eq_some hfind
        split at hr
        · obtain ⟨ix', rfl, -⟩ := searchRow_some hle hr
          exact ⟨_, rfl⟩
        · exact absurd hr (Option.some_ne_none _).symm

theorem swapRows_eq (src : Matrix (Fin k) (Fin k) Gf) (irow icol : Fin k) :
    swapRows src irow icol = src.submatrix (Equiv.swap irow icol) id := by
  unfold swapRows
  by_cases h : irow = icol
  · rw [if_neg (not_not.mpr h), h, Equiv.swap_self]
    rfl
  · rw [if_pos h]

/-- The matrix after scaling; a pivot of 1 is its own inverse. -/
theorem scalePivot_apply (src : Matrix (Fin k) (Fin k) Gf) (p i j : Fin k) :
    scalePivot src p i j
      = if i = p then (src p p)⁻¹ * (if j = p then 1 else src p j) else src i j := by
  unfold scalePivot
  by_cases h : src p p = 1
  · rw [if_neg (not_not.mpr h), h, inv_one, one_mul]
    by_cases hi : i = p
    · by_cases hj : j = p
      · rw [if_pos hi, if_pos hj, hi, hj, h]
      · rw [if_pos hi, if_neg hj, hi]
    · rw [if_neg hi]
  · rw [if_pos h, Matrix.updateRow_apply]
    simp only [Function.update_apply]
    rfl

/-- The other rows after the elimination; if the pivot row is a row of the
identity, adding its multiples puts back the entries that were cleared. -/
theorem eliminate_apply (src : Matrix (Fin k) (Fin k) Gf) (p i j : Fin k) :
    eliminate src p i j = if i = p then src p j
      else (if j = p then 0 else src i j) + src i p * src p j := by
  unfold eliminate
  by_cases hid : src p = Function.update (fun _ => 0) p 1
  · have hrow : ∀ j, src p j = if j = p then 1 else 0 := by
      intro j
      rw [hid, Function.update_apply]
    rw [if_neg (not_not.mpr hid), hrow]
    by_cases hi : i = p
    · rw [if_pos hi, hi, hrow]
    · by_cases hj : j = p
      · simp [hi, hj]
      · simp [hi, hj]
  · rw [if_pos hid, Matrix.of_apply]
    by_cases hi : i = p
    · rw [if_neg (not_not.mpr hi), if_pos hi, hi]
    · rw [if_pos hi, if_neg hi, addmul_eq]
      simp only [Function.update_apply]

/-- Scaling and elimination are one exchange. -/
theorem eliminate_scalePivot (src : Matrix (Fin k) (Fin k) Gf) (p : Fin k) :
    eliminate (scalePivot src p) p = exchange p src := by
  ext i j : 1
  simp only [eliminate_apply, scalePivot_apply, exchange, Matrix.of_apply, if_true]
  by_cases hi : i = p
  · rw [if_pos hi, if_pos hi]
    by_cases hj : j = p
    · rw [if_pos hj, if_pos hj, mul_one]
    · rw [if_neg hj, if_neg hj, Gf.neg_eq]
  · rw [if_neg hi, if_neg hi, if_neg hi, if_neg hi]
    by_cases hj : j = p
    · rw [if_pos hj, if_pos hj, if_pos hj, zero_add, mul_one]
    · rw [if_neg hj, if_neg hj, if_neg hj, sub_eq_add_neg, Gf.neg_eq]

/-! ## The whole elimination -/

/-- The rows have been permuted by the swaps recorded, the first one first. -/
def rowPerm : List (Fin k × Fin k) → Equiv.Perm (Fin k)
  | [] => 1
  | piv :: indx => rowPerm indx * Equiv.swap piv.1 piv.2

/-- The pivots used so far. -/
def InvertState.used (s : InvertState k) : Finset (Fin k) :=
  Finset.univ.filter fun i => s.ipiv i = 1

/-- After `n` passes `n` arguments have been exchanged. -/
structure InvertState.Inv (A : Matrix (Fin k) (Fin k) Gf) (n : Nat) (s : InvertState k) : Prop where
  ipiv_le : ∀ i, s.ipiv i ≤ 1
  card_used : s.used.card = n
  exchanged : Exchanged A s.src s.used (rowPerm s.indx)

theorem invertPass_eq_some {s s' : InvertState k} {col : Fin k} (h : invertPass s col = some s') :
    ∃ piv, findPivot s.src s.ipiv col = some piv
      ∧ s' = { src := exchange piv.2 (s.src.submatrix (Equiv.swap piv.1 piv.2) id)
               ipiv := Function.update s.ipiv piv.2 (s.ipiv piv.2 + 1)
               indx := piv :: s.indx } := by
  obtain ⟨piv, hpiv, hrest⟩ := Option.bind_eq_some_iff.mp h
  refine ⟨piv, hpiv, ?_⟩
  simp only at hrest
  split at hrest
  · exact absurd hrest (Option.some_ne_none _).symm
  · rw [eliminate_scalePivot, swapRows_eq] at hrest
    exact (Option.some.inj hrest).symm

/-- A pass exchanges one more argument. -/
theorem InvertState.Inv.invertPass {A : Matrix (Fin k) (Fin k) Gf} {n : Nat} {s s' : InvertState k}
    (hinv : s.Inv A n) {col : Fin k} (h : invertPass s col = some s') : s'.Inv A (n + 1) := by
  obtain ⟨piv, hpiv, rfl⟩ := invertPass_eq_some h
  obtain ⟨hrow, hcol, hne⟩ := findPivot_some hinv.ipiv_le hpiv
  have hnot : ∀ i, s.ipiv i = 0 → i ∉ s.used := by
    intro i hi hmem
    have := (Finset.mem_filter.mp hmem).2
    omega
  have hused : InvertState.used ⟨exchange piv.2 (s.src.submatrix (Equiv.swap piv.1 piv.2) id),
      Function.update s.ipiv piv.2 (s.ipiv piv.2 + 1), piv :: s.indx⟩ = insert piv.2 s.used := by
    ext i
    simp only [InvertState.used, Finset.mem_filter, Finset.mem_univ, true_and, Finset.mem_insert,
      Function.update_apply]
    by_cases hi : i = piv.2
    · simp [hi, hcol]
    · simp [hi]
  refine ⟨?_, ?_, ?_⟩
  · intro i
    simp only [Function.update_apply]
    split
    · omega
    · exact hinv.ipiv_le i
  · rw [hused, Finset.card_insert_of_notMem (hnot _ hcol), hinv.card_used]
  · rw [hused]
    apply Exchanged.pivot _ (hnot _ hcol)
    · simpa using hne
    · exact hinv.exchanged.swapRows (hnot _ hrow) (hnot _ hcol)

/-- On an invertible matrix no pass fails before all columns are done. -/
theorem InvertState.Inv.exists_invertPass {A : Matrix (Fin k) (Fin k) Gf} (hA : IsUnit A.det)
    {n : Nat} {s : InvertState k} (hinv : s.Inv A n) (hn : n < k) (col : Fin k) :
    ∃ s', FecLib.invertPass s col = some s' := by
  have hex : ∃ i, i ∉ s.used := by
    by_contra hall
    push Not at hall
    have huniv : s.used = Finset.univ := Finset.eq_univ_iff_forall.mpr hall
    have hcard := hinv.card_used
    rw [huniv, Finset.card_univ, Fintype.card_fin] at hcard
    omega
  have hzero : ∀ i, i ∉ s.used → s.ipiv i = 0 := by
    intro i hi
    have hle := hinv.ipiv_le i
    have hne : s.ipiv i ≠ 1 := fun h1 => hi (Finset.mem_filter.mpr ⟨Finset.mem_univ i, h1⟩)
    omega
  obtain ⟨i, hi⟩ := hex
  obtain ⟨j, hj, hij⟩ := hinv.exchanged.exists_ne_zero hA hi
  obtain ⟨piv, hpiv⟩ := findPivot_of_ne_zero hinv.ipiv_le col (hzero i hi) (hzero j hj) hij
  obtain ⟨-, -, hne⟩ := findPivot_some hinv.ipiv_le hpiv
  unfold FecLib.invertPass
  rw [hpiv, Option.bind_some]
  simp only [swapRows_eq, Matrix.submatrix_apply, Equiv.swap_apply_right, id, hne, if_false]
  exact ⟨_, rfl⟩

/-- Swapping columns in reverse order undoes the permutation of the rows. -/
theorem foldl_swapCols (indx : List (Fin k × Fin k)) :
    ∀ src : Matrix (Fin k) (Fin k) Gf,
      indx.foldl swapCols src = src.submatrix id (rowPerm indx).symm := by
  induction indx with
  | nil => exact fun src => rfl
  | cons piv indx ih =>
      intro src
      have hswap : swapCols src piv = src.submatrix id (Equiv.swap piv.1 piv.2) := by
        unfold swapCols
        by_cases h : piv.1 = piv.2
        · rw [if_neg (not_not.mpr h), h, Equiv.swap_self]
          rfl
        · rw [if_pos h]
      rw [List.foldl_cons, ih, hswap]
      rfl

theorem invertState_start (A : Matrix (Fin k) (Fin k) Gf) :
    InvertState.Inv A 0 ⟨A, fun _ => 0, []⟩ where
  ipiv_le _ := Nat.zero_le 1
  card_used := by simp [InvertState.used]
  exchanged := by
    have hused : InvertState.used ⟨A, fun _ => 0, []⟩ = ∅ := by simp [InvertState.used]
    rw [hused]
    exact exchanged_start A

/-- What `invert_mat` leaves is an inverse. -/
theorem mul_of_invertMat {src M : Matrix (Fin k) (Fin k) Gf} (h : invertMat src = some M) :
    M * src = 1 := by
  obtain ⟨s, hs, rfl⟩ := Option.map_eq_some_iff.mp h
  have hinv : s.Inv src k := foldlM_finRange_some (P := fun n s => s.Inv src n)
    (invertState_start src) (fun _ _ _ hinv hpass => hinv.invertPass hpass) hs
  have huniv : s.used = Finset.univ := by
    apply Finset.eq_univ_of_card
    rw [hinv.card_used, Fintype.card_fin]
  have hex := hinv.exchanged
  rw [huniv] at hex
  rw [foldl_swapCols]
  exact hex.inverse

/-- **`invert_mat`** returns without an error exactly on the invertible
matrices, and then the storage holds the inverse. -/
theorem invertMat_eq_some_iff (src M : Matrix (Fin k) (Fin k) Gf) :
    invertMat src = some M ↔ IsUnit src.det ∧ M = src⁻¹ := by
  constructor
  · intro h
    have hmul := mul_of_invertMat h
    have hunit : IsUnit src.det := (Matrix.isUnit_iff_isUnit_det src).mp
      (IsUnit.of_mul_eq_one_right M hmul)
    exact ⟨hunit, (Matrix.inv_eq_left_inv hmul).symm⟩
  · rintro ⟨hunit, rfl⟩
    obtain ⟨s, hs⟩ := foldlM_finRange_total (P := fun n s => s.Inv src n)
      (f := invertPass) (invertState_start src) (fun i s hinv => by
        obtain ⟨s', hs'⟩ := hinv.exists_invertPass hunit i.isLt i
        exact ⟨s', hs', hinv.invertPass hs'⟩)
    have hsome : invertMat src = some (s.indx.foldl swapCols s.src) := by
      unfold invertMat
      rw [hs]
      rfl
    rw [hsome, Matrix.inv_eq_left_inv (mul_of_invertMat hsome)]

end Fecraw.Ports.FecLib
