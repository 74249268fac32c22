import Fecraw.Verified.CyclicField
import Fecraw.Verified.ForLoop
import Fecraw.Verified.Octet
import Mathlib.Algebra.Field.Defs
import Mathlib.Algebra.BigOperators.Fin
import Mathlib.Data.Fintype.Card
import Mathlib.Dynamics.PeriodicPts.Defs
import Mathlib.Tactic

/-!
# The tables of the erasure code's field

`lib/fec.cpp` computes over the octets as a field with 256 elements.  Sums are
XOR; products and inverses are table lookups.  `generate_gf` fills the tables
of powers, logarithms and inverses by running through the powers of `x`
modulo the polynomial written down as the text `"101110001"`, and
`init_mul_table` fills the 256 by 256 table of products from them.

The tables are static arrays, so they start out as zeros.  An array is a
function from the index to the entry.

## Main results

* `modnn_eq_mod`: the shift-and-mask remainder is the remainder by 255.
* `exp_generateGf`, `log_generateGf`: what the two loops leave in the tables.
* `gfMul_logMul`: a product adds logarithms, so the octets are a field under
  the table of products, XOR and the table of inverses.
* `gfMul_field`: the laws of that field, and that the table of products agrees
  with the plain shift-and-add product modulo the polynomial.
-/

namespace Fecraw.Ports.FecLib

open Fecraw.Verified

/-! ## Field elements -/

/-- `typedef unsigned char gf`, with XOR as its sum. -/
structure Gf where
  octet : UInt8
deriving DecidableEq, Repr

namespace Gf

instance : Add Gf := ⟨fun a b => ⟨a.octet ^^^ b.octet⟩⟩
instance : Zero Gf := ⟨⟨0⟩⟩
instance : One Gf := ⟨⟨1⟩⟩
instance : Neg Gf := ⟨id⟩
instance : Inhabited Gf := ⟨0⟩

@[simp] theorem octet_add (a b : Gf) : (a + b).octet = a.octet ^^^ b.octet := rfl
@[simp] theorem octet_zero : (0 : Gf).octet = 0 := rfl
@[simp] theorem octet_one : (1 : Gf).octet = 1 := rfl

@[ext] theorem ext {a b : Gf} (h : a.octet = b.octet) : a = b := by
  cases a
  cases b
  exact congrArg mk h

instance : AddCommGroup Gf where
  add_assoc a b c := ext (UInt8.xor_assoc ..)
  zero_add a := ext UInt8.zero_xor
  add_zero a := ext UInt8.xor_zero
  add_comm a b := ext (UInt8.xor_comm ..)
  neg_add_cancel a := ext UInt8.xor_self
  nsmul := nsmulRec
  zsmul := zsmulRec

@[simp] theorem neg_eq (a : Gf) : -a = a := rfl

theorem add_self (a : Gf) : a + a = 0 := neg_add_cancel a

/-- The position of an element in a table. -/
def index (a : Gf) : Nat := a.octet.toNat

theorem index_inj {a b : Gf} : a.index = b.index ↔ a = b :=
  ⟨fun h => ext (UInt8.toNat_inj.mp h), congrArg index⟩

theorem index_lt (a : Gf) : a.index < 256 := a.octet.toNat_lt

/-- The elements are counted by their positions. -/
def equivFin : Gf ≃ Fin 256 where
  toFun a := ⟨a.index, a.index_lt⟩
  invFun i := ⟨UInt8.ofNat i⟩
  left_inv a := by
    apply ext
    simp [index]
  right_inv i := by
    apply Fin.ext
    simp [index]

instance : Fintype Gf := Fintype.ofEquiv _ equivFin.symm

theorem card_eq : Fintype.card Gf = 256 := by
  rw [Fintype.card_congr equivFin, Fintype.card_fin]

end Gf

/-! ## Generating the tables -/

/-- `GF_BITS`. -/
def gfBits : Nat := 8

/-- `GF_SIZE`: the number of powers of `x`. -/
def gfSize : Nat := 2 ^ gfBits - 1

theorem gfSize_eq : gfSize = 255 := rfl

/-- `allPp[GF_BITS]`: the polynomial `1 + x^2 + x^3 + x^4 + x^8`. -/
def allPp : List Char := ['1', '0', '1', '1', '1', '0', '0', '0', '1']

/-- The static tables `gf_exp`, `gf_log` and `inverse`. -/
structure GfTables where
  gfExp : Nat → Gf
  gfLog : Nat → Nat
  inverse : Nat → Gf

namespace GfTables

def setExp (t : GfTables) (i : Nat) (x : Gf) : GfTables :=
  { t with gfExp := Function.update t.gfExp i x }

def setLog (t : GfTables) (x : Gf) (i : Nat) : GfTables :=
  { t with gfLog := Function.update t.gfLog x.index i }

def setInverse (t : GfTables) (i : Nat) (x : Gf) : GfTables :=
  { t with inverse := Function.update t.inverse i x }

/-- Static storage before `init_fec`. -/
def static : GfTables := ⟨fun _ => 0, fun _ => 0, fun _ => 0⟩

/-- A pass of the first loop of `generate_gf`, with its `mask`. -/
def lowPower (s : GfTables × Gf) (i : Nat) : GfTables × Gf :=
  let t := s.1.setExp i s.2
  let t := t.setLog (t.gfExp i) i
  let t := if allPp.getD i '0' = '1' then t.setExp gfBits (t.gfExp gfBits + s.2) else t
  (t, ⟨s.2.octet <<< 1⟩)

/-- A pass of the second loop of `generate_gf`. -/
def nextPower (mask : Gf) (t : GfTables) (i : Nat) : GfTables :=
  let t :=
    if mask.octet ≤ (t.gfExp (i - 1)).octet then
      t.setExp i (t.gfExp gfBits + ⟨(t.gfExp (i - 1) + mask).octet <<< 1⟩)
    else t.setExp i ⟨(t.gfExp (i - 1)).octet <<< 1⟩
  t.setLog (t.gfExp i) i

/-- The first loop, and the logarithm of the power it completes. -/
def lowPowers (t : GfTables) : GfTables :=
  let t := ((List.range gfBits).foldl lowPower (t.setExp gfBits 0, 1)).1
  t.setLog (t.gfExp gfBits) gfBits

/-- The second loop. -/
def nextPowers (t : GfTables) : GfTables :=
  (List.range' (gfBits + 1) (gfSize - (gfBits + 1))).foldl (nextPower ⟨128⟩) t

/-- The extended powers. -/
def extend (t : GfTables) : GfTables :=
  (List.range gfSize).foldl (fun t i => t.setExp (i + gfSize) (t.gfExp i)) t

/-- The inverses. -/
def inverses (t : GfTables) : GfTables :=
  (List.range' 2 (gfSize - 1)).foldl
    (fun t i => t.setInverse i (t.gfExp (gfSize - t.gfLog i))) ((t.setInverse 0 0).setInverse 1 1)

end GfTables

open GfTables in
/-- `generate_gf`. -/
def generateGf : GfTables :=
  ((static.lowPowers.nextPowers.setLog 0 gfSize).extend).inverses

/-- `modnn`: the loop takes away 255 and folds the high octets onto the low one. -/
def modnn (x : Nat) : Nat :=
  if gfSize ≤ x then modnn (((x - gfSize) >>> gfBits) + ((x - gfSize) &&& gfSize)) else x
termination_by x
decreasing_by
  have h : gfSize ≤ x := by assumption
  have hfold : ((x - gfSize) >>> gfBits) + ((x - gfSize) &&& gfSize)
      = (x - gfSize) / 2 ^ gfBits + (x - gfSize) % 2 ^ gfBits := by
    rw [Nat.shiftRight_eq_div_pow, gfSize, Nat.and_two_pow_sub_one_eq_mod]
  rw [hfold]
  simp only [gfSize, gfBits] at h ⊢
  omega

/-- The table of products after the double loop of `init_mul_table`. -/
def mulTable (t : GfTables) : Nat → Nat → Gf := fun i j =>
  if i < gfSize + 1 ∧ j < gfSize + 1 then t.gfExp (modnn (t.gfLog i + t.gfLog j)) else 0

/-- A pass of its last loop: `gf_mul_table[0][j] = gf_mul_table[j][0] = 0`. -/
def zeroProducts (table : Nat → Nat → Gf) (j : Nat) : Nat → Nat → Gf :=
  let table := Function.update table j (Function.update (table j) 0 0)
  Function.update table 0 (Function.update (table 0) j 0)

/-- `init_mul_table`. -/
def initMulTable (t : GfTables) : Nat → Nat → Gf :=
  (List.range (gfSize + 1)).foldl zeroProducts (mulTable t)

/-- `init_fec`: the tables all later calls read. -/
@[irreducible] def fecTables : GfTables := generateGf

/-- `gf_mul(x, y)`: a lookup in the table of products. -/
@[irreducible] def gfMul (x y : Gf) : Gf := initMulTable fecTables x.index y.index

/-- `inverse[x]`. -/
@[irreducible] def gfInverse (x : Gf) : Gf := fecTables.inverse x.index

/-! ## The powers of `x` -/

/-- Multiplication by `x` modulo the polynomial. -/
def alpha (x : Gf) : Gf := ⟨shiftReduce 29 x.octet⟩

theorem alpha_add (x y : Gf) : alpha (x + y) = alpha x + alpha y :=
  Gf.ext (shiftReduce_xor 29 x.octet y.octet)

/-- The power `i` of `x`. -/
def power (i : Nat) : Gf := alpha^[i] 1

theorem power_succ (i : Nat) : power (i + 1) = alpha (power i) :=
  Function.iterate_succ_apply' ..

/-- The powers of `x` at 255 and at its quotients by its primes. -/
theorem power_quotients : power 255 = 1 ∧ power 85 ≠ 1 ∧ power 51 ≠ 1 ∧ power 15 ≠ 1 := by
  decide +kernel

theorem power_period : power 255 = 1 := power_quotients.1

/-- The powers of `x` repeat after 255 steps and not before: a shorter period
would divide 255 by one of its primes. -/
theorem minimalPeriod_alpha : Function.minimalPeriod alpha 1 = 255 := by
  obtain ⟨hperiod, h85, h51, h15⟩ := power_quotients
  have hdvd : Function.minimalPeriod alpha 1 ∣ 255 :=
    Function.IsPeriodicPt.minimalPeriod_dvd hperiod
  have hnot : ∀ n, power n ≠ 1 → ¬ Function.minimalPeriod alpha 1 ∣ n := by
    intro n hn hm
    exact hn (Function.isPeriodicPt_iff_minimalPeriod_dvd.mpr hm)
  have h85 := hnot 85 h85
  have h51 := hnot 51 h51
  have h15 := hnot 15 h15
  generalize Function.minimalPeriod alpha 1 = m at hdvd h85 h51 h15
  have hmem : m ∈ Nat.divisors 255 := Nat.mem_divisors.mpr ⟨hdvd, by decide⟩
  have hdivisors : Nat.divisors 255 = {1, 3, 5, 15, 17, 51, 85, 255} := by decide +kernel
  rw [hdivisors] at hmem
  simp only [Finset.mem_insert, Finset.mem_singleton] at hmem
  rcases hmem with rfl | rfl | rfl | rfl | rfl | rfl | rfl | rfl <;> omega

theorem power_inj {i j : Nat} (hi : i < 255) (hj : j < 255) (h : power i = power j) : i = j := by
  have hinj := Function.iterate_injOn_Iio_minimalPeriod (f := alpha) (x := 1)
  rw [minimalPeriod_alpha] at hinj
  exact hinj hi hj h

theorem alpha_ne_zero {x : Gf} (hx : x ≠ 0) : alpha x ≠ 0 := by
  have hall : ∀ i : Fin 256, i ≠ 0 → alpha (Gf.equivFin.symm i) ≠ 0 := by decide +kernel
  have h := hall (Gf.equivFin x) fun h0 => hx (Gf.equivFin.injective h0)
  rwa [Equiv.symm_apply_apply] at h

/-- The step of the second loop of `generate_gf` clears the top bit before it
shifts, which shifting does anyway. -/
theorem shift_eq_alpha (x : Gf) :
    (if 128 ≤ x.octet then (⟨29⟩ : Gf) + ⟨(x + ⟨128⟩).octet <<< 1⟩ else ⟨x.octet <<< 1⟩)
      = alpha x := by
  have hclear : (x.octet ^^^ 128) <<< 1 = x.octet <<< 1 := by
    rw [shiftLeft_xor]
    exact UInt8.xor_zero
  apply Gf.ext
  unfold alpha shiftReduce
  split
  · simp [hclear, UInt8.xor_comm]
  · simp

theorem power_ne_zero (i : Nat) : power i ≠ 0 := by
  induction i with
  | zero => decide
  | succ i ih =>
      rw [power_succ]
      exact alpha_ne_zero ih

/-- Every nonzero element is a power of `x`, by counting. -/
theorem exists_power {x : Gf} (hx : x ≠ 0) : ∃ i < 255, power i = x := by
  have hinj : Set.InjOn power (Finset.range 255) := by
    intro i hi j hj h
    exact power_inj (Finset.mem_range.mp hi) (Finset.mem_range.mp hj) h
  have hsub : (Finset.range 255).image power ⊆ Finset.univ.erase 0 := by
    intro y hy
    obtain ⟨i, -, rfl⟩ := Finset.mem_image.mp hy
    exact Finset.mem_erase.mpr ⟨power_ne_zero i, Finset.mem_univ _⟩
  have hcard : ((Finset.univ : Finset Gf).erase 0).card
      ≤ ((Finset.range 255).image power).card := by
    rw [Finset.card_image_of_injOn hinj, Finset.card_erase_of_mem (Finset.mem_univ _),
      Finset.card_univ, Gf.card_eq, Finset.card_range]
  have heq := Finset.eq_of_subset_of_card_le hsub hcard
  have hmem : x ∈ (Finset.range 255).image power := by
    rw [heq]
    exact Finset.mem_erase.mpr ⟨hx, Finset.mem_univ _⟩
  obtain ⟨i, hi, rfl⟩ := Finset.mem_image.mp hmem
  exact ⟨i, Finset.mem_range.mp hi, rfl⟩

/-! ## What the loops leave in the tables -/

/-- The first `n` powers and their logarithms are in place. -/
structure GfTables.Filled (t : GfTables) (n : Nat) : Prop where
  exp : ∀ i < n, t.gfExp i = power i
  log : ∀ i < n, t.gfLog (power i).index = i

namespace GfTables

theorem lowPowers_filled : static.lowPowers.Filled (gfBits + 1) where
  exp := by decide +kernel
  log := by decide +kernel

/-- One more power: the shifted last one, reduced if its top bit was set. -/
theorem Filled.nextPower {t : GfTables} {n : Nat} (h : t.Filled n) (hlow : gfBits < n)
    (hn : n < gfSize) : (t.nextPower ⟨128⟩ n).Filled (n + 1) := by
  have hbits : t.gfExp gfBits = ⟨29⟩ := (h.exp gfBits hlow).trans rfl
  have hlast : t.gfExp (n - 1) = power (n - 1) := h.exp (n - 1) (by omega)
  have hpower : power n = alpha (power (n - 1)) := by
    rw [← power_succ, Nat.sub_add_cancel (by omega)]
  have hnext : t.nextPower ⟨128⟩ n = (t.setExp n (power n)).setLog (power n) n := by
    have hset : (if (⟨128⟩ : Gf).octet ≤ (t.gfExp (n - 1)).octet then
          t.setExp n (t.gfExp gfBits + ⟨(t.gfExp (n - 1) + ⟨128⟩).octet <<< 1⟩)
        else t.setExp n ⟨(t.gfExp (n - 1)).octet <<< 1⟩) = t.setExp n (power n) := by
      rw [← apply_ite (t.setExp n), hbits, hlast, hpower, ← shift_eq_alpha]
    unfold GfTables.nextPower
    simp only [hset]
    simp [setExp]
  rw [hnext]
  constructor
  · intro i hi
    by_cases hin : i = n
    · simp [setExp, setLog, hin]
    · simp [setExp, setLog, hin, h.exp i (by omega)]
  · intro i hi
    by_cases hin : i = n
    · simp [setExp, setLog, hin]
    · have hne : (power i).index ≠ (power n).index := fun heq =>
        hin (power_inj (by simp [gfSize, gfBits] at hn; omega) hn (Gf.index_inj.mp heq))
      simp [setExp, setLog, hne, h.log i (by omega)]

theorem nextPowers_filled : static.lowPowers.nextPowers.Filled gfSize := by
  have h := foldl_range' (P := fun n t => t.Filled n) (f := nextPower ⟨128⟩)
    (n := gfSize - (gfBits + 1)) lowPowers_filled
    fun n t hlow hn ht => ht.nextPower hlow (by simp only [gfSize, gfBits] at hn ⊢; omega)
  exact h

/-- The logarithm of zero is out of the way of the others. -/
theorem Filled.setLog_zero {t : GfTables} {n : Nat} (h : t.Filled n) (v : Nat) :
    (t.setLog 0 v).Filled n where
  exp := h.exp
  log i hi := by
    have hne : (power i).index ≠ (0 : Gf).index := fun heq =>
      power_ne_zero i (Gf.index_inj.mp heq)
    simp [setLog, hne, h.log i hi]

/-- The second half of `gf_exp` repeats the first. -/
theorem extend_spec (t : GfTables) :
    (∀ i < gfSize, t.extend.gfExp i = t.gfExp i)
      ∧ (∀ i < gfSize, t.extend.gfExp (i + gfSize) = t.gfExp i)
      ∧ t.extend.gfLog = t.gfLog := by
  have h := foldl_range' (a := 0) (n := gfSize) (s := t)
    (f := fun t i => t.setExp (i + gfSize) (t.gfExp i))
    (P := fun n t' => (∀ i < gfSize, t'.gfExp i = t.gfExp i)
      ∧ (∀ i < n, t'.gfExp (i + gfSize) = t.gfExp i) ∧ t'.gfLog = t.gfLog)
    ⟨fun i _ => rfl, fun i hi => absurd hi (Nat.not_lt_zero i), rfl⟩ (by
      rintro n t' - hn ⟨hlow, hhigh, hlog⟩
      refine ⟨?_, ?_, hlog⟩
      · intro i hi
        have hne : i ≠ n + gfSize := by omega
        simp [setExp, hne, hlow i hi]
      · intro i hi
        by_cases hin : i = n
        · simp [setExp, hin, hlow n (by omega)]
        · simp [setExp, hin, hhigh i (by omega)])
  rw [Nat.zero_add] at h
  unfold extend
  rw [List.range_eq_range']
  exact h

/-- The loop over the inverses reads the other two tables and leaves them. -/
theorem inverses_spec (t : GfTables) :
    t.inverses.gfExp = t.gfExp ∧ t.inverses.gfLog = t.gfLog
      ∧ t.inverses.inverse 0 = 0 ∧ t.inverses.inverse 1 = 1
      ∧ ∀ i, 2 ≤ i → i ≤ gfSize → t.inverses.inverse i = t.gfExp (gfSize - t.gfLog i) := by
  have h := foldl_range' (a := 2) (n := gfSize - 1) (s := (t.setInverse 0 0).setInverse 1 1)
    (f := fun t i => t.setInverse i (t.gfExp (gfSize - t.gfLog i)))
    (P := fun n t' => t'.gfExp = t.gfExp ∧ t'.gfLog = t.gfLog
      ∧ t'.inverse 0 = 0 ∧ t'.inverse 1 = 1
      ∧ ∀ i, 2 ≤ i → i < n → t'.inverse i = t.gfExp (gfSize - t.gfLog i))
    ⟨rfl, rfl, by simp [setInverse], by simp [setInverse], fun i h2 hi => by omega⟩ (by
      rintro n t' h2 - ⟨hexp, hlog, hzero, hone, hinv⟩
      refine ⟨hexp, hlog, ?_, ?_, ?_⟩
      · have hne : 0 ≠ n := by omega
        simp [setInverse, hne, hzero]
      · have hne : 1 ≠ n := by omega
        simp [setInverse, hne, hone]
      · intro i h2i hi
        by_cases hin : i = n
        · simp [setInverse, hin, hexp, hlog]
        · simp [setInverse, hin, hinv i h2i (by omega)])
  obtain ⟨hexp, hlog, hzero, hone, hinv⟩ := h
  refine ⟨hexp, hlog, hzero, hone, fun i h2 hi => hinv i h2 ?_⟩
  simp only [gfSize, gfBits] at hi ⊢
  omega

end GfTables

/-- The table of powers. -/
theorem exp_generateGf {i : Nat} (hi : i < gfSize) : fecTables.gfExp i = power i := by
  obtain ⟨hexp, -⟩ := ((GfTables.static.lowPowers.nextPowers.setLog 0 gfSize).extend).inverses_spec
  obtain ⟨hlow, -⟩ := (GfTables.static.lowPowers.nextPowers.setLog 0 gfSize).extend_spec
  unfold fecTables generateGf
  rw [hexp, hlow i hi]
  exact (GfTables.nextPowers_filled.setLog_zero gfSize).exp i hi

/-- The table of logarithms. -/
theorem log_generateGf {i : Nat} (hi : i < gfSize) : fecTables.gfLog (power i).index = i := by
  obtain ⟨-, hlog, -⟩ :=
    ((GfTables.static.lowPowers.nextPowers.setLog 0 gfSize).extend).inverses_spec
  obtain ⟨-, -, hsame⟩ := (GfTables.static.lowPowers.nextPowers.setLog 0 gfSize).extend_spec
  unfold fecTables generateGf
  rw [hlog, hsame]
  exact (GfTables.nextPowers_filled.setLog_zero gfSize).log i hi

/-- The table of inverses, at the elements past 1. -/
theorem inverse_generateGf {x : Gf} (hx : 2 ≤ x.index) :
    gfInverse x = fecTables.gfExp (gfSize - fecTables.gfLog x.index) := by
  obtain ⟨hexp, hlog, -, -, hinv⟩ :=
    ((GfTables.static.lowPowers.nextPowers.setLog 0 gfSize).extend).inverses_spec
  have hle : x.index ≤ gfSize := by
    have := x.index_lt
    simp only [gfSize, gfBits]
    omega
  unfold gfInverse fecTables generateGf
  rw [hexp, hlog]
  exact hinv _ hx hle

theorem gfInverse_zero : gfInverse 0 = 0 := by
  unfold gfInverse fecTables generateGf
  exact ((GfTables.static.lowPowers.nextPowers.setLog 0 gfSize).extend).inverses_spec.2.2.1

theorem gfInverse_one : gfInverse 1 = 1 := by
  unfold gfInverse fecTables generateGf
  exact ((GfTables.static.lowPowers.nextPowers.setLog 0 gfSize).extend).inverses_spec.2.2.2.1

/-- `modnn` is the remainder: 256 and 1 are the same modulo 255. -/
theorem modnn_eq_mod (x : Nat) : modnn x = x % 255 := by
  induction x using Nat.strongRecOn with
  | ind x ih =>
      rw [modnn]
      split
      · next h =>
          have hfold : ((x - gfSize) >>> gfBits) + ((x - gfSize) &&& gfSize)
              = (x - 255) / 256 + (x - 255) % 256 := by
            rw [Nat.shiftRight_eq_div_pow, gfSize, Nat.and_two_pow_sub_one_eq_mod]
            rfl
          have hge : 255 ≤ x := h
          rw [hfold, ih _ (by omega)]
          omega
      · next h =>
          have hlt : ¬ 255 ≤ x := h
          omega

theorem zeroProducts_apply (table : Nat → Nat → Gf) (j i l : Nat) :
    zeroProducts table j i l
      = if (i = 0 ∧ l = j) ∨ (l = 0 ∧ i = j) then 0 else table i l := by
  unfold zeroProducts
  simp only [Function.update_apply]
  by_cases hi : i = 0 <;> by_cases hl : l = 0 <;> by_cases hij : i = j <;>
    by_cases hlj : l = j <;> simp_all

/-- The row and the column of zero are zero, the rest is as the double loop
left it. -/
theorem initMulTable_apply (t : GfTables) {i j : Nat} (hi : i < 256) (hj : j < 256) :
    initMulTable t i j = if i = 0 ∨ j = 0 then 0 else mulTable t i j := by
  have h := foldl_range' (a := 0) (n := gfSize + 1) (s := mulTable t) (f := zeroProducts)
    (P := fun n table => ∀ i j,
      table i j = if (i = 0 ∧ j < n) ∨ (j = 0 ∧ i < n) then 0 else mulTable t i j)
    (fun i j => by simp) (by
      intro n table _ _ htable i j
      rw [zeroProducts_apply, htable i j]
      have hsplit : ((i = 0 ∧ j = n) ∨ (j = 0 ∧ i = n)) ∨ ((i = 0 ∧ j < n) ∨ (j = 0 ∧ i < n))
          ↔ (i = 0 ∧ j < n + 1) ∨ (j = 0 ∧ i < n + 1) := by omega
      by_cases hnow : (i = 0 ∧ j = n) ∨ (j = 0 ∧ i = n)
      · rw [if_pos hnow, if_pos (hsplit.mp (Or.inl hnow))]
      · rw [if_neg hnow]
        simp only [← hsplit, hnow, false_or]) i j
  rw [Nat.zero_add, ← List.range_eq_range'] at h
  rw [initMulTable, h]
  have hall : ((i = 0 ∧ j < gfSize + 1) ∨ (j = 0 ∧ i < gfSize + 1)) ↔ (i = 0 ∨ j = 0) := by
    simp only [gfSize, gfBits]
    omega
  simp only [hall]

/-- A product of nonzero elements is looked up by logarithms. -/
theorem gfMul_eq {x y : Gf} (hx : x ≠ 0) (hy : y ≠ 0) :
    gfMul x y
      = fecTables.gfExp ((fecTables.gfLog x.index + fecTables.gfLog y.index) % 255) := by
  have hnz : ¬ (x.index = 0 ∨ y.index = 0) := by
    rintro (h | h)
    · exact hx (Gf.index_inj.mp h)
    · exact hy (Gf.index_inj.mp h)
  unfold gfMul
  rw [initMulTable_apply _ x.index_lt y.index_lt, if_neg hnz, mulTable,
    if_pos ⟨x.index_lt, y.index_lt⟩, modnn_eq_mod]

theorem gfMul_zero_left (y : Gf) : gfMul 0 y = 0 := by
  unfold gfMul
  rw [initMulTable_apply _ (Gf.index_lt 0) y.index_lt, if_pos (Or.inl (by decide))]

theorem gfMul_zero_right (x : Gf) : gfMul x 0 = 0 := by
  unfold gfMul
  rw [initMulTable_apply _ x.index_lt (Gf.index_lt 0), if_pos (Or.inr (by decide))]

/-! ## The field -/

theorem exp_log {x : Gf} (hx : x ≠ 0) :
    fecTables.gfLog x.index < 255 ∧ power (fecTables.gfLog x.index) = x := by
  obtain ⟨i, hi, rfl⟩ := exists_power hx
  rw [log_generateGf hi]
  exact ⟨hi, rfl⟩

/-- `alpha` as a linear map. -/
def alphaHom : Gf →+ Gf := AddMonoidHom.mk' alpha alpha_add

theorem iterate_alphaHom (i : Nat) : alphaHom^[i] 1 = power i := rfl

/-- The powers of `x` as `generate_gf` runs through them. -/
def generator : Generator Gf where
  step := alphaHom
  one := 1
  order := 255
  log x := fecTables.gfLog x.index
  order_pos := by decide
  one_ne_zero := by decide
  period := (iterate_alphaHom 255).trans power_period
  log_lt _ hx := (exp_log hx).1
  exp_log _ hx := (iterate_alphaHom _).trans (exp_log hx).2

theorem exp_generator (i : Nat) : generator.exp i = power i := rfl

theorem generator_order : generator.order = 255 := rfl

theorem generator_log (x : Gf) : generator.log x = fecTables.gfLog x.index := rfl

theorem gfMul_logMul : generator.LogMul gfMul where
  zero_mul := gfMul_zero_left
  mul_zero := gfMul_zero_right
  exp_mul_exp i j hi hj := by
    have hmod : (i + j) % 255 < gfSize := Nat.mod_lt _ (by decide)
    rw [exp_generator, exp_generator, gfMul_eq (power_ne_zero i) (power_ne_zero j),
      log_generateGf hi, log_generateGf hj, exp_generateGf hmod]
    exact generator.exp_mod (i + j)

/-- Past 1 the inverse is looked up by the complement of the logarithm; at 1
the loop is not run and the entry is set. -/
theorem gfMul_inverse {x : Gf} (hx : x ≠ 0) : gfMul x (gfInverse x) = 1 := by
  by_cases h1 : x = 1
  · rw [h1, gfInverse_one]
    exact gfMul_logMul.one_mul 1
  have hge : 2 ≤ x.index := by
    have h0 : x.index ≠ (0 : Gf).index := fun h => hx (Gf.index_inj.mp h)
    have h1' : x.index ≠ (1 : Gf).index := fun h => h1 (Gf.index_inj.mp h)
    simp only [Gf.index, Gf.octet_zero, Gf.octet_one, UInt8.toNat_zero, UInt8.toNat_one]
      at h0 h1' ⊢
    omega
  have hlog : fecTables.gfLog x.index ≠ 0 := by
    intro h0
    have h := (exp_log hx).2
    rw [h0] at h
    exact h1 h.symm
  have hlt : gfSize - fecTables.gfLog x.index < gfSize := by
    simp only [gfSize, gfBits]
    omega
  have h : gfMul x (generator.exp (generator.order - generator.log x)) = generator.one :=
    gfMul_logMul.mul_exp_sub_log hx
  rw [exp_generator, generator_order, generator_log, ← gfSize_eq] at h
  rw [inverse_generateGf hge, exp_generateGf hlt]
  exact h

instance : Mul Gf := ⟨gfMul⟩
instance : Inv Gf := ⟨gfInverse⟩

theorem mul_eq_gfMul (x y : Gf) : x * y = gfMul x y := rfl

theorem inv_eq_gfInverse (x : Gf) : x⁻¹ = gfInverse x := rfl

/-- The octets with XOR and the tables of products and inverses. -/
instance : Field Gf where
  mul_assoc := gfMul_logMul.assoc
  mul_comm := gfMul_logMul.comm
  one_mul := gfMul_logMul.one_mul
  mul_one x := (gfMul_logMul.comm x 1).trans (gfMul_logMul.one_mul x)
  zero_mul := gfMul_zero_left
  mul_zero := gfMul_zero_right
  left_distrib := gfMul_logMul.mul_add
  right_distrib x y z := by
    change gfMul (x + y) z = gfMul x z + gfMul y z
    rw [gfMul_logMul.comm, gfMul_logMul.mul_add, gfMul_logMul.comm z, gfMul_logMul.comm z]
  exists_pair_ne := ⟨0, 1, by decide⟩
  mul_inv_cancel x := gfMul_inverse
  inv_zero := gfInverse_zero
  nnqsmul := _
  nnqsmul_def := fun _ _ => rfl
  qsmul := _
  qsmul_def := fun _ _ => rfl

/-! ## The plain product -/

/-- The product of two polynomials modulo `1 + x^2 + x^3 + x^4 + x^8` by
shifting and adding: one multiple of `y` for each bit of `x`. -/
def shiftAdd (x y : Gf) : Gf :=
  (List.range 8).foldl (fun acc i => if x.index.testBit i then acc + alpha^[i] y else acc) 0

theorem power_mul (i : Nat) (y : Gf) : power i * y = alpha^[i] y := gfMul_logMul.exp_mul i y

theorem shiftAdd_one (x : Gf) : shiftAdd x 1 = x := by
  have hall : ∀ i : Fin 256, shiftAdd (Gf.equivFin.symm i) 1 = Gf.equivFin.symm i := by
    decide +kernel
  have h := hall (Gf.equivFin x)
  rwa [Equiv.symm_apply_apply] at h

/-- Each multiple of `y` is `y` times the same multiple of 1. -/
theorem shiftAdd_eq_mul (x y : Gf) : shiftAdd x y = shiftAdd x 1 * y := by
  have hfold : ∀ (l : List Nat) (acc : Gf),
      l.foldl (fun acc i => if x.index.testBit i then acc + alpha^[i] y else acc) (acc * y)
        = l.foldl (fun acc i => if x.index.testBit i then acc + alpha^[i] 1 else acc) acc * y := by
    intro l
    induction l with
    | nil => exact fun acc => rfl
    | cons i l ih =>
        intro acc
        rw [List.foldl_cons, List.foldl_cons, ← ih]
        congr 1
        split
        · rw [add_mul, show alpha^[i] 1 = power i from rfl, power_mul]
        · rfl
  have h := hfold (List.range 8) 0
  rwa [zero_mul] at h

/-- The table built by `generate_gf` and `init_mul_table` holds the products
of polynomials modulo `1 + x^2 + x^3 + x^4 + x^8`; with XOR as the sum and the
table of inverses these are a field. -/
theorem gfMul_field (x y z : Gf) :
    gfMul x y = shiftAdd x y
      ∧ gfMul x y = gfMul y x
      ∧ gfMul (gfMul x y) z = gfMul x (gfMul y z)
      ∧ gfMul x (y + z) = gfMul x y + gfMul x z
      ∧ gfMul 1 x = x
      ∧ gfMul x (gfInverse x) = if x = 0 then 0 else 1 := by
  refine ⟨?_, mul_comm x y, mul_assoc x y z, mul_add x y z, one_mul x, ?_⟩
  · rw [shiftAdd_eq_mul, shiftAdd_one]
    rfl
  · split
    · next h => rw [h, gfMul_zero_left]
    · next h => exact gfMul_inverse h

end Fecraw.Ports.FecLib
