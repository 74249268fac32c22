import Fecraw.Ports.RsTable

/-!
# The rows that a ratio string specifies

What `rs_from_str` is for, in terms of the pairs that the string lists, and
when the table that it builds is that one.

The code adds `0.9999` to an interpolated parity and truncates.  Between two
listed sizes that are at most 255 apart this rounds up: the fractional part is
a multiple of the inverse of their distance.

## Main results

* `specified_rsFromStr`: an accepted string whose pairs are in range yields the
  rows it specifies.
* `rsFromStr_specified_iff`: for every string, the table is the specified one
  or unchanged, exactly if no pair slips through the test on the sum.
-/

namespace Fecraw.Ports.RsTable

open Fecraw.Verified.Scan

/-! ## The specification -/

/-- `rs_from_str` with its return value. -/
def FecParameter.applyStr (par : FecParameter) (s : List Char) : Int × FecParameter :=
  match par.rsFromStr s with
  | some par' => (0, par')
  | none => (-1, par)

/-- The comma-separated parts of the string are the pairs `ps`. -/
def Reads (s : List Char) (ps : List RsParameter) : Prop :=
  (stringToVec s).map scanPair = ps.map fun q => (some (q.x : Int), some (q.y : Int))

/-- The line through two pairs, at size `i`. -/
def line (a b : RsParameter) (i : Nat) : ℚ :=
  a.y + ((b.y : ℚ) - a.y) * ((i : ℚ) - a.x) / ((b.x : ℚ) - a.x)

/-- The pairs are well formed, and the table is theirs. -/
structure Specified (ps : List RsParameter) (par : FecParameter) : Prop where
  pos : ∀ q ∈ ps, 1 ≤ q.x
  ascending : Ascending ps
  sum_le : ∀ q ∈ ps, q.x + q.y ≤ maxFecPacketNum
  rsCnt : ∃ q ∈ ps.getLast?, par.rsCnt = q.x
  x : ∀ i, 1 ≤ i → i ≤ par.rsCnt → (par.rsPar (i - 1)).x = i
  first : ∀ q ∈ ps.head?, ∀ i, 1 ≤ i → i ≤ q.x → (par.rsPar (i - 1)).y = q.y
  listed : ∀ q ∈ ps, (par.rsPar (q.x - 1)).y = q.y
  between : ∀ a b, [a, b] <:+: ps → ∀ i, a.x < i → i < b.x →
    ((par.rsPar (i - 1)).y : Int) = min ⌈line a b i⌉ (maxFecPacketNum - i)

/-- The string gives the specified table or changes nothing. -/
def BuildsOrKeeps (par : FecParameter) (s : List Char) : Prop :=
  ((par.applyStr s).1 = 0 → ∃ ps, Reads s ps ∧ Specified ps (par.applyStr s).2) ∧
    ((par.applyStr s).1 = -1 → (par.applyStr s).2 = par)

/-- The string passes the tests of `rs_from_str`. -/
def Listed (s : List Char) : Prop :=
  ∃ p rest, parsePairs s = some (p :: rest) ∧ Ascending (p :: rest)

/-! ## The rounding -/

/-- Adding almost one and truncating rounds a fraction with a small
denominator up. -/
theorem truncate_ceil {q : ℚ} (hq : 0 ≤ q) {n : Int} {d : Nat} (hd : 0 < d) (hd' : d ≤ 10000)
    (h : q * d = n) : truncate (q + 9999 / 10000) = ⌈q⌉ := by
  have hdq : (0 : ℚ) < d := by exact_mod_cast hd
  have hdq' : (d : ℚ) ≤ 10000 := by exact_mod_cast hd'
  -- `⌈q⌉ - q` is a multiple of `1 / d` that is less than one
  have hgap : (⌈q⌉ : ℚ) * d - n ≤ d - 1 := by
    have hlt : (⌈q⌉ : ℚ) * d < n + d := by
      have hceil := Int.ceil_lt_add_one q
      calc (⌈q⌉ : ℚ) * d < (q + 1) * d := mul_lt_mul_of_pos_right hceil hdq
        _ = n + d := by rw [add_mul, h, one_mul]
    have hint : ⌈q⌉ * (d : Int) < n + d := by exact_mod_cast hlt
    have hle : ⌈q⌉ * (d : Int) - n ≤ d - 1 := by omega
    exact_mod_cast hle
  have hlo : (⌈q⌉ : ℚ) ≤ q + 9999 / 10000 := by
    by_contra hcon
    have hmul : (q + 9999 / 10000) * d < ⌈q⌉ * d := mul_lt_mul_of_pos_right (not_le.mp hcon) hdq
    rw [add_mul, h] at hmul
    linarith
  have hhi : q + 9999 / 10000 < ⌈q⌉ + 1 := by
    have hle := Int.le_ceil q
    linarith
  unfold truncate
  rw [if_pos (by linarith)]
  exact Int.floor_eq_iff.mpr ⟨hlo, hhi⟩

/-- Between two pairs the line does not leave the parities. -/
theorem line_nonneg {a b : RsParameter} {i : Nat} (ha : a.x < i) (hb : i < b.x) :
    0 ≤ line a b i := by
  have haq : (a.x : ℚ) < i := by exact_mod_cast ha
  have hbq : (i : ℚ) < b.x := by exact_mod_cast hb
  have hd : (0 : ℚ) < (b.x : ℚ) - a.x := by linarith
  have hkey : line a b i = (a.y * ((b.x : ℚ) - i) + b.y * ((i : ℚ) - a.x)) / ((b.x : ℚ) - a.x) := by
    unfold line
    field_simp
    ring
  rw [hkey]
  apply div_nonneg _ hd.le
  apply add_nonneg
  · exact mul_nonneg (Nat.cast_nonneg _) (by linarith)
  · exact mul_nonneg (Nat.cast_nonneg _) (by linarith)

/-- The parity between two listed sizes is the line's, rounded up and cut to
the group. -/
theorem rowY_eq {a b : RsParameter} {i : Nat} (ha : a.x < i) (hb : i < b.x)
    (hbx : b.x ≤ maxFecPacketNum) :
    (rowY a b i : Int) = min ⌈line a b i⌉ (maxFecPacketNum - i) := by
  unfold maxFecPacketNum at hbx
  have hfrac : line a b i * ((b.x - a.x : Nat) : ℚ)
      = (((a.y : Int) * (b.x - a.x) + (b.y - a.y) * (i - a.x) : Int) : ℚ) := by
    have hd : ((b.x : ℚ) - a.x) ≠ 0 := by
      have hlt : (a.x : ℚ) < b.x := by exact_mod_cast ha.trans hb
      linarith
    rw [Nat.cast_sub (by omega)]
    unfold line
    push_cast
    field_simp
  have hceil := truncate_ceil (line_nonneg ha hb) (by omega) (by omega) hfrac
  have hpos : 0 ≤ ⌈line a b i⌉ := Int.ceil_nonneg (line_nonneg ha hb)
  have hrow : rowY a b i = if (i : Int) + ⌈line a b i⌉ > maxFecPacketNum then maxFecPacketNum - i
      else (⌈line a b i⌉).toNat := by
    rw [← hceil]
    rfl
  rw [hrow]
  unfold maxFecPacketNum
  split
  · omega
  · omega

/-! ## The rows -/

/-- The rows between two consecutive pairs are those of `betweenRow`. -/
theorem fillRest_between : ∀ (rest : List RsParameter) (pre : RsParameter)
    (t : Nat → RsParameter), Ascending (pre :: rest) → ∀ a b, [a, b] <:+: pre :: rest →
      ∀ i, a.x ≤ i → i < b.x → fillRest t pre rest i = betweenRow a b i := by
  intro rest
  induction rest with
  | nil =>
      intro pre t _ a b hab
      have hlen := hab.length_le
      simp at hlen
  | cons now rest ih =>
      intro pre t hasc a b hab i hlo hhi
      rcases List.infix_cons_iff.mp hab with hhead | htail
      · obtain ⟨rfl, hrest⟩ := List.cons_prefix_cons.mp hhead
        obtain ⟨rfl, -⟩ := List.cons_prefix_cons.mp hrest
        have hkeep := fillRest_of_lt rest b (fillBetween t a b) hasc.tail i hhi
        show fillRest (fillBetween t a b) b rest i = _
        rw [hkeep, fillBetween_apply t hasc.head_lt, if_pos ⟨hlo, hhi⟩]
      · exact ih now (fillBetween t pre now) hasc.tail a b htail i hlo hhi

/-- Tokens in range are read as they are written. -/
theorem map_scanPair_of_mapM {toks : List (List Char)} {ps : List RsParameter}
    (h : toks.mapM parsePair = some ps)
    (hrange : ∀ tok ∈ toks, ∀ x y, scanPair tok = (some x, some y) → x + y ≤ maxFecPacketNum) :
    toks.map scanPair = ps.map fun q => (some (q.x : Int), some (q.y : Int)) := by
  have hmap := map_of_mapM h
  let written (o : Option RsParameter) : Option Int × Option Int :=
    (o.map fun q => (q.x : Int), o.map fun q => (q.y : Int))
  have hread : ∀ tok ∈ toks, scanPair tok = written (parsePair tok) := by
    intro tok htok
    have hmem : parsePair tok ∈ ps.map some := hmap ▸ List.mem_map_of_mem htok
    obtain ⟨p, -, hp⟩ := List.mem_map.mp hmem
    obtain ⟨x, y, hscan, hread⟩ := parsePair_of_sum_le hp.symm
    obtain ⟨hx, hy, rfl⟩ := hread (hrange tok htok x y hscan)
    rw [hscan, ← hp]
    dsimp only [written, Option.map_some]
    rw [Int.toNat_of_nonneg (by omega), Int.toNat_of_nonneg hy]
  calc toks.map scanPair = toks.map fun tok => written (parsePair tok) :=
        List.map_congr_left hread
    _ = (toks.map parsePair).map written := by
        rw [List.map_map]
        rfl
    _ = ps.map fun q => (some (q.x : Int), some (q.y : Int)) := by
        rw [hmap, List.map_map]
        rfl

section Accepted

variable {par par' : FecParameter} {s : List Char}

/-- The pairs of an accepted string in range. -/
theorem reads_of_inRange {ps : List RsParameter} (hps : parsePairs s = some ps) (hr : InRange s) :
    Reads s ps ∧ ∀ q ∈ ps, 1 ≤ q.x ∧ q.x + q.y ≤ maxFecPacketNum := by
  refine ⟨map_scanPair_of_mapM hps fun tok htok x y hscan => hr.sum_le htok hscan, ?_⟩
  intro q hq
  obtain ⟨tok, htok, hpair⟩ := exists_token_of_mem hps q hq
  obtain ⟨x, y, hscan, hread⟩ := parsePair_of_sum_le hpair
  have hsum := hr.sum_le htok hscan
  obtain ⟨hx, hy, rfl⟩ := hread hsum
  dsimp only
  unfold maxFecPacketNum at hsum ⊢
  omega

/-- An accepted string in range gives the table it specifies. -/
theorem specified_rsFromStr {ps : List RsParameter} (h : par.rsFromStr s = some par')
    (hps : parsePairs s = some ps) (hr : InRange s) : Specified ps par' := by
  obtain ⟨-, hgood⟩ := reads_of_inRange hps hr
  have hx := rsFromStr_x h
  have hrow := fun q (hq : q ∈ ps) => rsFromStr_row_of_mem h hps hq (hgood q hq).1
  obtain ⟨p, rest, hps', hasc, rfl⟩ := rsFromStr_eq_some h
  obtain rfl := Option.some.inj (hps.symm.trans hps')
  refine ⟨fun q hq => (hgood q hq).1, hasc, fun q hq => (hgood q hq).2, ?_, ?_, ?_, ?_, ?_⟩
  · refine ⟨lastPair p rest, ?_, rfl⟩
    rw [List.getLast?_cons, lastPair, List.getLastD_eq_getLast?]
    rfl
  · intro i hi hcnt
    rw [hx (i - 1) (by omega)]
    omega
  · intro q hq i hi hiq
    obtain rfl := Option.some.inj hq
    show (fillRest _ p rest (i - 1)).y = p.y
    rw [fillRest_of_lt rest p _ hasc _ (by omega), fillFirst_apply, if_pos (by omega)]
  · intro q hq
    rw [(hrow q hq).2]
  · intro a b hab i hai hib
    have hb : b ∈ p :: rest := hab.subset (by simp)
    show ((fillRest _ p rest (i - 1)).y : Int) = _
    rw [fillRest_between rest p _ hasc a b hab _ (by omega) (by omega), betweenRow,
      if_neg (by omega)]
    show (rowY a b (i - 1 + 1) : Int) = _
    have hle := (hgood b hb).2
    rw [Nat.sub_add_cancel (by omega), rowY_eq hai hib (by omega)]

/-- A specified table is that of a string in range. -/
theorem inRange_of_specified {ps : List RsParameter} (hreads : Reads s ps)
    (h : Specified ps par') : InRange s := by
  intro tok htok x hx y hy
  have hmem : scanPair tok ∈ (stringToVec s).map scanPair := List.mem_map_of_mem htok
  rw [hreads, List.mem_map] at hmem
  obtain ⟨q, hq, heq⟩ := hmem
  rw [← heq] at hx hy
  obtain rfl := Option.some.inj hx
  obtain rfl := Option.some.inj hy
  have hsum := h.sum_le q hq
  omega

theorem applyStr_of_listed (par : FecParameter) (h : Listed s) :
    ∃ par', par.rsFromStr s = some par' ∧ par.applyStr s = (0, par') := by
  obtain ⟨p, rest, hps, hasc⟩ := h
  have hsome : par.rsFromStr s = some { par with
      rsPar := fillRest (fillFirst par.rsPar p) p rest
      rsCnt := (lastPair p rest).x } := by
    unfold FecParameter.rsFromStr
    rw [hps]
    exact if_pos hasc
  refine ⟨_, hsome, ?_⟩
  unfold FecParameter.applyStr
  rw [hsome]

theorem applyStr_of_not_listed (par : FecParameter) (h : ¬ Listed s) :
    par.applyStr s = (-1, par) := by
  unfold FecParameter.applyStr
  cases hstr : par.rsFromStr s with
  | none => rfl
  | some par' =>
      obtain ⟨p, rest, hps, hasc, -⟩ := rsFromStr_eq_some hstr
      exact absurd ⟨p, rest, hps, hasc⟩ h

/-- A string that passes the tests gives the specified table exactly if it is
in range. -/
theorem buildsOrKeeps_of_listed (par : FecParameter) (h : Listed s) :
    BuildsOrKeeps par s ↔ InRange s := by
  obtain ⟨par', hstr, happly⟩ := applyStr_of_listed par h
  unfold BuildsOrKeeps
  rw [happly]
  constructor
  · rintro ⟨hbuilds, -⟩
    obtain ⟨ps, hreads, hspec⟩ := hbuilds rfl
    exact inRange_of_specified hreads hspec
  · intro hr
    obtain ⟨p, rest, hps, -⟩ := h
    refine ⟨fun _ => ⟨p :: rest, (reads_of_inRange hps hr).1, ?_⟩, fun hret => ?_⟩
    · exact specified_rsFromStr hstr hps hr
    · exact absurd hret (by simp)

end Accepted

/-- Every string gives the specified table or changes nothing, except one that
passes all tests with a pair whose sum overflows. -/
theorem rsFromStr_specified_iff (par : FecParameter) (s : List Char) :
    BuildsOrKeeps par s ↔ (Listed s → InRange s) := by
  by_cases h : Listed s
  · rw [buildsOrKeeps_of_listed par h]
    exact ⟨fun hr _ => hr, fun hr => hr h⟩
  · unfold BuildsOrKeeps
    rw [applyStr_of_not_listed par h]
    exact ⟨fun _ hl => absurd hl h, fun _ => ⟨fun hret => absurd hret (by simp), fun _ => rfl⟩⟩

/-- A size that fills the `int`, with one redundant packet. -/
def overflowing : List Char := "2147483647:1".toList

/-- The overflowing pair is accepted, as `255:1`. -/
theorem rsFromStr_overflowing : ¬ BuildsOrKeeps {} overflowing := by
  have hlisted : Listed overflowing := ⟨⟨255, 1⟩, [], by decide, by decide⟩
  have hout : ¬ InRange overflowing := by decide
  exact fun h => hout ((buildsOrKeeps_of_listed {} hlisted).mp h)

end Fecraw.Ports.RsTable
