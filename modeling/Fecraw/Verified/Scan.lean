import Mathlib.Data.List.Basic
import Mathlib.Tactic

/-!
# Decimal numbers in C strings

`sscanf` with `%d` and `printf` with `%d`, on strings of characters.  A
conversion skips blanks, reads an optional sign and the longest run of
digits, and stores the value in a 32-bit `int` by way of a saturating
64-bit `long`.

`scanInt_printInt` is the round trip: an `int` that was printed is read
back, and reading stops at the first character that is not a digit.
-/

namespace Fecraw.Verified.Scan

/-- `isspace` of the C locale. -/
def isSpace (c : Char) : Bool :=
  c = ' ' || c = '\t' || c = '\n' || c = '\x0b' || c = '\x0c' || c = '\r'

/-- A value as it is left in a 32-bit `int`. -/
def toInt32 (n : Int) : Int :=
  (max (-2 ^ 63) (min n (2 ^ 63 - 1))).bmod (2 ^ 32)

/-- The value and the rest of the input of one `%d` conversion. -/
def scanInt (s : List Char) : Option (Int × List Char) :=
  let s := s.dropWhile isSpace
  let negative := s.head? = some '-'
  let s := if s.head? = some '-' ∨ s.head? = some '+' then s.tail else s
  let digits := s.takeWhile Char.isDigit
  if digits = [] then none
  else
    let value : Int := Nat.ofDigitChars 10 digits 0
    some (toInt32 (if negative then -value else value), s.dropWhile Char.isDigit)

/-- What `sscanf(s, "%d:%d", &x, &y)` assigns to `x` and to `y`. -/
def scanPair (s : List Char) : Option Int × Option Int :=
  match scanInt s with
  | none => (none, none)
  | some (x, ':' :: rest) => (some x, (scanInt rest).map Prod.fst)
  | some (x, _) => (some x, none)

/-- The characters of a `%d` conversion on output. -/
def printInt (n : Int) : List Char :=
  if n < 0 then '-' :: Nat.toDigits 10 n.natAbs else Nat.toDigits 10 n.natAbs

/-- `snprintf(buf, …, "%d:%d", x, y)`, for a buffer that is long enough. -/
def printPair (x y : Int) : List Char := printInt x ++ ':' :: printInt y

/-! ## The round trip -/

theorem toInt32_of_mem {n : Int} (hlo : -2 ^ 31 ≤ n) (hhi : n < 2 ^ 31) :
    toInt32 n = n := by
  unfold toInt32
  rw [min_eq_left (by omega), max_eq_right (by omega)]
  exact Int.bmod_eq_of_le (by omega) (by omega)

private theorem isDigit_toDigits (n : Nat) : ∀ c ∈ Nat.toDigits 10 n, c.isDigit :=
  fun _ hc => Nat.isDigit_of_mem_toDigits (by decide) (by decide) hc

private theorem isSpace_of_isDigit {c : Char} (h : c.isDigit = true) :
    isSpace c = false := by
  by_contra hne
  have hs : isSpace c = true := by simpa using hne
  simp only [isSpace, Bool.or_eq_true, decide_eq_true_eq] at hs
  rcases hs with ((((rfl | rfl) | rfl) | rfl) | rfl) | rfl <;> exact absurd h (by decide)

private theorem takeWhile_digits {rest : List Char} (n : Nat)
    (hrest : ∀ c ∈ rest.head?, c.isDigit = false) :
    (Nat.toDigits 10 n ++ rest).takeWhile Char.isDigit = Nat.toDigits 10 n ∧
      (Nat.toDigits 10 n ++ rest).dropWhile Char.isDigit = rest := by
  have hd := isDigit_toDigits n
  rw [List.takeWhile_append_of_pos hd, List.dropWhile_append_of_pos hd]
  cases rest with
  | nil => simp
  | cons c rest =>
      have hc : c.isDigit = false := hrest c (by simp)
      simp [hc]

private theorem head_digits (n : Nat) (rest : List Char) :
    ∃ c, c.isDigit = true ∧ (Nat.toDigits 10 n ++ rest).head? = some c := by
  cases h : Nat.toDigits 10 n with
  | nil => exact absurd h Nat.toDigits_ne_nil
  | cons c cs =>
      exact ⟨c, isDigit_toDigits n c (by simp [h]), rfl⟩

private theorem scan_unsigned (n : Nat) (rest : List Char) :
    let s := Nat.toDigits 10 n ++ rest
    s.dropWhile isSpace = s ∧ s.head? ≠ some '-' ∧ s.head? ≠ some '+' := by
  obtain ⟨c, hc, hhead⟩ := head_digits n rest
  refine ⟨?_, ?_, ?_⟩
  · cases hs : Nat.toDigits 10 n ++ rest with
    | nil => rfl
    | cons d ds =>
        have hd : d = c := by simpa [hs] using hhead
        subst hd
        simp [isSpace_of_isDigit hc]
  · rw [hhead]
    rintro hmin
    obtain rfl := Option.some.inj hmin
    exact absurd hc (by decide)
  · rw [hhead]
    rintro hplus
    obtain rfl := Option.some.inj hplus
    exact absurd hc (by decide)

/-- An `int` that was printed is read back. -/
theorem scanInt_printInt {n : Int} (hlo : -2 ^ 31 ≤ n) (hhi : n < 2 ^ 31)
    {rest : List Char} (hrest : ∀ c ∈ rest.head?, c.isDigit = false) :
    scanInt (printInt n ++ rest) = some (n, rest) := by
  obtain ⟨hspace, hminus, hplus⟩ := scan_unsigned n.natAbs rest
  obtain ⟨htake, hdrop⟩ := takeWhile_digits n.natAbs hrest
  have hne : Nat.toDigits 10 n.natAbs ≠ [] := Nat.toDigits_ne_nil
  by_cases hneg : n < 0
  · have hprint : printInt n ++ rest = '-' :: (Nat.toDigits 10 n.natAbs ++ rest) := by
      simp [printInt, hneg]
    have hval : (-(n.natAbs : Int)) = n := by omega
    rw [hprint]
    unfold scanInt
    rw [List.dropWhile_cons_of_neg (by decide)]
    simp only [List.head?_cons, true_or, if_true, List.tail_cons, htake, hdrop, hne,
      if_false, Nat.ofDigitChars_ten_toDigits, hval, toInt32_of_mem hlo hhi]
  · have hprint : printInt n ++ rest = Nat.toDigits 10 n.natAbs ++ rest := by
      simp [printInt, hneg]
    have hval : ((n.natAbs : Int)) = n := by omega
    rw [hprint]
    unfold scanInt
    simp only [hspace, hminus, hplus, or_self, if_false, htake, hdrop, hne,
      Nat.ofDigitChars_ten_toDigits, hval, toInt32_of_mem hlo hhi]

/-- A pair of `int`s that was printed is read back. -/
theorem scanPair_printPair {x y : Int} (hx : -2 ^ 31 ≤ x) (hx' : x < 2 ^ 31)
    (hy : -2 ^ 31 ≤ y) (hy' : y < 2 ^ 31) :
    scanPair (printPair x y) = (some x, some y) := by
  have h1 : scanInt (printPair x y) = some (x, ':' :: printInt y) :=
    scanInt_printInt hx hx' (by simp)
  have h2 : scanInt (printInt y) = some (y, []) := by
    simpa using @scanInt_printInt y hy hy' [] (by simp)
  unfold scanPair
  rw [h1]
  simp [h2]

/-- Printing never produces a comma. -/
theorem comma_not_mem_printPair (x y : Int) : ',' ∉ printPair x y := by
  have hdig : ∀ n : Nat, ',' ∉ Nat.toDigits 10 n := fun n h =>
    absurd (isDigit_toDigits n ',' h) (by decide)
  have hint : ∀ n : Int, ',' ∉ printInt n := by
    intro n
    unfold printInt
    split <;> simp [hdig]
  simp [printPair, hint]

/-! ## Input up to a comma -/

private theorem dropWhile_comma {f : Char → Bool} (hf : f ',' = false) (s rest : List Char) :
    (s ++ ',' :: rest).dropWhile f = s.dropWhile f ++ ',' :: rest := by
  induction s with
  | nil => simp [hf]
  | cons c s ih =>
      rw [List.cons_append, List.dropWhile_cons, List.dropWhile_cons]
      split
      · exact ih
      · rfl

private theorem takeWhile_comma {f : Char → Bool} (hf : f ',' = false) (s rest : List Char) :
    (s ++ ',' :: rest).takeWhile f = s.takeWhile f := by
  induction s with
  | nil => simp [hf]
  | cons c s ih =>
      rw [List.cons_append, List.takeWhile_cons, List.takeWhile_cons, ih]

/-- A conversion does not look beyond a comma. -/
theorem scanInt_comma (s rest : List Char) :
    scanInt (s ++ ',' :: rest)
      = (scanInt s).map fun r => (r.1, r.2 ++ ',' :: rest) := by
  unfold scanInt
  rw [dropWhile_comma rfl]
  generalize s.dropWhile isSpace = t
  have hhead : ∀ c : Char, c ≠ ',' →
      ((t ++ ',' :: rest).head? = some c ↔ t.head? = some c) := by
    intro c hc
    cases t with
    | nil => simp [Ne.symm hc]
    | cons a t => simp
  have htail : (if (t ++ ',' :: rest).head? = some '-' ∨ (t ++ ',' :: rest).head? = some '+'
        then (t ++ ',' :: rest).tail else t ++ ',' :: rest)
      = (if t.head? = some '-' ∨ t.head? = some '+' then t.tail else t) ++ ',' :: rest := by
    simp only [hhead '-' (by decide), hhead '+' (by decide)]
    cases t with
    | nil => simp
    | cons a t =>
        split
        · rfl
        · rfl
  simp only [htail]
  rw [takeWhile_comma rfl, dropWhile_comma rfl]
  simp only [hhead '-' (by decide)]
  generalize (if t.head? = some '-' ∨ t.head? = some '+' then t.tail else t) = u
  by_cases hdigits : u.takeWhile Char.isDigit = []
  · rw [if_pos hdigits, if_pos hdigits]
    rfl
  · rw [if_neg hdigits, if_neg hdigits]
    rfl

/-- Neither does `sscanf(s, "%d:%d", …)`. -/
theorem scanPair_comma (s rest : List Char) : scanPair (s ++ ',' :: rest) = scanPair s := by
  unfold scanPair
  rw [scanInt_comma]
  cases hx : scanInt s with
  | none => rfl
  | some r =>
      obtain ⟨x, t⟩ := r
      cases t with
      | nil => rfl
      | cons c t =>
          by_cases hc : c = ':'
          · subst hc
            simp only [Option.map_some, List.cons_append, scanInt_comma, Option.map_map]
            rfl
          · simp [hc]

theorem scanPair_of_comma (rest : List Char) : scanPair (',' :: rest) = (none, none) := rfl

/-! ## Lists of numbers -/

/-- Where all conversions succeed, their results are those of the single ones. -/
theorem map_of_mapM {α β : Type} {f : α → Option β} : ∀ {as : List α} {bs : List β},
    as.mapM f = some bs → as.map f = bs.map some := by
  intro as
  induction as with
  | nil =>
      intro bs h
      simp only [List.mapM_nil, Option.pure_def, Option.some.injEq] at h
      subst h
      rfl
  | cons a as ih =>
      intro bs h
      simp only [List.mapM_cons, Option.pure_def, Option.bind_eq_bind,
        Option.bind_eq_some_iff, Option.some.injEq] at h
      obtain ⟨b, hb, rest, hrest, rfl⟩ := h
      rw [List.map_cons, List.map_cons, hb, ih hrest]

end Fecraw.Verified.Scan
