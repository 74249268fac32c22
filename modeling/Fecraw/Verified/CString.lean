import Fecraw.Verified.Checked
import Mathlib.Data.List.TakeWhile

/-!
# C strings in arrays

The string functions of C on arrays of a fixed size, translated loop by loop.  An
access past the end of an array is `outOfBounds`.  The source of a copy is another
object: its octets are a list.

An object holds a string if it starts with the octets of the string and a NUL
(`Holds`).  With this the loops have simple specifications, whatever stands behind
the NUL.

## Main results

* `strncpy_spec`: a copy whose last octet in the array is a NUL already holds the
  string, cut.
* `strcat_spec`, `strcat_overrun`: two strings are joined exactly if they and the
  NUL fit.
-/

namespace Fecraw.Verified

/-- An array. -/
structure Buffer (β : Type) (size : Nat) where
  octets : List β
  length_octets : octets.length = size

/-- An object starts with a string and its NUL. -/
def Holds {β : Type} (nul : β) (octets s : List β) : Prop :=
  nul ∉ s ∧ ∃ rest, octets = s ++ nul :: rest

namespace Buffer

variable {β : Type} {size : Nat}

/-- An array that is initialised with a text; the other octets are NULs. -/
def init (nul : β) (text : List β) (h : text.length ≤ size) : Buffer β size where
  octets := text ++ List.replicate (size - text.length) nul
  length_octets := by
    rw [List.length_append, List.length_replicate]
    omega

/-- `buf[i] = b`. -/
def write (buf : Buffer β size) (i : Nat) (b : β) : Checked (Buffer β size) :=
  if i < size then .ok ⟨buf.octets.set i b, by rw [List.length_set, buf.length_octets]⟩
  else .error .outOfBounds

/-- Consecutive octets, one after the other. -/
def writes (buf : Buffer β size) (i : Nat) : List β → Checked (Buffer β size)
  | [] => .ok buf
  | b :: bs => do
      let buf ← buf.write i b
      buf.writes (i + 1) bs

variable [DecidableEq β] (nul : β)

/-- Write `n` NULs. -/
def fill (buf : Buffer β size) (i : Nat) : Nat → Checked (Buffer β size)
  | 0 => .ok buf
  | n + 1 => do
      let buf ← buf.write i nul
      buf.fill (i + 1) n

/-- The loop of `strncpy`: at most `n` octets of a string, and NULs up to `n`. -/
def strncpy (buf : Buffer β size) (i : Nat) : Nat → List β → Checked (Buffer β size)
  | 0, _ => .ok buf
  | _ + 1, [] => .error .outOfBounds
  | n + 1, b :: src => do
      let buf ← buf.write i b
      if b = nul then buf.fill nul (i + 1) n else buf.strncpy (i + 1) n src

/-- The copying loop of `strcat`: a string with its NUL. -/
def strcpy (buf : Buffer β size) (i : Nat) : List β → Checked (Buffer β size)
  | [] => .error .outOfBounds
  | b :: src => do
      let buf ← buf.write i b
      if b = nul then return buf else buf.strcpy (i + 1) src

end Buffer

/-- `strlen`. -/
def strlen {β : Type} [DecidableEq β] (nul : β) : List β → Checked Nat
  | [] => .error .outOfBounds
  | b :: octets => if b = nul then .ok 0 else return (← strlen nul octets) + 1

/-- `strcat`. -/
def Buffer.strcat {β : Type} {size : Nat} [DecidableEq β] (nul : β) (buf : Buffer β size)
    (src : List β) : Checked (Buffer β size) := do
  let len ← strlen nul buf.octets
  buf.strcpy nul len src

/-! ## The strings that objects hold -/

section holds

variable {β : Type} {nul : β} {octets s : List β}

/-- An object that holds a string has one octet more at least. -/
theorem Holds.lt_length (h : Holds nul octets s) : s.length < octets.length := by
  obtain ⟨-, rest, rfl⟩ := h
  rw [List.length_append, List.length_cons]
  omega

/-- A text with a NUL behind it holds the part in front of its first NUL. -/
theorem holds_append_nul [DecidableEq β] (nul : β) (text rest : List β) :
    Holds nul (text ++ nul :: rest) (text.takeWhile (· ≠ nul)) := by
  refine ⟨fun hmem => ?_, ?_⟩
  · exact absurd (List.mem_takeWhile_imp hmem) (by simp)
  · induction text with
    | nil => exact ⟨rest, rfl⟩
    | cons b text ih =>
        obtain ⟨rest', ih⟩ := ih
        by_cases hb : b = nul
        · rw [List.takeWhile_cons_of_neg (by simpa using hb), hb]
          exact ⟨text ++ nul :: rest, rfl⟩
        · rw [List.takeWhile_cons_of_pos (by simpa using hb)]
          exact ⟨rest', congrArg (b :: ·) ih⟩

theorem strlen_eq [DecidableEq β] (h : Holds nul octets s) : strlen nul octets = .ok s.length := by
  obtain ⟨hnul, rest, rfl⟩ := h
  induction s with
  | nil => exact if_pos rfl
  | cons b s ih =>
      have hb : b ≠ nul := fun heq => hnul (heq ▸ List.mem_cons_self)
      have ih := ih fun hmem => hnul (List.mem_cons_of_mem b hmem)
      rw [List.cons_append, strlen, if_neg hb, ih]
      rfl

end holds

/-! ## Consecutive octets -/

namespace Buffer

variable {β : Type} {size : Nat} {buf : Buffer β size} {i : Nat}

theorem write_of_lt (buf : Buffer β size) (h : i < size) (b : β) :
    ∃ buf', buf.write i b = .ok buf' ∧ buf'.octets = buf.octets.set i b :=
  ⟨_, if_pos h, rfl⟩

theorem write_of_le (h : size ≤ i) (b : β) : buf.write i b = .error .outOfBounds :=
  if_neg (by omega)

/-- An octet that is there already. -/
theorem write_self {b : β} (h : buf.octets[i]? = some b) : buf.write i b = .ok buf := by
  obtain ⟨hi, hb⟩ := List.getElem?_eq_some_iff.mp h
  have hset : buf.octets.set i b = buf.octets := by
    rw [← hb]
    exact List.set_getElem_self hi
  rw [buf.length_octets] at hi
  obtain ⟨⟨octets, hlength⟩, hwrite, hoctets⟩ := write_of_lt buf hi b
  obtain rfl : octets = buf.octets := hoctets.trans hset
  exact hwrite

/-- Octets that fit replace those that were there. -/
theorem writes_spec (buf : Buffer β size) (bs : List β) (h : i + bs.length ≤ size) :
    ∃ buf', buf.writes i bs = .ok buf' ∧
      buf'.octets = buf.octets.take i ++ (bs ++ buf.octets.drop (i + bs.length)) := by
  induction bs generalizing buf i with
  | nil => exact ⟨buf, rfl, by simp⟩
  | cons b bs ih =>
      rw [List.length_cons] at h
      obtain ⟨buf₁, hwrite, hoctets₁⟩ := write_of_lt buf (i := i) (by omega) b
      obtain ⟨buf₂, hwrites, hoctets₂⟩ := @ih (i + 1) buf₁ (by omega)
      refine ⟨buf₂, ?_, ?_⟩
      · rw [writes, hwrite]
        exact hwrites
      · have hlength := buf.length_octets
        rw [hoctets₂, hoctets₁, List.take_succ_eq_append_getElem (by simp; omega),
          List.take_set_of_le (by omega), List.drop_set_of_lt (by omega)]
        simp [Nat.add_comm, Nat.add_left_comm]

/-- Octets that do not fit. -/
theorem writes_overrun {bs : List β} (hi : i ≤ size) (h : size < i + bs.length) :
    buf.writes i bs = .error .outOfBounds := by
  induction bs generalizing buf i with
  | nil => exact absurd h (by simp; omega)
  | cons b bs ih =>
      rw [List.length_cons] at h
      rw [writes]
      rcases Nat.lt_or_ge i size with hlt | hge
      · obtain ⟨buf₁, hwrite, -⟩ := write_of_lt buf hlt b
        rw [hwrite]
        exact ih hlt (by omega)
      · rw [write_of_le hge]
        rfl

/-! ## The string functions -/

section strings

variable {nul : β} {src s d : List β} {n : Nat}

theorem fill_eq (buf : Buffer β size) (i n : Nat) :
    buf.fill nul i n = buf.writes i (List.replicate n nul) := by
  induction n generalizing buf i with
  | zero => rfl
  | succ n ih =>
      rw [fill, List.replicate_succ, writes]
      exact bind_congr fun buf => ih buf (i + 1)

/-- An array that is initialised with a text holds it, if there is room for a NUL. -/
theorem holds_init {text : List β} (hnul : nul ∉ text) (hroom : text.length < size) :
    Holds nul (init nul text hroom.le : Buffer β size).octets text := by
  refine ⟨hnul, List.replicate (size - text.length - 1) nul, ?_⟩
  show text ++ List.replicate (size - text.length) nul = _
  rw [← List.replicate_succ, Nat.sub_add_cancel (by omega)]

theorem getElem?_init {text : List β} {i : Nat} (htext : text.length ≤ i) (hi : i < size) :
    (init nul text (htext.trans hi.le) : Buffer β size).octets[i]? = some nul := by
  show (text ++ List.replicate (size - text.length) nul)[i]? = some nul
  rw [List.getElem?_append_right htext, List.getElem?_replicate_of_lt (by omega)]

variable [DecidableEq β]

/-- `strncpy` writes the string, cut, and NULs behind it. -/
theorem strncpy_eq (hsrc : Holds nul src s) (buf : Buffer β size) (i n : Nat) :
    buf.strncpy nul i n src = buf.writes i (s.take n ++ List.replicate (n - s.length) nul) := by
  obtain ⟨hnul, rest, rfl⟩ := hsrc
  induction s generalizing buf i n with
  | nil =>
      cases n with
      | zero => rfl
      | succ n =>
          rw [List.nil_append, strncpy]
          exact bind_congr fun buf => (if_pos rfl).trans (fill_eq buf (i + 1) n)
  | cons b s ih =>
      have hb : b ≠ nul := fun heq => hnul (heq ▸ List.mem_cons_self)
      cases n with
      | zero =>
          rw [List.take_zero, Nat.zero_sub]
          rfl
      | succ n =>
          rw [List.cons_append, strncpy, List.take_succ_cons, List.length_cons,
            Nat.add_sub_add_right, List.cons_append, writes]
          exact bind_congr fun buf => (if_neg hb).trans
            (ih buf (i + 1) n fun hmem => hnul (List.mem_cons_of_mem b hmem))

theorem strcpy_eq (hsrc : Holds nul src s) (buf : Buffer β size) (i : Nat) :
    buf.strcpy nul i src = buf.writes i (s ++ [nul]) := by
  obtain ⟨hnul, rest, rfl⟩ := hsrc
  induction s generalizing buf i with
  | nil =>
      rw [List.nil_append, strcpy]
      exact bind_congr fun buf => if_pos rfl
  | cons b s ih =>
      have hb : b ≠ nul := fun heq => hnul (heq ▸ List.mem_cons_self)
      rw [List.cons_append, strcpy, List.cons_append, writes]
      exact bind_congr fun buf => (if_neg hb).trans
        (ih buf (i + 1) fun hmem => hnul (List.mem_cons_of_mem b hmem))

/-- With a NUL right behind the part that is copied to, the array holds the string,
cut, and the NUL stays. -/
theorem strncpy_spec (hsrc : Holds nul src s) (hend : buf.octets[n]? = some nul) :
    ∃ buf', buf.strncpy nul 0 n src = .ok buf' ∧ Holds nul buf'.octets (s.take n) ∧
      buf'.octets[n]? = some nul := by
  obtain ⟨hn, hget⟩ := List.getElem?_eq_some_iff.mp hend
  have hsize := buf.length_octets
  have hlength : (s.take n ++ List.replicate (n - s.length) nul).length = n := by
    rw [List.length_append, List.length_take, List.length_replicate]
    omega
  obtain ⟨buf', hwrites, hoctets⟩ := writes_spec (i := 0) buf
    (s.take n ++ List.replicate (n - s.length) nul) (by omega)
  rw [hlength, Nat.zero_add, List.take_zero, List.nil_append, List.drop_eq_getElem_cons hn,
    hget] at hoctets
  refine ⟨buf', (strncpy_eq hsrc buf 0 n).trans hwrites, ⟨?_, ?_⟩, ?_⟩
  · exact fun hmem => hsrc.1 (List.mem_of_mem_take hmem)
  · rw [hoctets, List.append_assoc]
    cases n - s.length with
    | zero => exact ⟨_, rfl⟩
    | succ k => exact ⟨_, rfl⟩
  · rw [hoctets, List.getElem?_append_right (by omega), hlength, Nat.sub_self]
    rfl

/-- Strings that fit are joined. -/
theorem strcat_spec (hbuf : Holds nul buf.octets d) (hsrc : Holds nul src s)
    (hfits : d.length + s.length < size) :
    ∃ buf', buf.strcat nul src = .ok buf' ∧ Holds nul buf'.octets (d ++ s) := by
  have hlength : (s ++ [nul]).length = s.length + 1 := by simp
  obtain ⟨buf', hwrites, hoctets⟩ := writes_spec (i := d.length) buf (s ++ [nul]) (by omega)
  refine ⟨buf', ?_, ?_, ?_⟩
  · unfold strcat
    rw [strlen_eq hbuf, Checked.ok_bind, strcpy_eq hsrc, hwrites]
  · intro hmem
    exact (List.mem_append.mp hmem).elim hbuf.1 hsrc.1
  · obtain ⟨-, rest, hrest⟩ := hbuf
    refine ⟨rest.drop s.length, ?_⟩
    rw [hoctets, hrest, List.take_left]
    simp

/-- Strings that do not fit. -/
theorem strcat_overrun (hbuf : Holds nul buf.octets d) (hsrc : Holds nul src s)
    (hlong : size ≤ d.length + s.length) : buf.strcat nul src = .error .outOfBounds := by
  have hlength : (s ++ [nul]).length = s.length + 1 := by simp
  have hd := hbuf.lt_length
  rw [buf.length_octets] at hd
  unfold strcat
  rw [strlen_eq hbuf, Checked.ok_bind, strcpy_eq hsrc]
  exact writes_overrun (by omega) (by omega)

end strings

end Buffer

end Fecraw.Verified
