import Fecraw.Verified.Bytes

/-!
# Programs on a memory, and the addresses they access

A C function that works in place on a buffer is a tree of loads and stores: what
it does next depends on the octets that it has loaded.  `Prog` is the type of
these trees.  `run` executes one, and `accesses` lists the addresses it loads from
and stores to on the way.

A program that accesses only some part of the memory depends on that part only:
this is `run_congr`, and it holds for every program.

Addresses are integers, as far as the programs are concerned, so that an access
below the buffer is one like any other.

## Main results

* `within_bind`: the accesses of two programs, one after the other.
* `Ends.bind`: what they end with.
* `run_congr`: memories that agree where a program accesses them lead to the same
  result.
* `run_xorLoop`: an in-place XOR with a cyclic stream is `xorStream`.
-/

namespace Fecraw.Verified

/-- A program that accesses a memory with addresses `ι` and octets `β`. -/
inductive Prog (ι β α : Type) where
  | ret (a : α)
  /-- A failed `assert`. -/
  | abort
  | load (i : ι) (k : β → Prog ι β α)
  | store (i : ι) (b : β) (k : Prog ι β α)

namespace Prog

variable {ι β α γ : Type}

/-- Two programs, one after the other. -/
def bind : Prog ι β α → (α → Prog ι β γ) → Prog ι β γ
  | ret a, f => f a
  | abort, _ => abort
  | load i k, f => load i fun b => (k b).bind f
  | store i b k, f => store i b (k.bind f)

instance : Monad (Prog ι β) where
  pure := ret
  bind := bind

/-- The octet at an address. -/
def get (i : ι) : Prog ι β β := load i ret

/-- Write an octet. -/
def put (i : ι) (b : β) : Prog ι β Unit := store i b (ret ())

/-- `assert(p)`. -/
def assert (p : Prop) [Decidable p] : Prog ι β Unit := if p then ret () else abort

variable [DecidableEq ι]

/-- The result of a program and the memory after it, unless it aborts. -/
def run : Prog ι β α → (ι → β) → Option (α × (ι → β))
  | ret a, m => some (a, m)
  | abort, _ => none
  | load i k, m => (k (m i)).run m
  | store i b k, m => k.run (Function.update m i b)

/-- The addresses that a program accesses. -/
def accesses : Prog ι β α → (ι → β) → List ι
  | ret _, _ => []
  | abort, _ => []
  | load i k, m => i :: (k (m i)).accesses m
  | store i b k, m => i :: k.accesses (Function.update m i b)

/-- A program accesses only addresses in `S`. -/
def Within (S : ι → Prop) (p : Prog ι β α) (m : ι → β) : Prop := ∀ i ∈ p.accesses m, S i

/-! ## Composition -/

@[simp] theorem run_pure (a : α) (m : ι → β) : (pure a : Prog ι β α).run m = some (a, m) := rfl

@[simp] theorem run_get (i : ι) (m : ι → β) : (get i).run m = some (m i, m) := rfl

@[simp] theorem run_put (i : ι) (b : β) (m : ι → β) :
    (put i b).run m = some ((), Function.update m i b) := rfl

theorem run_assert {p : Prop} [Decidable p] (h : p) (m : ι → β) :
    (assert p : Prog ι β Unit).run m = some ((), m) := by
  unfold assert
  rw [if_pos h]
  rfl

theorem run_bind (p : Prog ι β α) (f : α → Prog ι β γ) (m : ι → β) :
    (p >>= f).run m = (p.run m).bind fun r => (f r.1).run r.2 := by
  show (p.bind f).run m = _
  induction p generalizing m with
  | ret a => rfl
  | abort => rfl
  | load i k ih => exact ih (m i) m
  | store i b k ih => exact ih (Function.update m i b)

theorem run_bind_of_eq {p : Prog ι β α} {m m' : ι → β} {a : α} (h : p.run m = some (a, m'))
    (f : α → Prog ι β γ) : (p >>= f).run m = (f a).run m' := by
  rw [run_bind, h]
  rfl

theorem accesses_bind (p : Prog ι β α) (f : α → Prog ι β γ) (m : ι → β) :
    (p >>= f).accesses m = p.accesses m ++
      match p.run m with
      | some (a, m') => (f a).accesses m'
      | none => [] := by
  show (p.bind f).accesses m = _
  induction p generalizing m with
  | ret a => rfl
  | abort => rfl
  | load i k ih => exact congrArg (i :: ·) (ih (m i) m)
  | store i b k ih => exact congrArg (i :: ·) (ih (Function.update m i b))

section within

variable {S : ι → Prop} {m : ι → β}

@[simp] theorem within_pure (a : α) : Within S (pure a : Prog ι β α) m :=
  fun _ h => absurd h List.not_mem_nil

@[simp] theorem within_get {i : ι} : Within S (get i : Prog ι β β) m ↔ S i := by
  unfold Within get
  simp [accesses]

@[simp] theorem within_put {i : ι} {b : β} : Within S (put i b : Prog ι β Unit) m ↔ S i := by
  unfold Within put
  simp [accesses]

@[simp] theorem within_assert {p : Prop} [Decidable p] :
    Within S (assert p : Prog ι β Unit) m := by
  unfold Within assert
  split <;> exact fun _ h => absurd h List.not_mem_nil

/-- The second program accesses the memory that the first one leaves. -/
theorem within_bind {p : Prog ι β α} {f : α → Prog ι β γ} :
    Within S (p >>= f) m ↔
      Within S p m ∧ ∀ a m', p.run m = some (a, m') → Within S (f a) m' := by
  unfold Within
  rw [accesses_bind]
  simp only [List.mem_append]
  cases hrun : p.run m with
  | none => simp
  | some r =>
      obtain ⟨a, m'⟩ := r
      constructor
      · intro h
        refine ⟨fun i hi => h i (.inl hi), fun b n heq i hi => ?_⟩
        obtain ⟨rfl, rfl⟩ := Prod.mk.inj (Option.some.inj heq)
        exact h i (.inr hi)
      · rintro ⟨hp, hf⟩ i (hi | hi)
        · exact hp i hi
        · exact hf a m' rfl i hi

theorem within_bind_of_eq {p : Prog ι β α} {f : α → Prog ι β γ} {a : α} {m' : ι → β}
    (hrun : p.run m = some (a, m')) :
    Within S (p >>= f) m ↔ Within S p m ∧ Within S (f a) m' := by
  rw [within_bind, hrun]
  refine and_congr_right fun _ => ⟨fun h => h a m' rfl, fun h b n heq => ?_⟩
  obtain ⟨rfl, rfl⟩ := Prod.mk.inj (Option.some.inj heq)
  exact h

end within

/-! ## What a program ends with -/

section ends

variable {S : ι → Prop} {m : ι → β} {Q : α → (ι → β) → Prop} {R : γ → (ι → β) → Prop}

/-- A program does not abort, accesses only addresses in `S`, and ends with a result
and a memory for which `Q` holds. -/
def Ends (S : ι → Prop) (p : Prog ι β α) (m : ι → β) (Q : α → (ι → β) → Prop) : Prop :=
  Within S p m ∧ ∃ a m', p.run m = some (a, m') ∧ Q a m'

theorem ends_pure {a : α} (h : Q a m) : Ends S (pure a) m Q :=
  ⟨within_pure a, a, m, rfl, h⟩

theorem Ends.imp {Q' : α → (ι → β) → Prop} {p : Prog ι β α} (h : Ends S p m Q)
    (hQ : ∀ a m', Q a m' → Q' a m') : Ends S p m Q' := by
  obtain ⟨hwithin, a, m', hrun, hres⟩ := h
  exact ⟨hwithin, a, m', hrun, hQ a m' hres⟩

theorem Ends.bind {p : Prog ι β α} {f : α → Prog ι β γ} (h : Ends S p m Q)
    (hf : ∀ a m', Q a m' → Ends S (f a) m' R) : Ends S (p >>= f) m R := by
  obtain ⟨hwithin, a, m', hrun, hQ⟩ := h
  obtain ⟨hwithin', b, m'', hrun', hR⟩ := hf a m' hQ
  refine ⟨(within_bind_of_eq hrun).mpr ⟨hwithin, hwithin'⟩, b, m'', ?_, hR⟩
  rw [run_bind_of_eq hrun, hrun']

theorem ends_get_bind {i : ι} {f : β → Prog ι β γ} (hi : S i) (h : Ends S (f (m i)) m R) :
    Ends S (get i >>= f) m R := by
  have hget : Ends S (get i) m fun b m' => b = m i ∧ m' = m :=
    ⟨within_get.mpr hi, m i, m, rfl, rfl, rfl⟩
  refine hget.bind ?_
  rintro _ _ ⟨rfl, rfl⟩
  exact h

end ends

/-! ## What a program depends on -/

/-- Memories that agree wherever a program accesses one of them lead to the same
result, and agree there afterwards. -/
theorem run_congr {S : ι → Prop} {p : Prog ι β α} {m m' : ι → β} (hS : Within S p m)
    (hagree : ∀ i, S i → m i = m' i) :
    Option.Rel (fun r r' => r.1 = r'.1 ∧ ∀ i, S i → r.2 i = r'.2 i) (p.run m) (p.run m') := by
  induction p generalizing m m' with
  | ret a => exact .some ⟨rfl, hagree⟩
  | abort => exact .none
  | load i k ih =>
      have hi : m i = m' i := hagree i (hS i List.mem_cons_self)
      show Option.Rel _ ((k (m i)).run m) ((k (m' i)).run m')
      rw [← hi]
      exact ih (m i) (fun j hj => hS j (List.mem_cons_of_mem _ hj)) hagree
  | store i b k ih =>
      refine ih (fun j hj => hS j (List.mem_cons_of_mem _ hj)) fun j hj => ?_
      rcases eq_or_ne j i with rfl | hne
      · rw [Function.update_self, Function.update_self]
      · rw [Function.update_of_ne hne, Function.update_of_ne hne]
        exact hagree j hj

end Prog

/-! ## Octets at consecutive addresses -/

section ranges

variable {β : Type}

/-- The `n` octets from address `i` on. -/
def readAt (m : Int → β) : Int → Nat → List β
  | _, 0 => []
  | i, n + 1 => m i :: readAt m (i + 1) n

/-- Octets written from address `i` on. -/
def writeAt : (Int → β) → Int → List β → Int → β
  | m, _, [] => m
  | m, i, b :: bs => writeAt (Function.update m i b) (i + 1) bs

variable {m m' : Int → β} {i j : Int} {n : Nat} {bs : List β}

@[simp] theorem length_readAt (m : Int → β) (i : Int) (n : Nat) : (readAt m i n).length = n := by
  induction n generalizing i with
  | zero => rfl
  | succ n ih => simp [readAt, ih]

theorem readAt_congr (h : ∀ j, i ≤ j → j < i + n → m j = m' j) : readAt m i n = readAt m' i n := by
  induction n generalizing i with
  | zero => rfl
  | succ n ih =>
      rw [readAt, readAt, h i le_rfl (by omega), ih fun j hj hlt => h j (by omega) (by omega)]

theorem readAt_add (m : Int → β) (i : Int) (a b : Nat) :
    readAt m i (a + b) = readAt m i a ++ readAt m (i + a) b := by
  induction a generalizing i with
  | zero => simp [readAt]
  | succ a ih =>
      rw [show a + 1 + b = a + b + 1 by omega, readAt, ih, readAt, List.cons_append,
        show i + 1 + (a : Int) = i + ((a + 1 : Nat) : Int) by omega]

theorem readAt_getD (m : Int → β) (i : Int) (d : β) {k : Nat} (h : k < n) :
    (readAt m i n).getD k d = m (i + k) := by
  induction n generalizing i k with
  | zero => omega
  | succ n ih =>
      cases k with
      | zero => simp [readAt]
      | succ k =>
          rw [readAt, List.getD_cons_succ, ih (i + 1) (by omega)]
          congr 1
          omega

/-- Other addresses keep their octets. -/
theorem writeAt_of_not_mem (h : j < i ∨ i + bs.length ≤ j) : writeAt m i bs j = m j := by
  induction bs generalizing m i with
  | nil => rfl
  | cons b bs ih =>
      rw [List.length_cons] at h
      rw [writeAt, ih (by omega), Function.update_of_ne (by omega)]

theorem readAt_writeAt_self (m : Int → β) (i : Int) (bs : List β) :
    readAt (writeAt m i bs) i bs.length = bs := by
  induction bs generalizing m i with
  | nil => rfl
  | cons b bs ih =>
      rw [List.length_cons, readAt, writeAt, ih, writeAt_of_not_mem (.inl (by omega)),
        Function.update_self]

theorem readAt_writeAt_of_disjoint (h : j + n ≤ i ∨ i + bs.length ≤ j) :
    readAt (writeAt m i bs) j n = readAt m j n :=
  readAt_congr fun k hk hlt => writeAt_of_not_mem (by omega)

/-- Octets that are written inside a range. -/
theorem readAt_writeAt_inside (m : Int → β) (i : Int) (a : Nat) (bs : List β) (b : Nat) :
    readAt (writeAt m (i + a) bs) i (a + (bs.length + b)) =
      readAt m i a ++ (bs ++ readAt m (i + a + bs.length) b) := by
  rw [readAt_add, readAt_add, readAt_writeAt_of_disjoint (.inl le_rfl), readAt_writeAt_self,
    readAt_writeAt_of_disjoint (.inr le_rfl)]

theorem writeAt_readAt_self (m : Int → β) (i : Int) (n : Nat) : writeAt m i (readAt m i n) = m := by
  induction n generalizing i with
  | zero => rfl
  | succ n ih => rw [readAt, writeAt, Function.update_eq_self, ih]

/-- The last write to a range counts. -/
theorem writeAt_writeAt_self {cs : List β} (h : cs.length = bs.length) :
    writeAt (writeAt m i cs) i bs = writeAt m i bs := by
  funext a
  rcases Decidable.em (a < i ∨ i + bs.length ≤ a) with hout | hin
  · rw [writeAt_of_not_mem hout, writeAt_of_not_mem hout, writeAt_of_not_mem (by omega)]
  · obtain ⟨k, rfl⟩ : ∃ k : Nat, a = i + k := ⟨(a - i).toNat, by omega⟩
    have hk : k < bs.length := by omega
    rw [← readAt_getD (writeAt (writeAt m i cs) i bs) i (m i) hk,
      ← readAt_getD (writeAt m i bs) i (m i) hk, readAt_writeAt_self, readAt_writeAt_self]

theorem readAt_update_of_lt {b : β} (h : j < i) :
    readAt (Function.update m j b) i n = readAt m i n :=
  readAt_congr fun k hk _ => Function.update_of_ne (by omega) _ _

end ranges

namespace Prog

variable {β : Type}

/-- Load consecutive octets. -/
def gets : Int → Nat → Prog Int β (List β)
  | _, 0 => pure []
  | i, n + 1 => do
      let b ← get i
      let bs ← gets (i + 1) n
      return b :: bs

/-- Store consecutive octets. -/
def puts : Int → List β → Prog Int β Unit
  | _, [] => pure ()
  | i, b :: bs => do
      put i b
      puts (i + 1) bs

@[simp] theorem run_gets (i : Int) (n : Nat) (m : Int → β) :
    (gets i n).run m = some (readAt m i n, m) := by
  induction n generalizing i with
  | zero => rfl
  | succ n ih =>
      rw [gets, run_bind_of_eq (run_get i m), run_bind_of_eq (ih (i + 1))]
      rfl

@[simp] theorem run_puts (i : Int) (bs : List β) (m : Int → β) :
    (puts i bs).run m = some ((), writeAt m i bs) := by
  induction bs generalizing i m with
  | nil => rfl
  | cons b bs ih =>
      rw [puts, run_bind_of_eq (run_put i b m)]
      exact ih (i + 1) _

theorem within_gets {S : Int → Prop} {m : Int → β} {i : Int} {n : Nat}
    (h : ∀ j, i ≤ j → j < i + n → S j) : Within S (gets i n) m := by
  induction n generalizing i with
  | zero => exact within_pure _
  | succ n ih =>
      rw [gets, within_bind_of_eq (run_get i m), within_bind_of_eq (run_gets (i + 1) n m)]
      refine ⟨within_get.mpr (h i le_rfl (by omega)), ?_, within_pure _⟩
      exact ih fun j hj hlt => h j (by omega) (by omega)

theorem within_puts {S : Int → Prop} {m : Int → β} {i : Int} {bs : List β}
    (h : ∀ j, i ≤ j → j < i + bs.length → S j) : Within S (puts i bs) m := by
  induction bs generalizing i m with
  | nil => exact within_pure _
  | cons b bs ih =>
      rw [List.length_cons] at h
      rw [puts, within_bind_of_eq (run_put i b m)]
      refine ⟨within_put.mpr (h i le_rfl (by omega)), ?_⟩
      exact ih fun j hj hlt => h j (by omega) (by omega)

theorem ends_gets_bind {S : Int → Prop} {m : Int → β} {γ : Type} {R : γ → (Int → β) → Prop}
    {i : Int} {n : Nat} {f : List β → Prog Int β γ} (hS : ∀ j, i ≤ j → j < i + n → S j)
    (h : Ends S (f (readAt m i n)) m R) : Ends S (gets i n >>= f) m R := by
  have hgets : Ends S (gets i n) m fun bs m' => bs = readAt m i n ∧ m' = m :=
    ⟨within_gets hS, _, _, run_gets i n m, rfl, rfl⟩
  refine hgets.bind ?_
  rintro _ _ ⟨rfl, rfl⟩
  exact h

theorem ends_puts_bind {S : Int → Prop} {m : Int → β} {γ : Type} {R : γ → (Int → β) → Prop}
    {i : Int} {bs : List β} {f : Unit → Prog Int β γ} (hS : ∀ j, i ≤ j → j < i + bs.length → S j)
    (h : Ends S (f ()) (writeAt m i bs) R) : Ends S (puts i bs >>= f) m R := by
  have hputs : Ends S (puts i bs) m fun _ m' => m' = writeAt m i bs :=
    ⟨within_puts hS, _, _, run_puts i bs m, rfl⟩
  refine hputs.bind ?_
  rintro _ _ rfl
  exact h

/-- The first `n` addresses of a buffer. -/
def Inside (n : Nat) (a : Int) : Prop := 0 ≤ a ∧ a < n

/-! ## XOR in place -/

/-- XOR `n` octets from address `i` on with a stream, whose octets are loaded one
by one; the cursor goes through `wrap` before it is used. -/
def xorLoop (wrap : Nat → Nat) (stream : Nat → Prog Int UInt8 UInt8) :
    (n : Nat) → (i : Int) → (j : Nat) → Prog Int UInt8 Unit
  | 0, _, _ => pure ()
  | n + 1, i, j => do
      let b ← get i
      let c ← stream (wrap j)
      put i (b ^^^ c)
      xorLoop wrap stream n (i + 1) (wrap j + 1)

variable {wrap : Nat → Nat} {stream : Nat → Prog Int UInt8 UInt8} {ks : Nat → UInt8}

/-- The loop is `xorStream`, if the stream stays the same while the octets below
`bound` are changed. -/
theorem run_xorLoop {bound : Int} {m₀ : Int → UInt8}
    (hstream : ∀ m, (∀ a, bound ≤ a → m a = m₀ a) → ∀ j, (stream j).run m = some (ks j, m))
    {n : Nat} {i : Int} {j : Nat} (hn : i + n ≤ bound) {m : Int → UInt8}
    (hm : ∀ a, bound ≤ a → m a = m₀ a) :
    (xorLoop wrap stream n i j).run m =
      some ((), writeAt m i (xorStream wrap ks j (readAt m i n))) := by
  induction n generalizing i j m with
  | zero => rfl
  | succ n ih =>
      have hm' : ∀ a, bound ≤ a → Function.update m i (m i ^^^ ks (wrap j)) a = m₀ a := by
        intro a ha
        rw [Function.update_of_ne (by omega)]
        exact hm a ha
      rw [xorLoop, run_bind_of_eq (run_get i m), run_bind_of_eq (hstream m hm (wrap j)),
        run_bind_of_eq (run_put i _ m), ih (by omega) hm', readAt_update_of_lt (by omega)]
      rfl

/-- The loop accesses the octets that it changes and, for each cursor that it
reaches, what the stream accesses. -/
theorem within_xorLoop {S : Int → Prop} (reach : Nat → Prop)
    (hreach : ∀ j, reach j → reach (wrap j + 1))
    (hstream : ∀ j, reach j → ∀ m, Within S (stream (wrap j)) m) {n : Nat} {i : Int} {j : Nat}
    (hj : reach j) (hS : ∀ a, i ≤ a → a < i + n → S a) (m : Int → UInt8) :
    Within S (xorLoop wrap stream n i j) m := by
  induction n generalizing i j m with
  | zero => exact within_pure _
  | succ n ih =>
      have hi : S i := hS i le_rfl (by omega)
      rw [xorLoop, within_bind_of_eq (run_get i m), within_bind]
      refine ⟨within_get.mpr hi, hstream j hj m, fun c m' _ => ?_⟩
      rw [within_bind_of_eq (run_put i _ m')]
      refine ⟨within_put.mpr hi, ih (hreach j hj) (fun a ha hlt => hS a (by omega) (by omega)) _⟩

end Prog

end Fecraw.Verified
