import Fecraw.Verified.Recency
import Fecraw.Ports.ConvManager

/-!
# The clock and the collector

`get_current_time_us` repairs a clock that goes backwards with two static
variables.  Whatever `ev_time` returns, the time that it returns is the largest so
far, also when the sums go past `2 ^ 64`.

`lru_collector_t` is modelled here with its iterators: an element of the list has a
node, and `mp` has the nodes of the keys.  To erase an iterator of an element that
is not in the list any more is a fault.  The collector of `ConvManager`, which finds
the elements by their keys, does the same (`Simulates`).

## Main results

* `Clock.pairwise_readings`: the times that are returned do not decrease.
* `Simulates.newKey`, `Simulates.update`, `Simulates.erase`: the iterators lead to
  the elements of their keys.
* `run_of_legal`: no legal sequence of calls fails, and after it the collector is
  sorted, with the keys in the order of their last use.
-/

namespace Fecraw.Ports.Raw

open Fecraw.Verified Fecraw.Verified.Recency

/-! ## The clock -/

/-- The static variables of `get_current_time_us`. -/
structure Clock where
  valueFix : UInt64 := 0
  largestValue : UInt64 := 0
deriving Repr, DecidableEq

namespace Clock

/-- `get_current_time_us`, for a reading of `ev_time` in microseconds. -/
def getCurrentTimeUs (c : Clock) (rawValue : UInt64) : Clock × UInt64 :=
  let fixedValue := rawValue + c.valueFix
  let c' : Clock :=
    if fixedValue < c.largestValue then
      { c with valueFix := c.valueFix + (c.largestValue - fixedValue) }
    else { c with largestValue := fixedValue }
  (c', rawValue + c'.valueFix)

/-- `get_current_time`. -/
def getCurrentTime (c : Clock) (rawValue : UInt64) : Clock × UInt64 :=
  ((c.getCurrentTimeUs rawValue).1, (c.getCurrentTimeUs rawValue).2 / 1000)

/-- The times that `get_current_time_us` returns for readings one after the other. -/
def readings (c : Clock) : List UInt64 → List UInt64
  | [] => []
  | rawValue :: rest =>
      (c.getCurrentTimeUs rawValue).2 :: (c.getCurrentTimeUs rawValue).1.readings rest

/-- The time in milliseconds that the clock is at. -/
def now (c : Clock) : Nat := (c.largestValue / 1000).toNat

/-- What is returned is the largest value. -/
theorem getCurrentTimeUs_eq (c : Clock) (rawValue : UInt64) :
    (c.getCurrentTimeUs rawValue).2 = (c.getCurrentTimeUs rawValue).1.largestValue := by
  unfold getCurrentTimeUs
  dsimp only
  split
  · grind
  · rfl

/-- The largest value only grows. -/
theorem largestValue_le (c : Clock) (rawValue : UInt64) :
    c.largestValue ≤ (c.getCurrentTimeUs rawValue).1.largestValue := by
  unfold getCurrentTimeUs
  dsimp only
  split
  · exact UInt64.le_refl _
  next hle => exact UInt64.not_lt.mp hle

theorem le_readings (c : Clock) (raws : List UInt64) :
    ∀ t ∈ c.readings raws, c.largestValue ≤ t := by
  induction raws generalizing c with
  | nil => exact fun t ht => absurd ht List.not_mem_nil
  | cons rawValue rest ih =>
      intro t ht
      have hle := c.largestValue_le rawValue
      rcases List.mem_cons.mp ht with rfl | ht
      · rw [getCurrentTimeUs_eq]
        exact hle
      · exact UInt64.le_trans hle (ih _ t ht)

/-- The times that are returned do not decrease. -/
theorem pairwise_readings (c : Clock) (raws : List UInt64) :
    (c.readings raws).Pairwise (· ≤ ·) := by
  induction raws generalizing c with
  | nil => exact List.Pairwise.nil
  | cons rawValue rest ih =>
      refine List.pairwise_cons.mpr ⟨fun t ht => ?_, ih _⟩
      rw [getCurrentTimeUs_eq]
      exact le_readings _ rest t ht

theorem getCurrentTime_eq (c : Clock) (rawValue : UInt64) :
    (c.getCurrentTime rawValue).2.toNat = (c.getCurrentTime rawValue).1.now := by
  unfold getCurrentTime now
  rw [getCurrentTimeUs_eq]

theorem now_le (c : Clock) (rawValue : UInt64) : c.now ≤ (c.getCurrentTime rawValue).1.now := by
  unfold now
  rw [UInt64.toNat_div, UInt64.toNat_div]
  exact Nat.div_le_div_right (UInt64.le_iff_toNat_le.mp (c.largestValue_le rawValue))

end Clock

/-! ## The collector with its iterators -/

/-- An element of the list `q`; an iterator is the number of its node. -/
structure LruPair (κ : Type) where
  node : Nat
  key : κ
  ts : Nat
deriving Repr, DecidableEq

/-- The key and the time of an element. -/
def LruPair.entry {κ : Type} (p : LruPair κ) : κ × Nat := (p.key, p.ts)

/-- `lru_collector_t`. -/
structure LruCollector (κ : Type) where
  mp : Table κ Nat := ∅
  q : List (LruPair κ) := []
  /-- The node of the next element. -/
  nextNode : Nat := 0

namespace LruCollector

variable {κ : Type} [DecidableEq κ]

/-- `q.erase(it)`; the iterator has to be one of the list. -/
def eraseNode (l : LruCollector κ) (it : Nat) : Except Fault (LruCollector κ) := do
  require (∃ p ∈ l.q, p.node = it) .pointer
  return { l with q := l.q.eraseP fun p => p.node = it }

/-- The common end of `update` and `new_key`. -/
def pushFront (l : LruCollector κ) (key : κ) (value : Nat) : Except Fault (LruCollector κ) := do
  require (∀ p ∈ l.q.head?, p.ts ≤ value) .assertion
  return {
    mp := l.mp.insert key l.nextNode
    q := { node := l.nextNode, key, ts := value } :: l.q
    nextNode := l.nextNode + 1 }

/-- `update`, with the time that it reads. -/
def update (l : LruCollector κ) (key : κ) (value : Nat) : Except Fault (LruCollector κ) := do
  let it ← expect (l.mp.lookup key) .assertion
  let l ← l.eraseNode it
  l.pushFront key value

/-- `new_key`, with the time that it reads. -/
def newKey (l : LruCollector κ) (key : κ) (value : Nat) : Except Fault (LruCollector κ) := do
  require (l.mp.lookup key = none) .assertion
  l.pushFront key value

/-- `erase`. -/
def erase (l : LruCollector κ) (key : κ) : Except Fault (LruCollector κ) := do
  let it ← expect (l.mp.lookup key) .assertion
  let l ← l.eraseNode it
  return { l with mp := l.mp.erase key }

/-- `clear`. -/
def clear (l : LruCollector κ) : LruCollector κ := { l with mp := ∅, q := [] }

/-- `peek_back`: the key and the time of the last element. -/
def peekBack (l : LruCollector κ) : Except Fault (κ × Nat) := do
  let p ← expect l.q.getLast? .assertion
  return p.entry

/-- The iterators of `mp` are those of the elements with the same keys, and no two
elements have the same node or key. -/
structure Linked (l : LruCollector κ) : Prop where
  lookup : ∀ k it, l.mp.lookup k = some it ↔ ∃ p ∈ l.q, p.key = k ∧ p.node = it
  nodes : (l.q.map LruPair.node).Nodup
  keys : (l.q.map LruPair.key).Nodup
  fresh : ∀ p ∈ l.q, p.node < l.nextNode

end LruCollector

/-- The collector has linked iterators, and the elements of the collector that finds
them by key. -/
structure Simulates {κ : Type} [DecidableEq κ] (l : LruCollector κ) (a : Lru κ) : Prop where
  linked : l.Linked
  entries : l.q.map LruPair.entry = a.q
  mem : ∀ k, k ∈ l.mp ↔ k ∈ a.mp

section simulation

variable {κ : Type} [DecidableEq κ] {l : LruCollector κ} {a a' : Lru κ} {key : κ} {value : Nat}

/-! ### The list without an element -/

/-- The elements without the one of a key. -/
def withoutKey (q : List (LruPair κ)) (key : κ) : List (LruPair κ) :=
  q.eraseP fun p => p.key = key

theorem map_entry_withoutKey (q : List (LruPair κ)) (key : κ) :
    (withoutKey q key).map LruPair.entry = Lru.without (q.map LruPair.entry) key := by
  unfold withoutKey Lru.without
  rw [List.eraseP_map]
  rfl

theorem mem_withoutKey {q : List (LruPair κ)} (hkeys : (q.map LruPair.key).Nodup)
    {p : LruPair κ} : p ∈ withoutKey q key ↔ p ∈ q ∧ p.key ≠ key := by
  unfold withoutKey
  induction q with
  | nil => simp
  | cons x q ih =>
      obtain ⟨hx, hkeys⟩ := List.nodup_cons.mp hkeys
      by_cases hkey : x.key = key
      · rw [List.eraseP_cons_of_pos (by simpa using hkey), List.mem_cons]
        constructor
        · intro hp
          refine ⟨.inr hp, fun heq => hx ?_⟩
          rw [hkey, ← heq]
          exact List.mem_map_of_mem hp
        · rintro ⟨rfl | hp, hne⟩
          · exact absurd hkey hne
          · exact hp
      · rw [List.eraseP_cons_of_neg (by simpa using hkey), List.mem_cons, List.mem_cons, ih hkeys]
        constructor
        · rintro (rfl | ⟨hp, hne⟩)
          · exact ⟨.inl rfl, hkey⟩
          · exact ⟨.inr hp, hne⟩
        · rintro ⟨rfl | hp, hne⟩
          · exact .inl rfl
          · exact .inr ⟨hp, hne⟩

/-- In a linked collector a node and its key erase the same element. -/
theorem LruCollector.Linked.eraseP_node (h : l.Linked) {p : LruPair κ} (hp : p ∈ l.q)
    {q : List (LruPair κ)} (hq : q ⊆ l.q) :
    q.eraseP (fun x => x.node = p.node) = withoutKey q p.key := by
  unfold withoutKey
  induction q with
  | nil => rfl
  | cons x q ih =>
      have hx := hq List.mem_cons_self
      have ih := ih fun y hy => hq (List.mem_cons_of_mem _ hy)
      have hiff : x.node = p.node ↔ x.key = p.key :=
        ⟨fun heq => congrArg _ (List.inj_on_of_nodup_map h.nodes hx hp heq),
          fun heq => congrArg _ (List.inj_on_of_nodup_map h.keys hx hp heq)⟩
      rw [List.eraseP_cons, List.eraseP_cons, ih, decide_eq_decide.mpr hiff]

/-- An iterator of the list erases the element of its key. -/
theorem LruCollector.Linked.eraseNode (h : l.Linked) {p : LruPair κ} (hp : p ∈ l.q) :
    l.eraseNode p.node = .ok { l with q := withoutKey l.q p.key } := by
  unfold LruCollector.eraseNode require
  rw [if_pos ⟨p, hp, rfl⟩, h.eraseP_node hp (List.Subset.refl _)]
  rfl

theorem withoutKey_sublist (q : List (LruPair κ)) (key : κ) : (withoutKey q key).Sublist q :=
  List.eraseP_sublist

theorem key_notMem_withoutKey {q : List (LruPair κ)} (hkeys : (q.map LruPair.key).Nodup) :
    key ∉ (withoutKey q key).map LruPair.key := by
  intro hmem
  obtain ⟨p, hp, hkey⟩ := List.mem_map.mp hmem
  exact ((mem_withoutKey hkeys).mp hp).2 hkey

/-- The iterators of the other keys stay. -/
theorem LruCollector.Linked.lookup_withoutKey (h : l.Linked) {k : κ} (hk : k ≠ key) (it : Nat) :
    l.mp.lookup k = some it ↔ ∃ p ∈ withoutKey l.q key, p.key = k ∧ p.node = it := by
  rw [h.lookup k it]
  constructor
  · rintro ⟨p, hp, rfl, hnode⟩
    exact ⟨p, (mem_withoutKey h.keys).mpr ⟨hp, hk⟩, rfl, hnode⟩
  · rintro ⟨p, hp, hkey, hnode⟩
    exact ⟨p, (withoutKey_sublist l.q key).subset hp, hkey, hnode⟩

/-! ### The simulation -/

/-- A key that is in no element goes to the front. -/
theorem pushFront_simulates {q : List (κ × Nat)} (hentries : l.q.map LruPair.entry = q)
    (hlookup : ∀ k it, k ≠ key → (l.mp.lookup k = some it ↔ ∃ p ∈ l.q, p.key = k ∧ p.node = it))
    (hkey : key ∉ l.q.map LruPair.key) (hnodes : (l.q.map LruPair.node).Nodup)
    (hkeys : (l.q.map LruPair.key).Nodup) (hfresh : ∀ p ∈ l.q, p.node < l.nextNode)
    (hmem : ∀ k, k ∈ l.mp ↔ k ∈ a.mp) (hhead : ∀ e ∈ q.head?, e.2 ≤ value) :
    ∃ l', l.pushFront key value = .ok l' ∧
      Simulates l' { q := (key, value) :: q, mp := a.mp.insert key () } := by
  have hts : ∀ p ∈ l.q.head?, p.ts ≤ value := by
    intro p hp
    refine hhead p.entry ?_
    rw [← hentries, List.head?_map, Option.mem_def.mp hp]
    rfl
  refine ⟨_, require_bind_eq_ok.mpr ⟨hts, rfl⟩, ⟨fun k it => ?_, ?_, ?_, ?_⟩, ?_, fun k => ?_⟩
  · rw [Table.lookup_insert_eq]
    simp only [List.mem_cons, exists_eq_or_imp]
    by_cases hk : k = key
    · subst hk
      rw [if_pos rfl, Option.some_inj]
      constructor
      · exact fun heq => .inl ⟨rfl, heq⟩
      · rintro (⟨-, heq⟩ | ⟨p, hp, heq, -⟩)
        · exact heq
        · exact absurd (heq ▸ List.mem_map_of_mem hp) hkey
    · rw [if_neg hk, hlookup k it hk]
      constructor
      · exact .inr
      · rintro (⟨heq, -⟩ | h)
        · exact absurd heq.symm hk
        · exact h
  · refine List.nodup_cons.mpr ⟨fun hnode => ?_, hnodes⟩
    obtain ⟨p, hp, hnode⟩ := List.mem_map.mp hnode
    have hlt := hfresh p hp
    dsimp only at hnode
    omega
  · exact List.nodup_cons.mpr ⟨hkey, hkeys⟩
  · intro p hp
    rcases List.mem_cons.mp hp with rfl | hp
    · exact Nat.lt_succ_self _
    · exact (hfresh p hp).trans (Nat.lt_succ_self _)
  · rw [List.map_cons, hentries]
    rfl
  · rw [AList.mem_insert, AList.mem_insert, hmem]

theorem Simulates.newKey (h : Simulates l a) (hok : a.newKey key value = .ok a') :
    ∃ l', l.newKey key value = .ok l' ∧ Simulates l' a' := by
  obtain ⟨hnot, hhead, rfl⟩ := Lru.newKey_eq_ok.mp hok
  have hnone : l.mp.lookup key = none :=
    AList.lookup_eq_none.mpr fun hmem => hnot ((h.mem key).mp hmem)
  have hkey : key ∉ l.q.map LruPair.key := by
    intro hmem
    obtain ⟨p, hp, heq⟩ := List.mem_map.mp hmem
    rw [(h.linked.lookup key p.node).mpr ⟨p, hp, heq, rfl⟩] at hnone
    cases hnone
  obtain ⟨l', hpush, hsim⟩ := pushFront_simulates h.entries (fun k it _ => h.linked.lookup k it)
    hkey h.linked.nodes h.linked.keys h.linked.fresh h.mem hhead
  exact ⟨l', require_bind_eq_ok.mpr ⟨hnone, hpush⟩, hsim⟩

/-- The iterator of a key is the one of its element. -/
theorem Simulates.find (h : Simulates l a) (hkey : key ∈ a.mp) :
    ∃ p ∈ l.q, p.key = key ∧ l.mp.lookup key = some p.node := by
  obtain ⟨it, hit⟩ := Option.isSome_iff_exists.mp (AList.lookup_isSome.mpr ((h.mem key).mpr hkey))
  obtain ⟨p, hp, heq, rfl⟩ := (h.linked.lookup key it).mp hit
  exact ⟨p, hp, heq, hit⟩

theorem Simulates.update (h : Simulates l a) (hok : a.update key value = .ok a') :
    ∃ l', l.update key value = .ok l' ∧ Simulates l' a' := by
  obtain ⟨hin, hhead, rfl⟩ := Lru.update_eq_ok.mp hok
  obtain ⟨p, hp, rfl, hit⟩ := h.find hin
  have hsub := withoutKey_sublist l.q p.key
  have hentries : (withoutKey l.q p.key).map LruPair.entry = Lru.without a.q p.key := by
    rw [map_entry_withoutKey, h.entries]
  obtain ⟨l', hpush, hsim⟩ :=
    @pushFront_simulates κ _ { l with q := withoutKey l.q p.key } a p.key value _ hentries
      (fun k it hk => h.linked.lookup_withoutKey hk it) (key_notMem_withoutKey h.linked.keys)
      (h.linked.nodes.sublist (hsub.map _)) (h.linked.keys.sublist (hsub.map _))
      (fun x hx => h.linked.fresh x (hsub.subset hx)) h.mem hhead
  refine ⟨l', ?_, hsim⟩
  unfold LruCollector.update
  rw [hit]
  show (l.eraseNode p.node >>= fun l => l.pushFront p.key value) = _
  rw [h.linked.eraseNode hp]
  exact hpush

theorem Simulates.erase (h : Simulates l a) (hok : a.erase key = .ok a') :
    ∃ l', l.erase key = .ok l' ∧ Simulates l' a' := by
  obtain ⟨hin, rfl⟩ := Lru.erase_eq_ok.mp hok
  obtain ⟨p, hp, rfl, hit⟩ := h.find hin
  have hsub := withoutKey_sublist l.q p.key
  refine ⟨{ l with q := withoutKey l.q p.key, mp := l.mp.erase p.key }, ?_,
    ⟨fun k it => ?_, h.linked.nodes.sublist (hsub.map _), h.linked.keys.sublist (hsub.map _),
      fun x hx => h.linked.fresh x (hsub.subset hx)⟩, ?_, fun k => ?_⟩
  · unfold LruCollector.erase
    rw [hit]
    show (l.eraseNode p.node >>= fun l => pure { l with mp := l.mp.erase p.key }) = _
    rw [h.linked.eraseNode hp]
    rfl
  · rw [Table.lookup_erase_eq]
    by_cases hk : k = p.key
    · rw [if_pos hk, hk]
      constructor
      · intro hnone
        cases hnone
      · rintro ⟨x, hx, hkey, -⟩
        exact absurd (hkey ▸ List.mem_map_of_mem hx) (key_notMem_withoutKey h.linked.keys)
    · rw [if_neg hk]
      exact h.linked.lookup_withoutKey hk it
  · rw [← h.entries]
    exact map_entry_withoutKey l.q p.key
  · rw [AList.mem_erase, AList.mem_erase, h.mem]

theorem simulates_clear (l : LruCollector κ) : Simulates l.clear {} := by
  refine ⟨⟨fun k it => ?_, List.nodup_nil, List.nodup_nil, ?_⟩, rfl, fun k => ?_⟩
  · simp [LruCollector.clear]
  · exact fun p hp => absurd hp List.not_mem_nil
  · simp [LruCollector.clear]

/-- Both show the same element at the back. -/
theorem Simulates.peekBack (h : Simulates l a) : l.peekBack = expect a.q.getLast? .assertion := by
  unfold LruCollector.peekBack
  rw [← h.entries, List.getLast?_map]
  cases l.q.getLast? <;> rfl

end simulation

/-! ## Sequences of calls -/

/-- A call of the collector, with what `ev_time` returns during it. -/
inductive LruCall (κ : Type) where
  | newKey (key : κ) (rawValue : UInt64)
  | update (key : κ) (rawValue : UInt64)
  | erase (key : κ)
  | clear
  /-- The time is read elsewhere. -/
  | tick (rawValue : UInt64)
deriving Repr, DecidableEq

/-- What a call means for the keys. -/
def LruCall.event {κ : Type} : LruCall κ → KeyEvent κ
  | newKey key _ | update key _ => .use key
  | erase key => .drop key
  | clear => .reset
  | tick _ => .other

/-- The clock and the collector. -/
structure LruState (κ : Type) where
  clock : Clock
  lru : LruCollector κ

section runs

variable {κ : Type} [DecidableEq κ]

/-- A call. -/
def LruState.step (s : LruState κ) : LruCall κ → Except Fault (LruState κ)
  | .newKey key rawValue => do
      let lru ← s.lru.newKey key (s.clock.getCurrentTime rawValue).2.toNat
      return { clock := (s.clock.getCurrentTime rawValue).1, lru }
  | .update key rawValue => do
      let lru ← s.lru.update key (s.clock.getCurrentTime rawValue).2.toNat
      return { clock := (s.clock.getCurrentTime rawValue).1, lru }
  | .erase key => do
      let lru ← s.lru.erase key
      return { s with lru }
  | .clear => .ok { s with lru := s.lru.clear }
  | .tick rawValue => .ok { s with clock := (s.clock.getCurrentTime rawValue).1 }

/-- A key is there after calls. -/
def keyPresent (calls : List (LruCall κ)) (key : κ) : Bool :=
  present (calls.map LruCall.event) key

/-- The number of calls since the last `new_key` or `update` of a key. -/
def sinceUse (calls : List (LruCall κ)) (key : κ) : Nat := age (calls.map LruCall.event) key

/-- A call may be made after others: `new_key` for a key that is not there, `update`
and `erase` for one that is. -/
def Legal (calls : List (LruCall κ)) : LruCall κ → Prop
  | .newKey key _ => keyPresent calls key = false
  | .update key _ | .erase key => keyPresent calls key = true
  | .clear | .tick _ => True

/-- Every call may be made after those before it. -/
def LegalRun (calls : List (LruCall κ)) : Prop :=
  ∀ before call after, calls = before ++ call :: after → Legal before call

/-- What holds after calls: the collector simulates one that is sorted, with the keys
in the order of their last use. -/
def LruInv (calls : List (LruCall κ)) (s : LruState κ) : Prop :=
  ∃ a : Lru κ, Simulates s.lru a ∧ a.Wf s.clock.now ∧
    ByRecency (calls.map LruCall.event) (a.q.map Prod.fst)

variable {calls : List (LruCall κ)} {s : LruState κ} {key : κ}

/-- The keys after a call. -/
theorem byRecency_append {keys keys' : List κ} {call : LruCall κ}
    (h : ByRecency (calls.map LruCall.event) keys) (hkeys : call.event.apply keys = keys') :
    ByRecency ((calls ++ [call]).map LruCall.event) keys' := by
  rw [List.map_append, ← hkeys]
  exact h.apply call.event

theorem lruInv_newKey (h : LruInv calls s) (rawValue : UInt64)
    (hkey : keyPresent calls key = false) :
    ∃ s', s.step (.newKey key rawValue) = .ok s' ∧
      LruInv (calls ++ [.newKey key rawValue]) s' := by
  obtain ⟨a, hsim, hwf, hrecent⟩ := h
  have hnot : key ∉ a.q.map Prod.fst := by
    rw [← hrecent.mem key]
    exact Bool.eq_false_iff.mp hkey
  have hle := s.clock.now_le rawValue
  obtain ⟨a', hnew, hwf', -⟩ := hwf.newKey hle fun hmem => hnot ((hwf.mem key).mp hmem)
  rw [← Clock.getCurrentTime_eq] at hnew
  obtain ⟨l', hl', hsim'⟩ := hsim.newKey hnew
  obtain ⟨-, -, rfl⟩ := Lru.newKey_eq_ok.mp hnew
  refine ⟨⟨(s.clock.getCurrentTime rawValue).1, l'⟩, ?_, _, hsim', hwf', ?_⟩
  · rw [LruState.step, hl']
    rfl
  · refine byRecency_append hrecent ?_
    show key :: (a.q.map Prod.fst).erase key = _
    rw [List.erase_of_not_mem hnot]
    rfl

theorem lruInv_update (h : LruInv calls s) (rawValue : UInt64)
    (hkey : keyPresent calls key = true) :
    ∃ s', s.step (.update key rawValue) = .ok s' ∧
      LruInv (calls ++ [.update key rawValue]) s' := by
  obtain ⟨a, hsim, hwf, hrecent⟩ := h
  have hle := s.clock.now_le rawValue
  obtain ⟨a', hupdate, hwf', -⟩ := hwf.update hle ((hwf.mem key).mpr ((hrecent.mem key).mp hkey))
  rw [← Clock.getCurrentTime_eq] at hupdate
  obtain ⟨l', hl', hsim'⟩ := hsim.update hupdate
  obtain ⟨-, -, rfl⟩ := Lru.update_eq_ok.mp hupdate
  refine ⟨⟨(s.clock.getCurrentTime rawValue).1, l'⟩, ?_, _, hsim', hwf', ?_⟩
  · rw [LruState.step, hl']
    rfl
  · refine byRecency_append hrecent ?_
    show key :: (a.q.map Prod.fst).erase key = key :: (Lru.without a.q key).map Prod.fst
    rw [Lru.map_without]

theorem lruInv_erase (h : LruInv calls s) (hkey : keyPresent calls key = true) :
    ∃ s', s.step (.erase key) = .ok s' ∧ LruInv (calls ++ [.erase key]) s' := by
  obtain ⟨a, hsim, hwf, hrecent⟩ := h
  obtain ⟨a', herase, hwf', -⟩ := hwf.erase ((hwf.mem key).mpr ((hrecent.mem key).mp hkey))
  obtain ⟨l', hl', hsim'⟩ := hsim.erase herase
  obtain ⟨-, rfl⟩ := Lru.erase_eq_ok.mp herase
  refine ⟨⟨s.clock, l'⟩, ?_, _, hsim', hwf', ?_⟩
  · rw [LruState.step, hl']
    rfl
  · refine byRecency_append hrecent ?_
    show (a.q.map Prod.fst).erase key = (Lru.without a.q key).map Prod.fst
    rw [Lru.map_without]

/-- No legal call fails. -/
theorem lruInv_step (h : LruInv calls s) {call : LruCall κ} (hlegal : Legal calls call) :
    ∃ s', s.step call = .ok s' ∧ LruInv (calls ++ [call]) s' := by
  cases call with
  | newKey key rawValue => exact lruInv_newKey h rawValue hlegal
  | update key rawValue => exact lruInv_update h rawValue hlegal
  | erase key => exact lruInv_erase h hlegal
  | clear =>
      obtain ⟨a, -, -, hrecent⟩ := h
      exact ⟨_, rfl, {}, simulates_clear s.lru, Lru.wf_init _, byRecency_append hrecent rfl⟩
  | tick rawValue =>
      obtain ⟨a, hsim, hwf, hrecent⟩ := h
      exact ⟨_, rfl, a, hsim, hwf.mono (s.clock.now_le rawValue), byRecency_append hrecent rfl⟩

/-- No legal sequence of calls fails. -/
theorem lruInv_run {rest : List (LruCall κ)} (h : LruInv calls s)
    (hlegal : ∀ before call after, rest = before ++ call :: after → Legal (calls ++ before) call) :
    ∃ s', rest.foldlM LruState.step s = .ok s' ∧ LruInv (calls ++ rest) s' := by
  induction rest generalizing calls s with
  | nil => exact ⟨s, rfl, by rwa [List.append_nil]⟩
  | cons call rest ih =>
      have hfirst := hlegal [] call rest rfl
      rw [List.append_nil] at hfirst
      obtain ⟨s₁, hstep, h₁⟩ := lruInv_step h hfirst
      obtain ⟨s₂, hrun, h₂⟩ := ih h₁ fun before next after heq => by
        rw [List.append_assoc]
        exact hlegal (call :: before) next after (by rw [heq]; rfl)
      refine ⟨s₂, ?_, ?_⟩
      · rw [List.foldlM_cons, hstep]
        exact hrun
      · rwa [List.append_assoc] at h₂

/-- What is so of a collector after calls: `q` is sorted from front to back, `mp` has
the iterators of the elements of `q` by key, for the keys that are there, and
`peek_back` gives one whose last `new_key` or `update` is the oldest. -/
structure LruSound (calls : List (LruCall κ)) (l : LruCollector κ) : Prop where
  sorted : l.q.Pairwise fun p p' => p'.ts ≤ p.ts
  linked : l.Linked
  mem : ∀ k, keyPresent calls k = true ↔ k ∈ l.mp
  peekBack_isOk : ∀ k, keyPresent calls k = true → ∃ key ts, l.peekBack = .ok (key, ts)
  oldest : ∀ key ts, l.peekBack = .ok (key, ts) → keyPresent calls key = true ∧
    ∀ k, keyPresent calls k = true → sinceUse calls k ≤ sinceUse calls key

theorem LruInv.sound (h : LruInv calls s) : LruSound calls s.lru := by
  obtain ⟨a, hsim, hwf, hrecent⟩ := h
  refine ⟨?_, hsim.linked, fun k => ?_, fun k hk => ?_, fun key ts hback => ?_⟩
  · have hsorted := hwf.sorted
    rw [← hsim.entries, List.pairwise_map] at hsorted
    exact hsorted
  · rw [hsim.mem, hwf.mem]
    exact hrecent.mem k
  · rw [hsim.peekBack]
    cases hlast : a.q.getLast? with
    | some e => exact ⟨e.1, e.2, rfl⟩
    | none =>
        have hmem := (hrecent.mem k).mp hk
        rw [List.getLast?_eq_none_iff.mp hlast] at hmem
        exact absurd hmem List.not_mem_nil
  · rw [hsim.peekBack] at hback
    cases hlast : a.q.getLast? with
    | none =>
        rw [hlast] at hback
        cases hback
    | some e =>
        rw [hlast] at hback
        obtain rfl := Except.ok.inj hback
        have hkeys : (a.q.map Prod.fst).getLast? = some key := by
          rw [List.getLast?_map, hlast]
          rfl
        exact ⟨(hrecent.mem key).mpr (List.mem_of_getLast? hkeys),
          fun k hk => hrecent.age_le_of_getLast? hkeys hk⟩

/-- No legal sequence of calls fails, and the collector is sound after it. -/
theorem run_of_legal (clock : Clock) (hlegal : LegalRun calls) :
    ∃ s, calls.foldlM LruState.step { clock, lru := {} } = .ok s ∧ LruSound calls s.lru := by
  have hstart : LruInv [] ({ clock, lru := {} } : LruState κ) :=
    ⟨{}, simulates_clear {}, Lru.wf_init _, byRecency_nil⟩
  obtain ⟨s, hrun, h⟩ := lruInv_run hstart hlegal
  exact ⟨s, hrun, h.sound⟩

end runs

end Fecraw.Ports.Raw
