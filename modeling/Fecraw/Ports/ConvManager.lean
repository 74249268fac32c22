import Fecraw.Ports.FdManager

/-!
# Conversations

A port of `lru_collector_t` and of `conv_manager_t`, the table of the
conversations of one connection.  A conversation that was idle for
`conv_timeout` is erased from the table, and the table's clear function is
called on its data; what that function works on, `ω`, is a parameter.

`last_clear_time` is not set by the constructor, which declares a local
variable of that name, so a new table starts with any value there.

## Main results

* `Lru.Wf.update`, `Lru.Wf.newKey`, `Lru.Wf.erase`: the assertions of the list
  hold, and it stays sorted by age.
* `clearInactive_of_not_expires`: when clearing leaves a table alone.
* `ends_clearInactive`: what clearing does otherwise.
-/

namespace Fecraw.Ports.Raw

open Fecraw.Verified

def convTimeout : Nat := 180000
def convClearInterval : Nat := 1000
def convClearRatio : Nat := 30
def convClearMin : Nat := 1
def maxConvNum : Nat := 10000

/-- The difference of two times as unsigned 64-bit numbers. -/
def elapsed (now t : Nat) : Nat := (((now : Int) - t) % 2 ^ 64).toNat

/-- Without wrap-around it is the difference of the numbers. -/
theorem elapsed_eq {now t : Nat} (hle : t ≤ now) (hnow : now < 2 ^ 64) :
    elapsed now t = now - t := by
  unfold elapsed
  rw [Int.emod_eq_of_lt (by omega) (by omega)]
  omega

/-! ## The collector -/

/-- `lru_collector_t`: the keys with the times of their last use, the latest in
front.  An iterator in `mp` points to the entry of `q` with the same key. -/
structure Lru (κ : Type) where
  q : List (κ × Nat) := []
  mp : Table κ Unit := ∅

namespace Lru

variable {κ : Type}

/-- The collector at a time: no key twice, sorted by age, nothing from the
future. -/
structure Wf (l : Lru κ) (now : Nat) : Prop where
  mem : ∀ k, k ∈ l.mp ↔ k ∈ l.q.map Prod.fst
  nodup : (l.q.map Prod.fst).Nodup
  sorted : l.q.Pairwise fun a b => b.2 ≤ a.2
  le : ∀ e ∈ l.q, e.2 ≤ now

theorem wf_init (now : Nat) : ({} : Lru κ).Wf now :=
  ⟨fun k => by simp, List.nodup_nil, List.Pairwise.nil, fun e he => by simp at he⟩

theorem Wf.mono {l : Lru κ} {now now' : Nat} (h : l.Wf now) (hle : now ≤ now') : l.Wf now' :=
  ⟨h.mem, h.nodup, h.sorted, fun e he => (h.le e he).trans hle⟩

/-- The last entry is the oldest. -/
theorem Wf.le_of_getLast? {l : Lru κ} {now : Nat} (h : l.Wf now) {e : κ × Nat}
    (hlast : l.q.getLast? = some e) : ∀ x ∈ l.q, e.2 ≤ x.2 := by
  intro x hx
  have hsorted := h.sorted
  obtain ⟨front, heq⟩ := List.getLast?_eq_some_iff.mp hlast
  rw [heq] at hx hsorted
  rcases List.mem_append.mp hx with hx | hx
  · exact (List.pairwise_append.mp hsorted).2.2 x hx e (by simp)
  · rw [List.mem_singleton.mp hx]

variable [DecidableEq κ]

/-- The list without the entry of a key. -/
def without (q : List (κ × Nat)) (key : κ) : List (κ × Nat) :=
  q.eraseP fun e => e.1 = key

/-- Put a key in front, with the assertion that time does not go back. -/
def pushFront (l : Lru κ) (q : List (κ × Nat)) (key : κ) (now : Nat) : Except Fault (Lru κ) := do
  require (∀ e ∈ q.head?, e.2 ≤ now) .assertion
  return { q := (key, now) :: q, mp := l.mp.insert key () }

/-- `update`. -/
def update (l : Lru κ) (key : κ) (now : Nat) : Except Fault (Lru κ) := do
  require (key ∈ l.mp) .assertion
  l.pushFront (without l.q key) key now

/-- `new_key`. -/
def newKey (l : Lru κ) (key : κ) (now : Nat) : Except Fault (Lru κ) := do
  require (key ∉ l.mp) .assertion
  l.pushFront l.q key now

/-- `erase`. -/
def erase (l : Lru κ) (key : κ) : Except Fault (Lru κ) := do
  require (key ∈ l.mp) .assertion
  return { q := without l.q key, mp := l.mp.erase key }

variable {l l' : Lru κ} {key : κ} {now now' : Nat}

/-! ### When the calls return -/

theorem pushFront_eq_ok {q : List (κ × Nat)} :
    l.pushFront q key now = .ok l' ↔
      (∀ e ∈ q.head?, e.2 ≤ now) ∧ l' = { q := (key, now) :: q, mp := l.mp.insert key () } := by
  unfold pushFront
  rw [require_bind_eq_ok]
  exact and_congr_right fun _ => ⟨fun h => (Except.ok.inj h).symm, fun h => h ▸ rfl⟩

theorem newKey_eq_ok : l.newKey key now = .ok l' ↔
    key ∉ l.mp ∧ (∀ e ∈ l.q.head?, e.2 ≤ now) ∧
      l' = { q := (key, now) :: l.q, mp := l.mp.insert key () } := by
  unfold newKey
  rw [require_bind_eq_ok, pushFront_eq_ok]

theorem update_eq_ok : l.update key now = .ok l' ↔
    key ∈ l.mp ∧ (∀ e ∈ (without l.q key).head?, e.2 ≤ now) ∧
      l' = { q := (key, now) :: without l.q key, mp := l.mp.insert key () } := by
  unfold update
  rw [require_bind_eq_ok, pushFront_eq_ok]

theorem erase_eq_ok : l.erase key = .ok l' ↔
    key ∈ l.mp ∧ l' = { q := without l.q key, mp := l.mp.erase key } := by
  unfold erase
  rw [require_bind_eq_ok]
  exact and_congr_right fun _ => ⟨fun h => (Except.ok.inj h).symm, fun h => h ▸ rfl⟩

/-! ### What they keep -/

/-- The keys of the list without one of them. -/
theorem map_without : ∀ q : List (κ × Nat),
    (without q key).map Prod.fst = (q.map Prod.fst).erase key := by
  intro q
  unfold without
  induction q with
  | nil => rfl
  | cons e q ih =>
      by_cases he : e.1 = key
      · rw [List.eraseP_cons_of_pos (by simpa using he), List.map_cons, he, List.erase_cons_head]
      · rw [List.eraseP_cons_of_neg (by simpa using he), List.map_cons, List.map_cons,
          List.erase_cons_tail (by simpa using he), ih]

theorem without_sublist (q : List (κ × Nat)) (key : κ) : (without q key).Sublist q :=
  List.eraseP_sublist

/-- A key goes to the front of a list in which it is not. -/
theorem pushFront_spec {q : List (κ × Nat)} (hmem : ∀ k, k ∈ l.mp ∧ k ≠ key ↔ k ∈ q.map Prod.fst)
    (hnodup : (q.map Prod.fst).Nodup) (hsorted : q.Pairwise fun a b => b.2 ≤ a.2)
    (hle : ∀ e ∈ q, e.2 ≤ now) :
    ∃ l', l.pushFront q key now = .ok l' ∧ l'.Wf now ∧ l'.mp = l.mp.insert key () := by
  have hhead : ∀ e ∈ q.head?, e.2 ≤ now := fun e he => hle e (List.mem_of_mem_head? he)
  refine ⟨{ q := (key, now) :: q, mp := l.mp.insert key () }, ?_, ?_, rfl⟩
  · exact pushFront_eq_ok.mpr ⟨hhead, rfl⟩
  · refine ⟨fun k => ?_, ?_, ?_, ?_⟩
    · rw [AList.mem_insert, List.map_cons, List.mem_cons, ← hmem]
      by_cases hk : k = key
      · simp [hk]
      · simp [hk]
    · rw [List.map_cons, List.nodup_cons]
      refine ⟨fun hin => ?_, hnodup⟩
      exact ((hmem key).mpr hin).2 rfl
    · exact List.pairwise_cons.mpr ⟨hle, hsorted⟩
    · intro e he
      rcases List.mem_cons.mp he with rfl | he
      · exact le_rfl
      · exact hle e he

theorem Wf.newKey (h : l.Wf now) (hle : now ≤ now') (hkey : key ∉ l.mp) :
    ∃ l', l.newKey key now' = .ok l' ∧ l'.Wf now' ∧ l'.mp = l.mp.insert key () := by
  have h' := h.mono hle
  unfold Lru.newKey require
  rw [if_pos hkey]
  apply pushFront_spec _ h'.nodup h'.sorted h'.le
  intro k
  rw [← h'.mem]
  constructor
  · exact fun hk => hk.1
  · intro hk
    exact ⟨hk, fun heq => hkey (heq ▸ hk)⟩

theorem Wf.mem_without (h : l.Wf now) (k : κ) :
    k ∈ (without l.q key).map Prod.fst ↔ k ∈ l.mp ∧ k ≠ key := by
  rw [map_without, h.nodup.mem_erase_iff, h.mem]
  exact and_comm

theorem Wf.update (h : l.Wf now) (hle : now ≤ now') (hkey : key ∈ l.mp) :
    ∃ l', l.update key now' = .ok l' ∧ l'.Wf now' ∧ l'.mp = l.mp.insert key () := by
  have h' := h.mono hle
  unfold Lru.update require
  rw [if_pos hkey]
  have hsub := without_sublist l.q key
  apply pushFront_spec
  · intro k
    exact (h'.mem_without k).symm
  · rw [map_without]
    exact h'.nodup.erase key
  · exact h'.sorted.sublist hsub
  · exact fun e he => h'.le e (hsub.subset he)

theorem Wf.erase (h : l.Wf now) (hkey : key ∈ l.mp) :
    ∃ l', l.erase key = .ok l' ∧ l'.Wf now ∧ l'.mp = l.mp.erase key := by
  have hsub := without_sublist l.q key
  refine ⟨{ q := without l.q key, mp := l.mp.erase key }, ?_, ⟨fun k => ?_, ?_, ?_, ?_⟩, rfl⟩
  · exact erase_eq_ok.mpr ⟨hkey, rfl⟩
  · rw [h.mem_without, AList.mem_erase]
    exact and_comm
  · rw [map_without]
    exact h.nodup.erase key
  · exact h.sorted.sublist hsub
  · exact fun e he => h.le e (hsub.subset he)

end Lru

/-! ## The table -/

/-- `conv_manager_t`. -/
structure ConvManager (δ : Type) where
  dataToConv : Table δ UInt32 := ∅
  convToData : Table UInt32 δ := ∅
  lru : Lru UInt32 := {}
  lastClearTime : Nat := 0

namespace ConvManager

variable {δ ω : Type}

/-- `get_size`. -/
def getSize (m : ConvManager δ) : Nat := m.convToData.size

/-- `is_conv_used`. -/
def isConvUsed (m : ConvManager δ) (conv : UInt32) : Bool := (m.convToData.lookup conv).isSome

/-- `update_active_time`. -/
def updateActiveTime (m : ConvManager δ) (conv : UInt32) (now : Nat) :
    Except Fault (ConvManager δ) := do
  let lru ← m.lru.update conv now
  return { m with lru }

variable [DecidableEq δ]

/-- `insert_conv`. -/
def insertConv (m : ConvManager δ) (conv : UInt32) (data : δ) (now : Nat) :
    Except Fault (ConvManager δ) := do
  let lru ← m.lru.newKey conv now
  return { m with
    dataToConv := m.dataToConv.insert data conv
    convToData := m.convToData.insert conv data
    lru }

variable [Inhabited δ] (clear : ω → δ → Except Fault ω)

/-- `erase_conv`, with the clear function of the table. -/
def eraseConv (m : ConvManager δ) (w : ω) (conv : UInt32) : Except Fault (ConvManager δ × ω) := do
  let data := (m.convToData.lookup conv).getD default
  let w ← clear w data
  let lru ← m.lru.erase conv
  return ({ m with
    convToData := m.convToData.erase conv
    dataToConv := m.dataToConv.erase data
    lru }, w)

/-- The loop of `clear_inactive0`, with the number of rounds that are left. -/
def clearLoop (now : Nat) : Nat → ConvManager δ → ω → Except Fault (ConvManager δ × ω)
  | 0, m, w => .ok (m, w)
  | n + 1, m, w =>
      match m.lru.q.getLast? with
      | none => .ok (m, w)
      | some (conv, ts) =>
          if elapsed now ts < convTimeout then .ok (m, w)
          else do
            let (m, w) ← eraseConv clear m w conv
            clearLoop now n m w

/-- `clear_inactive`. -/
def clearInactive (m : ConvManager δ) (w : ω) (now : Nat) : Except Fault (ConvManager δ × ω) :=
  if convClearInterval < elapsed now m.lastClearTime then
    let size := m.lru.q.length
    clearLoop clear now (min (size / convClearRatio + convClearMin) size)
      { m with lastClearTime := now } w
  else .ok (m, w)

/-- `clear`, which the destructor calls. -/
def clearAll (m : ConvManager δ) (w : ω) : Except Fault ω :=
  m.convToData.entries.foldlM (fun w e => clear w e.2) w

/-! ### What the calls do -/

/-- The collector has the conversations of the table. -/
structure Wf (m : ConvManager δ) (now : Nat) : Prop where
  keys : ∀ k, k ∈ m.convToData ↔ k ∈ m.lru.mp
  lru : m.lru.Wf now

/-- The oldest conversation has been idle for too long when the table is
cleared. -/
def Expires (m : ConvManager δ) (now : Nat) : Prop :=
  convClearInterval < elapsed now m.lastClearTime ∧
    ∃ e, m.lru.q.getLast? = some e ∧ convTimeout ≤ elapsed now e.2

section Spec

omit [DecidableEq δ] [Inhabited δ]

theorem wf_init (now t : Nat) : ({ lastClearTime := t } : ConvManager δ).Wf now :=
  ⟨fun k => by simp, Lru.wf_init now⟩

theorem Wf.mono {m : ConvManager δ} {now now' : Nat} (h : m.Wf now) (hle : now ≤ now') :
    m.Wf now' :=
  ⟨h.keys, h.lru.mono hle⟩

theorem isConvUsed_iff {m : ConvManager δ} {conv : UInt32} :
    m.isConvUsed conv ↔ conv ∈ m.convToData :=
  AList.lookup_isSome

/-- A conversation that is in the table can be used. -/
theorem Wf.updateActiveTime {m : ConvManager δ} {conv : UInt32} {now now' : Nat} (h : m.Wf now)
    (hle : now ≤ now') (hconv : conv ∈ m.convToData) :
    ∃ m', m.updateActiveTime conv now' = .ok m' ∧ m'.Wf now' ∧ m'.convToData = m.convToData := by
  have hmem := (h.keys conv).mp hconv
  obtain ⟨l, hl, hwf, hmp⟩ := h.lru.update hle hmem
  refine ⟨{ m with lru := l }, ?_, ⟨fun k => ?_, hwf⟩, rfl⟩
  · unfold ConvManager.updateActiveTime
    rw [hl]
    rfl
  · show k ∈ m.convToData ↔ k ∈ l.mp
    rw [hmp, h.keys, AList.mem_insert]
    constructor
    · exact .inr
    · rintro (rfl | hk)
      · exact hmem
      · exact hk

/-- The oldest entry belongs to a conversation of the table. -/
theorem Wf.lookup_of_getLast? {m : ConvManager δ} {now ts : Nat} {conv : UInt32} (h : m.Wf now)
    (hlast : m.lru.q.getLast? = some (conv, ts)) : ∃ d, m.convToData.lookup conv = some d := by
  have hin : conv ∈ m.lru.q.map Prod.fst :=
    List.mem_map.mpr ⟨(conv, ts), List.mem_of_getLast? hlast, rfl⟩
  exact Option.isSome_iff_exists.mp
    (isConvUsed_iff.mpr ((h.keys conv).mpr ((h.lru.mem conv).mpr hin)))

end Spec

variable {m : ConvManager δ} {conv : UInt32} {data : δ} {now now' : Nat}

omit [Inhabited δ] in
/-- A conversation that is not in the table can be added. -/
theorem Wf.insertConv (h : m.Wf now) (hle : now ≤ now') (hconv : ¬ m.isConvUsed conv) :
    ∃ m', m.insertConv conv data now' = .ok m' ∧ m'.Wf now' ∧
      m'.convToData = m.convToData.insert conv data := by
  have hnot : conv ∉ m.lru.mp := fun hmem => hconv (isConvUsed_iff.mpr ((h.keys conv).mpr hmem))
  obtain ⟨l, hl, hwf, hmp⟩ := h.lru.newKey hle hnot
  refine ⟨{ m with
    dataToConv := m.dataToConv.insert data conv
    convToData := m.convToData.insert conv data
    lru := l }, ?_, ⟨fun k => ?_, hwf⟩, rfl⟩
  · unfold ConvManager.insertConv
    rw [hl]
    rfl
  · show k ∈ m.convToData.insert conv data ↔ k ∈ l.mp
    rw [hmp, AList.mem_insert, AList.mem_insert, h.keys]

variable {clear} {w : ω} {F : Fault → Prop} {I : ω → Prop}

theorem ends_eraseConv (h : m.Wf now) (hconv : m.convToData.lookup conv = some data)
    (hclear : Ends (clear w data) F I) :
    Ends (eraseConv clear m w conv) F fun r =>
      r.1.Wf now ∧ r.1.convToData = m.convToData.erase conv ∧ I r.2 := by
  have hmem : conv ∈ m.lru.mp := (h.keys conv).mp (Table.mem_keys_of_lookup hconv)
  obtain ⟨l, hl, hwf, hmp⟩ := h.lru.erase hmem
  unfold eraseConv
  rw [hconv, hl]
  apply hclear.bind
  intro w' hw'
  refine ⟨⟨fun k => ?_, hwf⟩, rfl, hw'⟩
  show k ∈ m.convToData.erase conv ↔ k ∈ l.mp
  rw [hmp, AList.mem_erase, AList.mem_erase, h.keys]

/-- Clearing leaves conversations that were there, and keeps of `ω` what the
clear function keeps. -/
theorem ends_clearLoop {D : δ → Prop} (hclear : ∀ w d, D d → I w → Ends (clear w d) F I) :
    ∀ (n : Nat) {m : ConvManager δ} {w : ω}, m.Wf now →
      (∀ k d, m.convToData.lookup k = some d → D d) → I w →
      Ends (clearLoop clear now n m w) F fun r =>
        r.1.Wf now ∧ I r.2 ∧
          ∀ k d, r.1.convToData.lookup k = some d → m.convToData.lookup k = some d := by
  intro n
  induction n with
  | zero =>
      intro m w h _ hw
      exact ⟨h, hw, fun k d hk => hk⟩
  | succ n ih =>
      intro m w h hdata hw
      unfold clearLoop
      cases hlast : m.lru.q.getLast? with
      | none => exact ⟨h, hw, fun k d hk => hk⟩
      | some e =>
          obtain ⟨conv, ts⟩ := e
          apply ends_ite
          · intro _
            exact ⟨h, hw, fun k d hk => hk⟩
          · intro _
            obtain ⟨d, hd⟩ := h.lookup_of_getLast? hlast
            apply (ends_eraseConv h hd (hclear w d (hdata conv d hd) hw)).bind
            rintro ⟨m', w'⟩ ⟨hwf, hmap, hw'⟩
            have hsub : ∀ k d, m'.convToData.lookup k = some d →
                m.convToData.lookup k = some d := by
              intro k d hk
              rw [hmap, Table.lookup_erase_eq] at hk
              split at hk
              · exact absurd hk (by simp)
              · exact hk
            refine (ih hwf (fun k d hk => hdata k d (hsub k d hk)) hw').mono ?_ (fun e he => he)
            rintro r ⟨hr, hi, hk⟩
            exact ⟨hr, hi, fun k d hd => hsub k d (hk k d hd)⟩

theorem ends_clearInactive {D : δ → Prop} (hclear : ∀ w d, D d → I w → Ends (clear w d) F I)
    (h : m.Wf now) (hle : now ≤ now') (hdata : ∀ k d, m.convToData.lookup k = some d → D d)
    (hw : I w) :
    Ends (clearInactive clear m w now') F fun r =>
      r.1.Wf now' ∧ I r.2 ∧
        ∀ k d, r.1.convToData.lookup k = some d → m.convToData.lookup k = some d := by
  have h' := h.mono hle
  unfold clearInactive
  apply ends_ite
  · intro _
    exact ends_clearLoop hclear _ (m := { m with lastClearTime := now' }) ⟨h'.keys, h'.lru⟩ hdata hw
  · intro _
    exact ⟨h', hw, fun k d hk => hk⟩

/-- Where nothing expires, clearing at most sets the time of the last round. -/
theorem clearInactive_of_not_expires (hexp : ¬ m.Expires now) :
    ∃ t, clearInactive clear m w now = .ok ({ m with lastClearTime := t }, w) := by
  unfold clearInactive
  by_cases hdue : convClearInterval < elapsed now m.lastClearTime
  · rw [if_pos hdue]
    refine ⟨now, ?_⟩
    dsimp only
    cases hn : min (m.lru.q.length / convClearRatio + convClearMin) m.lru.q.length with
    | zero => rfl
    | succ n =>
        unfold clearLoop
        dsimp only
        cases hlast : m.lru.q.getLast? with
        | none => rfl
        | some e =>
            have hyoung : elapsed now e.2 < convTimeout := by
              by_contra hold
              exact hexp ⟨hdue, e, hlast, not_lt.mp hold⟩
            show (if elapsed now e.2 < convTimeout then _ else _) = _
            rw [if_pos hyoung]
  · rw [if_neg hdue]
    exact ⟨m.lastClearTime, rfl⟩

/-- Where something expires, the clear function is called at least once, and
what it leaves behind stays. -/
theorem ends_clearInactive_of_expires {D : δ → Prop} (hexp : m.Expires now) (h : m.Wf now)
    (hdata : ∀ k d, m.convToData.lookup k = some d → D d)
    (hfirst : ∀ d, D d → Ends (clear w d) F I)
    (hnext : ∀ w d, D d → I w → Ends (clear w d) F I) :
    Ends (clearInactive clear m w now) F fun r => I r.2 := by
  obtain ⟨hdue, ⟨conv, ts⟩, hlast, hold⟩ := hexp
  have hpos : 0 < m.lru.q.length := List.length_pos_of_mem (List.mem_of_getLast? hlast)
  obtain ⟨n, hn⟩ : ∃ n,
      min (m.lru.q.length / convClearRatio + convClearMin) m.lru.q.length = n + 1 := by
    refine Nat.exists_eq_add_one.mpr (lt_min ?_ hpos)
    exact Nat.lt_add_left _ (by decide)
  obtain ⟨d, hd⟩ := h.lookup_of_getLast? hlast
  unfold clearInactive
  rw [if_pos hdue]
  dsimp only
  rw [hn]
  unfold clearLoop
  rw [hlast]
  dsimp only
  rw [if_neg (not_lt.mpr hold)]
  have h' : ({ m with lastClearTime := now } : ConvManager δ).Wf now := ⟨h.keys, h.lru⟩
  apply (ends_eraseConv h' hd (hfirst d (hdata conv d hd))).bind
  rintro ⟨m', w'⟩ ⟨hwf, hmap, hw'⟩
  refine (ends_clearLoop hnext n hwf ?_ hw').mono (fun r hr => hr.2.1) fun e he => he
  intro k d hk
  rw [hmap, Table.lookup_erase_eq] at hk
  split at hk
  · exact absurd hk (by simp)
  · exact hdata k d hk

end ConvManager

end Fecraw.Ports.Raw
