import Fecraw.Verified.Access
import Fecraw.Verified.OnesComplement

/-!
# Clamping the segment size of TCP

`do_mssfix` looks for the MSS option of a TCP SYN in a packet from the TUN device,
lowers it and puts the checksum right.  It works in place, so it is a program on a
memory that holds the packet from address 0 on.

A packet that is not to be touched is left as it is, with two exceptions: the mask
`0x80FF` on the fragment field misses the more-fragments flag, and a header length
below 5 words is not rejected.

## Main results

* `ends_doMssfix`: what `do_mssfix` does with any packet.
* `clamped_rewritten`: a rewritten packet has the new MSS and a correct checksum.
* `proper_iff`: which packets are treated as they should be.
-/

namespace Fecraw.Ports.MssFix

open Fecraw.Verified Fecraw.Verified.Prog

/-- A program on a packet. -/
abbrev Code := Prog Int UInt8

/-! ## The program -/

/-- `tcp_csum`; `ph` are the octets of the pseudo header. -/
def tcpCsum (ph segment : Bytes) : Nat := complement (wordSum ph) segment

/-- The octets of a `pseudo_header`. -/
def pseudoHeader (source dest : Bytes) (protocol : UInt8) (tcpLen : Nat) : Bytes :=
  source ++ dest ++ [0, protocol] ++ writeU16 tcpLen

/-- The `new_mss` of `do_mssfix`. -/
def newMss (mssfix : Int) (mss : Nat) : Int :=
  if mss > mssfix - 40 - 10 then mssfix - 40 - 10 else mss

/-- What is done with the MSS option at `ptr`. -/
def rewriteMss (mssfix tcpBegin tcpLen ptr : Int) : Code Int := do
  let mss ← gets (ptr + 2) 2
  puts (ptr + 2) (writeU16 (newMss mssfix (readU16 mss) % 2 ^ 16).toNat)
  let source ← gets 12 4
  let dest ← gets 16 4
  let protocol ← get 9
  puts (tcpBegin + 16) [0, 0]
  let segment ← gets tcpBegin tcpLen.toNat
  puts (tcpBegin + 16)
    (writeWord (tcpCsum (pseudoHeader source dest protocol tcpLen.toNat) segment))
  return 0

/-- The loop over the options, up to `optionEnd`.  Each round moves the pointer; a
loop with more rounds than `fuel` does not end. -/
def walkOptions (mssfix tcpBegin tcpLen optionEnd : Int) : (fuel : Nat) → (ptr : Int) → Code Int
  | 0, _ => abort
  | fuel + 1, ptr =>
      if ptr < optionEnd then do
        let kind ← get ptr
        if kind = 0 then return 0
        else if kind = 1 then walkOptions mssfix tcpBegin tcpLen optionEnd fuel (ptr + 1)
        else if kind = 2 then
          if ptr + 1 ≥ optionEnd then return -1
          else do
            let len ← get (ptr + 1)
            if len ≠ 4 then return -1
            else if ptr + 3 ≥ optionEnd then return -1
            else rewriteMss mssfix tcpBegin tcpLen ptr
        else
          if ptr + 1 ≥ optionEnd then return -1
          else do
            let len ← get (ptr + 1)
            if len.toNat ≤ 1 then return -1
            else walkOptions mssfix tcpBegin tcpLen optionEnd fuel (ptr + len.toNat)
      else return 0

/-- The part of `do_mssfix` from `tcp_begin` on. -/
def fixSegment (mssfix tcpBegin tcpLen : Int) : Code Int :=
  if tcpLen < 20 then return -1
  else do
    let flags ← get (tcpBegin + 13)
    if flags.toNat / 2 % 2 = 0 then return 0
    else do
      let doff ← get (tcpBegin + 12)
      let tcpHdrLen : Int := (doff.toNat / 16 : Nat) * 4
      if tcpLen < tcpHdrLen then return -1
      else
        let fuel := (tcpHdrLen - 20).toNat + 1
        walkOptions mssfix tcpBegin tcpLen (tcpBegin + tcpHdrLen) fuel (tcpBegin + 20)

/-- `do_mssfix` on the `len` octets from address 0 on. -/
def doMssfix (mssfix len : Int) : Code Int :=
  if mssfix = 0 then return 0
  else if len < 20 then return -1
  else do
    let first ← get 0
    if first.toNat / 16 ≠ 4 then return 0
    else do
      let protocol ← get 9
      if protocol ≠ 6 then return 0
      else do
        let totLen ← gets 2 2
        let ipLen : Int := readU16 totLen
        let ipHdrLen : Int := (first.toNat % 16 : Nat) * 4
        if len < ipHdrLen then return -1
        else if len < ipLen then return -1
        else if ipHdrLen > ipLen then return -1
        else do
          let fragOff ← gets 6 2
          if readU16 fragOff &&& 0x1FFF ≠ 0 then return 0
          else if readU16 fragOff &&& 0x80FF ≠ 0 then return 0
          else fixSegment mssfix ipHdrLen (ipLen - ipHdrLen)

/-! ## Packets -/

section packet

variable (m : Int → UInt8)

def ihl : Nat := (m 0).toNat % 16

def totLen : Nat := readU16 (readAt m 2 2)

def fragOff : Nat := readU16 (readAt m 6 2)

def tcpBegin : Int := ihl m * 4

def tcpLen : Int := totLen m - tcpBegin m

def doff : Nat := (m (tcpBegin m + 12)).toNat / 16

def optionEnd : Int := tcpBegin m + doff m * 4

/-- The TCP segment. -/
def segment : Bytes := readAt m (tcpBegin m) (tcpLen m).toNat

/-- The pseudo header that belongs to a packet. -/
def pseudo : Bytes := pseudoHeader (readAt m 12 4) (readAt m 16 4) (m 9) (tcpLen m).toNat

/-- The walk through the options from one address on reaches a complete MSS option of
length 4 at another one.  An MSS option of any other length ends it. -/
inductive Reaches (stop : Int) : Int → Int → Prop
  | mss {ptr : Int} (hkind : m ptr = 2) (hlen : m (ptr + 1) = 4) (hend : ptr + 3 < stop) :
      Reaches stop ptr ptr
  | nop {ptr pos : Int} (hkind : m ptr = 1) (hend : ptr < stop) (h : Reaches stop (ptr + 1) pos) :
      Reaches stop ptr pos
  | skip {ptr pos : Int} (hkind : m ptr ≠ 0 ∧ m ptr ≠ 1 ∧ m ptr ≠ 2) (hend : ptr + 1 < stop)
      (hlen : 2 ≤ (m (ptr + 1)).toNat) (h : Reaches stop (ptr + (m (ptr + 1)).toNat) pos) :
      Reaches stop ptr pos

/-- The IP header of a packet of `n` octets passes the checks of `do_mssfix`. -/
structure HeaderPasses (n : Nat) : Prop where
  complete : 20 ≤ n
  version : (m 0).toNat / 16 = 4
  protocol : m 9 = 6
  total_le : totLen m ≤ n
  header_le : tcpBegin m ≤ totLen m
  first : fragOff m % 2 ^ 13 = 0
  reserved : fragOff m / 2 ^ 15 = 0

/-- The packet of `n` octets passes all checks of `do_mssfix`, which finds the MSS
option at `pos`. -/
structure Passes (n : Nat) (pos : Int) : Prop extends HeaderPasses m n where
  tcpLen_ge : 20 ≤ tcpLen m
  syn : (m (tcpBegin m + 13)).toNat / 2 % 2 = 1
  doff_le : doff m * 4 ≤ tcpLen m
  reaches : Reaches m (optionEnd m) (tcpBegin m + 20) pos

/-- More fragments follow. -/
def MoreFragments : Prop := fragOff m / 2 ^ 13 % 2 = 1

/-- The packet of `n` octets is a whole and well-formed IPv4 datagram with a TCP SYN,
whose MSS option is at `pos`. -/
structure Clampable (n : Nat) (pos : Int) : Prop extends Passes m n pos where
  ihl_ge : 5 ≤ ihl m
  whole : ¬ MoreFragments m

/-- The MSS at `pos` is lowered. -/
def lowered (mssfix pos : Int) : Int → UInt8 :=
  writeAt m (pos + 2)
    (writeU16 (newMss mssfix (readU16 (readAt m (pos + 2) 2)) % 2 ^ 16).toNat)

/-- The field for the TCP checksum is 0. -/
def blank : Int → UInt8 := writeAt m (tcpBegin m + 16) [0, 0]

/-- The TCP checksum, with its field taken as 0. -/
def checksum : Nat :=
  tcpCsum (pseudo m) (readAt (blank m) (tcpBegin m) (tcpLen m).toNat)

/-- The TCP checksum is computed and stored. -/
def resealed : Int → UInt8 := writeAt (blank m) (tcpBegin m + 16) (writeWord (checksum m))

/-- What `do_mssfix` makes of a packet that passes its checks. -/
def rewritten (mssfix pos : Int) : Int → UInt8 := resealed (lowered m mssfix pos)

end packet

/-- A packet is clamped: its MSS at `pos` is not too large, its TCP checksum is correct,
and nothing else has changed. -/
structure Clamped (mssfix : Int) (m m' : Int → UInt8) (pos : Int) : Prop where
  same : ∀ a, a ≠ pos + 2 → a ≠ pos + 3 → a ≠ tcpBegin m + 16 → a ≠ tcpBegin m + 17 → m' a = m a
  mss : (readU16 (readAt m' (pos + 2) 2) : Int) =
    min (readU16 (readAt m (pos + 2) 2) : Int) (mssfix - 50)
  check : tcpCsum (pseudo m') (segment m') = 0

/-- What `do_mssfix` leaves of a packet. -/
def Outcome (mssfix : Int) (n : Nat) (m m' : Int → UInt8) : Prop :=
  (∃ pos, Passes m n pos ∧ m' = rewritten m mssfix pos) ∨ ((∀ pos, ¬ Passes m n pos) ∧ m' = m)

section fields

variable {m m' : Int → UInt8} {n : Nat}

theorem tcpBegin_nonneg : 0 ≤ tcpBegin m := by
  unfold tcpBegin
  omega

/-- The fields of the IP header are in its first 20 octets. -/
theorem header_congr (h : ∀ a, 0 ≤ a → a < 20 → m a = m' a) :
    tcpBegin m = tcpBegin m' ∧ tcpLen m = tcpLen m' ∧ pseudo m = pseudo m' := by
  have hbegin : tcpBegin m = tcpBegin m' := by
    unfold tcpBegin ihl
    rw [h 0 (by omega) (by omega)]
  have hread : ∀ (a : Int) (k : Nat), 0 ≤ a → a + k ≤ 20 → readAt m a k = readAt m' a k :=
    fun a k ha hk => readAt_congr fun b hb hlt => h b (by omega) (by omega)
  have hlen : tcpLen m = tcpLen m' := by
    unfold tcpLen totLen
    rw [hbegin, hread 2 2 (by omega) (by omega)]
  refine ⟨hbegin, hlen, ?_⟩
  unfold pseudo
  rw [hlen, hread 12 4 (by omega) (by omega), hread 16 4 (by omega) (by omega),
    h 9 (by omega) (by omega)]

/-- Only the two octets of the MSS change. -/
theorem lowered_of_ne {mssfix pos a : Int} (h : a < pos + 2 ∨ pos + 4 ≤ a) :
    lowered m mssfix pos a = m a := by
  unfold lowered
  refine writeAt_of_not_mem ?_
  rw [length_writeU16]
  omega

theorem lowered_header (mssfix : Int) {pos : Int} (hpos : tcpBegin m + 20 ≤ pos) :
    tcpBegin m = tcpBegin (lowered m mssfix pos) ∧ tcpLen m = tcpLen (lowered m mssfix pos) ∧
      pseudo m = pseudo (lowered m mssfix pos) := by
  have hnonneg : 0 ≤ tcpBegin m := tcpBegin_nonneg
  exact header_congr fun a ha hlt => (lowered_of_ne (.inl (by omega))).symm

/-! ## What the program ends with -/

theorem ends_rewriteMss {mssfix pos : Int} (hn : 20 ≤ n) (hpos : tcpBegin m + 20 ≤ pos)
    (hend : pos + 3 < n) (hsegment : 20 ≤ tcpLen m) (hlen : tcpBegin m + tcpLen m ≤ n) :
    Ends (Inside n) (rewriteMss mssfix (tcpBegin m) (tcpLen m) pos) m
      fun _ m' => m' = rewritten m mssfix pos := by
  have hbegin : 0 ≤ tcpBegin m := tcpBegin_nonneg
  obtain ⟨hbegin', hlen', -⟩ := lowered_header mssfix hpos
  unfold rewriteMss
  refine ends_gets_bind (fun j hj hlt => ⟨by omega, by omega⟩) ?_
  refine ends_puts_bind (fun j hj hlt => ?_) ?_
  · rw [length_writeU16] at hlt
    exact ⟨by omega, by omega⟩
  refine ends_gets_bind (fun j hj hlt => ⟨by omega, by omega⟩) ?_
  refine ends_gets_bind (fun j hj hlt => ⟨by omega, by omega⟩) ?_
  refine ends_get_bind ⟨by omega, by omega⟩ ?_
  refine ends_puts_bind (fun j hj hlt => ?_) ?_
  · simp only [List.length_cons, List.length_nil] at hlt
    exact ⟨by omega, by omega⟩
  refine ends_gets_bind (fun j hj hlt => ⟨by omega, by omega⟩) ?_
  refine ends_puts_bind (fun j hj hlt => ?_) (ends_pure ?_)
  · rw [length_writeWord] at hlt
    exact ⟨by omega, by omega⟩
  unfold rewritten resealed checksum blank pseudo
  rw [← hbegin', ← hlen']
  rfl

/-! ### The walk through the options -/

section walk

variable {stop ptr pos : Int}

theorem not_reaches_of_end (h : stop ≤ ptr) : ¬ Reaches m stop ptr pos := by
  intro hreach
  cases hreach <;> omega

theorem not_reaches_of_end_kind (h : m ptr = 0) : ¬ Reaches m stop ptr pos := by
  intro hreach
  cases hreach with
  | mss hkind => simp [h] at hkind
  | nop hkind => simp [h] at hkind
  | skip hkind => exact hkind.1 h

theorem reaches_nop (h : m ptr = 1) (hend : ptr < stop) :
    Reaches m stop ptr pos ↔ Reaches m stop (ptr + 1) pos := by
  refine ⟨fun hreach => ?_, .nop h hend⟩
  cases hreach with
  | mss hkind => simp [h] at hkind
  | nop _ _ hrest => exact hrest
  | skip hkind => exact absurd h hkind.2.1

theorem reaches_mss (h : m ptr = 2) :
    Reaches m stop ptr pos ↔ m (ptr + 1) = 4 ∧ ptr + 3 < stop ∧ pos = ptr := by
  constructor
  · intro hreach
    cases hreach with
    | mss _ hlen hend => exact ⟨hlen, hend, rfl⟩
    | nop hkind => simp [h] at hkind
    | skip hkind => exact absurd h hkind.2.2
  · rintro ⟨hlen, hend, rfl⟩
    exact .mss h hlen hend

theorem reaches_skip (h : m ptr ≠ 0 ∧ m ptr ≠ 1 ∧ m ptr ≠ 2) :
    Reaches m stop ptr pos ↔ ptr + 1 < stop ∧ 2 ≤ (m (ptr + 1)).toNat ∧
      Reaches m stop (ptr + (m (ptr + 1)).toNat) pos := by
  constructor
  · intro hreach
    cases hreach with
    | mss hkind => exact absurd hkind h.2.2
    | nop hkind => exact absurd hkind h.2.1
    | skip _ hend hlen hrest => exact ⟨hend, hlen, hrest⟩
  · rintro ⟨hend, hlen, hrest⟩
    exact .skip h hend hlen hrest

theorem Reaches.unique {pos' : Int} (h : Reaches m stop ptr pos) (h' : Reaches m stop ptr pos') :
    pos = pos' := by
  induction h with
  | mss hkind hlen hend => exact ((reaches_mss hkind).mp h').2.2.symm
  | nop hkind hend _ ih => exact ih ((reaches_nop hkind hend).mp h')
  | skip hkind hend hlen _ ih => exact ih ((reaches_skip hkind).mp h').2.2

/-- The option is between the start of the walk and its end. -/
theorem Reaches.bounds (h : Reaches m stop ptr pos) : ptr ≤ pos ∧ pos + 3 < stop := by
  induction h with
  | mss hkind hlen hend => exact ⟨le_rfl, hend⟩
  | nop hkind hend _ ih => exact ⟨by omega, ih.2⟩
  | skip hkind hend hlen _ ih => exact ⟨by omega, ih.2⟩

/-- The loop ends with the MSS option that the walk reaches, or leaves the packet
alone if there is none. -/
theorem ends_walkOptions {mssfix start len : Int} {S : Int → Prop}
    {Q : Int → (Int → UInt8) → Prop} {fuel : Nat} (hpos : 0 < fuel) (hfuel : stop - ptr < fuel)
    (hS : ∀ a, ptr ≤ a → a < stop → S a)
    (hmss : ∀ pos, Reaches m stop ptr pos → Ends S (rewriteMss mssfix start len pos) m Q)
    (hnone : (∀ pos, ¬ Reaches m stop ptr pos) → ∀ ret, Q ret m) :
    Ends S (walkOptions mssfix start len stop fuel ptr) m Q := by
  induction fuel generalizing ptr with
  | zero => exact absurd hpos (Nat.lt_irrefl 0)
  | succ fuel ih =>
      rw [walkOptions]
      by_cases hend : ptr < stop
      · rw [if_pos hend]
        refine ends_get_bind (hS ptr le_rfl hend) ?_
        by_cases h0 : m ptr = 0
        · rw [if_pos h0]
          exact ends_pure (hnone (fun pos => not_reaches_of_end_kind h0) 0)
        by_cases h1 : m ptr = 1
        · rw [if_neg h0, if_pos h1]
          simp only [reaches_nop h1 hend] at hmss hnone
          exact ih (by omega) (by omega) (fun a ha => hS a (by omega)) hmss hnone
        by_cases h2 : m ptr = 2
        · rw [if_neg h0, if_neg h1, if_pos h2]
          simp only [reaches_mss h2] at hmss hnone
          split
          next hshort => exact ends_pure (hnone (fun pos h => by omega) _)
          next hroom =>
            refine ends_get_bind (hS _ (by omega) (by omega)) ?_
            split
            next hlen => exact ends_pure (hnone (fun pos h => hlen h.1) _)
            next hlen =>
              split
              next hcut => exact ends_pure (hnone (fun pos h => by omega) _)
              next hfits => exact hmss ptr ⟨not_not.mp hlen, by omega, rfl⟩
        · rw [if_neg h0, if_neg h1, if_neg h2]
          simp only [reaches_skip ⟨h0, h1, h2⟩] at hmss hnone
          split
          next hshort => exact ends_pure (hnone (fun pos h => by omega) _)
          next hroom =>
            refine ends_get_bind (hS _ (by omega) (by omega)) ?_
            split
            next hlen => exact ends_pure (hnone (fun pos h => by omega) _)
            next hlen =>
              refine ih (by omega) (by omega) (fun a ha => hS a (by omega)) ?_ ?_
              · exact fun pos h => hmss pos ⟨by omega, by omega, h⟩
              · exact fun h => hnone fun pos hpos => h pos hpos.2.2
      · rw [if_neg hend]
        exact ends_pure (hnone (fun pos => not_reaches_of_end (by omega)) 0)

end walk

/-- The bits of the fragment field that the two masks leave. -/
theorem fragOff_masks {frag : Nat} (hlt : frag < 2 ^ 16) :
    (frag &&& 0x1FFF = 0 ∧ frag &&& 0x80FF = 0) ↔ (frag % 2 ^ 13 = 0 ∧ frag / 2 ^ 15 = 0) := by
  have hlow : frag &&& 0x1FFF = frag % 2 ^ 13 := Nat.and_two_pow_sub_one_eq_mod frag 13
  rw [hlow]
  refine and_congr_right fun hzero => ?_
  -- three flags are left
  obtain ⟨k, rfl⟩ : ∃ k, frag = 2 ^ 13 * k := Nat.dvd_of_mod_eq_zero hzero
  have hk : k < 8 := by omega
  interval_cases k <;> decide

theorem ends_fixSegment {mssfix : Int} (hheader : HeaderPasses m n) :
    Ends (Inside n) (fixSegment mssfix (tcpBegin m) (tcpLen m)) m
      fun _ m' => Outcome mssfix n m m' := by
  have hbegin : 0 ≤ tcpBegin m := tcpBegin_nonneg
  have htotal := hheader.total_le
  have hlen : tcpBegin m + tcpLen m ≤ n := by
    unfold tcpLen
    omega
  unfold fixSegment
  split
  next hshort => exact ends_pure (.inr ⟨fun pos h => by have := h.tcpLen_ge; omega, rfl⟩)
  next hroom =>
    refine ends_get_bind ⟨by omega, by omega⟩ ?_
    split
    next hsyn => exact ends_pure (.inr ⟨fun pos h => by have := h.syn; omega, rfl⟩)
    next hsyn =>
      refine ends_get_bind ⟨by omega, by omega⟩ ?_
      show Ends _ (if tcpLen m < (doff m : Int) * 4 then _ else _) _ _
      split
      next hlong => exact ends_pure (.inr ⟨fun pos h => by have := h.doff_le; omega, rfl⟩)
      next hdoff =>
        have hpasses : ∀ pos, Passes m n pos ↔
            Reaches m (optionEnd m) (tcpBegin m + 20) pos :=
          fun pos => ⟨fun h => h.reaches, fun h =>
            { toHeaderPasses := hheader, tcpLen_ge := by omega, syn := by omega,
              doff_le := by omega, reaches := h }⟩
        have hstop : optionEnd m ≤ tcpBegin m + tcpLen m := by
          unfold optionEnd
          omega
        show Ends _ (walkOptions _ _ _ (optionEnd m) _ _) _ _
        refine ends_walkOptions (Nat.succ_pos _) ?_ (fun a ha hlt => ⟨by omega, by omega⟩)
          (fun pos h => ?_) fun h ret => .inr ⟨fun pos hpos => h pos hpos.reaches, rfl⟩
        · unfold optionEnd doff
          omega
        · obtain ⟨hge, hlt⟩ := h.bounds
          refine (ends_rewriteMss hheader.complete hge (by omega) (by omega) hlen).imp ?_
          exact fun _ m' hm' => .inl ⟨pos, (hpasses pos).mpr h, hm'⟩

theorem readU16_readAt_lt (a : Int) : readU16 (readAt m a 2) < 2 ^ 16 := by
  have h0 := ((readAt m a 2).getD 0 0).toNat_lt
  have h1 := ((readAt m a 2).getD 1 0).toNat_lt
  unfold readU16
  omega

/-- `do_mssfix` ends, looks at nothing but the packet, and leaves what `Outcome`
says. -/
theorem ends_doMssfix {mssfix : Int} (hpos : 50 < mssfix) (m : Int → UInt8) (n : Nat) :
    Ends (Inside n) (doMssfix mssfix n) m fun _ m' => Outcome mssfix n m m' := by
  have hleave : (∀ pos, ¬ Passes m n pos) → ∀ ret : Int,
      Ends (Inside n) (pure ret) m fun _ m' => Outcome mssfix n m m' :=
    fun h ret => ends_pure (.inr ⟨h, rfl⟩)
  unfold doMssfix
  rw [if_neg (by omega)]
  split
  next hshort => exact hleave (fun pos h => by have := h.complete; omega) _
  next hroom =>
    refine ends_get_bind ⟨by omega, by omega⟩ ?_
    split
    next hversion => exact hleave (fun pos h => hversion h.version) _
    next hversion =>
      refine ends_get_bind ⟨by omega, by omega⟩ ?_
      split
      next hprotocol => exact hleave (fun pos h => hprotocol h.protocol) _
      next hprotocol =>
        refine ends_gets_bind (fun j hj hlt => ⟨by omega, by omega⟩) ?_
        show Ends _ (if (n : Int) < tcpBegin m then _ else if (n : Int) < totLen m then _
          else if tcpBegin m > totLen m then _ else _) _ _
        split
        next hlong =>
          exact hleave (fun pos h => by have := h.total_le; have := h.header_le; omega) _
        next hheader =>
          split
          next hcut => exact hleave (fun pos h => by have := h.total_le; omega) _
          next htotal =>
            split
            next hover => exact hleave (fun pos h => by have := h.header_le; omega) _
            next hunder =>
              refine ends_gets_bind (fun j hj hlt => ⟨by omega, by omega⟩) ?_
              have hmasks := fragOff_masks (readU16_readAt_lt (m := m) 6)
              split
              next hoffset => exact hleave (fun pos h =>
                hoffset (hmasks.mpr ⟨h.first, h.reserved⟩).1) _
              next hoffset =>
                split
                next hflag => exact hleave (fun pos h =>
                  hflag (hmasks.mpr ⟨h.first, h.reserved⟩).2) _
                next hflag =>
                  obtain ⟨hfirst, hreserved⟩ := hmasks.mp ⟨not_not.mp hoffset, not_not.mp hflag⟩
                  exact ends_fixSegment
                    { complete := by omega, version := not_not.mp hversion,
                      protocol := not_not.mp hprotocol, total_le := by omega,
                      header_le := by omega, first := hfirst, reserved := hreserved }

/-! ## Rewritten packets -/

theorem newMss_eq (mssfix : Int) (mss : Nat) :
    newMss mssfix mss = min (mss : Int) (mssfix - 50) := by
  unfold newMss
  omega

section rewritten

variable {mssfix pos : Int}

/-- The MSS of a rewritten packet. -/
theorem mss_rewritten (hlarge : 50 < mssfix) (hpos : tcpBegin m + 20 ≤ pos) :
    (readU16 (readAt (rewritten m mssfix pos) (pos + 2) 2) : Int) =
      min (readU16 (readAt m (pos + 2) 2) : Int) (mssfix - 50) := by
  obtain ⟨hbegin, -, -⟩ := lowered_header mssfix hpos
  have hlt := readU16_readAt_lt (m := m) (pos + 2)
  unfold rewritten resealed blank
  rw [← hbegin, readAt_writeAt_of_disjoint (.inr (by rw [length_writeWord]; omega)),
    readAt_writeAt_of_disjoint (.inr (by simp only [List.length_cons, List.length_nil]; omega))]
  have hread := readAt_writeAt_self m (pos + 2)
    (writeU16 (newMss mssfix (readU16 (readAt m (pos + 2) 2)) % 2 ^ 16).toNat)
  rw [length_writeU16] at hread
  unfold lowered
  rw [hread, newMss_eq, ← List.append_nil (writeU16 _), readU16_writeU16]
  omega

/-- Nothing but the MSS and the checksum changes. -/
theorem rewritten_of_ne (hpos : tcpBegin m + 20 ≤ pos) {a : Int} (hmss : a ≠ pos + 2)
    (hmss' : a ≠ pos + 3) (hcheck : a ≠ tcpBegin m + 16) (hcheck' : a ≠ tcpBegin m + 17) :
    rewritten m mssfix pos a = m a := by
  obtain ⟨hbegin, -, -⟩ := lowered_header mssfix hpos
  unfold rewritten resealed blank
  rw [← hbegin, writeAt_of_not_mem (by rw [length_writeWord]; omega),
    writeAt_of_not_mem (by simp only [List.length_cons, List.length_nil]; omega),
    lowered_of_ne (by omega)]

theorem wordSum_pseudo_le : wordSum (pseudo m) ≤ 2 ^ 29 := by
  have hle := wordSum_le (pseudo m)
  have hlen : (pseudo m).length = 12 := by simp [pseudo, pseudoHeader]
  rw [hlen] at hle
  omega

/-- The checksum that is stored is correct, if the TCP header does not overlap the
fields of the IP header. -/
theorem check_resealed (hihl : 5 ≤ ihl m) (hlen : 20 ≤ tcpLen m) :
    tcpCsum (pseudo (resealed m)) (segment (resealed m)) = 0 := by
  have hbegin : 20 ≤ tcpBegin m := by
    unfold tcpBegin
    omega
  have hupper : tcpLen m < 2 ^ 16 := by
    have hlt := readU16_readAt_lt (m := m) 2
    unfold tcpLen totLen
    omega
  obtain ⟨k, hk⟩ : ∃ k : Nat, tcpLen m = ((16 + (2 + k) : Nat) : Int) :=
    ⟨(tcpLen m - 18).toNat, by omega⟩
  have hkeep : ∀ a, 0 ≤ a → a < 20 → m a = resealed m a := by
    intro a ha hlt
    unfold resealed blank
    rw [writeAt_of_not_mem (.inl (by omega)), writeAt_of_not_mem (.inl (by omega))]
  obtain ⟨hbegin', hlen', hpseudo⟩ := header_congr hkeep
  -- the segment as a function of what is stored in the field
  set build : Nat → Bytes := fun check =>
    readAt (writeAt (blank m) (tcpBegin m + 16) (writeWord check)) (tcpBegin m) (16 + (2 + k))
    with hbuild
  have hsplit : ∀ check, build check = readAt (blank m) (tcpBegin m) 16 ++
      (writeWord check ++ readAt (blank m) (tcpBegin m + 16 + 2) k) :=
    fun check => readAt_writeAt_inside (blank m) (tcpBegin m) 16 (writeWord check) k
  have hcheck : HasCheck build := ⟨_, _, hsplit, by simp⟩
  have hzero : build 0 = readAt (blank m) (tcpBegin m) (tcpLen m).toNat := by
    have hblank : writeAt (blank m) (tcpBegin m + 16) (writeWord 0) = blank m :=
      writeAt_writeAt_self rfl
    rw [hbuild, hk, Int.toNat_natCast]
    dsimp only
    rw [hblank]
  have hsegment : segment (resealed m) =
      sealed (complement (wordSum (pseudo m))) build := by
    unfold segment sealed
    rw [← hbegin', ← hlen', hk, Int.toNat_natCast, hzero]
    rfl
  unfold tcpCsum
  rw [← hpseudo, hsegment]
  refine complement_sealed hcheck wordSum_pseudo_le ?_
  rw [hsplit]
  simp only [List.length_append, length_readAt, length_writeWord]
  omega

/-- A packet that is to be clamped is clamped. -/
theorem clamped_rewritten (hlarge : 50 < mssfix) (h : Clampable m n pos) :
    Clamped mssfix m (rewritten m mssfix pos) pos := by
  have hpos := h.reaches.bounds.1
  obtain ⟨hbegin, hlen, -⟩ := lowered_header mssfix hpos
  refine ⟨fun a => rewritten_of_ne hpos, mss_rewritten hlarge hpos, check_resealed ?_ ?_⟩
  · have hihl := h.ihl_ge
    unfold tcpBegin at hbegin
    omega
  · rw [← hlen]
    exact h.tcpLen_ge

/-- When rewriting changes nothing. -/
theorem rewritten_eq_self_iff (hlarge : 50 < mssfix) (hpos : tcpBegin m + 20 ≤ pos) :
    rewritten m mssfix pos = m ↔
      (readU16 (readAt m (pos + 2) 2) : Int) ≤ mssfix - 50 ∧
        readAt m (tcpBegin m + 16) 2 = writeWord (checksum m) := by
  have hlowered : (readU16 (readAt m (pos + 2) 2) : Int) ≤ mssfix - 50 →
      lowered m mssfix pos = m := by
    intro hsmall
    have hlt := readU16_readAt_lt (m := m) (pos + 2)
    have hnew : (newMss mssfix (readU16 (readAt m (pos + 2) 2)) % 2 ^ 16).toNat =
        readU16 (readAt m (pos + 2) 2) := by
      rw [newMss_eq]
      omega
    unfold lowered
    rw [hnew, writeU16_readU16 (length_readAt m (pos + 2) 2), writeAt_readAt_self]
  constructor
  · intro heq
    have hsmall : (readU16 (readAt m (pos + 2) 2) : Int) ≤ mssfix - 50 := by
      have hmss := mss_rewritten hlarge hpos
      rw [heq] at hmss
      omega
    refine ⟨hsmall, ?_⟩
    unfold rewritten at heq
    rw [hlowered hsmall] at heq
    have hread := readAt_writeAt_self (blank m) (tcpBegin m + 16) (writeWord (checksum m))
    rw [length_writeWord] at hread
    unfold resealed at heq
    rwa [heq] at hread
  · rintro ⟨hsmall, hstored⟩
    unfold rewritten resealed
    rw [hlowered hsmall, ← hstored]
    unfold blank
    rw [writeAt_writeAt_self (by rw [length_readAt]; rfl), writeAt_readAt_self]

end rewritten

end fields

/-! ## Proper treatment -/

/-- `do_mssfix` treats a packet as it should: it ends, looks at nothing but the packet,
clamps it if it is to be clamped, and leaves it as it is otherwise. -/
def Proper (mssfix : Int) (n : Nat) (m : Int → UInt8) : Prop :=
  Ends (Inside n) (doMssfix mssfix n) m fun _ m' =>
    (∀ pos, Clampable m n pos → Clamped mssfix m m' pos) ∧
      ((∀ pos, ¬ Clampable m n pos) → m' = m)

/-- A packet is treated properly exactly if it does not pass the checks of `do_mssfix`,
or has a header of at least 5 words and no more fragments, or has a small MSS and the
right checksum already. -/
theorem proper_iff {mssfix : Int} (hlarge : 50 < mssfix) (n : Nat) (m : Int → UInt8) :
    Proper mssfix n m ↔ ∀ pos, Passes m n pos → (5 ≤ ihl m ∧ ¬ MoreFragments m) ∨
      ((readU16 (readAt m (pos + 2) 2) : Int) ≤ mssfix - 50 ∧
        readAt m (tcpBegin m + 16) 2 = writeWord (checksum m)) := by
  constructor
  · rintro ⟨-, ret, m', hrun, -, hleave⟩ pos hpass
    by_cases hwhole : 5 ≤ ihl m ∧ ¬ MoreFragments m
    · exact .inl hwhole
    · obtain ⟨-, ret', m'', hrun', houtcome⟩ := ends_doMssfix hlarge m n
      obtain ⟨-, rfl⟩ := Prod.mk.inj (Option.some.inj (hrun.symm.trans hrun'))
      have hsame : m' = m := hleave fun pos' h => hwhole ⟨h.ihl_ge, h.whole⟩
      rcases houtcome with ⟨pos', hpass', hm'⟩ | ⟨hnone, -⟩
      · obtain rfl := hpass'.reaches.unique hpass.reaches
        exact .inr ((rewritten_eq_self_iff hlarge hpass.reaches.bounds.1).mp (hm'.symm.trans hsame))
      · exact absurd hpass (hnone pos)
  · intro hcond
    refine (ends_doMssfix hlarge m n).imp fun _ m' houtcome => ?_
    rcases houtcome with ⟨pos, hpass, rfl⟩ | ⟨hnone, rfl⟩
    · refine ⟨fun pos' h => ?_, fun hnone => ?_⟩
      · obtain rfl := h.reaches.unique hpass.reaches
        exact clamped_rewritten hlarge h
      · rcases hcond pos hpass with ⟨hihl, hwhole⟩ | hnothing
        · exact absurd { toPasses := hpass, ihl_ge := hihl, whole := hwhole } (hnone pos)
        · exact (rewritten_eq_self_iff hlarge hpass.reaches.bounds.1).mpr hnothing
    · exact ⟨fun pos h => absurd h.toPasses (hnone pos), fun _ => rfl⟩

/-- A SYN with an MSS of 1460; `flags` are the upper octet of the fragment field. -/
def synPacket (flags : UInt8) : Bytes :=
  [0x45, 0, 0, 44, 0, 0, flags, 0, 64, 6, 0, 0, 10, 0, 0, 1, 10, 0, 0, 2] ++
    [0, 80, 0, 80, 0, 0, 0, 0, 0, 0, 0, 0, 0x60, 2, 4, 0, 0, 0, 0, 0] ++ [2, 4, 5, 180]

/-- A whole packet. -/
theorem proper_synPacket :
    (50 : Int) < 1400 ∧ Proper 1400 44 (writeAt (fun _ => 0) 0 (synPacket 0)) := by
  refine ⟨by decide, (proper_iff (by decide) 44 _).mpr fun _ _ => .inl ⟨by decide, ?_⟩⟩
  unfold MoreFragments
  decide

/-- The first fragment of a packet is rewritten. -/
theorem not_proper_fragment : ¬ Proper 1400 44 (writeAt (fun _ => 0) 0 (synPacket 0x20)) := by
  rintro ⟨-, ret, m', hrun, -, hleave⟩
  have hmss : ((doMssfix 1400 44).run (writeAt (fun _ => 0) 0 (synPacket 0x20))).map
      (fun r => r.2 43) = some 0x46 := by decide +kernel
  have hsame : m' = writeAt (fun _ => 0) 0 (synPacket 0x20) :=
    hleave fun pos h => h.whole (by unfold MoreFragments; decide)
  rw [show ((44 : Nat) : Int) = 44 from rfl] at hrun
  rw [hrun, Option.map_some, hsame] at hmss
  have hold : writeAt (fun _ => 0) 0 (synPacket 0x20) 43 = 180 := by decide
  exact absurd (hold.symm.trans (Option.some.inj hmss)) (by decide)

end Fecraw.Ports.MssFix
