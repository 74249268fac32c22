import Fecraw.Verified.Access
import Fecraw.Ports.Tunnel

/-!
# Framing in place

`Packet` and `Tunnel` describe the framing of the tunnel on byte strings.  The
program works in place, on a buffer that is longer than the datagram: this module
has the same functions as programs on the memory of that buffer, with the octets
they load and store.

`de_obscure` cuts the buffer at an iv whose length is the last octet, and starts
over when its cursor reaches that length.  If the length is 0 it never does, and
runs on behind the datagram.

## Main results

* `run_doCook`, `run_deCook`: in place, the same comes out as on byte strings.
* `deframe_frame`: what was framed is found again.
* `contained_iff`: when deframing stays within the datagram.
-/

namespace Fecraw.Ports.InPlace

open Fecraw.Verified Fecraw.Verified.Prog
open Fecraw.Ports.Packet (Iv CookPar bufLen keyWrap)

/-- A program on a buffer. -/
abbrev Code := Prog Int UInt8

/-! ## The layers -/

/-- The common body of `encrypt_0` and `decrypt_0`. -/
def keyXor (key : Bytes) (len : Int) : Code Unit :=
  if key.getD 0 0 = 0 then pure ()
  else xorLoop (keyWrap key) (fun j => pure (key.getD j 0)) len.toNat 0 0

def encrypt0 (key : Bytes) (len : Int) : Code Unit := keyXor key len

def decrypt0 (key : Bytes) (len : Int) : Code Unit := keyXor key len

/-- `do_obscure`; returns the new length. -/
def doObscure (iv : Iv) (len : Int) : Code Int := do
  assert (0 ≤ len)
  assert (len < bufLen)
  let ivLen := iv.bytes.length
  puts len iv.bytes
  put (ivLen + len) (UInt8.ofNat ivLen)
  xorLoop (wrapAt ivLen) (fun j => get (len + j)) len.toNat 0 0
  return len + ivLen + 1

/-- `de_obscure`; `none` is the return value -1. -/
def deObscure (len : Int) : Code (Option Int) :=
  if len < 1 then pure none
  else do
    let last ← get (len - 1)
    let ivLen := last.toNat
    if len < 1 + ivLen then return none
    else
      let len := len - 1 - ivLen
      xorLoop (wrapAt ivLen) (fun j => get (len + j)) len.toNat 0 0
      return some len

section Crc

variable (crc : Bytes → UInt32)

/-- `put_crc32`. -/
def putCrc32 (par : CookPar) (len : Int) : Code Int :=
  if par.disableChecksum then pure len
  else do
    assert (0 ≤ len)
    let s ← gets 0 len.toNat
    puts len (writeU32 (crc s).toNat)
    return len + 4

/-- `rm_crc32`. -/
def rmCrc32 (par : CookPar) (len : Int) : Code (Option Int) :=
  if par.disableChecksum then pure (some len)
  else do
    assert (0 ≤ len)
    let len := len - 4
    if len < 0 then return none
    else
      let crcIn ← gets len 4
      let s ← gets 0 len.toNat
      if UInt32.ofNat (readU32 crcIn) = crc s then return some len else return none

/-- `do_cook`. -/
def doCook (par : CookPar) (iv : Iv) (len : Int) : Code Int := do
  let len ← putCrc32 crc par len
  let len ← (if par.disableObscure then pure len else doObscure iv len)
  let _ ← (if par.disableXor then pure () else encrypt0 par.key len)
  return len

/-- `de_cook`. -/
def deCook (par : CookPar) (len : Int) : Code (Option Int) := do
  let _ ← (if par.disableXor then pure () else decrypt0 par.key len)
  match ← (if par.disableObscure then pure (some len) else deObscure len) with
  | none => return none
  | some len => rmCrc32 crc par len

/-- `put_header`. -/
def putHeader (header : UInt8) (len : Int) : Code Int := do
  assert (0 ≤ len)
  put len header
  return len + 1

/-- `get_header`; the header and the new length. -/
def getHeader (len : Int) : Code (Option (UInt8 × Int)) := do
  assert (0 ≤ len)
  if len < 1 then return none
  else
    let header ← get (len - 1)
    return some (header, len - 1)

/-- What is sent: `put_header`, then `do_cook`. -/
def frame (par : CookPar) (iv : Iv) (header : UInt8) (len : Int) : Code Int := do
  let len ← putHeader header len
  doCook crc par iv len

/-- What `bridge_recv_cb` does with a datagram first: `de_cook`, then `get_header`. -/
def deframe (par : CookPar) (len : Int) : Code (Option (UInt8 × Int)) := do
  match ← deCook crc par len with
  | none => return none
  | some len => getHeader len

end Crc

/-! ## In place and on byte strings -/

/-- The buffer starts with these octets. -/
def Holds (m : Int → UInt8) (d : Bytes) : Prop := readAt m 0 d.length = d

/-- What is in the buffer at addresses from 0 on. -/
def contents (m : Int → UInt8) : Mem := fun i => m i

theorem holds_writeAt (m : Int → UInt8) (d : Bytes) : Holds (writeAt m 0 d) d :=
  readAt_writeAt_self m 0 d

section holds

variable {m : Int → UInt8} {d : Bytes}

theorem Holds.getD (h : Holds m d) {i : Nat} (hi : i < d.length) : m i = d.getD i 0 := by
  rw [← h, readAt_getD m 0 0 hi, Int.zero_add]

theorem Holds.take (h : Holds m d) (n : Nat) : Holds m (d.take n) := by
  unfold Holds
  have hsplit := readAt_add m 0 (d.take n).length (d.drop n).length
  rw [← List.length_append, List.take_append_drop, h] at hsplit
  have hinj := List.append_inj ((List.take_append_drop n d).trans hsplit) (by simp)
  exact hinj.1.symm

theorem Holds.readAt_drop (h : Holds m d) {n : Nat} (hn : n ≤ d.length) :
    readAt m n (d.length - n) = d.drop n := by
  have hsplit := readAt_add m 0 n (d.length - n)
  rw [Nat.add_sub_cancel' hn, h, Int.zero_add] at hsplit
  have hinj := List.append_inj ((List.take_append_drop n d).trans hsplit) (by simp [hn])
  exact hinj.2.symm

theorem Holds.append {e : Bytes} (h : Holds m d) (he : readAt m d.length e.length = e) :
    Holds m (d ++ e) := by
  unfold Holds
  rw [List.length_append, readAt_add, h, Int.zero_add, he]

theorem Holds.congr {m' : Int → UInt8} (h : Holds m d)
    (hagree : ∀ a : Int, 0 ≤ a → a < d.length → m a = m' a) : Holds m' d := by
  unfold Holds
  rw [← h, length_readAt]
  exact (readAt_congr fun a ha hlt => hagree a ha (by omega)).symm

theorem byteAt_contents (h : Holds m d) (i : Nat) : Packet.byteAt (contents m) d i = m i := by
  unfold Packet.byteAt
  split
  next hi => exact (h.getD hi).symm
  · rfl

/-- Only what is behind the datagram counts of the rest of the buffer. -/
theorem deObscure_congr {stale stale' : Mem} (hagree : ∀ i, d.length ≤ i → stale i = stale' i) :
    Packet.deObscure stale d = Packet.deObscure stale' d := by
  have hbyte : Packet.byteAt stale d = Packet.byteAt stale' d := by
    funext i
    unfold Packet.byteAt
    split
    · rfl
    next hi => exact hagree i (not_lt.mp hi)
  unfold Packet.deObscure
  rw [hbyte]

/-- An XOR of the whole datagram with a stream that lies behind it. -/
theorem run_xor (h : Holds m d) (wrap : Nat → Nat) {stream : Nat → Code UInt8}
    {ks : Nat → UInt8}
    (hstream : ∀ m', (∀ a, (d.length : Int) ≤ a → m' a = m a) →
      ∀ j, (stream j).run m' = some (ks j, m')) :
    ∃ m', (xorLoop wrap stream d.length 0 0).run m = some ((), m') ∧
      Holds m' (xorStream wrap ks 0 d) ∧ ∀ a, (d.length : Int) ≤ a → m' a = m a := by
  refine ⟨_, run_xorLoop hstream (by omega) fun a _ => rfl, ?_, ?_⟩
  · rw [h]
    exact holds_writeAt m _
  · intro a ha
    exact writeAt_of_not_mem (.inr (by rw [length_xorStream, length_readAt]; omega))

/-- The key layer. -/
theorem run_keyXor (h : Holds m d) (key : Bytes) :
    ∃ m', (keyXor key d.length).run m = some ((), m') ∧ Holds m' (Packet.keyXor key d) ∧
      ∀ a, (d.length : Int) ≤ a → m' a = m a := by
  unfold keyXor Packet.keyXor
  split
  · exact ⟨m, rfl, h, fun _ _ => rfl⟩
  · exact run_xor h _ fun m' _ j => rfl

/-- The iv layer, on the way out. -/
theorem run_doObscure (h : Holds m d) (iv : Iv) {out : Bytes}
    (hout : Packet.doObscure iv d = some out) :
    ∃ m', (doObscure iv d.length).run m = some ((out.length : Int), m') ∧ Holds m' out := by
  unfold Packet.doObscure at hout
  split at hout
  next hroom =>
    obtain rfl := Option.some.inj hout
    set n := iv.bytes.length with hn
    have hmin : 4 ≤ n := iv.min_le
    -- the iv and its length are written behind the datagram
    set m₁ := writeAt m d.length iv.bytes with hm₁
    set m₂ := Function.update m₁ ((n : Int) + d.length) (UInt8.ofNat n) with hm₂
    have hiv : readAt m₂ d.length n = iv.bytes := by
      have hkept : readAt m₂ d.length n = readAt m₁ d.length n :=
        readAt_congr fun a ha hlt => Function.update_of_ne (by omega) _ _
      rw [hkept]
      exact readAt_writeAt_self m d.length iv.bytes
    have hlast : m₂ (d.length + n) = UInt8.ofNat n := by
      rw [hm₂, Int.add_comm, Function.update_self]
    have hd : Holds m₂ d := h.congr fun a ha hlt => by
      rw [hm₂, Function.update_of_ne (by omega), hm₁, writeAt_of_not_mem (.inl hlt)]
    have hstream : ∀ m', (∀ a, (d.length : Int) ≤ a → m' a = m₂ a) →
        ∀ j : Nat, (get ((d.length : Int) + j) : Code UInt8).run m' =
          some (m₂ (d.length + j), m') := by
      intro m' hm' j
      rw [run_get, hm' _ (by omega)]
    obtain ⟨m₃, hrun, hholds, hrest⟩ := run_xor hd (wrapAt n) hstream
    have hxor : xorStream (wrapAt n) (fun j => m₂ (d.length + j)) 0 d =
        xorStream (wrapAt n) (fun j => iv.bytes.getD j 0) 0 d := by
      refine xorStream_wrapAt_congr (by omega) (fun j hj => ?_) d 0 (by omega)
      rw [← hiv, readAt_getD m₂ d.length 0 hj]
    rw [hxor] at hholds
    refine ⟨m₃, ?_, ?_⟩
    · unfold doObscure
      rw [run_bind_of_eq (run_assert (by omega) m), run_bind_of_eq (run_assert (by omega) m),
        run_bind_of_eq (run_puts _ _ m), run_bind_of_eq (run_put _ _ _), Int.toNat_natCast,
        run_bind_of_eq hrun, run_pure, List.length_append, List.length_append, length_xorStream]
      rfl
    · refine (hholds.append ?_).append ?_
      · rw [length_xorStream]
        exact (readAt_congr fun a ha _ => hrest a ha).trans hiv
      · rw [List.length_append, length_xorStream]
        show [m₃ _] = _
        rw [hrest _ (by omega)]
        push_cast
        rw [← hn, hlast]
  · cases hout

/-- The iv layer, on the way in. -/
theorem run_deObscure (h : Holds m d) :
    ∃ m', (deObscure d.length).run m =
        some ((Packet.deObscure (contents m) d).map fun out => (out.length : Int), m') ∧
      ∀ out, Packet.deObscure (contents m) d = some out → Holds m' out := by
  unfold deObscure Packet.deObscure
  by_cases hempty : d.length < 1
  · rw [if_pos (by omega), if_pos hempty]
    exact ⟨m, rfl, nofun⟩
  · have hlast : m ((d.length : Int) - 1) = d.getD (d.length - 1) 0 := by
      rw [← h.getD (show d.length - 1 < d.length by omega)]
      congr 1
      omega
    rw [if_neg (by omega), if_neg hempty, run_bind_of_eq (run_get _ m), hlast]
    dsimp only
    generalize (d.getD (d.length - 1) 0).toNat = ivLen
    by_cases hshort : d.length < 1 + ivLen
    · rw [if_pos (by omega), if_pos hshort]
      exact ⟨m, rfl, nofun⟩
    · rw [if_neg (by omega), if_neg hshort]
      have hlen : (d.length : Int) - 1 - ivLen = ((d.length - 1 - ivLen : Nat) : Int) := by omega
      have htake : (d.take (d.length - 1 - ivLen)).length = d.length - 1 - ivLen := by
        rw [List.length_take]
        omega
      rw [hlen, Int.toNat_natCast]
      have hks : ∀ m', (∀ a, ((d.take (d.length - 1 - ivLen)).length : Int) ≤ a → m' a = m a) →
          ∀ j : Nat, (get (((d.length - 1 - ivLen : Nat) : Int) + j) : Code UInt8).run m' =
            some (Packet.byteAt (contents m) d (d.length - 1 - ivLen + j), m') := by
        intro m' hm' j
        rw [run_get, byteAt_contents h, hm' _ (by rw [htake]; omega)]
        congr 3
      obtain ⟨m', hrun, hholds, -⟩ := run_xor (h.take _) (wrapAt ivLen) hks
      rw [htake] at hrun
      refine ⟨m', ?_, ?_⟩
      · rw [run_bind_of_eq hrun, Option.map_some, length_xorStream, htake]
        rfl
      · intro out hout
        obtain rfl := Option.some.inj hout
        exact hholds

section Crc

variable (crc : Bytes → UInt32)

/-- The checksum layer, on the way out. -/
theorem run_putCrc32 (h : Holds m d) (par : CookPar) :
    ∃ m', (putCrc32 crc par d.length).run m =
        some (((Packet.putCrc32 crc par d).length : Int), m') ∧
      Holds m' (Packet.putCrc32 crc par d) := by
  unfold putCrc32 Packet.putCrc32
  split
  · exact ⟨m, rfl, h⟩
  · refine ⟨writeAt m d.length (writeU32 (crc d).toNat), ?_, ?_⟩
    · rw [run_bind_of_eq (run_assert (by omega) m), Int.toNat_natCast,
        run_bind_of_eq (run_gets 0 d.length m), show readAt m 0 d.length = d from h,
        run_bind_of_eq (run_puts _ _ m), List.length_append]
      rfl
    · refine Holds.append (h.congr fun a _ hlt => ?_) (readAt_writeAt_self m d.length _)
      exact (writeAt_of_not_mem (.inl hlt)).symm

/-- The checksum layer, on the way in. -/
theorem run_rmCrc32 (h : Holds m d) (par : CookPar) :
    (rmCrc32 crc par d.length).run m =
        some ((Packet.rmCrc32 crc par d).map fun out => (out.length : Int), m) ∧
      ∀ out, Packet.rmCrc32 crc par d = some out → Holds m out := by
  unfold rmCrc32 Packet.rmCrc32
  split
  · exact ⟨rfl, fun out hout => Option.some.inj hout ▸ h⟩
  · rw [run_bind_of_eq (run_assert (by omega) m)]
    dsimp only
    by_cases hshort : d.length < 4
    · rw [if_pos (by omega), if_pos hshort]
      exact ⟨rfl, nofun⟩
    · rw [if_neg (by omega), if_neg hshort]
      have hlen : (d.length : Int) - 4 = ((d.length - 4 : Nat) : Int) := by omega
      have htake : (d.take (d.length - 4)).length = d.length - 4 := by
        rw [List.length_take]
        omega
      have hbody : readAt m 0 (d.length - 4) = d.take (d.length - 4) := by
        have hprefix := h.take (d.length - 4)
        unfold Holds at hprefix
        rwa [htake] at hprefix
      have hcrc : readAt m ((d.length - 4 : Nat) : Int) 4 = d.drop (d.length - 4) := by
        have hdrop := h.readAt_drop (show d.length - 4 ≤ d.length by omega)
        rwa [show d.length - (d.length - 4) = 4 by omega] at hdrop
      rw [hlen, Int.toNat_natCast, run_bind_of_eq (run_gets _ 4 m), hcrc,
        run_bind_of_eq (run_gets 0 _ m), hbody]
      split
      · refine ⟨?_, fun out hout => ?_⟩
        · rw [Option.map_some, htake]
          rfl
        · obtain rfl := Option.some.inj hout
          exact h.take _
      · exact ⟨rfl, nofun⟩

/-- Cooking in place. -/
theorem run_doCook (h : Holds m d) (par : CookPar) (iv : Iv) {out : Bytes}
    (hout : Packet.doCook crc par iv d = some out) :
    ∃ m', (doCook crc par iv d.length).run m = some ((out.length : Int), m') ∧ Holds m' out := by
  obtain ⟨mid, hmid, hxor⟩ := Option.bind_eq_some_iff.mp hout
  obtain ⟨m₁, hrun₁, hholds₁⟩ := run_putCrc32 crc h par
  have hobscure : ∃ m₂, (if par.disableObscure then pure ((Packet.putCrc32 crc par d).length : Int)
      else doObscure iv (Packet.putCrc32 crc par d).length).run m₁ =
        some ((mid.length : Int), m₂) ∧ Holds m₂ mid := by
    split at hmid
    next hoff =>
      obtain rfl := Option.some.inj hmid
      rw [if_pos hoff]
      exact ⟨m₁, rfl, hholds₁⟩
    next hon =>
      rw [if_neg hon]
      exact run_doObscure hholds₁ iv hmid
  obtain ⟨m₂, hrun₂, hholds₂⟩ := hobscure
  have hout' := Option.some.inj hxor
  unfold doCook
  rw [run_bind_of_eq hrun₁, run_bind_of_eq hrun₂]
  by_cases hoff : par.disableXor = true
  · rw [if_pos hoff] at hout' ⊢
    subst hout'
    exact ⟨m₂, rfl, hholds₂⟩
  · rw [if_neg hoff] at hout' ⊢
    subst hout'
    obtain ⟨m₃, hrun₃, hholds₃, -⟩ := run_keyXor hholds₂ par.key
    refine ⟨m₃, ?_, hholds₃⟩
    rw [Packet.length_encrypt0]
    exact run_bind_of_eq hrun₃ _

/-- De-cooking in place. -/
theorem run_deCook (h : Holds m d) (par : CookPar) :
    ∃ m', (deCook crc par d.length).run m =
        some ((Packet.deCook crc par (contents m) d).map fun out => (out.length : Int), m') ∧
      ∀ out, Packet.deCook crc par (contents m) d = some out → Holds m' out := by
  -- the key layer keeps the length and what is behind the datagram
  have hxor : ∃ m₁, (if par.disableXor then pure () else decrypt0 par.key d.length).run m =
      some ((), m₁) ∧ Holds m₁ (if par.disableXor then d else Packet.decrypt0 par.key d) ∧
        ∀ a, (d.length : Int) ≤ a → m₁ a = m a := by
    split
    · exact ⟨m, rfl, h, fun _ _ => rfl⟩
    · exact run_keyXor h par.key
  have hlen : (if par.disableXor then d else Packet.decrypt0 par.key d).length = d.length := by
    split
    · rfl
    · exact Packet.length_encrypt0 par.key d
  obtain ⟨m₁, hrun₁, hholds₁, hrest⟩ := hxor
  unfold deCook Packet.deCook
  rw [run_bind_of_eq hrun₁]
  dsimp only
  generalize (if par.disableXor then d else Packet.decrypt0 par.key d) = e at hholds₁ hlen ⊢
  have hstale : Packet.deObscure (contents m) e = Packet.deObscure (contents m₁) e :=
    deObscure_congr fun i hi => (hrest i (by omega)).symm
  have hobscure : ∃ m₂,
      (if par.disableObscure then pure (some (d.length : Int)) else deObscure d.length).run m₁ =
        some ((if par.disableObscure then some e else Packet.deObscure (contents m) e).map
          fun out => (out.length : Int), m₂) ∧
      ∀ out, (if par.disableObscure then some e else Packet.deObscure (contents m) e) = some out →
        Holds m₂ out := by
    rw [← hlen, hstale]
    split
    · exact ⟨m₁, rfl, fun out hout => Option.some.inj hout ▸ hholds₁⟩
    · exact run_deObscure hholds₁
  obtain ⟨m₂, hrun₂, hholds₂⟩ := hobscure
  rw [run_bind_of_eq hrun₂]
  cases hmid : (if par.disableObscure then some e else Packet.deObscure (contents m) e) with
  | none => exact ⟨m₂, rfl, nofun⟩
  | some mid => exact ⟨m₂, run_rmCrc32 crc (hholds₂ mid hmid) par⟩

/-! ## The round trip -/

theorem run_putHeader (h : Holds m d) (header : UInt8) :
    ∃ m', (putHeader header d.length).run m =
        some (((Tunnel.putHeader header d).length : Int), m') ∧
      Holds m' (Tunnel.putHeader header d) := by
  refine ⟨Function.update m d.length header, ?_, ?_⟩
  · unfold putHeader Tunnel.putHeader
    rw [run_bind_of_eq (run_assert (by omega) m), run_bind_of_eq (run_put _ _ m),
      List.length_append]
    rfl
  · refine Holds.append (h.congr fun a _ hlt => ?_) ?_
    · rw [Function.update_of_ne (by omega)]
    · show [Function.update m _ header _] = _
      rw [Function.update_self]

theorem run_getHeader (h : Holds m d) :
    (getHeader d.length).run m =
      some ((Tunnel.getHeader d).map fun r => (r.1, (r.2.length : Int)), m) := by
  unfold getHeader
  rw [run_bind_of_eq (run_assert (by omega) m)]
  rcases List.eq_nil_or_concat d with rfl | ⟨data, header, rfl⟩
  · rfl
  · have hlast : m ((data ++ [header]).length - 1) = header := by
      have hget := h.getD (show data.length < _ by simp)
      rw [show ((data ++ [header]).length : Int) - 1 = data.length by simp, hget]
      simp
    rw [List.concat_eq_append, if_neg (by simp), run_bind_of_eq (run_get _ m), hlast]
    have hheader := Tunnel.getHeader_putHeader header data
    unfold Tunnel.putHeader at hheader
    rw [hheader]
    simp

/-- Deframing in place. -/
theorem run_deframe (h : Holds m d) (par : CookPar) :
    ∃ m', (deframe crc par d.length).run m =
        some (((Packet.deCook crc par (contents m) d).bind Tunnel.getHeader).map
          fun r => (r.1, (r.2.length : Int)), m') ∧
      ∀ data, Packet.deCook crc par (contents m) d = some data → Holds m' data := by
  obtain ⟨m', hrun, hholds⟩ := run_deCook crc h par
  refine ⟨m', ?_, hholds⟩
  unfold deframe
  rw [run_bind_of_eq hrun]
  cases hdata : Packet.deCook crc par (contents m) d with
  | none => rfl
  | some data => exact run_getHeader (hholds data hdata)

end Crc

end holds

/-- What `put_header` and `do_cook` make of a packet in one buffer, `de_cook` and
`get_header` undo in another one: with every key, every iv and any contents of the
two buffers otherwise. -/
theorem deframe_frame (crc : Bytes → UInt32) (key : Bytes) (header : UInt8) (iv : Iv)
    {p : Bytes} (hfits : p.length + 1 + 4 + Packet.ivMax + 1 ≤ bufLen) {m : Int → UInt8}
    (hp : Holds m p) :
    ∃ datagram m', (frame crc { key := key } iv header p.length).run m =
        some ((datagram.length : Int), m') ∧ Holds m' datagram ∧
      ∀ m₂, Holds m₂ datagram → ∃ m₃,
        (deframe crc { key := key } datagram.length).run m₂ =
          some (some (header, (p.length : Int)), m₃) ∧ Holds m₃ p := by
  obtain ⟨datagram, hcook⟩ := Packet.exists_doCook crc { key := key } iv
    (show (Tunnel.putHeader header p).length + 4 < bufLen by
      unfold Tunnel.putHeader
      rw [List.length_append, List.length_singleton]
      omega)
  obtain ⟨m₁, hrun₁, hholds₁⟩ := run_putHeader hp header
  obtain ⟨m', hrun', hholds'⟩ := run_doCook crc hholds₁ { key := key } iv hcook
  refine ⟨datagram, m', ?_, hholds', fun m₂ hm₂ => ?_⟩
  · unfold frame
    rw [run_bind_of_eq hrun₁]
    exact hrun'
  · have hdata := Packet.deCook_doCook crc { key := key } iv (contents m₂) hcook
    obtain ⟨m₃, hrun₃, hholds₃⟩ := run_deframe crc hm₂ { key := key }
    rw [hdata, Option.bind_some, Tunnel.getHeader_putHeader] at hrun₃
    refine ⟨m₃, hrun₃, ?_⟩
    have htake := (hholds₃ _ hdata).take p.length
    unfold Tunnel.putHeader at htake
    rwa [List.take_left] at htake

/-- A packet of two octets. -/
theorem deframe_frame_short : Holds (writeAt (fun _ => 9) 0 [5, 6]) [5, 6] ∧
    ∃ datagram m', (frame Packet.crc32Bitwise { key := [107] } ⟨[1, 2, 3, 4], by decide, by decide⟩
        1 ([5, 6] : Bytes).length).run (writeAt (fun _ => 9) 0 [5, 6]) =
          some ((datagram.length : Int), m') ∧ Holds m' datagram ∧
      ∀ m₂, Holds m₂ datagram → ∃ m₃,
        (deframe Packet.crc32Bitwise { key := [107] } datagram.length).run m₂ =
          some (some (1, (([5, 6] : Bytes).length : Int)), m₃) ∧ Holds m₃ [5, 6] :=
  ⟨holds_writeAt _ _, deframe_frame Packet.crc32Bitwise [107] 1 ⟨[1, 2, 3, 4], by decide, by decide⟩
    (by decide) (holds_writeAt _ _)⟩

/-! ## Where deframing reads and writes -/

/-- The octet of the key that `decrypt_0` puts on octet `n`. -/
def keyOctet (key : Bytes) (n : Nat) : UInt8 :=
  let key := key.takeWhile (· ≠ 0)
  if key = [] then 0 else key.getD (n % key.length) 0

section within

variable {m : Int → UInt8} {d : Bytes} {n : Nat}

theorem within_keyXor (key : Bytes) (m : Int → UInt8) : Within (Inside n) (keyXor key n) m := by
  unfold keyXor
  split
  · exact within_pure _
  · refine within_xorLoop (fun _ => True) (fun _ _ => trivial) (fun j _ m => within_pure _)
      trivial (fun a ha hlt => ⟨ha, ?_⟩) m
    rw [Int.toNat_natCast] at hlt
    omega

/-- With an iv the cursor starts over within it. -/
theorem within_ivLoop {ivLen len : Nat} (hpos : 0 < ivLen) (hle : len + ivLen ≤ n)
    (m : Int → UInt8) :
    Within (Inside n) (xorLoop (wrapAt ivLen) (fun j => get ((len : Int) + j)) len 0 0) m := by
  refine within_xorLoop (fun j => j ≤ ivLen) ?_ ?_ (Nat.zero_le _)
    (fun a ha hlt => ⟨ha, by omega⟩) m
  · intro j hj
    unfold wrapAt
    split <;> omega
  · intro j hj m
    rw [within_get]
    unfold wrapAt Inside
    split <;> omega

/-- Without an iv it reads one octet more each time. -/
theorem within_noIv_iff {len : Nat} (m : Int → UInt8) :
    Within (Inside (len + 1)) (xorLoop (wrapAt 0) (fun j => get ((len : Int) + j)) len 0 0) m ↔
      len ≤ 1 := by
  constructor
  · intro h
    by_contra hlarge
    obtain ⟨k, rfl⟩ : ∃ k, len = k + 2 := ⟨len - 2, by omega⟩
    rw [xorLoop, within_bind_of_eq (run_get _ m), within_bind_of_eq (run_get _ m),
      within_bind_of_eq (run_put _ _ m), xorLoop, within_bind_of_eq (run_get _ _),
      within_bind] at h
    have hread := within_get.mp h.2.2.2.2.1
    unfold Inside wrapAt at hread
    simp at hread
  · intro hle
    interval_cases len
    · exact within_pure _
    · rw [xorLoop, within_bind_of_eq (run_get _ m), within_bind_of_eq (run_get _ m),
        within_bind_of_eq (run_put _ _ m)]
      refine ⟨within_get.mpr ?_, within_get.mpr ?_, within_put.mpr ?_, within_pure _⟩ <;>
        unfold Inside <;> simp [wrapAt]

theorem within_deObscure_iff (h : Holds m d) :
    Within (Inside d.length) (deObscure d.length) m ↔
      d.length ≤ 2 ∨ d.getD (d.length - 1) 0 ≠ 0 := by
  unfold deObscure
  by_cases hempty : d.length < 1
  · rw [if_pos (by omega)]
    exact iff_of_true (within_pure _) (.inl (by omega))
  · have hlast : m ((d.length : Int) - 1) = d.getD (d.length - 1) 0 := by
      rw [← h.getD (show d.length - 1 < d.length by omega)]
      congr 1
      omega
    have hin : Inside d.length ((d.length : Int) - 1) := ⟨by omega, by omega⟩
    rw [if_neg (by omega), within_bind_of_eq (run_get _ m), hlast, within_get,
      and_iff_right hin]
    generalize d.getD (d.length - 1) 0 = last
    dsimp only
    by_cases hshort : d.length < 1 + last.toNat
    · rw [if_pos (by omega)]
      refine iff_of_true (within_pure _) ?_
      by_contra hcon
      rw [not_or, not_not] at hcon
      rw [hcon.2, show (0 : UInt8).toNat = 0 from rfl] at hshort
      omega
    · rw [if_neg (by omega)]
      have hlen : (d.length : Int) - 1 - last.toNat =
          ((d.length - 1 - last.toNat : Nat) : Int) := by omega
      rw [hlen, Int.toNat_natCast, within_bind]
      rw [and_iff_left fun _ _ _ => within_pure _]
      by_cases hzero : last = 0
      · subst hzero
        obtain ⟨k, hk⟩ : ∃ k, d.length = k + 1 := ⟨d.length - 1, by omega⟩
        rw [hk, show k + 1 - 1 - (0 : UInt8).toNat = k from rfl]
        rw [show (0 : UInt8).toNat = 0 from rfl, within_noIv_iff]
        simp
      · have hpos : 0 < last.toNat := by
          rw [Nat.pos_iff_ne_zero]
          exact fun hcon => hzero (UInt8.toNat_inj.mp hcon)
        exact iff_of_true (within_ivLoop hpos (by omega) m) (.inr hzero)

theorem within_rmCrc32 (crc : Bytes → UInt32) (par : CookPar) {n : Nat} {len : Nat}
    (hlen : len ≤ n) (m : Int → UInt8) : Within (Inside n) (rmCrc32 crc par len) m := by
  unfold rmCrc32
  split
  · exact within_pure _
  · rw [within_bind_of_eq (run_assert (by omega) m)]
    refine ⟨within_assert, ?_⟩
    dsimp only
    split
    · exact within_pure _
    · rw [within_bind_of_eq (run_gets _ 4 m), within_bind_of_eq (run_gets 0 _ m)]
      refine ⟨within_gets fun j hj hlt => ⟨by omega, by omega⟩,
        within_gets fun j hj hlt => ⟨by omega, by omega⟩, ?_⟩
      split <;> exact within_pure _

theorem within_getHeader {n : Nat} {len : Nat} (hlen : len ≤ n) (m : Int → UInt8) :
    Within (Inside n) (getHeader len) m := by
  unfold getHeader
  rw [within_bind_of_eq (run_assert (by omega) m)]
  refine ⟨within_assert, ?_⟩
  split
  · exact within_pure _
  · rw [within_bind_of_eq (run_get _ m), within_get]
    exact ⟨⟨by omega, by omega⟩, within_pure _⟩

end within

/-! ## The octet of the key under the iv length -/

/-- The first NUL ends the key. -/
theorem key_getD_eq_zero_iff {key : Bytes} {j : Nat}
    (hj : j ≤ (key.takeWhile (· ≠ 0)).length) :
    key.getD j 0 = 0 ↔ j = (key.takeWhile (· ≠ 0)).length := by
  induction key generalizing j with
  | nil => simpa using hj
  | cons b key ih =>
      by_cases hb : b = 0
      · subst hb
        have hj0 : j = 0 := by simpa using hj
        subst hj0
        simp
      · rw [List.takeWhile_cons_of_pos (by simpa using hb), List.length_cons] at hj ⊢
        cases j with
        | zero => simpa using hb
        | succ j =>
            rw [List.getD_cons_succ, ih (by omega)]
            omega

theorem decrypt0_getD (key : Bytes) {d : Bytes} {n : Nat} (hn : n < d.length) :
    (Packet.decrypt0 key d).getD n 0 = d.getD n 0 ^^^ keyOctet key n := by
  have hfirst := key_getD_eq_zero_iff (Nat.zero_le (key.takeWhile (· ≠ 0)).length)
  unfold Packet.decrypt0 Packet.keyXor keyOctet
  dsimp only
  by_cases hkey : key.getD 0 0 = 0
  · have hnil : key.takeWhile (· ≠ 0) = [] := List.eq_nil_of_length_eq_zero (hfirst.mp hkey).symm
    rw [if_pos hkey, if_pos hnil, UInt8.xor_zero]
  · have hpos : 0 < (key.takeWhile (· ≠ 0)).length :=
      Nat.pos_of_ne_zero fun hcon => hkey (hfirst.mpr hcon.symm)
    have hwrap : ∀ j, j ≤ (key.takeWhile (· ≠ 0)).length →
        keyWrap key j = j % (key.takeWhile (· ≠ 0)).length := by
      intro j hj
      unfold keyWrap
      split
      next hend => rw [(key_getD_eq_zero_iff hj).mp hend, Nat.mod_self]
      next hmid =>
        have hne := mt (key_getD_eq_zero_iff hj).mpr hmid
        rw [Nat.mod_eq_of_lt (by omega)]
    have hprefix : ∀ j, j < (key.takeWhile (· ≠ 0)).length →
        key.getD j 0 = (key.takeWhile (· ≠ 0)).getD j 0 := by
      intro j hj
      conv_lhs => rw [← List.takeWhile_append_dropWhile (p := (· ≠ 0)) (l := key)]
      exact List.getD_append _ _ _ _ hj
    rw [if_neg hkey, if_neg (List.ne_nil_of_length_pos hpos),
      xorStream_getD hpos hwrap (Nat.zero_le _) hn, Nat.zero_add, hprefix _ (Nat.mod_lt _ hpos)]

/-! ## Deframing within the datagram -/

theorem length_deObscure_le {stale : Mem} {d out : Bytes}
    (h : Packet.deObscure stale d = some out) : out.length ≤ d.length := by
  unfold Packet.deObscure at h
  split at h
  · cases h
  · dsimp only at h
    split at h
    · cases h
    · obtain rfl := Option.some.inj h
      rw [length_xorStream, List.length_take]
      exact Nat.min_le_right _ _

theorem length_rmCrc32_le {crc : Bytes → UInt32} {par : CookPar} {d out : Bytes}
    (h : Packet.rmCrc32 crc par d = some out) : out.length ≤ d.length := by
  unfold Packet.rmCrc32 at h
  split at h
  · exact (congrArg List.length (Option.some.inj h)).ge
  · split at h
    · cases h
    · dsimp only at h
      split at h
      · obtain rfl := Option.some.inj h
        rw [List.length_take]
        exact Nat.min_le_right _ _
      · cases h

theorem length_deCook_le {crc : Bytes → UInt32} {key : Bytes} {stale : Mem} {d out : Bytes}
    (h : Packet.deCook crc { key := key } stale d = some out) : out.length ≤ d.length := by
  obtain ⟨mid, hmid, hout⟩ := Option.bind_eq_some_iff.mp h
  rw [if_neg Bool.false_ne_true, if_neg Bool.false_ne_true] at hmid
  calc out.length ≤ mid.length := length_rmCrc32_le hout
    _ ≤ (Packet.decrypt0 key d).length := length_deObscure_le hmid
    _ = d.length := Packet.length_encrypt0 key d

section contained

variable (crc : Bytes → UInt32) (key : Bytes)

/-- Only the iv layer can leave the datagram. -/
theorem within_deCook_iff {m : Int → UInt8} {d : Bytes} (h : Holds m d) :
    Within (Inside d.length) (deCook crc { key := key } d.length) m ↔
      d.length ≤ 2 ∨ (Packet.decrypt0 key d).getD (d.length - 1) 0 ≠ 0 := by
  obtain ⟨m₁, hrun₁, hholds₁, -⟩ := run_keyXor h key
  have hlen : (Packet.keyXor key d).length = d.length := Packet.length_encrypt0 key d
  have hiff := within_deObscure_iff hholds₁
  obtain ⟨m₂, hrun₂, -⟩ := run_deObscure hholds₁
  rw [hlen] at hiff hrun₂
  have hkey : Within (Inside d.length) (keyXor key d.length) m := within_keyXor key m
  have hrest : Within (Inside d.length)
      (match (Packet.deObscure (contents m₁) (Packet.keyXor key d)).map
          fun out => (out.length : Int) with
        | none => pure none
        | some len => rmCrc32 crc { key := key } len) m₂ := by
    cases hmid : Packet.deObscure (contents m₁) (Packet.keyXor key d) with
    | none => exact within_pure _
    | some mid => exact within_rmCrc32 crc _ ((length_deObscure_le hmid).trans hlen.le) m₂
  unfold deCook
  rw [if_neg Bool.false_ne_true, if_neg Bool.false_ne_true]
  unfold decrypt0 Packet.decrypt0
  rw [within_bind_of_eq hrun₁, within_bind_of_eq hrun₂, and_iff_right hkey, ← hiff]
  exact and_iff_left hrest

theorem within_deframe_iff {m : Int → UInt8} {d : Bytes} (h : Holds m d) :
    Within (Inside d.length) (deframe crc { key := key } d.length) m ↔
      d.length ≤ 2 ∨ d.getD (d.length - 1) 0 ≠ keyOctet key (d.length - 1) := by
  obtain ⟨m₁, hrun, -⟩ := run_deCook crc h { key := key }
  have hheader : Within (Inside d.length)
      (match (Packet.deCook crc { key := key } (contents m) d).map
          fun out => (out.length : Int) with
        | none => pure none
        | some len => getHeader len) m₁ := by
    cases hdata : Packet.deCook crc { key := key } (contents m) d with
    | none => exact within_pure _
    | some data => exact within_getHeader (length_deCook_le hdata) m₁
  unfold deframe
  rw [within_bind_of_eq hrun, within_deCook_iff crc key h, and_iff_left hheader]
  by_cases hshort : d.length ≤ 2
  · exact iff_of_true (.inl hshort) (.inl hshort)
  · rw [decrypt0_getD key (show d.length - 1 < d.length by omega), Ne, UInt8.xor_eq_zero_iff]

/-- `de_cook` and `get_header` on a datagram in a buffer that otherwise holds
`stale`. -/
def deframeIn (stale : Int → UInt8) (d : Bytes) :
    Option (Option (UInt8 × Int) × (Int → UInt8)) :=
  (deframe crc { key := key } d.length).run (writeAt stale 0 d)

/-- Deframing stays within the received datagram: it loads and stores nothing
outside, the length that it leaves is not negative, and what is found depends on
the datagram and the key only. -/
def Contained (d : Bytes) : Prop :=
  ∀ stale, Within (Inside d.length) (deframe crc { key := key } d.length) (writeAt stale 0 d) ∧
    (∀ header len m', deframeIn crc key stale d = some (some (header, len), m') → 0 ≤ len) ∧
    ∀ stale', Option.Rel (fun r r' => r.1 = r'.1 ∧ readAt r.2 0 d.length = readAt r'.2 0 d.length)
      (deframeIn crc key stale d) (deframeIn crc key stale' d)

/-- Deframing is contained in the datagram exactly if that has at most two octets, or
its last octet is not the octet of the key that `decrypt_0` puts there: then the iv
length is not 0. -/
theorem contained_iff (d : Bytes) :
    Contained crc key d ↔
      d.length ≤ 2 ∨ d.getD (d.length - 1) 0 ≠ keyOctet key (d.length - 1) := by
  constructor
  · intro h
    exact (within_deframe_iff crc key (holds_writeAt (fun _ => 0) d)).mp (h fun _ => 0).1
  · intro hcond stale
    have hwithin := (within_deframe_iff crc key (holds_writeAt stale d)).mpr hcond
    refine ⟨hwithin, fun header len m' hrun => ?_, fun stale' => ?_⟩
    · -- the length is that of a byte string
      obtain ⟨m₁, hrun₁, -⟩ := run_deframe crc (holds_writeAt stale d) { key := key }
      have hres := (Prod.mk.inj (Option.some.inj (hrun₁.symm.trans hrun))).1
      obtain ⟨r, -, hr⟩ := Option.map_eq_some_iff.mp hres
      rw [← (Prod.mk.inj hr).2]
      exact Int.natCast_nonneg _
    · have hagree : ∀ a, Inside d.length a → writeAt stale 0 d a = writeAt stale' 0 d a := by
        rintro a ⟨hnonneg, hlt⟩
        obtain ⟨i, rfl⟩ := Int.eq_ofNat_of_zero_le hnonneg
        rw [(holds_writeAt stale d).getD (by omega), (holds_writeAt stale' d).getD (by omega)]
      have hrel := run_congr hwithin hagree
      unfold deframeIn
      generalize (deframe crc { key := key } d.length).run (writeAt stale 0 d) = o at hrel ⊢
      generalize (deframe crc { key := key } d.length).run (writeAt stale' 0 d) = o' at hrel ⊢
      cases hrel with
      | none => exact .none
      | some h => exact .some ⟨h.1, readAt_congr fun a ha hlt => h.2 a ⟨ha, by omega⟩⟩

end contained

/-- Three octets whose last is 0, without a key: the octet behind them is read. -/
theorem not_contained_zeroIv : ¬ Contained Packet.crc32Bitwise [] [1, 2, 0] := by
  intro h
  have hread : (3 : Int) ∈ (deframe Packet.crc32Bitwise { key := [] } 3).accesses
      (writeAt (fun _ => 7) 0 [1, 2, 0]) := by decide
  have hinside := (h fun _ => 7).1 3 hread
  unfold Inside at hinside
  simp at hinside

end Fecraw.Ports.InPlace
