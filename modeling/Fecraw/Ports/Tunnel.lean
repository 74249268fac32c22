import Fecraw.Ports.FecEncode
import Fecraw.Ports.SmallPacket

/-!
# The tunnel ends

The callbacks between the TUN device and the raw thread: `tun_fd_cb` and
`bridge_recv_cb` of the client and of the server.  A datagram that leaves a
tunnel end is either a small-packet frame or a FEC packet with a header
octet behind it; both are cooked.  The receiving end de-cooks, takes the
last octet as the header, and looks at the first octet to tell the two
apart.

Pacing delays a packet but does not change it and is left out.  `do_mssfix`
rewrites a packet in place without changing its length; `tunFdCb` starts
from the packet it leaves.

## Main results

* `bridgeRecvCb_doCook`: what the receiving end does with a cooked datagram.
* `small_packet_never_arrives`: a small packet is dropped or loses its last
  octet.
* `toldApart_iff`: when the FEC packets and the frames of a run are told apart.
-/

namespace Fecraw.Ports.Tunnel

open Fecraw.Verified Fecraw.Ports.Packet Fecraw.Ports.SmallPacket
open Fecraw.Ports.RsTable Fecraw.Ports.FecEncode

/-- The two programs. -/
inductive Role where
  | client
  | server
deriving Repr, DecidableEq

/-- `header_normal`. -/
def headerNormal : UInt8 := 1

/-- `header_new_connect`. -/
def headerNewConnect : UInt8 := 2

/-- `header_reject`. -/
def headerReject : UInt8 := 3

/-- `header_keep_alive`. -/
def headerKeepAlive : UInt8 := 4

/-- `put_header`. -/
def putHeader (header : UInt8) (data : Bytes) : Bytes := data ++ [header]

/-- `get_header`: the header and what is left; `none` is the return value
`-1`. -/
def getHeader (data : Bytes) : Option (UInt8 × Bytes) :=
  if data.length < 1 then none
  else some (data.getD (data.length - 1) 0, data.take (data.length - 1))

/-- The globals of one tunnel end that the callbacks use. -/
structure Endpoint where
  role : Role
  cook : CookPar
  smallPacketThreshold : Int
  keepReconnect : Bool := true
  /-- `got_feed_back` on the client, `got_first_packet` on the server. -/
  gotFeedBack : Bool := false
  spSend : Sender
  spRecv : Receiver := {}

/-- What a callback does with one packet. -/
inductive Action where
  /-- The packet is dropped. -/
  | none
  /-- `myexit`. -/
  | exit
  /-- One packet is written to the TUN device. -/
  | tun (payload : Bytes)
  /-- The packet goes to `from_fec_to_normal2`. -/
  | fec (data : Bytes)
deriving Repr, DecidableEq

/-! ## Receiving from the bridge -/

/-- The header dispatch: `some` is the action of a packet that goes no
further. -/
def dispatch (e : Endpoint) (header : UInt8) : Option Action × Endpoint :=
  if header = headerKeepAlive then (some .none, e)
  else
    match e.role with
    | .client =>
        if header = headerReject then
          if e.keepReconnect then (some .none, { e with gotFeedBack := false })
          else (some .exit, e)
        else if header = headerNormal then (none, { e with gotFeedBack := true })
        else (some .none, e)
    | .server =>
        if header = headerNewConnect ∨ header = headerNormal then
          (none, { e with gotFeedBack := true })
        else (some .none, e)

/-- The end of `bridge_recv_cb`: to the small-packet receiver or to the FEC
decoder. -/
def demultiplex (e : Endpoint) (data : Bytes) : Action × Endpoint :=
  if e.smallPacketThreshold > 0 ∧ isSmallPacket data then
    match e.spRecv.receive data bufLen with
    | (some payload, r) =>
        (if payload.length > 0 then .tun payload else .none, { e with spRecv := r })
    | (none, r) => (.none, { e with spRecv := r })
  else (.fec data, e)

section Crc

variable (crc : Bytes → UInt32)

/-- `bridge_recv_cb` on one datagram of the bridge; `stale` is what the
local array held before. -/
def bridgeRecvCb (e : Endpoint) (stale : Mem) (datagram : Bytes) : Action × Endpoint :=
  if datagram.length ≥ maxDataLen + 1 ∨ datagram.length = 0 then (.none, e)
  else
    match deCook crc e.cook stale datagram with
    | none => (.none, e)
    | some data =>
        match getHeader data with
        | none => (.none, e)
        | some (header, data) =>
            match dispatch e header with
            | (some action, e) => (action, e)
            | (none, e) => demultiplex e data

/-! ## Reading from the TUN device -/

/-- What `tun_fd_cb` does with one packet. -/
inductive Sent where
  /-- Dropped, because it is longer than `max_data_len`. -/
  | dropped
  /-- Datagrams written to the bridge. -/
  | small (datagrams : List Bytes)
  /-- The packet goes to `from_normal_to_fec2` with this header. -/
  | fec (header : UInt8) (data : Bytes)
deriving Repr, DecidableEq

/-- `tun_fd_cb` on a packet of the TUN device, with the ivs that `do_cook`
draws; `none` is a failed assertion. -/
def tunFdCb (e : Endpoint) (ivs : Nat → Iv) (data : Bytes) : Option (Sent × Endpoint) :=
  let fecHeader := match e.role with
    | .client => if e.gotFeedBack then headerNormal else headerNewConnect
    | .server => headerNormal
  if data.length ≥ maxDataLen + 1 then some (.dropped, e)
  else if e.smallPacketThreshold > 0 ∧ (data.length : Int) < e.smallPacketThreshold then
    match e.spSend.buildFrame data bufLen with
    | (some frame, s) => do
        let datagrams ← (List.range s.getRedundancy.toNat).mapM fun i =>
          doCook crc e.cook (ivs i) frame
        return (.small datagrams, { e with spSend := s })
    | (none, s) => some (.fec fecHeader data, { e with spSend := s })
  else some (.fec fecHeader data, e)

/-! ## Through the wire -/

variable {crc}

theorem getHeader_putHeader (header : UInt8) (data : Bytes) :
    getHeader (putHeader header data) = some (header, data) := by
  unfold getHeader putHeader
  rw [if_neg (by simp)]
  simp

/-- A cooked datagram that is not too long reaches the header dispatch. -/
theorem bridgeRecvCb_doCook {e : Endpoint} {stale : Mem} {iv : Iv} {data datagram : Bytes}
    (hcook : doCook crc e.cook iv data = some datagram) (hne : datagram ≠ [])
    (hlen : datagram.length ≤ maxDataLen) :
    bridgeRecvCb crc e stale datagram =
      match getHeader data with
      | none => (.none, e)
      | some (header, data) =>
          match dispatch e header with
          | (some action, e) => (action, e)
          | (none, e) => demultiplex e data := by
  have hpos : datagram.length ≠ 0 := by simpa using hne
  unfold bridgeRecvCb
  rw [if_neg (by omega), deCook_doCook crc e.cook iv stale hcook]

/-- A header that the end accepts. -/
def accepts (role : Role) (header : UInt8) : Prop :=
  header = headerNormal ∨ (role = .server ∧ header = headerNewConnect)

instance (role : Role) (header : UInt8) : Decidable (accepts role header) := by
  unfold accepts
  infer_instance

/-- The dispatch lets an accepted header through, and changes nothing that
the demultiplexing looks at. -/
theorem dispatch_of_accepts {e : Endpoint} {header : UInt8}
    (h : accepts e.role header) :
    dispatch e header = (none, { e with gotFeedBack := true }) := by
  rcases h with rfl | ⟨hrole, rfl⟩
  · cases hrole : e.role <;>
      simp [dispatch, hrole, headerNormal, headerKeepAlive, headerReject]
  · simp [dispatch, hrole, headerNewConnect, headerKeepAlive]

/-- Every other header ends the callback. -/
theorem dispatch_of_not_accepts {e : Endpoint} {header : UInt8}
    (h : ¬ accepts e.role header) :
    ∃ action e', dispatch e header = (some action, e') ∧
      (action = .none ∨ action = .exit) := by
  unfold dispatch
  split
  · exact ⟨_, _, rfl, .inl rfl⟩
  · cases hrole : e.role with
    | client =>
        have hn : header ≠ headerNormal := fun hh => h (.inl hh)
        simp only [hn, if_false]
        split
        · split
          · exact ⟨_, _, rfl, .inl rfl⟩
          · exact ⟨_, _, rfl, .inr rfl⟩
        · exact ⟨_, _, rfl, .inl rfl⟩
    | server =>
        have hn : ¬ (header = headerNewConnect ∨ header = headerNormal) := by
          rintro (hh | hh)
          · exact h (.inr ⟨hrole, hh⟩)
          · exact h (.inl hh)
        simp only [hn, if_false]
        exact ⟨_, _, rfl, .inl rfl⟩

/-- A datagram never reaches the TUN device or the FEC decoder with a header
that the end does not accept. -/
theorem bridgeRecvCb_of_not_accepts {e : Endpoint} (stale : Mem) {iv : Iv}
    {data datagram : Bytes} {header : UInt8}
    (hcook : doCook crc e.cook iv (putHeader header data) = some datagram)
    (hacc : ¬ accepts e.role header) :
    (bridgeRecvCb crc e stale datagram).1 = .none ∨
      (bridgeRecvCb crc e stale datagram).1 = .exit := by
  obtain ⟨action, e', hdisp, haction⟩ := dispatch_of_not_accepts hacc
  by_cases hlen : datagram.length ≥ maxDataLen + 1 ∨ datagram.length = 0
  · unfold bridgeRecvCb
    rw [if_pos hlen]
    exact .inl rfl
  · rw [bridgeRecvCb_doCook hcook (by rintro rfl; simp at hlen) (by omega),
      getHeader_putHeader]
    simp only [hdisp]
    exact haction

/-- With a header that the end accepts, a datagram that is not too long is
demultiplexed without the header. -/
theorem bridgeRecvCb_of_accepts {e : Endpoint} {stale : Mem} {iv : Iv}
    {data datagram : Bytes} {header : UInt8}
    (hcook : doCook crc e.cook iv (putHeader header data) = some datagram)
    (hne : datagram ≠ []) (hlen : datagram.length ≤ maxDataLen)
    (hacc : accepts e.role header) :
    (bridgeRecvCb crc e stale datagram).1
      = (demultiplex { e with gotFeedBack := true } data).1 := by
  rw [bridgeRecvCb_doCook hcook hne hlen, getHeader_putHeader]
  simp only [dispatch_of_accepts hacc]

/-- A datagram that is too long is dropped. -/
theorem bridgeRecvCb_of_long {e : Endpoint} {stale : Mem} {datagram : Bytes}
    (h : datagram.length ≥ maxDataLen + 1) :
    (bridgeRecvCb crc e stale datagram).1 = .none := by
  unfold bridgeRecvCb
  rw [if_pos (.inl h)]

/-! ## Small packets end to end -/

theorem frame_eq_putHeader {p : Bytes} (hp : p ≠ []) (seq : UInt32) :
    Sender.frame seq p = putHeader (p.getLast hp) (Sender.frame seq p.dropLast) := by
  have hsplit := List.dropLast_append_getLast hp
  unfold putHeader
  conv_lhs => rw [← hsplit]
  simp [Sender.frame]

/-- The frame is sent without a header octet, so the receiving end takes the
payload's last octet for it. -/
theorem bridgeRecvCb_frame {e : Endpoint} (stale : Mem) {iv : Iv} {p datagram : Bytes}
    {seq : UInt32} (hp : p ≠ []) (hlen : p.length ≤ bufLen)
    (hthr : 0 < e.smallPacketThreshold)
    (hcook : doCook crc e.cook iv (Sender.frame seq p) = some datagram) :
    (bridgeRecvCb crc e stale datagram).1 = .none ∨
      (bridgeRecvCb crc e stale datagram).1 = .exit ∨
      (bridgeRecvCb crc e stale datagram).1 = .tun p.dropLast := by
  rw [frame_eq_putHeader hp] at hcook
  by_cases hacc : accepts e.role (p.getLast hp)
  · by_cases hlong : datagram.length ≥ maxDataLen + 1
    · exact .inl (bridgeRecvCb_of_long hlong)
    · by_cases hne : datagram = []
      · subst hne
        exact .inl (by simp [bridgeRecvCb])
      · rw [bridgeRecvCb_of_accepts hcook hne (by omega) hacc]
        unfold demultiplex
        rw [if_pos ⟨hthr, isSmallPacket_frame seq p.dropLast⟩]
        have hrecv := @receive_frame e.spRecv seq p.dropLast bufLen
          (by rw [List.length_dropLast]; omega)
        split
        · next payload r hr =>
            have hpay : payload = p.dropLast := by
              rw [hr] at hrecv
              split at hrecv
              · exact absurd hrecv (by simp)
              · exact Option.some.inj hrecv
            subst hpay
            dsimp only
            split
            · exact .inr (.inr rfl)
            · exact .inl rfl
        · exact .inl rfl
  · rcases bridgeRecvCb_of_not_accepts stale hcook hacc with h | h
    · exact .inl h
    · exact .inr (.inl h)

/-- Where `f` succeeds on every element, so does `mapM`. -/
theorem mapM_eq_some {α β : Type} {f : α → Option β} : ∀ (as : List α),
    (∀ a ∈ as, ∃ b, f a = some b) →
    ∃ bs, as.mapM f = some bs ∧ bs.length = as.length ∧
      ∀ b ∈ bs, ∃ a ∈ as, f a = some b := by
  intro as
  induction as with
  | nil => intro _; exact ⟨[], rfl, rfl, by simp⟩
  | cons a as ih =>
      intro h
      obtain ⟨b, hb⟩ := h a (by simp)
      obtain ⟨bs, hbs, hlen, hmem⟩ := ih fun a' ha' => h a' (List.mem_cons_of_mem _ ha')
      refine ⟨b :: bs, by simp [hb, hbs], by simp [hlen], ?_⟩
      intro b' hb'
      rcases List.mem_cons.mp hb' with rfl | hb'
      · exact ⟨a, by simp, hb⟩
      · obtain ⟨a', ha', hf⟩ := hmem b' hb'
        exact ⟨a', List.mem_cons_of_mem _ ha', hf⟩

/-- A packet below the threshold leaves as copies of one cooked frame. -/
theorem tunFdCb_small {e : Endpoint} {key : Bytes} (ivs : Nat → Iv) {p : Bytes}
    (hcook : e.cook = { key := key }) (hlen : p.length ≤ maxDataLen)
    (hsmall : (p.length : Int) < e.smallPacketThreshold)
    (hinit : e.spSend.threshold = e.smallPacketThreshold) :
    ∃ ds, tunFdCb crc e ivs p
        = some (.small ds, { e with spSend := { e.spSend with seq := e.spSend.seq + 1 } }) ∧
      ds.length = e.spSend.getRedundancy.toNat ∧
      ∀ d ∈ ds, ∃ i, doCook crc e.cook (ivs i) (Sender.frame e.spSend.seq p) = some d := by
  have hframe : e.spSend.buildFrame p bufLen
      = (some (Sender.frame e.spSend.seq p), { e.spSend with seq := e.spSend.seq + 1 }) := by
    unfold Sender.buildFrame
    rw [if_neg (by omega), if_neg (by unfold smallPktHeader bufLen; omega)]
  have hroom : (Sender.frame e.spSend.seq p).length + 4 < bufLen := by
    rw [Sender.length_frame]
    unfold smallPktHeader bufLen
    omega
  obtain ⟨ds, hds, hcount, hmem⟩ := mapM_eq_some
    (f := fun i => doCook crc e.cook (ivs i) (Sender.frame e.spSend.seq p))
    (List.range
      ({ e.spSend with seq := e.spSend.seq + 1 } : Sender).getRedundancy.toNat)
    (fun i _ => by
      rw [hcook]
      exact exists_doCook crc _ (ivs i) hroom)
  refine ⟨ds, ?_, hcount.trans List.length_range, ?_⟩
  · unfold tunFdCb
    rw [if_neg (by omega), if_pos ⟨by omega, hsmall⟩, hframe]
    simp only [hds]
    rfl
  · intro d hd
    obtain ⟨i, -, hi⟩ := hmem d hd
    exact ⟨i, hi⟩

/-- With a redundancy of one or more there is a copy. -/
theorem ne_nil_of_copies {s : Sender} {ds : List Bytes} (hred : 1 ≤ s.baseRedundancy)
    (hcount : ds.length = s.getRedundancy.toNat) : ds ≠ [] := by
  have hcopies := Sender.one_le_getRedundancy hred
  apply List.ne_nil_of_length_pos
  omega

/-- No small packet ever arrives: whatever its bytes, the key, the iv and
the sequence number, the peer drops it or writes it without its last octet. -/
theorem small_packet_never_arrives (crc : Bytes → UInt32) (key : Bytes)
    (snd rcv : Endpoint) (ivs : Nat → Iv) (stale : Mem) (p : Bytes)
    (hsnd : snd.cook = { key := key }) (hrcv : rcv.cook = { key := key })
    (hpos : 0 < p.length) (hlen : p.length ≤ maxDataLen)
    (hsmall : (p.length : Int) < snd.smallPacketThreshold)
    (hinit : snd.spSend.threshold = snd.smallPacketThreshold)
    (hred : 1 ≤ snd.spSend.baseRedundancy) (hthr : 0 < rcv.smallPacketThreshold) :
    ∃ ds snd', tunFdCb crc snd ivs p = some (.small ds, snd') ∧ ds ≠ [] ∧
      ∀ d ∈ ds, (bridgeRecvCb crc rcv stale d).1 ≠ .tun p ∧
        ((bridgeRecvCb crc rcv stale d).1 = .none ∨
          (bridgeRecvCb crc rcv stale d).1 = .exit ∨
          (bridgeRecvCb crc rcv stale d).1 = .tun p.dropLast) := by
  have hne : p ≠ [] := List.ne_nil_of_length_pos hpos
  obtain ⟨ds, hsend, hcount, hmem⟩ := @tunFdCb_small crc snd key ivs p hsnd hlen hsmall hinit
  refine ⟨ds, _, hsend, ne_nil_of_copies hred hcount, ?_⟩
  intro d hd
  obtain ⟨i, hcook⟩ := hmem d hd
  have hcases := bridgeRecvCb_frame stale hne
    (Nat.le_trans hlen (by unfold bufLen; omega)) hthr
    (by rw [hrcv, ← hsnd]; exact hcook)
  refine ⟨?_, hcases⟩
  have hshort : p.dropLast ≠ p := by
    intro heq
    have := congrArg List.length heq
    rw [List.length_dropLast] at this
    omega
  rcases hcases with h | h | h
  · rw [h]
    simp
  · rw [h]
    simp
  · rw [h]
    simpa using hshort

/-- An iv of the shortest length. -/
def zeroIv : Iv := ⟨[0, 0, 0, 0], by decide, by decide⟩

/-- A tunnel end with the recommended small-packet settings and no key. -/
def sampleEnd (role : Role) : Endpoint where
  role := role
  cook := { key := [] }
  smallPacketThreshold := 256
  spSend := Sender.init 256 2

theorem small_packet_never_arrives_sample :
    ∃ ds snd', tunFdCb crc32Bitwise (sampleEnd .client) (fun _ => zeroIv) [0x45, 1]
        = some (.small ds, snd') ∧ ds ≠ [] ∧
      ∀ d ∈ ds, (bridgeRecvCb crc32Bitwise (sampleEnd .server) (fun _ => 0) d).1
          ≠ .tun [0x45, 1] ∧
        ((bridgeRecvCb crc32Bitwise (sampleEnd .server) (fun _ => 0) d).1 = .none ∨
          (bridgeRecvCb crc32Bitwise (sampleEnd .server) (fun _ => 0) d).1 = .exit ∨
          (bridgeRecvCb crc32Bitwise (sampleEnd .server) (fun _ => 0) d).1
            = .tun [0x45]) :=
  small_packet_never_arrives crc32Bitwise [] (sampleEnd .client) (sampleEnd .server)
    (fun _ => zeroIv) (fun _ => 0) [0x45, 1] rfl rfl (by decide) (by decide)
    (by decide) rfl (by decide) (by decide)

/-- The packet `45 07` is sent by a client and never written by the server. -/
theorem small_packet_lost :
    ∃ ds snd', tunFdCb crc32Bitwise (sampleEnd .client) (fun _ => zeroIv) [0x45, 7]
        = some (.small ds, snd') ∧
      ∃ d ∈ ds, (bridgeRecvCb crc32Bitwise (sampleEnd .server) (fun _ => 0) d).1
        ≠ .tun [0x45, 7] := by
  obtain ⟨ds, hsend, hcount, hmem⟩ := @tunFdCb_small crc32Bitwise
    (sampleEnd .client) [] (fun _ => zeroIv) [0x45, 7] rfl (by decide)
    (by decide) rfl
  obtain ⟨d, hd⟩ := List.exists_mem_of_ne_nil ds (ne_nil_of_copies (by decide) hcount)
  obtain ⟨i, hcook⟩ := hmem d hd
  refine ⟨ds, _, hsend, d, hd, ?_⟩
  have hcases := bridgeRecvCb_frame (e := sampleEnd .server) (fun _ => 0)
    (p := [0x45, 7]) (by simp) (by decide) (by decide) hcook
  rcases hcases with h | h | h
  · rw [h]
    simp
  · rw [h]
    simp
  · rw [h]
    decide

/-! ## Telling the two formats apart -/

/-- A FEC packet starts with the top octet of its sequence number. -/
theorem isSmallPacket_numbered {seq : UInt32} {q : Bytes}
    (h : FecEncodeManager.Numbered seq q) :
    isSmallPacket q = true ↔ seq.toNat / 2 ^ 24 = 0xFE := by
  obtain ⟨mode, x, y, i, body, rfl⟩ := h
  have hlt : seq.toNat / 2 ^ 24 < 2 ^ 8 := by
    have := seq.toNat_lt
    omega
  have hlen : smallPktHeader ≤
      (FecEncodeManager.packetHeader seq mode x y i ++ body).length := by
    rw [List.length_append, FecEncodeManager.length_packetHeader]
    unfold smallPktHeader
    omega
  have hhead : (FecEncodeManager.packetHeader seq mode x y i ++ body).getD 0 0
      = UInt8.ofNat (seq.toNat / 2 ^ 24) := rfl
  unfold isSmallPacket
  rw [hhead]
  simp only [hlen, decide_true, Bool.true_and, beq_iff_eq]
  rw [← UInt8.toNat_inj, UInt8.toNat_ofNat', Nat.mod_eq_of_lt hlt]
  rfl

/-- The two calls that make what a tunnel end sends. -/
inductive Call where
  /-- `fec_encode_manager_t::input` and `output` under the parameters of this call. -/
  | fec (g : FecParameter) (data : Option Bytes)
  /-- `build_frame`. -/
  | frame (payload : Bytes)

/-- What a call made, with the sequence number that it started from. -/
inductive Emission where
  | packets (seq : UInt32) (out : List Bytes)
  | frame (seq : UInt32) (payload : Bytes) (built : Option Bytes)

/-- The encoder and the small-packet sender of one tunnel end. -/
structure Sending where
  encoder : FecEncodeManager
  spSend : Sender

/-- One call. -/
def emit (c : Code) (s : Sending) : Call → Checked (Sending × Emission)
  | .fec g data => do
      let (e, _, out) ← s.encoder.step c g data
      return ({ s with encoder := e }, .packets s.encoder.seq out)
  | .frame payload =>
      let (built, snd) := s.spSend.buildFrame payload bufLen
      return ({ s with spSend := snd }, .frame s.spSend.seq payload built)

/-- A receiving end tells what was made for what it is.  A FEC packet that
arrives goes to the FEC decoder; a small-packet frame is recognised, and
never goes there. -/
def ToldApart (crc : Bytes → UInt32) (rcv : Endpoint) : Emission → Prop
  | .packets _ out => ∀ q ∈ out, isSmallPacket q = false ∧
      ∀ header iv stale datagram, accepts rcv.role header →
        doCook crc rcv.cook iv (putHeader header q) = some datagram →
        datagram ≠ [] → datagram.length ≤ maxDataLen →
        (bridgeRecvCb crc rcv stale datagram).1 = .fec q
  | .frame _ _ built => ∀ frame, built = some frame → isSmallPacket frame = true ∧
      ∀ iv stale datagram, doCook crc rcv.cook iv frame = some datagram →
        ∀ data, (bridgeRecvCb crc rcv stale datagram).1 ≠ .fec data

/-- The octet that a receiving end takes for the header of a frame without
payload: the last one of its sequence number. -/
def lastOctet (seq : UInt32) : UInt8 := UInt8.ofNat seq.toNat

/-- Sequence numbers that cannot be mistaken: packets whose first octet is not
the marker, and no empty frame whose last octet is an accepted header. -/
def Distinct (role : Role) : Emission → Prop
  | .packets seq out => out ≠ [] → seq.toNat / 2 ^ 24 ≠ 0xFE
  | .frame seq payload built => built ≠ none → payload = [] → ¬ accepts role (lastOctet seq)

/-! ### FEC packets -/

/-- FEC packets are told exactly when their first octet is not the marker. -/
theorem toldApart_packets_iff {crc : Bytes → UInt32} {rcv : Endpoint} {seq : UInt32}
    {out : List Bytes} (hnum : ∀ q ∈ out, FecEncodeManager.Numbered seq q) :
    ToldApart crc rcv (.packets seq out) ↔ Distinct rcv.role (.packets seq out) := by
  constructor
  · intro htold hne htop
    obtain ⟨q, hq⟩ := List.exists_mem_of_ne_nil _ hne
    have hsmall := (isSmallPacket_numbered (hnum q hq)).mpr htop
    rw [(htold q hq).1] at hsmall
    exact absurd hsmall (by simp)
  · intro htop q hq
    have hlarge : isSmallPacket q = false := by
      rw [Bool.eq_false_iff]
      intro hsmall
      exact htop (List.ne_nil_of_mem hq) ((isSmallPacket_numbered (hnum q hq)).mp hsmall)
    refine ⟨hlarge, ?_⟩
    intro header iv stale datagram hacc hcook hne hlen
    rw [bridgeRecvCb_of_accepts hcook hne hlen hacc]
    simp [demultiplex, hlarge]

/-! ### Small-packet frames -/

/-- What `build_frame` returns is a frame of the payload. -/
theorem buildFrame_eq_some {snd snd' : Sender} {payload frame : Bytes} {cap : Nat}
    (h : snd.buildFrame payload cap = (some frame, snd')) :
    frame = Sender.frame snd.seq payload ∧ smallPktHeader + payload.length ≤ cap := by
  unfold Sender.buildFrame at h
  split at h
  · exact absurd h (by simp)
  · split at h
    · exact absurd h (by simp)
    · next hcap =>
        obtain ⟨hframe, -⟩ := Prod.mk.inj h
        exact ⟨(Option.some.inj hframe).symm, by omega⟩

/-- An empty frame loses the last octet of its number, and the rest is too
short for a small packet. -/
theorem frame_nil (seq : UInt32) :
    ∃ rest, Sender.frame seq [] = putHeader (lastOctet seq) rest ∧ isSmallPacket rest = false := by
  refine ⟨(Sender.frame seq []).take 4, ?_, ?_⟩
  · simp [Sender.frame, putHeader, lastOctet, writeU32]
  · unfold isSmallPacket
    rw [List.length_take, Sender.length_frame]
    rfl

/-- An empty frame goes to the FEC decoder exactly if its last octet is an
accepted header. -/
theorem bridgeRecvCb_frame_nil {crc : Bytes → UInt32} {e : Endpoint} {stale : Mem} {iv : Iv}
    {seq : UInt32} {datagram : Bytes}
    (hcook : doCook crc e.cook iv (Sender.frame seq []) = some datagram) :
    (∃ data, (bridgeRecvCb crc e stale datagram).1 = .fec data) ↔ accepts e.role (lastOctet seq) := by
  obtain ⟨rest, hframe, hlarge⟩ := frame_nil seq
  obtain ⟨hge, hle⟩ := length_of_doCook crc hcook
  rw [Sender.length_frame] at hge hle
  have hne : datagram ≠ [] := by
    apply List.ne_nil_of_length_pos
    unfold smallPktHeader at hge
    omega
  have hlen : datagram.length ≤ maxDataLen := by
    unfold smallPktHeader ivMax at hle
    unfold maxDataLen
    simp only [List.length_nil] at hle
    omega
  rw [hframe] at hcook
  constructor
  · rintro ⟨data, hfec⟩
    by_contra hacc
    rcases bridgeRecvCb_of_not_accepts stale hcook hacc with h | h
    · rw [h] at hfec
      exact absurd hfec (by simp)
    · rw [h] at hfec
      exact absurd hfec (by simp)
  · intro hacc
    refine ⟨rest, ?_⟩
    rw [bridgeRecvCb_of_accepts hcook hne hlen hacc]
    simp [demultiplex, hlarge]

/-- A frame is told exactly when it has a payload or its last octet is no
accepted header. -/
theorem toldApart_frame_iff {crc : Bytes → UInt32} {rcv : Endpoint}
    (hthr : 0 < rcv.smallPacketThreshold) {snd snd' : Sender} {payload : Bytes}
    {built : Option Bytes} (hbuild : snd.buildFrame payload bufLen = (built, snd')) :
    ToldApart crc rcv (.frame snd.seq payload built) ↔
      Distinct rcv.role (.frame snd.seq payload built) := by
  cases built with
  | none => exact ⟨fun _ h => absurd rfl h, fun _ frame h => absurd h (by simp)⟩
  | some frame =>
      obtain ⟨rfl, hcap⟩ := buildFrame_eq_some hbuild
      constructor
      · rintro htold - rfl hacc
        have hroom : (Sender.frame snd.seq []).length + 4 < bufLen := by
          rw [Sender.length_frame]
          decide
        obtain ⟨datagram, hcook⟩ := exists_doCook crc rcv.cook zeroIv hroom
        obtain ⟨data, hfec⟩ :=
          (@bridgeRecvCb_frame_nil crc rcv (fun _ => 0) _ _ _ hcook).mpr hacc
        exact (htold _ rfl).2 _ _ _ hcook data hfec
      · rintro hdist _ ⟨⟩
        refine ⟨isSmallPacket_frame _ _, ?_⟩
        intro iv stale datagram hcook data hfec
        by_cases hpay : payload = []
        · subst hpay
          exact hdist (by simp) rfl ((bridgeRecvCb_frame_nil hcook).mp ⟨data, hfec⟩)
        · rcases bridgeRecvCb_frame stale hpay (by omega) hthr hcook with h | h | h
          · rw [h] at hfec
            exact absurd hfec (by simp)
          · rw [h] at hfec
            exact absurd hfec (by simp)
          · rw [h] at hfec
            exact absurd hfec (by simp)

/-! ### Every run -/

/-- What one call makes is told exactly when its numbers cannot be mistaken. -/
theorem emit_toldApart {c : Code} {crc : Bytes → UInt32} {rcv : Endpoint}
    (hthr : 0 < rcv.smallPacketThreshold) {s s' : Sending} {call : Call} {o : Emission}
    (hready : s.encoder.readyForOutput = false) (h : emit c s call = .ok (s', o)) :
    s'.encoder.readyForOutput = false ∧ (ToldApart crc rcv o ↔ Distinct rcv.role o) := by
  cases call with
  | fec g data =>
      obtain ⟨⟨e, r, out⟩, hstep, h⟩ := Checked.doBind_eq_ok.mp h
      obtain ⟨rfl, rfl⟩ := Prod.mk.inj (Except.ok.inj h)
      obtain ⟨hready', hnum⟩ := FecEncodeManager.step_numbered hready hstep
      exact ⟨hready', toldApart_packets_iff hnum⟩
  | frame payload =>
      obtain ⟨rfl, rfl⟩ := Prod.mk.inj (Except.ok.inj h)
      exact ⟨hready, toldApart_frame_iff hthr rfl⟩

/-- In a run of both senders everything is told apart exactly when no group that
sends anything has a number whose top octet is the marker, and no empty frame a
number whose last octet is a header that the receiver accepts. -/
theorem toldApart_iff (crc : Bytes → UInt32) (c : Code) (rcv : Endpoint) (s t : Sending)
    (calls : List Call) (os : List Emission) (hthr : 0 < rcv.smallPacketThreshold)
    (hready : s.encoder.readyForOutput = false) (hrun : run (emit c) s calls = .ok (t, os)) :
    (∀ o ∈ os, ToldApart crc rcv o) ↔ ∀ o ∈ os, Distinct rcv.role o := by
  have hstep : ∀ s s' call o, call ∈ calls → s.encoder.readyForOutput = false →
      emit c s call = .ok (s', o) → s'.encoder.readyForOutput = false ∧
        (ToldApart crc rcv o ↔ Distinct rcv.role o) :=
    fun _ _ _ _ _ hready hstep => emit_toldApart hthr hready hstep
  obtain ⟨-, hall⟩ := run_outputs hstep hready hrun
  exact forall₂_congr hall

/-- Mode 1 with one redundant packet for every packet. -/
def samplePar : FecParameter := { mode := 1, rsCnt := 1, rsPar := fun i => ⟨i + 1, 1⟩ }

/-- A sending end whose first group has a given number. -/
def sampleSending (seq : UInt32) : Sending where
  encoder := FecEncodeManager.init samplePar seq fun _ => 0
  spSend := Sender.init 256 2

/-- One packet for the encoder and one frame. -/
def sampleCalls : List Call := [.fec samplePar (some [0x45]), .frame [0x45, 1]]

theorem toldApart_iff_sample :
    ∃ t os, run (emit Code.repetition) (sampleSending 7) sampleCalls = .ok (t, os) ∧
      ((∀ o ∈ os, ToldApart crc32Bitwise (sampleEnd .server) o) ↔
        ∀ o ∈ os, Distinct .server o) :=
  ⟨_, _, rfl, toldApart_iff crc32Bitwise Code.repetition (sampleEnd .server)
    (sampleSending 7) _ sampleCalls _ (by decide) rfl rfl⟩

/-- The first group of an encoder that starts at number `FE000000` is taken
for small packets. -/
theorem fec_packet_taken_for_small :
    ∃ t os, run (emit Code.repetition) (sampleSending 0xFE000000)
        [.fec samplePar (some [0x45])] = .ok (t, os) ∧
      ¬ ∀ o ∈ os, ToldApart crc32Bitwise (sampleEnd .server) o := by
  refine ⟨_, _, rfl, ?_⟩
  intro h
  have hq := h _ (List.mem_singleton.mpr rfl) _ List.mem_cons_self
  exact absurd hq.1 (by decide)

end Crc

end Fecraw.Ports.Tunnel
