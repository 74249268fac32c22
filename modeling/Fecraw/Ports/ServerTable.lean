import Fecraw.Ports.ServerStep

/-!
# The connection table of the server

Every change and every sweep keeps the tables of the server together, in any
order of packets, timers and sweeps.

## Main results

* `TableWf.change`: a change keeps the tables.
* `ends_clearInactive`: so does the sweep.
* `table_of_run`: the tables fit in every state that is reached, and no
  assertion about connections fails.
-/

namespace Fecraw.Ports.Raw

open Fecraw.Verified

variable {par : Params} {clear : FdManager → Nat → Except Fault FdManager} {act : Server.Action}
variable {s s' : Server} {t : Table Nat ServerConn} {p q : Nat} {c c' : ServerConn}

/-! ## Changes -/

theorem Puts.lookup_eq (hput : Puts s.conns t p c') (hq : t.lookup q = some c) :
    q = p ∧ c = c' ∨ q ≠ p ∧ s.conns.lookup q = some c := by
  rw [hput q] at hq
  split at hq
  · exact .inl ⟨‹_›, (Option.some.inj hq).symm⟩
  · exact .inr ⟨‹_›, hq⟩

theorem Puts.lookup_ne (hput : Puts s.conns t p c') (hne : q ≠ p) :
    t.lookup q = s.conns.lookup q := by
  rw [hput q, if_neg hne]

/-- What is needed of the descriptors for a connection to stay ready. -/
theorem ReadyWf.mono {b : Blob Nat} (h : ReadyWf s p c b) (hnow : s.now ≤ s'.now)
    (hlook : s'.fds.fd64ToFd.lookup c.timerFd64 = s.fds.fd64ToFd.lookup c.timerFd64)
    (hinfo : s'.fds.fdInfo.lookup c.timerFd64 = s.fds.fdInfo.lookup c.timerFd64)
    (hconst : s'.constIdMp.lookup c.oppsiteConstId = s.constIdMp.lookup c.oppsiteConstId) :
    ReadyWf s' p c b := by
  refine ⟨h.blob, h.convs.mono hnow, h.data, ?_, h.timer_ne, ?_, h.constId_ne, ?_⟩
  · have := h.timer
    unfold FdManager.exist at *
    rw [hlook]
    exact this
  · rw [hinfo]
    exact h.info
  · rw [hconst]
    exact h.constId

/-- A connection stays ready with the same timer and identity. -/
theorem ReadyWf.replace {b b' : Blob Nat} (h : ReadyWf s p c b) (hb : c'.blob = some b')
    (hconvs : b'.convManager.Wf s.now)
    (hdata : ∀ k d, b'.convManager.convToData.lookup k = some d → d = bridgeNumber)
    (htimer : c'.timerFd64 = c.timerFd64) (hk : c'.oppsiteConstId = c.oppsiteConstId) :
    ReadyWf s p c' b' := by
  refine ⟨hb, hconvs, hdata, ?_, ?_, ?_, ?_, ?_⟩
  · rw [htimer]
    exact h.timer
  · rw [htimer]
    exact h.timer_ne
  · rw [htimer]
    exact h.info
  · rw [hk]
    exact h.constId_ne
  · rw [hk]
    exact h.constId

/-- A connection is written to; of the other tables only the bridge changes. -/
theorem TableWf.put {fds : FdManager} {conv : UInt32} {valid : Bool} (h : TableWf s)
    (hc : s.conns.lookup p = some c) (hkeep : Keeps c c') (hput : Puts s.conns t p c')
    (hbare : c.state ≠ .ready → c'.blob = none)
    (hready : c.state = .ready → ∃ b, c'.blob = some b ∧ b.convManager.Wf s.now ∧
      ∀ k d, b.convManager.convToData.lookup k = some d → d = bridgeNumber)
    (hfds : Beside s.fds fds) :
    TableWf { s with conns := t, fds := fds, bridgeConv := conv, bridgeConvValid := valid } := by
  have hold : ∀ q c₀, t.lookup q = some c₀ → ∃ c₁, s.conns.lookup q = some c₁ ∧ Keeps c₁ c₀ := by
    intro q c₀ hq
    rcases hput.lookup_eq hq with ⟨rfl, rfl⟩ | ⟨-, hq⟩
    · exact ⟨c, hc, hkeep⟩
    · exact ⟨c₀, hq, Keeps.refl c₀⟩
  have hnew : ∀ q c₁, s.conns.lookup q = some c₁ → ∃ c₀, t.lookup q = some c₀ ∧ Keeps c₁ c₀ := by
    intro q c₁ hq
    by_cases hqp : q = p
    · rw [hqp] at hq ⊢
      rw [hc] at hq
      obtain rfl := Option.some.inj hq
      exact ⟨c', hput.lookup, hkeep⟩
    · exact ⟨c₁, by rw [hput.lookup_ne hqp, hq], Keeps.refl c₁⟩
  refine ⟨?_, ?_, ?_, ?_, ?_, h.once, ?_, h.count, h.count_le, hfds.wf, ?_, ?_, h.bridge, ?_⟩
  · -- ready connections
    intro q c₀ hq hstate
    rcases hput.lookup_eq hq with ⟨rfl, rfl⟩ | ⟨-, hq⟩
    · rw [hkeep.state] at hstate
      obtain ⟨b₀, hwf⟩ := h.ready q c hc hstate
      obtain ⟨b, hb, hconvs, hdata⟩ := hready hstate
      have hstay := @ReadyWf.mono s
        { s with conns := t, fds := fds, bridgeConv := conv, bridgeConvValid := valid } q c b₀ hwf
        le_rfl (hfds.lookup _ hwf.timer_ne) (hfds.info _ hwf.timer_ne) rfl
      exact ⟨b, hstay.replace hb hconvs hdata hkeep.timer hkeep.constId⟩
    · obtain ⟨b, hwf⟩ := h.ready q c₀ hq hstate
      exact ⟨b, hwf.mono le_rfl (hfds.lookup _ hwf.timer_ne) (hfds.info _ hwf.timer_ne) rfl⟩
  · intro q c₀ hq hstate
    rcases hput.lookup_eq hq with ⟨rfl, rfl⟩ | ⟨-, hq⟩
    · rw [hkeep.state] at hstate
      have hold := h.bare q c hc hstate
      exact ⟨hbare hstate, hkeep.timer.trans hold.timer, hkeep.constId.trans hold.constId⟩
    · exact h.bare q c₀ hq hstate
  · intro q c₀ hq
    obtain ⟨c₁, hq', -⟩ := hold q c₀ hq
    exact h.stored q c₁ hq'
  · intro q c₀ hq hstate
    obtain ⟨c₁, hq', hsame⟩ := hold q c₀ hq
    rw [hsame.state] at hstate
    rw [hsame.recv]
    exact h.address q c₁ hq' hstate
  · intro a q hq
    obtain ⟨c₁, hq'⟩ := h.entry a q hq
    obtain ⟨c₀, hq₀, -⟩ := hnew q c₁ hq'
    exact ⟨c₀, hq₀⟩
  · intro k q hk
    obtain ⟨c₁, hq', hstate, hkey⟩ := h.constId k q hk
    obtain ⟨c₀, hq₀, hsame⟩ := hnew q c₁ hq'
    exact ⟨c₀, hq₀, hsame.state.trans hstate, hsame.constId.trans hkey⟩
  · intro x hx
    by_cases hxb : x = bridgeNumber
    · exact .inl hxb
    · have hx' : s.fds.exist x := by
        unfold FdManager.exist at *
        rw [← hfds.lookup x hxb]
        exact hx
      obtain hxb' | ⟨q, c₁, hq', hstate, htimer⟩ := h.numbered x hx'
      · exact .inl hxb'
      · obtain ⟨c₀, hq₀, hsame⟩ := hnew q c₁ hq'
        exact .inr ⟨q, c₀, hq₀, hsame.state.trans hstate, hsame.timer.trans htimer⟩
  · intro hexist
    obtain ⟨hexist', hinfo⟩ := hfds.bridge hexist
    have := h.bridge_info hexist'
    unfold FdManager.existInfo at *
    rw [hinfo]
    exact this
  · show bridgeNumber < fds.counter
    rw [hfds.counter]
    exact h.bridge_lt

/-- A connection from a new address. -/
theorem TableWf.opened {a : Address} (h : TableWf s) (hfree : s.conns.lookup p = none)
    (hnew : s.mp.lookup a = none) (hput : Puts s.conns t p c) (hstate : c.state = .handshake1)
    (hrecv : c.recv = a) (hbare : Bare c) :
    TableWf { s with conns := t, mp := s.mp.insert a p } := by
  have hlook : ∀ b, (s.mp.insert a p).lookup b = if b = a then some p else s.mp.lookup b :=
    fun b => Table.lookup_insert_eq _ _ _ _
  have hne : ∀ q c₁, s.conns.lookup q = some c₁ → q ≠ p := by
    rintro q c₁ hq rfl
    rw [hfree] at hq
    exact absurd hq (by simp)
  have hkeep : ∀ q c₁, s.conns.lookup q = some c₁ → t.lookup q = some c₁ := by
    intro q c₁ hq
    rw [hput.lookup_ne (hne q c₁ hq), hq]
  have hother : ∀ b q, s.mp.lookup b = some q → b ≠ a ∧ q ≠ p := by
    intro b q hb
    obtain ⟨c₁, hq⟩ := h.entry b q hb
    refine ⟨?_, hne q c₁ hq⟩
    rintro rfl
    rw [hnew] at hb
    exact absurd hb (by simp)
  refine ⟨?_, ?_, ?_, ?_, ?_, ?_, ?_, h.count, h.count_le, h.fds, ?_, h.bridge_info, h.bridge,
    h.bridge_lt⟩
  · intro q c₀ hq hready
    rcases hput.lookup_eq hq with ⟨rfl, rfl⟩ | ⟨-, hq⟩
    · rw [hstate] at hready
      exact absurd hready (by decide)
    · obtain ⟨b, hwf⟩ := h.ready q c₀ hq hready
      exact ⟨b, hwf.mono le_rfl rfl rfl rfl⟩
  · intro q c₀ hq hready
    rcases hput.lookup_eq hq with ⟨rfl, rfl⟩ | ⟨-, hq⟩
    · exact hbare
    · exact h.bare q c₀ hq hready
  · intro q c₀ hq
    rcases hput.lookup_eq hq with ⟨rfl, rfl⟩ | ⟨-, hq⟩
    · exact ⟨a, by rw [hlook, if_pos rfl]⟩
    · obtain ⟨b, hb⟩ := h.stored q c₀ hq
      exact ⟨b, by rw [hlook, if_neg (hother b q hb).1, hb]⟩
  · intro q c₀ hq hidle
    rw [hlook]
    rcases hput.lookup_eq hq with ⟨rfl, rfl⟩ | ⟨-, hq⟩
    · rw [if_pos hrecv]
    · have hb := h.address q c₀ hq hidle
      rw [if_neg (hother _ _ hb).1, hb]
  · intro b q hb
    rw [hlook] at hb
    split at hb
    · obtain rfl := Option.some.inj hb
      exact ⟨c, hput.lookup⟩
    · obtain ⟨c₁, hq⟩ := h.entry b q hb
      exact ⟨c₁, hkeep q c₁ hq⟩
  · intro b b' q hb hb'
    rw [hlook] at hb hb'
    split at hb
    · obtain rfl := Option.some.inj hb
      split at hb'
      · rw [‹b = a›, ‹b' = a›]
      · exact absurd rfl (hother b' p hb').2
    · split at hb'
      · obtain rfl := Option.some.inj hb'
        exact absurd rfl (hother b p hb).2
      · exact h.once b b' q hb hb'
  · intro k q hk
    obtain ⟨c₁, hq, hrest⟩ := h.constId k q hk
    exact ⟨c₁, hkeep q c₁ hq, hrest⟩
  · intro x hx
    obtain hxb | ⟨q, c₁, hq, hrest⟩ := h.numbered x hx
    · exact .inl hxb
    · exact .inr ⟨q, c₁, hkeep q c₁ hq, hrest⟩

/-- A handshake that is not accepted. -/
theorem TableWf.refused (h : TableWf s) (hc : s.conns.lookup p = some c)
    (hstate : c.state = .handshake1) (hput : Puts s.conns t p c') (hidle : c'.state = .idle)
    (hbare : Bare c') : TableWf { s with conns := t } := by
  have hkeep : ∀ q c₁, s.conns.lookup q = some c₁ → c₁.state = .ready → t.lookup q = some c₁ := by
    intro q c₁ hq hready
    rw [hput.lookup_ne (ne_of_ready hc hstate hq hready), hq]
  refine ⟨?_, ?_, ?_, ?_, ?_, h.once, ?_, h.count, h.count_le, h.fds, ?_, h.bridge_info, h.bridge,
    h.bridge_lt⟩
  · intro q c₀ hq hready
    rcases hput.lookup_eq hq with ⟨rfl, rfl⟩ | ⟨-, hq⟩
    · rw [hidle] at hready
      exact absurd hready (by decide)
    · obtain ⟨b, hwf⟩ := h.ready q c₀ hq hready
      exact ⟨b, hwf.mono le_rfl rfl rfl rfl⟩
  · intro q c₀ hq hready
    rcases hput.lookup_eq hq with ⟨rfl, rfl⟩ | ⟨-, hq⟩
    · exact hbare
    · exact h.bare q c₀ hq hready
  · intro q c₀ hq
    rcases hput.lookup_eq hq with ⟨rfl, rfl⟩ | ⟨-, hq⟩
    · exact h.stored q c hc
    · exact h.stored q c₀ hq
  · intro q c₀ hq hnot
    rcases hput.lookup_eq hq with ⟨rfl, rfl⟩ | ⟨-, hq⟩
    · exact absurd hidle hnot
    · exact h.address q c₀ hq hnot
  · intro a q hq
    obtain ⟨c₁, hq'⟩ := h.entry a q hq
    by_cases hqp : q = p
    · exact ⟨c', by rw [hqp]; exact hput.lookup⟩
    · exact ⟨c₁, by rw [hput.lookup_ne hqp, hq']⟩
  · intro k q hk
    obtain ⟨c₁, hq, hready, hkey⟩ := h.constId k q hk
    exact ⟨c₁, hkeep q c₁ hq hready, hready, hkey⟩
  · intro x hx
    obtain hxb | ⟨q, c₁, hq, hready, htimer⟩ := h.numbered x hx
    · exact .inl hxb
    · exact .inr ⟨q, c₁, hkeep q c₁ hq hready, hready, htimer⟩

/-- A connection becomes ready. -/
theorem TableWf.readied {b : Blob Nat} {k : UInt32} {fd : Nat} (h : TableWf s)
    (hc : s.conns.lookup p = some c) (hstate : c.state = .handshake1) (hput : Puts s.conns t p c')
    (hready : c'.state = .ready) (hrecv : c'.recv = c.recv) (hk : c'.oppsiteConstId = k)
    (hk_ne : k ≠ 0) (hfree : s.constIdMp.lookup k = none) (hnum : s.readyNum < maxReadyConnNum)
    (hb : c'.blob = some b) (hconvs : b.convManager.Wf s.now)
    (hnone : b.convManager.convToData = ∅) (htimer : c'.timerFd64 = s.fds.counter)
    (hfd : s.fds.fdToFd64.lookup fd = none) :
    TableWf { s with
      conns := t
      constIdMp := s.constIdMp.insert k p
      readyNum := s.readyNum + 1
      fds := ((s.fds.added fd).withInfo s.fds.counter (some p)).withInfo bridgeNumber (some p)
      bridgeConvValid := false } := by
  have hbridge := h.bridge_lt
  have hkeys : ∀ k', (s.constIdMp.insert k p).lookup k' =
      if k' = k then some p else s.constIdMp.lookup k' := fun k' => Table.lookup_insert_eq _ _ _ _
  have hinfo : ∀ x, (((s.fds.added fd).withInfo s.fds.counter (some p)).withInfo bridgeNumber
      (some p)).fdInfo.lookup x = if x = bridgeNumber then some (some p) else
        if x = s.fds.counter then some (some p) else s.fds.fdInfo.lookup x := by
    intro x
    rw [withInfo_info, withInfo_info]
    rfl
  have hother : ∀ q c₁, s.conns.lookup q = some c₁ → c₁.state = .ready →
      q ≠ p ∧ t.lookup q = some c₁ := by
    intro q c₁ hq hready₁
    have hne : q ≠ p := ne_of_ready hc hstate hq hready₁
    exact ⟨hne, by rw [hput.lookup_ne hne, hq]⟩
  refine ⟨?_, ?_, ?_, ?_, ?_, h.once, ?_, ?_, hnum, ?_, ?_, ?_, h.bridge, ?_⟩
  · intro q c₀ hq hready₀
    rcases hput.lookup_eq hq with ⟨rfl, rfl⟩ | ⟨-, hq⟩
    · refine ⟨b, hb, hconvs, ?_, ?_, ?_, ?_, ?_, ?_⟩
      · intro k' d hk'
        rw [hnone] at hk'
        exact absurd hk' (by simp)
      · exact exist_added.mpr (.inl htimer)
      · rw [htimer]
        omega
      · rw [hinfo, htimer, if_neg (by omega), if_pos rfl]
      · rw [hk]
        exact hk_ne
      · rw [hkeys, if_pos hk]
    · obtain ⟨b₀, hwf⟩ := h.ready q c₀ hq hready₀
      have hold := (h.fds.old _ hwf.timer).2
      refine ⟨b₀, hwf.mono le_rfl ?_ ?_ ?_⟩
      · show (s.fds.added fd).fd64ToFd.lookup _ = _
        rw [added_lookup, if_neg (by omega)]
      · rw [hinfo, if_neg hwf.timer_ne, if_neg (by omega)]
      · rw [hkeys, if_neg ?_]
        intro heq
        rw [← heq, hwf.constId] at hfree
        exact absurd hfree (by simp)
  · intro q c₀ hq hnot
    rcases hput.lookup_eq hq with ⟨rfl, rfl⟩ | ⟨-, hq⟩
    · exact absurd hready hnot
    · exact h.bare q c₀ hq hnot
  · intro q c₀ hq
    rcases hput.lookup_eq hq with ⟨rfl, rfl⟩ | ⟨-, hq⟩
    · exact h.stored q c hc
    · exact h.stored q c₀ hq
  · intro q c₀ hq hidle
    rcases hput.lookup_eq hq with ⟨rfl, rfl⟩ | ⟨-, hq⟩
    · rw [hrecv]
      exact h.address q c hc (by rw [hstate]; decide)
    · exact h.address q c₀ hq hidle
  · intro a q hq
    obtain ⟨c₁, hq'⟩ := h.entry a q hq
    by_cases hqp : q = p
    · exact ⟨c', by rw [hqp]; exact hput.lookup⟩
    · exact ⟨c₁, by rw [hput.lookup_ne hqp, hq']⟩
  · intro k' q hk'
    rw [hkeys] at hk'
    split at hk'
    · obtain rfl := Option.some.inj hk'
      exact ⟨c', hput.lookup, hready, hk.trans (‹k' = k›).symm⟩
    · obtain ⟨c₁, hq, hready₁, hkey⟩ := h.constId k' q hk'
      exact ⟨c₁, (hother q c₁ hq hready₁).2, hready₁, hkey⟩
  · show s.readyNum + 1 = Table.size (s.constIdMp.insert k p)
    rw [Table.size_insert_of_none p hfree, h.count]
  · exact ((h.fds.added hfd).withInfo _ _).withInfo _ _
  · intro x hx
    rcases exist_added.mp hx with rfl | hx
    · exact .inr ⟨p, c', hput.lookup, hready, htimer⟩
    · obtain hxb | ⟨q, c₁, hq, hready₁, htimer₁⟩ := h.numbered x hx
      · exact .inl hxb
      · exact .inr ⟨q, c₁, (hother q c₁ hq hready₁).2, hready₁, htimer₁⟩
  · intro _
    unfold FdManager.existInfo
    rw [hinfo, if_pos rfl]
    rfl
  · show bridgeNumber < s.fds.counter + 1
    omega

/-- The two addresses of a client that comes back are exchanged. -/
theorem lookup_exchange {ori : ServerConn} (h : TableWf s) (hc : s.mp.lookup c.recv = some p)
    (hori : s.mp.lookup ori.recv = some q) (a : Address) :
    ((s.mp.insert c.recv q).insert ori.recv p).lookup a =
      (s.mp.lookup a).map (Equiv.swap p q) := by
  rw [Table.lookup_insert_eq, Table.lookup_insert_eq]
  by_cases ha : a = ori.recv
  · rw [if_pos ha, ha, hori]
    simp
  · rw [if_neg ha]
    by_cases ha' : a = c.recv
    · rw [if_pos ha', ha', hc]
      simp
    · rw [if_neg ha']
      cases hx : s.mp.lookup a with
      | none => rfl
      | some x =>
          have hxp : x ≠ p := fun heq => ha' (h.once _ _ x hx (heq ▸ hc))
          have hxq : x ≠ q := fun heq => ha (h.once _ _ x hx (heq ▸ hori))
          rw [Option.map_some, Equiv.swap_apply_of_ne_of_ne hxp hxq]

/-- An entry of a table in which two were written. -/
theorem lookup_two {ori' c₀ : ServerConn} {x : Nat} {o : Option ServerConn}
    (h : (if x = p then some c' else if x = q then some ori' else o) = some c₀) :
    x = p ∧ c₀ = c' ∨ x = q ∧ c₀ = ori' ∨ x ≠ p ∧ x ≠ q ∧ o = some c₀ := by
  split at h
  · exact .inl ⟨‹_›, (Option.some.inj h).symm⟩
  · split at h
    · exact .inr (.inl ⟨‹_›, (Option.some.inj h).symm⟩)
    · exact .inr (.inr ⟨‹_›, ‹_›, h⟩)

/-- A client comes back. -/
theorem TableWf.grabbed {ori ori' : ServerConn} {b b' : Blob Nat} (h : TableWf s)
    (hc : s.conns.lookup p = some c) (hstate : c.state = .handshake1)
    (hori : s.conns.lookup q = some ori) (hready : ori.state = .ready)
    (hput : ∀ x, t.lookup x = if x = p then some c' else if x = q then some ori' else
      s.conns.lookup x)
    (hidle : c'.state = .idle) (hbare : Bare c') (hready' : ori'.state = .ready)
    (hrecv : ori'.recv = c.recv) (hk : ori'.oppsiteConstId = ori.oppsiteConstId)
    (htimer : ori'.timerFd64 = ori.timerFd64) (hb : ori.blob = some b) (hb' : ori'.blob = some b')
    (hconvs : b'.convManager = b.convManager) :
    TableWf { s with
      conns := t
      mp := (s.mp.insert c.recv q).insert ori.recv p
      fds := s.fds.withInfo bridgeNumber (some q) } := by
  have haddr := h.address p c hc (by rw [hstate]; decide)
  have haddr' := h.address q ori hori (by rw [hready]; decide)
  have hmp := lookup_exchange h haddr haddr'
  have hne : q ≠ p := ne_of_ready hc hstate hori hready
  have hp : t.lookup p = some c' := by rw [hput, if_pos rfl]
  have hq : t.lookup q = some ori' := by rw [hput, if_neg hne, if_pos rfl]
  have hrest : ∀ x, x ≠ p → x ≠ q → t.lookup x = s.conns.lookup x := by
    intro x hxp hxq
    rw [hput, if_neg hxp, if_neg hxq]
  have hcases : ∀ x c₀, t.lookup x = some c₀ → x = p ∧ c₀ = c' ∨ x = q ∧ c₀ = ori' ∨
      x ≠ p ∧ x ≠ q ∧ s.conns.lookup x = some c₀ := fun x c₀ hx => lookup_two (hput x ▸ hx)
  have hsome : ∀ x c₁, s.conns.lookup x = some c₁ → ∃ c₀, t.lookup x = some c₀ := by
    intro x c₁ hx
    by_cases hxp : x = p
    · exact ⟨c', by rw [hxp, hp]⟩
    · by_cases hxq : x = q
      · exact ⟨ori', by rw [hxq, hq]⟩
      · exact ⟨c₁, by rw [hrest x hxp hxq, hx]⟩
  -- a connection that was ready is ready still, with the same timer and identity
  have hstill : ∀ x c₁, s.conns.lookup x = some c₁ → c₁.state = .ready →
      ∃ c₀, t.lookup x = some c₀ ∧ c₀.state = .ready ∧ c₀.oppsiteConstId = c₁.oppsiteConstId ∧
        c₀.timerFd64 = c₁.timerFd64 := by
    intro x c₁ hx hready₁
    have hxp : x ≠ p := ne_of_ready hc hstate hx hready₁
    by_cases hxq : x = q
    · rw [hxq, hori] at hx
      obtain rfl := Option.some.inj hx
      exact ⟨ori', by rw [hxq, hq], hready', hk, htimer⟩
    · exact ⟨c₁, by rw [hrest x hxp hxq, hx], hready₁, rfl, rfl⟩
  have hinfo : ∀ x, x ≠ bridgeNumber →
      (s.fds.withInfo bridgeNumber (some q)).fdInfo.lookup x = s.fds.fdInfo.lookup x := by
    intro x hx
    rw [withInfo_info, if_neg hx]
  refine ⟨?_, ?_, ?_, ?_, ?_, ?_, ?_, h.count, h.count_le, h.fds.withInfo _ _, ?_, ?_, h.bridge,
    h.bridge_lt⟩
  · intro x c₀ hx hready₀
    rcases hcases x c₀ hx with ⟨-, rfl⟩ | ⟨rfl, rfl⟩ | ⟨-, -, hx⟩
    · rw [hidle] at hready₀
      exact absurd hready₀ (by decide)
    · obtain ⟨b₀, hwf⟩ := h.ready x ori hori hready
      obtain rfl := Option.some.inj (hwf.blob.symm.trans hb)
      have hnew := hwf.replace hb' (hconvs ▸ hwf.convs) (hconvs ▸ hwf.data) htimer hk
      exact ⟨b', hnew.mono le_rfl rfl (hinfo _ hnew.timer_ne) rfl⟩
    · obtain ⟨b₀, hwf⟩ := h.ready x c₀ hx hready₀
      exact ⟨b₀, hwf.mono le_rfl rfl (hinfo _ hwf.timer_ne) rfl⟩
  · intro x c₀ hx hnot
    rcases hcases x c₀ hx with ⟨-, rfl⟩ | ⟨rfl, rfl⟩ | ⟨-, -, hx⟩
    · exact hbare
    · exact absurd hready' hnot
    · exact h.bare x c₀ hx hnot
  · intro x c₀ hx
    have hfrom : ∃ a, s.mp.lookup a = some (Equiv.swap p q x) := by
      rcases hcases x c₀ hx with ⟨rfl, -⟩ | ⟨rfl, -⟩ | ⟨hxp, hxq, hx⟩
      · exact ⟨ori.recv, by rw [Equiv.swap_apply_left, haddr']⟩
      · exact ⟨c.recv, by rw [Equiv.swap_apply_right, haddr]⟩
      · rw [Equiv.swap_apply_of_ne_of_ne hxp hxq]
        exact h.stored x c₀ hx
    obtain ⟨a, ha⟩ := hfrom
    exact ⟨a, by rw [hmp, ha, Option.map_some, Equiv.swap_apply_self]⟩
  · intro x c₀ hx hnot
    rw [hmp]
    rcases hcases x c₀ hx with ⟨-, rfl⟩ | ⟨rfl, rfl⟩ | ⟨hxp, hxq, hx⟩
    · exact absurd hidle hnot
    · rw [hrecv, haddr, Option.map_some, Equiv.swap_apply_left]
    · rw [h.address x c₀ hx hnot, Option.map_some, Equiv.swap_apply_of_ne_of_ne hxp hxq]
  · intro a x ha
    rw [hmp] at ha
    obtain ⟨y, hy, rfl⟩ := Option.map_eq_some_iff.mp ha
    obtain ⟨c₁, hc₁⟩ : ∃ c₁, s.conns.lookup (Equiv.swap p q y) = some c₁ := by
      by_cases hyp : y = p
      · exact ⟨ori, by rw [hyp, Equiv.swap_apply_left, hori]⟩
      · by_cases hyq : y = q
        · exact ⟨c, by rw [hyq, Equiv.swap_apply_right, hc]⟩
        · rw [Equiv.swap_apply_of_ne_of_ne hyp hyq]
          exact h.entry a y hy
    exact hsome _ c₁ hc₁
  · intro a a' x ha ha'
    rw [hmp] at ha ha'
    obtain ⟨y, hy, rfl⟩ := Option.map_eq_some_iff.mp ha
    obtain ⟨y', hy', heq⟩ := Option.map_eq_some_iff.mp ha'
    obtain rfl := (Equiv.swap p q).injective heq
    exact h.once a a' y' hy hy'
  · intro k x hkx
    obtain ⟨c₁, hx, hready₁, hkey⟩ := h.constId k x hkx
    obtain ⟨c₀, hx₀, hready₀, hkey₀, -⟩ := hstill x c₁ hx hready₁
    exact ⟨c₀, hx₀, hready₀, hkey₀.trans hkey⟩
  · intro x hx
    obtain hxb | ⟨y, c₁, hy, hready₁, htimer₁⟩ := h.numbered x hx
    · exact .inl hxb
    · obtain ⟨c₀, hy₀, hready₀, -, htimer₀⟩ := hstill y c₁ hy hready₁
      exact .inr ⟨y, c₀, hy₀, hready₀, htimer₀.trans htimer₁⟩
  · intro _
    unfold FdManager.existInfo
    rw [withInfo_info, if_pos rfl]
    rfl

/-- A connection whose conversations stay. -/
theorem TableWf.touch (h : TableWf s) (hc : s.conns.lookup p = some c)
    (hkeep : Keeps c c') (hput : Puts s.conns t p c') (hconvs : SameConvs s.now c c') :
    TableWf { s with conns := t } := by
  apply h.put hc hkeep hput _ _ (Beside.refl h.fds)
  · intro hnot
    have hbare := h.bare p c hc hnot
    rcases hconvs with ⟨-, hnone⟩ | ⟨b, b', hb, -⟩
    · exact hnone
    · rw [hbare.blob] at hb
      exact absurd hb (by simp)
  · intro hready
    obtain ⟨b₀, hwf⟩ := h.ready p c hc hready
    rcases hconvs with ⟨hnone, -⟩ | ⟨b, b', hb, hb', hwf', hdata⟩
    · rw [hwf.blob] at hnone
      exact absurd hnone (by simp)
    · obtain rfl := Option.some.inj (hwf.blob.symm.trans hb)
      exact ⟨b', hb', hwf', by rw [hdata]; exact hwf.data⟩

/-- Every change keeps the tables, as long as no handshake names the client 0. -/
theorem TableWf.change {out : List Sent} (hclear : ClearsBridge clear) (h : TableWf s)
    (hconst : ∀ a id1 id2 id3, Handshake act a id1 id2 id3 → id3 ≠ 0)
    (hchange : Change par clear act s s' out) : TableWf s' := by
  cases hchange with
  | nothing => exact h
  | reply hc hstate hput _ =>
      have hbare := h.bare _ _ hc (by rw [hstate]; decide)
      exact h.touch hc (Keeps.refl _) hput (.inl ⟨hbare.blob, hbare.blob⟩)
  | touch hc hkeep hput hconvs _ => exact h.touch hc hkeep hput hconvs
  | bridged hc _ hkeep hput hconvs _ _ _ _ _ => exact h.touch hc hkeep hput hconvs
  | conv hc hstate hkeep hput hb hb' _ _ _ hwf hconv _ =>
      obtain ⟨b₀, hold⟩ := h.ready _ _ hc hstate
      obtain rfl := Option.some.inj (hold.blob.symm.trans hb)
      apply h.put hc hkeep hput (fun hnot => absurd hstate hnot) _ (Beside.refl h.fds)
      intro _
      refine ⟨_, hb', hwf, ?_⟩
      intro k d hd
      rw [hconv, Table.lookup_insert_eq] at hd
      split at hd
      · exact (Option.some.inj hd).symm
      · exact hold.data k d hd
  | timer hc hstate hkeep hput hb hb' _ hok _ =>
      obtain ⟨b₀, hold⟩ := h.ready _ _ hc hstate
      obtain rfl := Option.some.inj (hold.blob.symm.trans hb)
      obtain ⟨hwf, hbeside, hsub⟩ := (ends_clear hclear h hold).of_ok hok
      apply h.put hc hkeep hput (fun hnot => absurd hstate hnot) _ hbeside
      intro _
      exact ⟨_, hb', hwf, fun k d hd => hold.data k d (hsub k d hd)⟩
  | opened hfree hnew hput hstate hrecv hbare _ _ =>
      exact h.opened hfree hnew hput hstate hrecv hbare
  | refused hc hstate hput hidle _ hbare => exact h.refused hc hstate hput hidle hbare
  | readied hc hstate hput hready hrecv _ hk hfree hnum hb hconvs hnone htimer hfd hshake _ =>
      exact h.readied hc hstate hput hready hrecv hk (hconst _ _ _ _ hshake) hfree hnum hb hconvs
        hnone htimer hfd
  | grabbed hc hstate hori hready hput hidle _ hbare hready' hrecv _ hk htimer hb hb' hconvs _ _
      _ =>
      exact h.grabbed hc hstate hori hready hput hidle hbare hready' hrecv hk htimer hb hb' hconvs

/-! ## Sweeps -/

/-- A connection is erased from all tables. -/
theorem TableWf.erased (h : TableWf s) (herase : Erasure s s') : TableWf s' := by
  obtain ⟨ha, hc, -, hconns, hkeys, hcount, hcount_le, hwf, hlook, hinfo, hcounter, -⟩ := herase
  rename_i a p c t keys n fds
  have hmp : ∀ b, (s.mp.erase a).lookup b = if b = a then none else s.mp.lookup b :=
    fun b => Table.lookup_erase_eq _ _ _
  have hcases : ∀ x c₀, t.lookup x = some c₀ → x ≠ p ∧ s.conns.lookup x = some c₀ := by
    intro x c₀ hx
    rw [hconns] at hx
    split at hx
    · exact absurd hx (by simp)
    · exact ⟨‹_›, hx⟩
  have hkeep : ∀ x c₁, x ≠ p → s.conns.lookup x = some c₁ → t.lookup x = some c₁ := by
    intro x c₁ hne hx
    rw [hconns, if_neg hne, hx]
  have hentry : ∀ x b, x ≠ p → s.mp.lookup b = some x → (s.mp.erase a).lookup b = some x := by
    intro x b hne hb
    rw [hmp, if_neg ?_, hb]
    rintro rfl
    rw [ha] at hb
    exact hne (Option.some.inj hb).symm
  -- two ready connections have different timers
  have htimers : ∀ x c₁ b, x ≠ p → ReadyWf s x c₁ b →
      ¬ (c.state = .ready ∧ c₁.timerFd64 = c.timerFd64) := by
    rintro x c₁ b hne hwf₁ ⟨hready, htimer⟩
    obtain ⟨b₀, hwf₀⟩ := h.ready p c hc hready
    have heq := hwf₁.info.symm.trans (htimer ▸ hwf₀.info)
    exact hne (Option.some.inj (Option.some.inj heq))
  refine ⟨?_, ?_, ?_, ?_, ?_, ?_, ?_, hcount, hcount_le, hwf, ?_, ?_, h.bridge, ?_⟩
  · intro x c₀ hx hready
    obtain ⟨hne, hx⟩ := hcases x c₀ hx
    obtain ⟨b, hwf₀⟩ := h.ready x c₀ hx hready
    have hother := htimers x c₀ b hne hwf₀
    refine ⟨b, hwf₀.mono le_rfl ?_ ?_ ?_⟩
    · rw [hlook, if_neg hother]
    · rw [hinfo, if_neg hother]
    · rw [hwf₀.constId]
      exact (hkeys _ _).mpr ⟨hwf₀.constId, hne⟩
  · intro x c₀ hx hnot
    exact h.bare x c₀ (hcases x c₀ hx).2 hnot
  · intro x c₀ hx
    obtain ⟨hne, hx⟩ := hcases x c₀ hx
    obtain ⟨b, hb⟩ := h.stored x c₀ hx
    exact ⟨b, hentry x b hne hb⟩
  · intro x c₀ hx hnot
    obtain ⟨hne, hx⟩ := hcases x c₀ hx
    exact hentry x _ hne (h.address x c₀ hx hnot)
  · intro b x hb
    rw [hmp] at hb
    split at hb
    · exact absurd hb (by simp)
    · obtain ⟨c₁, hx⟩ := h.entry b x hb
      refine ⟨c₁, hkeep x c₁ ?_ hx⟩
      rintro rfl
      exact ‹b ≠ a› (h.once b a x hb ha)
  · intro b b' x hb hb'
    rw [hmp] at hb hb'
    split at hb
    · exact absurd hb (by simp)
    · split at hb'
      · exact absurd hb' (by simp)
      · exact h.once b b' x hb hb'
  · intro k x hk
    obtain ⟨hk', hne⟩ := (hkeys k x).mp hk
    obtain ⟨c₁, hx, hrest⟩ := h.constId k x hk'
    exact ⟨c₁, hkeep x c₁ hne hx, hrest⟩
  · intro x hx
    have hx' : s.fds.exist x ∧ ¬ (c.state = .ready ∧ x = c.timerFd64) := by
      unfold FdManager.exist at *
      rw [hlook] at hx
      split at hx
      · exact absurd hx (by simp)
      · exact ⟨hx, ‹_›⟩
    obtain hxb | ⟨y, c₁, hy, hready, htimer⟩ := h.numbered x hx'.1
    · exact .inl hxb
    · refine .inr ⟨y, c₁, hkeep y c₁ ?_ hy, hready, htimer⟩
      rintro rfl
      rw [hc] at hy
      obtain rfl := Option.some.inj hy
      exact hx'.2 ⟨hready, htimer.symm⟩
  · intro hexist
    unfold FdManager.exist FdManager.existInfo at *
    rw [hlook] at hexist
    rw [hinfo]
    split at hexist
    · exact absurd hexist (by simp)
    · rw [if_neg ‹_›]
      exact h.bridge_info hexist
  · show bridgeNumber < fds.counter
    rw [hcounter]
    exact h.bridge_lt

/-! ## Runs -/

/-- The tables still fit when time has passed. -/
theorem TableWf.at {now lastClearTime : Nat} (h : TableWf s) (hnow : s.now ≤ now) :
    TableWf { s with now := now, lastClearTime := lastClearTime } := by
  refine ⟨?_, h.bare, h.stored, h.address, h.entry, h.once, h.constId, h.count, h.count_le, h.fds,
    h.numbered, h.bridge_info, h.bridge, h.bridge_lt⟩
  intro p c hc hready
  obtain ⟨b, hwf⟩ := h.ready p c hc hready
  exact ⟨b, hwf.mono hnow rfl rfl rfl⟩

/-- Events at times that do not go back, with clients whose identity is not 0. -/
structure Proper (s : Server) (ev : Server.Event) : Prop where
  now : s.now ≤ ev.now
  constId : ∀ a id1 id2 id3, Handshake ev.action a id1 id2 id3 → id3 ≠ 0

theorem Change.now_eq {out : List Sent} (h : Change par clear act s s' out) : s'.now = s.now := by
  cases h <;> rfl

/-- The invariant rule for one event: what holds at its time, and is kept by
changes and erasures, holds after it. -/
theorem ends_step_of {ev : Server.Event} (I : Server → Prop) (Q : Server → List Sent → Prop)
    (hclear : ClearsBridge clear) (hwf : ∀ s, I s → TableWf s)
    (hs : ∀ t, I { s with now := ev.now, lastClearTime := t })
    (hchange : ∀ s' out, Change par clear ev.action { s with now := ev.now } s' out →
      I s' ∧ Q s' out)
    (herase : ∀ s s', I s → Erasure s s' → I s') (hnil : ∀ s', Q s' []) :
    Ends (s.step clear par ev) (AsideAt ev.action { s with now := ev.now }) fun r =>
      I r.1 ∧ Q r.1 r.2 := by
  have h' : TableWf { s with now := ev.now } := hwf _ (hs s.lastClearTime)
  obtain ⟨now, act⟩ := ev
  unfold Server.step
  cases act with
  | sweep visits =>
      exact Ends.bind (ends_clearInactive hwf herase hs) fun s' hs' => ⟨hs', hnil s'⟩
  | raw pkt fr =>
      exact (ends_onRawRecv h' rfl).mono (fun r hr => hchange r.1 r.2 hr) fun f hf => hf
  | fd fd64 datagram =>
      exact (ends_onFd hclear h' rfl).mono (fun r hr => hchange r.1 r.2 hr) fun f hf => hf

/-- The rule where nothing is said about what is sent. -/
theorem ends_step_keeps {ev : Server.Event} (I : Server → Prop) (hclear : ClearsBridge clear)
    (hwf : ∀ s, I s → TableWf s) (hs : ∀ t, I { s with now := ev.now, lastClearTime := t })
    (hchange : ∀ s' out, Change par clear ev.action { s with now := ev.now } s' out → I s')
    (herase : ∀ s s', I s → Erasure s s' → I s') :
    Ends (s.step clear par ev) (AsideAt ev.action { s with now := ev.now }) fun r => I r.1 := by
  have hends := ends_step_of I (fun _ _ => True) hclear hwf hs
    (fun s' out hs' => ⟨hchange s' out hs', trivial⟩) herase fun _ => trivial
  exact hends.mono (fun _ hr => hr.1) fun _ hf => hf

/-- One event keeps the tables. -/
theorem ends_step {ev : Server.Event} (hclear : ClearsBridge clear) (h : TableWf s)
    (hev : Proper s ev) :
    Ends (s.step clear par ev) (AsideAt ev.action { s with now := ev.now }) fun r =>
      TableWf r.1 ∧ r.1.now = ev.now := by
  apply ends_step_keeps (fun s' => TableWf s' ∧ s'.now = ev.now) hclear
  · exact fun _ hI => hI.1
  · exact fun t => ⟨h.at hev.now, rfl⟩
  · intro s' out hs'
    exact ⟨(h.at hev.now).change hclear hev.constId hs', hs'.now_eq⟩
  · rintro s s' ⟨hwf, hnow⟩ hs'
    exact ⟨hwf.erased hs', by cases hs'; exact hnow⟩

theorem tableWf_start (fd : Nat) : TableWf (Server.start fd) := by
  have hfd : ({} : FdManager).fdToFd64.lookup fd = none := by simp
  have hinfo : (Server.start fd).fds = (({} : FdManager).added fd).withInfo bridgeNumber none := rfl
  refine ⟨?_, ?_, ?_, ?_, ?_, ?_, ?_, rfl, Nat.zero_le _, ?_, ?_, ?_, rfl, Nat.lt_succ_self _⟩
  · intro p c hc
    exact absurd hc (by simp [Server.start])
  · intro p c hc
    exact absurd hc (by simp [Server.start])
  · intro p c hc
    exact absurd hc (by simp [Server.start])
  · intro p c hc
    exact absurd hc (by simp [Server.start])
  · intro a p hp
    exact absurd hp (by simp [Server.start])
  · intro a b p hp
    exact absurd hp (by simp [Server.start])
  · intro k p hk
    exact absurd hk (by simp [Server.start])
  · rw [hinfo]
    exact (wf_init.added hfd).withInfo _ _
  · intro x hx
    left
    rw [hinfo] at hx
    unfold FdManager.exist at hx
    have hx' : ((({} : FdManager).added fd).fd64ToFd.lookup x).isSome := hx
    rw [added_lookup] at hx'
    split at hx'
    · next heq => exact heq
    · exact absurd hx' (by simp)
  · intro _
    rw [hinfo]
    unfold FdManager.existInfo
    rw [withInfo_info, if_pos rfl]
    rfl

/-- The connections that are ready. -/
def Server.readyConns (s : Server) : Finset Nat :=
  s.conns.keys.toFinset.filter fun p => (s.conns.lookup p).map ConnInfo.state = some .ready

theorem mem_readyConns : p ∈ s.readyConns ↔ ∃ c, s.conns.lookup p = some c ∧ c.state = .ready := by
  unfold Server.readyConns
  rw [Finset.mem_filter, List.mem_toFinset, Option.map_eq_some_iff]
  constructor
  · exact fun h => h.2
  · rintro ⟨c, hc, hstate⟩
    exact ⟨Table.mem_keys_of_lookup hc, c, hc, hstate⟩

/-- There are as many ready connections as identities. -/
theorem TableWf.card_readyConns (h : TableWf s) : s.readyConns.card = s.constIdMp.size := by
  have hsize : s.constIdMp.size = s.constIdMp.keys.toFinset.card :=
    (List.toFinset_card_of_nodup s.constIdMp.keys_nodup).symm
  have hkey : ∀ k ∈ s.constIdMp.keys.toFinset, ∃ p, s.constIdMp.lookup k = some p := by
    intro k hk
    exact Option.isSome_iff_exists.mp (AList.lookup_isSome.mpr (List.mem_toFinset.mp hk))
  rw [hsize]
  symm
  refine Finset.card_bij (fun k _ => (s.constIdMp.lookup k).getD 0) ?_ ?_ ?_
  · intro k hk
    obtain ⟨p, hp⟩ := hkey k hk
    obtain ⟨c, hc, hready, -⟩ := h.constId k p hp
    rw [hp]
    exact mem_readyConns.mpr ⟨c, hc, hready⟩
  · intro k hk k' hk' heq
    obtain ⟨p, hp⟩ := hkey k hk
    obtain ⟨p', hp'⟩ := hkey k' hk'
    obtain ⟨c, hc, -, hid⟩ := h.constId k p hp
    obtain ⟨c', hc', -, hid'⟩ := h.constId k' p' hp'
    rw [hp, hp', Option.getD_some, Option.getD_some] at heq
    rw [heq, hc'] at hc
    obtain rfl := Option.some.inj hc
    exact hid.symm.trans hid'
  · intro p hp
    obtain ⟨c, hc, hready⟩ := mem_readyConns.mp hp
    obtain ⟨b, hwf⟩ := h.ready p c hc hready
    exact ⟨c.oppsiteConstId, List.mem_toFinset.mpr (Table.mem_keys_of_lookup hwf.constId), by
      rw [hwf.constId]; rfl⟩

/-- The table of connections: what the three ways to find a connection say is
the same. -/
structure ConnTable (s : Server) : Prop where
  constId : ∀ k p, s.constIdMp.lookup k = some p ↔ ∃ a c, s.mp.lookup a = some p ∧
    s.conns.lookup p = some c ∧ c.state = .ready ∧ c.oppsiteConstId = k
  count : s.readyNum = s.constIdMp.size ∧ s.readyNum = s.readyConns.card ∧
    s.readyNum ≤ maxReadyConnNum
  stored : ∀ p c, s.conns.lookup p = some c → ∃! a, s.mp.lookup a = some p
  entry : ∀ a p, s.mp.lookup a = some p → ∃ c, s.conns.lookup p = some c
  ready : ∀ p c, s.conns.lookup p = some c → c.state = .ready →
    s.mp.lookup c.recv = some p ∧ c.blob.isSome ∧ c.timerFd64 ≠ 0 ∧ s.fds.exist c.timerFd64
  other : ∀ p c, s.conns.lookup p = some c → c.state ≠ .ready →
    c.blob = none ∧ c.timerFd64 = 0 ∧ c.oppsiteConstId = 0

theorem TableWf.connTable (h : TableWf s) : ConnTable s := by
  refine ⟨?_, ?_, ?_, h.entry, ?_, ?_⟩
  · intro k p
    constructor
    · intro hk
      obtain ⟨c, hc, hready, hid⟩ := h.constId k p hk
      obtain ⟨a, ha⟩ := h.stored p c hc
      exact ⟨a, c, ha, hc, hready, hid⟩
    · rintro ⟨a, c, -, hc, hready, rfl⟩
      obtain ⟨b, hwf⟩ := h.ready p c hc hready
      exact hwf.constId
  · exact ⟨h.count, h.count.trans h.card_readyConns.symm, h.count_le⟩
  · intro p c hc
    obtain ⟨a, ha⟩ := h.stored p c hc
    exact ⟨a, ha, fun b hb => h.once b a p hb ha⟩
  · intro p c hc hready
    obtain ⟨b, hwf⟩ := h.ready p c hc hready
    have htimer := (h.fds.old _ hwf.timer).1
    refine ⟨h.address p c hc (by rw [hready]; decide), by rw [hwf.blob]; rfl, by omega, hwf.timer⟩
  · intro p c hc hnot
    have hbare := h.bare p c hc hnot
    exact ⟨hbare.blob, hbare.timer, hbare.constId⟩

/-- In every state that the server reaches, the tables fit, and the next event
fails at most on the bridge. -/
theorem table_of_run {fd : Nat} (hclear : ClearsBridge clear)
    (hreach : Reached (Server.step clear par) Proper (Server.start fd) s) :
    ConnTable s ∧ ∀ ev f, Proper s ev → s.step clear par ev = .error f → Aside f := by
  have hwf : TableWf s := by
    refine hreach.invariant (fun s s' ev out hs hev hok => ?_) (tableWf_start fd)
    exact ((ends_step hclear hs hev).of_ok hok).1
  exact ⟨hwf.connTable, fun ev f hev hf =>
    ((ends_step hclear hwf hev).of_error hf).aside⟩

/-! ## Given events -/

/-- No handshake of the event names the client 0. -/
def Server.Action.named : Server.Action → Bool
  | .raw pkt _ => pkt.recv.bare.all fun data => decide (12 ≤ data.length → readId (data.drop 8) ≠ 0)
  | _ => true

theorem Server.Action.constId_ne (hnamed : act.named) {a : Address} {id1 id2 id3 : UInt32}
    (hshake : Handshake act a id1 id2 id3) : id3 ≠ 0 := by
  obtain ⟨pkt, fr, data, rfl, -, -, hdata, hlen, -, -, rfl⟩ := hshake
  simp only [Server.Action.named] at hnamed
  rw [hdata] at hnamed
  exact of_decide_eq_true hnamed hlen

/-- The check that an event is proper. -/
def Server.proper (s : Server) (ev : Server.Event) : Bool :=
  decide (s.now ≤ ev.now) && ev.action.named

theorem proper_of_check (s : Server) (ev : Server.Event) (h : s.proper ev) : Proper s ev := by
  simp only [Server.proper, Bool.and_eq_true, decide_eq_true_eq] at h
  exact ⟨h.1, fun _ _ _ _ => Server.Action.constId_ne h.2⟩

/-- A packet with the plaintext of a handshake. -/
def handshakePacket (src : Address) (id1 id2 id3 : UInt32) : Server.Packet where
  src := src
  recv := .payload true (some (bareMessage (0, 0) id1 id2 id3)) []

/-- A client with `const_id` 9 opens a connection and completes the handshake. -/
def handshakeEvents : List Server.Event :=
  [⟨1, .raw (handshakePacket ⟨1, 1⟩ 7 0 9) { myId := 5 }⟩,
    ⟨2, .raw (handshakePacket ⟨1, 1⟩ 7 5 9) {}⟩]

/-- After one handshake, one connection is ready. -/
theorem table_of_run_handshake : ∃ s,
    Reached (Server.step serverClearFunction { hbMode0 := true }) Proper (Server.start 3) s ∧
      s.readyNum = 1 ∧ ConnTable s := by
  obtain ⟨s, outs, -, hreach, hnum⟩ := @exists_reached _ _ _ _
    (Server.step serverClearFunction { hbMode0 := true }) Proper _
    (fun r => r.1.readyNum = 1) (Server.start 3) handshakeEvents proper_of_check
    (by decide) (by decide)
  exact ⟨s, hreach, of_decide_eq_true hnum,
    (table_of_run clearsBridge_serverClearFunction hreach).1⟩

end Fecraw.Ports.Raw
