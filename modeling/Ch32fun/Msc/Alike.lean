import Ch32fun.Msc.Image
import Ch32fun.Msc.Invariant

/-!
# Two runs of one command

A command is answered with packets that depend on the script's bytes and on the size of the file,
and on nothing else that earlier commands have left behind: not on the latched command block, the
status wrapper, the counters, the active cluster or the size bytes of the cached directory entry.

* `Alike` : two states of the driver that will be told apart by no packet of the command in
  progress.
* `Alike.move` : what one of them does, the other does too, with the same packets.
* `sentPackets_replies_congr` : a command begins alike in two states with the same file.
* `no_leftovers` : two runs of one command queue the same packets.
-/

namespace Ch32fun

namespace Msc

variable {s s' s₁ s₂ t : Msc} {a : Input} {as : List Input} {o e₁ e₂ : List Event}
  {p : OutPacket} {c : Cbw}

/-- Two states that agree on what an observer of the packets of the command in progress will
see. -/
structure Alike (s t : Msc) : Prop where
  state : t.mscState = s.mscState
  slot : t.epMscIn = s.epMscIn
  todo : sentPackets (todo t) = sentPackets (todo s)
  remaining : s.mscState = .dataOut → t.mscBytesRemaining = s.mscBytesRemaining

/-! ### One step -/

/-- The first packet to come tells whether bytes are left. -/
theorem sentPackets_todo_of_ne (hst : s.mscState = .dataIn) (ho : s.cbw.opcode.isDataIn = true)
    (hr : s.mscBytesRemaining ≠ 0) : sentPackets (todo s) =
      .data s.packet :: sentPackets (todo s.afterPacket) := by
  rw [todo_of_ne hst ho hr, sentPackets_append, sentPackets_packetLog]
  rfl

theorem Alike.prepare (h : s.Alike t) (hst : s.mscState = .dataIn)
    (ho : s.cbw.opcode.isDataIn = true) (ho' : t.cbw.opcode.isDataIn = true)
    (hp : s.Prepare o s') : ∃ o' t', t.Prepare o' t' ∧ sentPackets o' = sentPackets o ∧
      s'.Alike t' := by
  have hst' : t.mscState = .dataIn := h.state.trans hst
  have htodo := h.todo
  cases hp with
  | data hr =>
    rw [sentPackets_todo_of_ne hst ho hr] at htodo
    by_cases hr' : t.mscBytesRemaining = 0
    · rw [todo_of_eq hst' hr'] at htodo
      cases htodo
    · rw [sentPackets_todo_of_ne hst' ho' hr', List.cons.injEq, InPacket.data.injEq] at htodo
      obtain ⟨hpacket, htodo⟩ := htodo
      refine ⟨_, _, .data hr', ?_, ?_⟩
      · rw [← packetLog, ← packetLog, sentPackets_packetLog, sentPackets_packetLog, hpacket]
      · refine ⟨by simp [hst, hst'], by simp [hpacket], htodo, fun h => ?_⟩
        rw [afterPacket_mscState, hst] at h
        cases h
  | status hr =>
    rw [todo_of_eq hst hr] at htodo
    by_cases hr' : t.mscBytesRemaining = 0
    · rw [todo_of_eq hst' hr'] at htodo
      have hcsw : t.csw = s.csw := by simpa using htodo
      refine ⟨_, _, .status hr', by rw [hcsw], rfl, ?_, rfl, fun h => MscState.noConfusion h⟩
      rw [afterStatus, afterStatus, hcsw]
    · rw [sentPackets_todo_of_ne hst' ho' hr'] at htodo
      cases htodo

/-- The status wrapper that a data-out phase will end with. -/
theorem Alike.csw_of_dataOut (h : s.Alike t) (hst : s.mscState = .dataOut) : t.csw = s.csw := by
  have htodo := h.todo
  rw [todo_dataOut hst, todo_dataOut (h.state.trans hst)] at htodo
  simpa using htodo

theorem Alike.writeLen (h : s.Alike t) (hst : s.mscState = .dataOut) (p : OutPacket) :
    t.writeLen p = s.writeLen p := by
  unfold Msc.writeLen
  rw [h.remaining hst]

/-- **What one of two alike states does, the other does too**, as long as the command is in
progress. -/
theorem Alike.move (h : s.Alike t) (hs : s.SlotInv) (ht : t.SlotInv) (hb : Busy s a)
    (hm : s.Move a o s') : ∃ o' t', t.Move a o' t' ∧ sentPackets o' = sentPackets o ∧
      s'.Alike t' := by
  cases hm with
  | ignored hst => exact ⟨[], t, .ignored (by rwa [h.state]), rfl, h⟩
  | rejected hst => exact absurd hst hb
  | accept ha => exact absurd ha.1 hb
  | @receive p hst hr =>
    have hst' := h.state.trans hst
    have hw := h.writeLen hst p
    have hcsw := h.csw_of_dataOut hst
    refine ⟨_, _, .receive hst' (by rwa [h.remaining hst, hw]), ?_, ?_⟩
    · simp [(absorb_quiet t p _).sentPackets, (absorb_quiet s p _).sentPackets]
    · refine ⟨by simp [h.state], by simp [h.slot], ?_, fun _ => by simp [h.remaining hst, hw]⟩
      rw [todo_dataOut (s := t.received p) (by simpa using hst'),
        todo_dataOut (s := s.received p) (by simpa using hst)]
      simp [hcsw]
  | @receiveLast p hst hr =>
    have hst' := h.state.trans hst
    have hw := h.writeLen hst p
    have hcsw := h.csw_of_dataOut hst
    refine ⟨_, _, .receiveLast hst' (by rwa [h.remaining hst, hw]), ?_, ?_⟩
    · simp [(absorb_quiet t p _).sentPackets, (absorb_quiet s p _).sentPackets, hcsw]
    · exact ⟨rfl, by simp [afterStatus, hcsw], rfl, fun h => MscState.noConfusion h⟩
  | takeData hst he =>
    have hst' := h.state.trans hst
    refine ⟨_, _, .takeData hst' (h.slot.trans he), rfl, h.state, rfl, ?_, fun h' => ?_⟩
    · rw [todo_setSlot hst, todo_setSlot hst']
      exact h.todo
    · exact absurd (hst.symm.trans h') (by decide)
  | takeStatus hst =>
    have hst' := h.state.trans hst
    have hcsw : t.csw = s.csw := by
      have := h.slot
      rw [hs.sendCsw hst, ht.sendCsw hst'] at this
      simpa using this
    exact ⟨_, _, .takeStatus hst', rfl, rfl, rfl, rfl, fun h => MscState.noConfusion h⟩
  | pollNothing hst => exact ⟨[], t, .pollNothing (by rwa [h.state]), rfl, h⟩
  | pollDataIn hst he hp =>
    have hst' := h.state.trans hst
    obtain ⟨o', t', hp', ho', h'⟩ := h.prepare hst (hs.dataIn hst).1 (ht.dataIn hst').1 hp
    exact ⟨o', t', .pollDataIn hst' (h.slot.trans he) hp', ho', h'⟩

/-- **Two runs of a command in progress.** -/
theorem Alike.run (h : s.Alike t) (hs : s.SlotInv) (ht : t.SlotInv)
    (hr : mscMachine.Run Busy s as o s') : ∃ o' t', mscMachine.Run Busy t as o' t' ∧
      sentPackets o' = sentPackets o ∧ s'.Alike t' := by
  induction hr generalizing t with
  | nil s => exact ⟨[], t, .nil t, rfl, h⟩
  | cons hb hst _ ih =>
    obtain ⟨o', t', hm, hsent, h'⟩ := h.move hs ht hb ((step_iff_move hs).1 hst)
    obtain ⟨o'', t'', hr, hsent', h''⟩ :=
      ih h' (((step_iff_move hs).1 hst).slotInv hs) (hm.slotInv ht)
    refine ⟨_, t'', .cons ?_ ((step_iff_move ht).2 hm) hr, by simp [hsent, hsent'], h''⟩
    exact fun hi => hb (h.state.symm.trans hi)

/-! ### The start of a command -/

/-- What a command announces does not depend on what was before. -/
theorem begin_congr (s t : Msc) (c : Cbw) : (t.begin c).csw = (s.begin c).csw := by
  unfold begin
  cases c.opcode
  case testUnitReady => split_ifs <;> rfl
  case preventAllowRemoval => split_ifs <;> rfl
  case other => split_ifs <;> rfl
  all_goals rfl

theorem sentPackets_todo_oneShot (hs : s.mscState = .dataIn) (ht : t.mscState = .dataIn)
    (hcbw : t.cbw = s.cbw) (hcsw : t.csw = s.csw)
    (hrem : t.mscBytesRemaining = s.mscBytesRemaining) (ho : s.cbw.opcode.isDataIn = true)
    (hn : s.cbw.opcode ≠ .read10) : sentPackets (todo t) = sentPackets (todo s) := by
  have hsrc : ∀ u : Msc, u.cbw.opcode ≠ .read10 →
      u.dataSource = (u, oneShotResponse u.mscBytesRemaining u.cbw.opcode) := by
    intro u hu
    unfold dataSource
    split
    · rename_i h
      exact absurd h hu
    · rfl
  have hsrc_s := hsrc s hn
  have hsrc_t := hsrc t (by rwa [hcbw])
  by_cases hr : s.mscBytesRemaining = 0
  · rw [todo_of_eq hs hr, todo_of_eq ht (hrem.trans hr), hcsw]
  · have hpacket : t.packet = s.packet := by
      rw [packet, packet, hsrc_s, hsrc_t, hcbw, hrem]
    have hafter : t.afterPacket.csw = s.afterPacket.csw := by
      rw [afterPacket, afterPacket, hsrc_s, hsrc_t, hcbw, hrem]
      unfold updateState
      split_ifs <;> simp [hcsw, hrem]
    have ho' : t.cbw.opcode.isDataIn = true := by rwa [hcbw]
    have hz := (afterPacket_of_oneShot ho hn).1
    have hz' := (afterPacket_of_oneShot ho' (by rwa [hcbw])).1
    rw [sentPackets_todo_of_ne hs ho hr, sentPackets_todo_of_ne ht ho' (by rwa [hrem]),
      todo_of_eq (by simpa using hs) hz, todo_of_eq (by simpa using ht) hz', hpacket, hafter]

/-- **The packets a command will be answered with** depend on the script's bytes and on the size
of the file alone. -/
theorem sentPackets_replies_congr (hs : s.FileInv) (ht : t.FileInv)
    (hram : t.mscRamDisk = s.mscRamDisk) (hsize : t.activeFileSize = s.activeFileSize)
    (hc : c.opcode = .read10 → c.InRange) :
    sentPackets (t.replies c) = sentPackets (s.replies c) := by
  by_cases hread : c.opcode = .read10
  · -- the size bytes of the cached entry are overwritten before they are sent
    have hentry : t.dirEntry = s.dirEntry := by
      unfold dirEntry
      rw [hsize]
      refine Block.ext_get fun i hi => ?_
      rw [Block.get_write hi, Block.get_write hi]
      split_ifs with h28
      · rfl
      · rw [ht.entry i (by omega), hs.entry i (by omega)]
    have himage := image_congr hram hentry
    have hpacket : t.readPacket c = s.readPacket c := by
      funext k
      rw [readPacket, readPacket, himage]
    rw [sentPackets_replies_read10 t (hc hread), sentPackets_replies_read10 s (hc hread), hpacket]
  · by_cases ho : c.opcode.isDataIn = true
    · obtain ⟨hst, -, hrem⟩ := begin_dataIn s ho
      obtain ⟨hst', -, hrem'⟩ := begin_dataIn t ho
      rw [replies, replies, if_pos (.inl ho), if_pos (.inl ho)]
      exact sentPackets_todo_oneShot hst hst' (by simp) (begin_congr s t c) (hrem'.trans hrem.symm)
        (by simpa using ho) (by simpa using hread)
    · by_cases hw : c.opcode = .write10
      · rw [replies, replies, if_pos (.inr hw), if_pos (.inr hw),
          todo_dataOut (begin_write10 s hw).1, todo_dataOut (begin_write10 t hw).1,
          begin_congr s t c]
      · rw [replies, replies, if_neg (by simp [ho, hw]), if_neg (by simp [ho, hw]),
          begin_congr s t c]

theorem Begin.alike (h : s.Begin c o s') (hs : s.epMscIn = none) (ht : t.epMscIn = none)
    (hreplies : sentPackets (t.replies c) = sentPackets (s.replies c)) :
    ∃ o' t', t.Begin c o' t' ∧ sentPackets o' = sentPackets o ∧ s'.Alike t' := by
  have hcsw := begin_congr s t c
  cases h with
  | dataIn ho hp =>
    obtain ⟨hst, -, -⟩ := begin_dataIn s ho
    obtain ⟨hst', -, -⟩ := begin_dataIn t ho
    have halike : (s.begin c).Alike (t.begin c) := by
      refine ⟨hst'.trans hst.symm, by simp [hs, ht], ?_, fun h => ?_⟩
      · rwa [replies, replies, if_pos (.inl ho), if_pos (.inl ho)] at hreplies
      · exact absurd (hst.symm.trans h) (by decide)
    obtain ⟨o', t', hp', hsent, h'⟩ :=
      halike.prepare hst (by simpa using ho) (by simpa using ho) hp
    exact ⟨_, t', .dataIn ho hp', by simp [hsent], h'⟩
  | write10 ho =>
    obtain ⟨hst, -, hrem, -⟩ := begin_write10 s ho
    obtain ⟨hst', -, hrem', -⟩ := begin_write10 t ho
    refine ⟨_, _, .write10 ho, rfl, hst'.trans hst.symm, by simp [hs, ht], ?_,
      fun _ => hrem'.trans hrem.symm⟩
    rw [todo_dataOut hst, todo_dataOut hst', hcsw]
  | noData ho hw =>
    exact ⟨_, _, .noData ho hw, by simp [hcsw], rfl, by simp [afterStatus, hcsw], rfl,
      fun h => MscState.noConfusion h⟩

/-- **No leftovers between commands.**  Two reachable states in `MSC_IDLE` with the same script in
the RAM disk, whatever happened in them before, answer a command with the same packets when it is
played in the same way. -/
theorem no_leftovers (hs : s.Reachable) (ht : t.Reachable) (hidle : t.mscState = .idle)
    (hram : t.mscRamDisk = s.mscRamDisk) (hsize : t.activeFileSize = s.activeFileSize)
    (hc : p.cbw.opcode = .read10 → p.cbw.InRange) (h₁ : s.Starts p e₁ s₁)
    (h₂ : mscMachine.Run Busy s₁ as e₂ s₂) :
    ∃ f₁ t₁ f₂ t₂, t.Starts p f₁ t₁ ∧ mscMachine.Run Busy t₁ as f₂ t₂ ∧
      sentPackets (f₁ ++ f₂) = sentPackets (e₁ ++ e₂) ∧ t₂.mscState = s₂.mscState := by
  have hreplies := sentPackets_replies_congr hs.fileInv ht.fileInv hram hsize hc
  obtain ⟨f₁, t₁, hb, hsent₁, halike⟩ := (h₁.begin hs.slotInv).alike (hs.slotInv.idle h₁.1.1)
    (ht.slotInv.idle hidle) hreplies
  have hacc : t.Accepts p := ⟨hidle, h₁.1.2⟩
  have hstart : t.Starts p f₁ t₁ := ⟨hacc, (step_iff_move ht.slotInv).2 (.accept hacc hb)⟩
  obtain ⟨f₂, t₂, hrun, hsent₂, h'⟩ :=
    halike.run (h₁.slotInv hs.slotInv) (hstart.slotInv ht.slotInv) h₂
  exact ⟨f₁, t₁, f₂, t₂, hstart, hrun, by simp [hsent₁, hsent₂], h'.state⟩

/-- `INQUIRY` at power-up, and after a packet that was latched but is no CBW. -/
theorem no_leftovers_inquiry : ∃ (t s₁ s₂ t₁ t₂ : Msc) (e₁ e₂ f₁ f₂ : List Event),
    t.cbw ≠ usbInit.cbw ∧
    usbInit.Starts (Cbw.ofBlock 1 36 0x80 [0x12]).toPacket e₁ s₁ ∧
    mscMachine.Run Busy s₁ [.take, .poll, .take] e₂ s₂ ∧
    t.Starts (Cbw.ofBlock 1 36 0x80 [0x12]).toPacket f₁ t₁ ∧
    mscMachine.Run Busy t₁ [.take, .poll, .take] f₂ t₂ ∧
    sentPackets (f₁ ++ f₂) = sentPackets (e₁ ++ e₂) := by
  let q : OutPacket := ⟨fun _ => 1, 31, by omega⟩
  let t : Msc := { usbInit with cbw := q.cbw }
  have hsig : q.cbw.signature ≠ Cbw.goodSignature := by decide +kernel
  have hq : usbInit.receiveCbw q = some (t, []) := by
    rw [receiveCbw, if_neg (by decide), if_pos hsig]
  have hram : ∀ s : Msc, ({ s with cbw := q.cbw } : Msc).mscRamDisk = s.mscRamDisk := fun _ => rfl
  have ht : t.Reachable := (Machine.Reachable.refl usbInit).step
    ((step_iff_move slotInv_usbInit).2 (.rejected rfl (fun h => hsig h.2.2) hq))
  obtain ⟨e₁, s₁, h₁, e₂, s₂, h₂⟩ : ∃ e₁ s₁,
      usbInit.Starts (Cbw.ofBlock 1 36 0x80 [0x12]).toPacket e₁ s₁ ∧
      ∃ e₂ s₂, mscMachine.Run Busy s₁ [.take, .poll, .take] e₂ s₂ := by
    refine ⟨_, _, ⟨⟨rfl, rfl, rfl⟩, rfl⟩, _, _, .cons ?_ rfl (.cons ?_ rfl (.cons ?_ rfl (.nil _)))⟩
    all_goals exact fun h => MscState.noConfusion h
  have hc : (Cbw.ofBlock 1 36 0x80 [0x12]).toPacket.cbw.opcode ≠ .read10 := by decide +kernel
  obtain ⟨f₁, t₁, f₂, t₂, h₃, h₄, hsent, -⟩ :=
    no_leftovers (.refl usbInit) ht rfl (hram usbInit) rfl (fun h => absurd h hc) h₁ h₂
  exact ⟨t, s₁, s₂, t₁, t₂, e₁, e₂, f₁, f₂,
    fun h => absurd (congrArg Cbw.signature h) (by decide +kernel), h₁, h₂, h₃, h₄, hsent⟩

end Msc

end Ch32fun
