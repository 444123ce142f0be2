import Ch32fun.Msc.Step

/-!
# The moves of the driver

As long as the slot of `EP_MSC_IN` holds what the state machine expects (`SlotInv`), the handlers
do exactly the moves of the relation `Move` (`step_iff_move`), and each of them keeps `SlotInv`.
`SlotInv` therefore holds in every reachable state, and properties of runs are proved by one case
for each move.
-/

namespace Ch32fun

namespace Msc

variable {s s' : Msc} {a : Input} {o : List Event} {p : OutPacket}

/-- What the slot of `EP_MSC_IN` holds in each state of the state machine: nothing while a CBW or
data is expected, no status wrapper during a data-in phase, the status wrapper in
`MSC_SEND_CSW`. -/
def SlotInv (s : Msc) : Prop :=
  match s.mscState with
  | .idle | .dataOut => s.epMscIn = none
  | .dataIn => s.cbw.opcode.isDataIn = true ∧ ∀ w, s.epMscIn ≠ some (.csw w)
  | .sendCsw => s.epMscIn = some (.csw s.csw)

theorem SlotInv.idle (hs : s.SlotInv) (h : s.mscState = .idle) : s.epMscIn = none := by
  rwa [SlotInv, h] at hs

theorem SlotInv.dataOut (hs : s.SlotInv) (h : s.mscState = .dataOut) : s.epMscIn = none := by
  rwa [SlotInv, h] at hs

theorem SlotInv.dataIn (hs : s.SlotInv) (h : s.mscState = .dataIn) :
    s.cbw.opcode.isDataIn = true ∧ ∀ w, s.epMscIn ≠ some (.csw w) := by
  rwa [SlotInv, h] at hs

theorem SlotInv.sendCsw (hs : s.SlotInv) (h : s.mscState = .sendCsw) :
    s.epMscIn = some (.csw s.csw) := by
  rwa [SlotInv, h] at hs

/-- What `MSC_PrepareDataIn` does in `MSC_DATA_IN` with a free slot. -/
inductive Prepare (s : Msc) : List Event → Msc → Prop
  /-- Bytes are left: the next data packet is queued. -/
  | data : s.mscBytesRemaining ≠ 0 →
      Prepare s (s.dataSource.2.copied.map .copied ++ [.sent (.data s.packet)]) s.afterPacket
  /-- No bytes are left: the status wrapper is queued. -/
  | status : s.mscBytesRemaining = 0 → Prepare s [.sent (.csw s.csw)] s.afterStatus

theorem prepare_iff (h : s.mscState = .dataIn) (ho : s.cbw.opcode.isDataIn = true)
    (he : s.epMscIn = none) : s.mscPrepareDataIn = some (s', o) ↔ s.Prepare o s' := by
  by_cases hr : s.mscBytesRemaining = 0
  · rw [mscPrepareDataIn_of_eq h hr he]
    constructor
    · rintro ⟨⟩; exact .status hr
    · rintro (h' | _)
      · exact absurd hr h'
      · rfl
  · rw [mscPrepareDataIn_of_ne h hr ho he]
    constructor
    · rintro ⟨⟩; exact .data hr
    · rintro (_ | h')
      · rfl
      · exact absurd h' hr

/-- How the accepted command `c` starts. -/
inductive Begin (s : Msc) (c : Cbw) : List Event → Msc → Prop
  /-- A command with a data-in phase; its first packet is queued at once. -/
  | dataIn {o : List Event} {s' : Msc} : c.opcode.isDataIn = true → (s.begin c).Prepare o s' →
      Begin s c (.accepted c :: o) s'
  /-- `WRITE(10)`. -/
  | write10 : c.opcode = .write10 → Begin s c [.accepted c] (s.begin c)
  /-- A command without data; its status is queued at once. -/
  | noData : c.opcode.isDataIn = false → c.opcode ≠ .write10 →
      Begin s c [.accepted c, .sent (.csw (s.begin c).csw)] (s.begin c).afterStatus

/-- The moves of the driver. -/
inductive Move (s : Msc) : Input → List Event → Msc → Prop
  /-- A packet during a data-in phase or while the status is pending. -/
  | ignored {p : OutPacket} : s.mscState = .dataIn ∨ s.mscState = .sendCsw → Move s (.out p) [] s
  /-- A packet in `MSC_IDLE` that is no CBW; 31 bytes are latched all the same. -/
  | rejected {p : OutPacket} {c : Cbw} : s.mscState = .idle → ¬ s.Accepts p →
      s.receiveCbw p = some ({ s with cbw := c }, []) → Move s (.out p) [] { s with cbw := c }
  /-- A CBW. -/
  | accept {p : OutPacket} {o : List Event} {s' : Msc} : s.Accepts p → s.Begin p.cbw o s' →
      Move s (.out p) o s'
  /-- A data-out packet with more to come. -/
  | receive {p : OutPacket} : s.mscState = .dataOut →
      s.mscBytesRemaining - s.writeLen p ≠ 0 →
      Move s (.out p) ((s.absorb p (s.writeLen p)).2 ++ [.consumed (s.writeLen p).toNat])
        (s.received p)
  /-- The last data-out packet. -/
  | receiveLast {p : OutPacket} : s.mscState = .dataOut →
      s.mscBytesRemaining - s.writeLen p = 0 →
      Move s (.out p) ((s.absorb p (s.writeLen p)).2 ++
        [.consumed (s.writeLen p).toNat, .sent (.csw s.csw)]) (s.received p).afterStatus
  /-- The host takes a data packet. -/
  | takeData {bs : List UInt8} : s.mscState = .dataIn → s.epMscIn = some (.data bs) →
      Move s .take [.taken (.data bs)] { s with epMscIn := none }
  /-- The host takes the status wrapper. -/
  | takeStatus : s.mscState = .sendCsw →
      Move s .take [.taken (.csw s.csw)] { s with mscState := .idle, epMscIn := none }
  /-- A poll outside a data-in phase. -/
  | pollNothing : s.mscState ≠ .dataIn → Move s .poll [] s
  /-- A poll that queues a packet. -/
  | pollDataIn {o : List Event} {s' : Msc} : s.mscState = .dataIn → s.epMscIn = none →
      s.Prepare o s' → Move s .poll o s'

theorem receiveCbw_iff (hs : s.SlotInv) (ha : s.Accepts p) :
    s.receiveCbw p = some (s', o) ↔ s.Begin p.cbw o s' := by
  have he : s.epMscIn = none := hs.idle ha.1
  have hd : dispatch { s with cbw := p.cbw } =
      if p.cbw.opcode.isDataIn then (s.begin p.cbw).mscPrepareDataIn
      else if p.cbw.opcode = .write10 then some (s.begin p.cbw, [])
      else some ((s.begin p.cbw).afterStatus, [.sent (.csw (s.begin p.cbw).csw)]) :=
    dispatch_eq { s with cbw := p.cbw } he
  rw [receiveCbw_of_accepts ha, hd]
  constructor
  · intro h
    split_ifs at h with h₁ h₂
    · obtain ⟨⟨t, o'⟩, hp, he'⟩ := Option.map_eq_some_iff.1 h
      cases he'
      have hb := begin_dataIn s h₁
      exact .dataIn h₁ ((prepare_iff hb.1 (by simpa using h₁) (by simpa using he)).1 hp)
    · cases h; exact .write10 h₂
    · cases h; exact .noData (by simpa using h₁) h₂
  · intro h
    cases h with
    | dataIn h₁ hp =>
      have hb := begin_dataIn s h₁
      rw [if_pos h₁, (prepare_iff hb.1 (by simpa using h₁) (by simpa using he)).2 hp]
      rfl
    | write10 h₂ =>
      rw [if_neg (by rw [h₂]; decide), if_pos h₂]
      rfl
    | noData h₁ h₂ =>
      rw [if_neg (by simp [h₁]), if_neg h₂]
      rfl

theorem Move.begin_of_accepts (h : s.Move (.out p) o s') (ha : s.Accepts p) :
    s.Begin p.cbw o s' := by
  cases h with
  | ignored h => rcases h with h | h <;> exact absurd (ha.1.symm.trans h) (by decide)
  | rejected _ hn => exact absurd ha hn
  | accept _ hb => exact hb
  | receive h => exact absurd (ha.1.symm.trans h) (by decide)
  | receiveLast h => exact absurd (ha.1.symm.trans h) (by decide)

theorem Move.of_dataOut (h : s.Move (.out p) o s') (hst : s.mscState = .dataOut) :
    (s.mscBytesRemaining - s.writeLen p ≠ 0 ∧
      o = (s.absorb p (s.writeLen p)).2 ++ [.consumed (s.writeLen p).toNat] ∧
      s' = s.received p) ∨
    (s.mscBytesRemaining - s.writeLen p = 0 ∧
      o = (s.absorb p (s.writeLen p)).2 ++
        [.consumed (s.writeLen p).toNat, .sent (.csw s.csw)] ∧
      s' = (s.received p).afterStatus) := by
  cases h with
  | ignored h => rcases h with h | h <;> exact absurd (hst.symm.trans h) (by decide)
  | rejected h => exact absurd (hst.symm.trans h) (by decide)
  | accept h => exact absurd (hst.symm.trans h.1) (by decide)
  | receive _ hr => exact .inl ⟨hr, rfl, rfl⟩
  | receiveLast _ hr => exact .inr ⟨hr, rfl, rfl⟩

theorem Move.of_answering (h : s.Move (.out p) o s')
    (hst : s.mscState = .dataIn ∨ s.mscState = .sendCsw) : o = [] ∧ s' = s := by
  have hne : s.mscState ≠ .idle ∧ s.mscState ≠ .dataOut := by
    rcases hst with h | h <;> rw [h] <;> decide
  cases h with
  | ignored _ => exact ⟨rfl, rfl⟩
  | rejected h => exact absurd h hne.1
  | accept h => exact absurd h.1 hne.1
  | receive h => exact absurd h hne.2
  | receiveLast h => exact absurd h hne.2

theorem handleMscOut_iff_move (hs : s.SlotInv) :
    s.handleMscOut p = some (s', o) ↔ s.Move (.out p) o s' := by
  unfold handleMscOut
  cases hst : s.mscState with
  | idle =>
    by_cases ha : s.Accepts p
    · exact (receiveCbw_iff hs ha).trans ⟨.accept ha, fun h => h.begin_of_accepts ha⟩
    · obtain ⟨c, hc⟩ := receiveCbw_of_not_accepts hst ha
      constructor
      · intro h
        rw [hc] at h
        cases h
        exact .rejected hst ha hc
      · intro h
        cases h with
        | ignored h => rcases h with h | h <;> rw [hst] at h <;> cases h
        | rejected _ _ h => exact h
        | accept h => exact absurd h ha
        | receive h => rw [hst] at h; cases h
        | receiveLast h => rw [hst] at h; cases h
  | dataOut =>
    rw [receiveData_eq p (hs.dataOut hst)]
    constructor
    · intro h
      split_ifs at h with hr
      · cases h; exact .receiveLast hst hr
      · cases h; exact .receive hst hr
    · intro h
      obtain ⟨hr, rfl, rfl⟩ | ⟨hr, rfl, rfl⟩ := h.of_dataOut hst
      · rw [if_neg hr]
      · rw [if_pos hr]
  | dataIn | sendCsw =>
    constructor
    · rintro ⟨⟩; exact .ignored (by simp [hst])
    · intro h
      obtain ⟨rfl, rfl⟩ := h.of_answering (by simp [hst])
      rfl

theorem hostTake_iff_move (hs : s.SlotInv) :
    s.hostTake = some (s', o) ↔ s.Move .take o s' := by
  unfold hostTake handleInRequest
  constructor
  · intro h
    cases hst : s.mscState with
    | idle => rw [hs.idle hst] at h; cases h
    | dataOut => rw [hs.dataOut hst] at h; cases h
    | dataIn =>
      cases he : s.epMscIn with
      | none => rw [he] at h; cases h
      | some q =>
        cases q with
        | csw w => exact absurd he ((hs.dataIn hst).2 w)
        | data bs =>
          simp only [he, hst, reduceCtorEq, ↓reduceIte, Option.some.injEq, Prod.mk.injEq] at h
          obtain ⟨rfl, rfl⟩ := h
          rw [← hst]
          exact .takeData hst he
    | sendCsw =>
      have he := hs.sendCsw hst
      simp only [he, hst, ↓reduceIte, Option.some.injEq, Prod.mk.injEq] at h
      obtain ⟨rfl, rfl⟩ := h
      exact .takeStatus hst
  · intro h
    cases h with
    | takeData hst he => simp [he, hst]
    | takeStatus hst => simp [hs.sendCsw hst, hst]

theorem pollUsbInput_iff_move (hs : s.SlotInv) :
    s.pollUsbInput = some (s', o) ↔ s.Move .poll o s' := by
  unfold pollUsbInput
  by_cases hst : s.mscState = .dataIn
  · rw [if_pos hst]
    constructor
    · intro h
      cases he : s.epMscIn with
      | none => exact .pollDataIn hst he ((prepare_iff hst (hs.dataIn hst).1 he).1 h)
      -- a poll that finds the slot taken spins
      | some q => rw [mscPrepareDataIn_busy hst he] at h; cases h
    · intro h
      cases h with
      | pollNothing h => exact absurd hst h
      | pollDataIn _ he hp => exact (prepare_iff hst (hs.dataIn hst).1 he).2 hp
  · rw [if_neg hst]
    constructor
    · rintro ⟨⟩; exact .pollNothing hst
    · intro h
      cases h with
      | pollNothing _ => rfl
      | pollDataIn h => exact absurd h hst

/-- **The handlers do exactly these moves** while the slot invariant holds. -/
theorem step_iff_move (hs : s.SlotInv) :
    mscMachine.step s a = some (s', o) ↔ s.Move a o s' := by
  cases a with
  | out p => exact handleMscOut_iff_move hs
  | take => exact hostTake_iff_move hs
  | poll => exact pollUsbInput_iff_move hs

/-! ### The slot invariant holds -/

theorem slotInv_afterStatus (s : Msc) : s.afterStatus.SlotInv := rfl

theorem Prepare.slotInv (h : s.Prepare o s') (hst : s.mscState = .dataIn)
    (ho : s.cbw.opcode.isDataIn = true) : s'.SlotInv := by
  cases h with
  | data _ => simp [SlotInv, hst, ho]
  | status _ => exact slotInv_afterStatus s

theorem Move.slotInv (hs : s.SlotInv) (h : s.Move a o s') : s'.SlotInv := by
  cases h with
  | ignored _ => exact hs
  | rejected h _ _ => rw [SlotInv, h]; exact hs.idle h
  | accept ha hb =>
    cases hb with
    | dataIn ho hp => exact hp.slotInv (begin_dataIn s ho).1 (by simpa using ho)
    | write10 ho =>
      rw [SlotInv, (begin_write10 s ho).1, begin_epMscIn]
      exact hs.idle ha.1
    | noData _ _ => exact slotInv_afterStatus _
  | receive h _ =>
    rw [SlotInv, received_mscState, h, received_epMscIn]
    exact hs.dataOut h
  | receiveLast _ _ => exact slotInv_afterStatus _
  | takeData h _ =>
    rw [SlotInv, h]
    exact ⟨(hs.dataIn h).1, by simp⟩
  | takeStatus _ => exact rfl
  | pollNothing _ => exact hs
  | pollDataIn h _ hp => exact hp.slotInv h (hs.dataIn h).1

theorem slotInv_usbInit : usbInit.SlotInv := rfl

theorem SlotInv.run {G : Msc → Input → Prop} {as : List Input} (hs : s.SlotInv)
    (h : mscMachine.Run G s as o s') : s'.SlotInv :=
  h.invariant_state SlotInv hs fun _ _ _ _ hi _ hst => ((step_iff_move hi).1 hst).slotInv hi

theorem Reachable.slotInv (h : s.Reachable) : s.SlotInv := by
  obtain ⟨as, log, hr⟩ := h
  exact slotInv_usbInit.run hr

/-- An invariant of the state and the log that all moves preserve holds along guarded runs. -/
theorem run_invariant {G : Msc → Input → Prop} (Inv : Msc → List Event → Prop) (log : List Event)
    {as : List Input} (h : mscMachine.Run G s as o s') (hs : s.SlotInv) (h₀ : Inv s log)
    (hmove : ∀ s a s' o log, s.SlotInv → Inv s log → G s a → s.Move a o s' → Inv s' (log ++ o)) :
    Inv s' (log ++ o) := by
  refine (h.invariant (fun s log => s.SlotInv ∧ Inv s log) log ⟨hs, h₀⟩ ?_).2
  rintro s a s' o log ⟨hs, hi⟩ hg hst
  have hm := (step_iff_move hs).1 hst
  exact ⟨hm.slotInv hs, hmove s a s' o log hs hi hg hm⟩

/-- With the slot invariant no OUT packet finds the endpoint busy. -/
theorem handleMscOut_ne_none (hs : s.SlotInv) (p : OutPacket) : s.handleMscOut p ≠ none := by
  unfold handleMscOut
  cases hst : s.mscState with
  | idle =>
    by_cases ha : s.Accepts p
    · -- each way of starting a command is a result of the handler
      obtain ⟨o, s', hb⟩ : ∃ o s', s.Begin p.cbw o s' := by
        by_cases ho : p.cbw.opcode.isDataIn = true
        · by_cases hr : (s.begin p.cbw).mscBytesRemaining = 0
          · exact ⟨_, _, .dataIn ho (.status hr)⟩
          · exact ⟨_, _, .dataIn ho (.data hr)⟩
        · by_cases hw : p.cbw.opcode = .write10
          · exact ⟨_, _, .write10 hw⟩
          · exact ⟨_, _, .noData (by simpa using ho) hw⟩
      simp [(receiveCbw_iff hs ha).2 hb]
    · obtain ⟨c, hc⟩ := receiveCbw_of_not_accepts hst ha
      simp [hc]
  | dataOut =>
    rw [receiveData_eq p (hs.dataOut hst)]
    split_ifs <;> simp
  | dataIn | sendCsw => simp

end Msc

end Ch32fun
