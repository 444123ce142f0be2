import Ch32fun.Machine.Routine
import Ch32fun.Msc.Driver
import Mathlib.Tactic.SplitIfs

/-!
# `MSC_PrepareDataIn`, statement by statement

The function as the main loop runs it: interrupts may come between two statements, and at every
turn of its busy-waits.  Statements that touch local variables only are joined to the next one.
Every access to a global is a statement of its own, so a routine below reads the globals exactly
where the source does.

## Main results

* `perform_mscPrepareDataInStmts`, `perform_pollUsbInputStmts` : run without interruption, the
  statements do what `mscPrepareDataIn` and `pollUsbInput` say, including when they spin.
-/

namespace Ch32fun

namespace Msc

/-- `memcpy(msc_response_buffer, src, n)`, one statement. -/
def memcpyStmt (src : ℕ → Src) (n : ℕ) : Routine Msc Event (List UInt8) :=
  .stmt (fun s => (s, (List.range n).map fun i => .copied (src i)))
    fun s => pure ((List.range n).map fun i => (src i).load s)

/-- The first `n` turns of a loop over `msc_response_buffer`; a byte that is not stored stays
zero. -/
def copyStmts (src : ℕ → Option Src) : ℕ → Routine Msc Event (List UInt8)
  | 0 => pure []
  | n + 1 => do
    let buffer ← copyStmts src n
    match src n with
    | none => pure (buffer ++ [0])
    | some x => do
      let b ← memcpyStmt (fun _ => x) 1
      pure (buffer ++ b)

/-- The `READ(10)` case: the length and the bytes of `msc_response_buffer` up to it. -/
def read10Stmts : Routine Msc Event (UInt32 × List UInt8) := do
  let lbaStart ← Routine.read fun s => s.cbw.lba
  let lbaOffset ← Routine.read fun s => s.transferOffset / 512
  let currentLba := lbaStart + lbaOffset
  let len ← Routine.read readLen
  let zeros := List.replicate len.toNat 0
  if currentLba = 0 then
    let off ← Routine.read byteOffsetInSector
    let buffer ← memcpyStmt (fun i => .bootSector (off.toNat + i)) len.toNat
    pure (len, buffer)
  else if startFat1 ≤ currentLba ∧ currentLba < startRoot then
    let off ← Routine.read byteOffsetInSector
    if (currentLba = startFat1 ∨ currentLba = startFat2) ∧ off < 6 then
      let buffer ← copyStmts
        (fun i => if off.toNat + i < 6 then some (.fatHead (off.toNat + i)) else none) len.toNat
      pure (len, buffer)
    else pure (len, zeros)
  else if startRoot ≤ currentLba ∧ currentLba < startData then
    let off ← Routine.read byteOffsetInSector
    if currentLba = startRoot then
      Routine.assign fun s => { s with activeFileCluster := fileCluster }
      Routine.assign fun s =>
        { s with rootDirEntry := s.rootDirEntry.write 28 4 (leByte s.activeFileSize) }
      let buffer ← copyStmts
        (fun i => if off.toNat + i < 32 then some (.rootDirEntry (off.toNat + i)) else none)
        len.toNat
      pure (len, buffer)
    else pure (len, zeros)
  else if startData ≤ currentLba then
    let ramOffset ← Routine.read fun s => (currentLba - startData) * 512 + s.byteOffsetInSector
    if ramOffset + len ≤ mscRamDiskSize then
      let buffer ← memcpyStmt (fun i => .mscRamDisk (ramOffset.toNat + i)) len.toNat
      pure (len, buffer)
    else pure (len, zeros)
  else pure (len, zeros)

/-- The `switch (cbw.CB[0])`; what is copied is observed when it is copied. -/
def dataSourceStmts : Routine Msc Event Response := do
  let opcode ← Routine.read fun s => s.cbw.opcode
  if opcode = .read10 then
    let (len, buffer) ← read10Stmts
    pure ⟨len, some fun i => buffer.getD i 0, false, []⟩
  else
    let remaining ← Routine.read mscBytesRemaining
    pure (oneShotResponse remaining opcode)

/-- Step 4 of `MSC_PrepareDataIn`. -/
def updateStateStmts (r : Response) : Routine Msc Event PUnit :=
  if r.isShortTransfer then do
    Routine.assign fun s =>
      { s with csw := { s.csw with dataResidue := s.mscBytesRemaining - r.lenToSend } }
    Routine.assign fun s => { s with mscBytesRemaining := 0 }
  else do
    Routine.assign fun s => { s with mscBytesRemaining := s.mscBytesRemaining - r.lenToSend }
    Routine.assign fun s => { s with mscCurrentOffset := s.mscCurrentOffset + r.lenToSend }

/-- `msc_state = MSC_SEND_CSW;` and the busy-wait that queues `csw`. -/
def sendStatusStmts (log : List Event) : Routine Msc Event PUnit := do
  Routine.exec fun s => ({ s with mscState := .sendCsw }, log)
  Routine.wait fun s => s.sendEndpoint (.csw s.csw)

/-- `MSC_PrepareDataIn`. -/
def mscPrepareDataInStmts : Routine Msc Event PUnit := do
  let mscState ← Routine.read Msc.mscState
  if mscState = .sendCsw then pure ⟨⟩
  else
    let remaining ← Routine.read mscBytesRemaining
    if remaining = 0 then sendStatusStmts []
    else
      let r ← dataSourceStmts
      if 0 < r.lenToSend ∧ r.srcPtr.isSome then
        Routine.wait fun s => s.sendEndpoint (.data r.bytes)
        updateStateStmts r
      else sendStatusStmts [.fallback]

/-- The mass-storage half of `poll_usb_input`. -/
def pollUsbInputStmts : Routine Msc Event PUnit := do
  let mscState ← Routine.read Msc.mscState
  if mscState = .dataIn then mscPrepareDataInStmts else pure ⟨⟩

/-! ### Without interruption -/

section Perform

variable (s : Msc)

@[simp] theorem perform_memcpyStmt (src : ℕ → Src) (n : ℕ) :
    (memcpyStmt src n).perform s = some ((List.range n).map fun i => (src i).load s, s,
      (List.range n).map fun i => .copied (src i)) := by
  simp [memcpyStmt, Routine.perform]

@[simp] theorem perform_copyStmts (src : ℕ → Option Src) (n : ℕ) :
    (copyStmts src n).perform s = some
      ((List.range n).map fun i => (src i).elim 0 (Src.load s), s,
        ((List.range n).filterMap src).map .copied) := by
  induction n with
  | zero => rfl
  | succ n ih =>
    rw [copyStmts, Routine.perform_bind, ih]
    cases h : src n with
    | none => simp [List.range_succ, h]
    | some x => simp [List.range_succ, h]

theorem bytes_read10Response : s.read10Response.bytes =
    (List.range s.readLen.toNat).map fun i =>
      (read10Src s.currentLba s.byteOffsetInSector s.readLen i).elim 0
        (Src.load s.refreshRoot) := rfl

theorem perform_read10Stmts : read10Stmts.perform s = some
    ((s.readLen, s.read10Response.bytes), s.refreshRoot,
      s.read10Response.copied.map .copied) := by
  have hr : s.currentLba ≠ startRoot → s.refreshRoot = s := fun h => if_neg h
  rw [bytes_read10Response]
  unfold read10Stmts read10Response
  simp only [Routine.perform_read_bind]
  rw [show s.cbw.lba + s.transferOffset / 512 = s.currentLba from rfl]
  rcases region_cases s.currentLba with h | h | h | h
  · have hsrc : read10Src s.currentLba s.byteOffsetInSector s.readLen = fun i =>
        some (.bootSector (s.byteOffsetInSector.toNat + i)) := by
      funext i
      rw [h]
      rfl
    rw [if_pos h, hr (by rw [h]; decide), hsrc]
    simp
  · rw [ite_region_fat _ _ _ _ _ h, hr (UInt32.ne_of_lt h.2),
      show read10Src _ _ _ = _ from funext fun i => read10Src_fat h]
    by_cases hc : (s.currentLba = startFat1 ∨ s.currentLba = startFat2) ∧ s.byteOffsetInSector < 6
    · simp [hc]
    · simp [hc, ← and_assoc]
  · rw [ite_region_root _ _ _ _ _ h,
      show read10Src _ _ _ = _ from funext fun i => read10Src_root h]
    by_cases hc : s.currentLba = startRoot
    · simp [hc, refreshRoot]
    · simp [hc, hr hc]
  · rw [ite_region_data _ _ _ _ _ h, hr fun h' => absurd (h' ▸ h) (by decide),
      show read10Src _ _ _ = _ from funext fun i => read10Src_data h]
    by_cases hc : (s.currentLba - startData) * 512 + s.byteOffsetInSector + s.readLen ≤
        mscRamDiskSize
    · simp [hc]
    · simp [hc]

theorem bytes_of_buffer {buffer : List UInt8} {len : UInt32} (h : buffer.length = len.toNat) :
    (⟨len, some fun i => buffer.getD i 0, false, []⟩ : Response).bytes = buffer := by
  refine List.ext_getElem (by simp [Response.bytes, h]) fun i hi hi' => ?_
  simp [Response.bytes, hi']

/-- The local variables after the `switch`: those of `dataSource`, as far as they are used. -/
theorem perform_dataSourceStmts : ∃ r, dataSourceStmts.perform s = some
    (r, s.dataSource.1, s.dataSource.2.copied.map .copied) ∧
    r.lenToSend = s.dataSource.2.lenToSend ∧ r.bytes = s.dataSource.2.bytes ∧
    r.srcPtr.isSome = s.dataSource.2.srcPtr.isSome ∧
    r.isShortTransfer = s.dataSource.2.isShortTransfer := by
  unfold dataSourceStmts dataSource
  rw [Routine.perform_read_bind]
  cases s.cbw.opcode
  case read10 =>
    refine ⟨⟨s.readLen, some fun i => s.read10Response.bytes.getD i 0, false, []⟩, ?_, rfl,
      bytes_of_buffer (by simp [bytes_read10Response]), rfl, rfl⟩
    simp only [if_true, Routine.perform_bind, perform_read10Stmts, Option.bind_some,
      Routine.perform_pure, Option.map_some, List.append_nil]
  all_goals exact ⟨_, rfl, rfl, rfl, rfl, rfl⟩

theorem perform_updateStateStmts (r : Response) :
    (updateStateStmts r).perform s = some (⟨⟩, s.updateState r, []) := by
  unfold updateStateStmts updateState
  split_ifs <;> simp

theorem perform_sendStatusStmts (log : List Event) :
    (sendStatusStmts log).perform s = s.sendStatus.map fun (s', o) => (⟨⟩, s', log ++ o) := by
  simp [sendStatusStmts, sendStatus, Function.comp_def]

theorem perform_mscPrepareDataInStmts : mscPrepareDataInStmts.perform s =
    s.mscPrepareDataIn.map fun (s', o) => (⟨⟩, s', o) := by
  obtain ⟨r, hr, hlen, hbytes, hptr, hshort⟩ := perform_dataSourceStmts s
  unfold mscPrepareDataInStmts mscPrepareDataIn
  rw [Routine.perform_read_bind]
  by_cases hst : s.mscState = .sendCsw
  · simp [hst]
  rw [if_neg hst, if_neg hst, Routine.perform_read_bind]
  by_cases hrem : s.mscBytesRemaining = 0
  · simp [hrem, perform_sendStatusStmts]
  rw [if_neg hrem, if_neg hrem, Routine.perform_bind, hr, Option.bind_some]
  have hupdate : ∀ t : Msc, t.updateState r = t.updateState s.dataSource.2 := fun t => by
    unfold updateState
    rw [hlen, hshort]
  dsimp only
  rw [hlen, hptr, hbytes]
  split_ifs
  · cases h : s.dataSource.1.sendEndpoint (.data s.dataSource.2.bytes) <;>
      simp [perform_updateStateStmts, hupdate, h]
  · simp [perform_sendStatusStmts, Function.comp_def]

theorem perform_pollUsbInputStmts : pollUsbInputStmts.perform s =
    s.pollUsbInput.map fun (s', o) => (⟨⟩, s', o) := by
  unfold pollUsbInputStmts pollUsbInput
  rw [Routine.perform_read_bind]
  split_ifs
  · exact perform_mscPrepareDataInStmts s
  · rfl

end Perform

end Msc

end Ch32fun
