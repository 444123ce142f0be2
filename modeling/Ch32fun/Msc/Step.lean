import Ch32fun.Msc.Driver
import Mathlib.Algebra.BigOperators.Group.List.Basic
import Mathlib.Tactic.SplitIfs

/-!
# What one step can do

One lemma for each handler, from which the later files argue without unfolding the handlers:

* `mscPrepareDataIn_of_ne`, `mscPrepareDataIn_of_eq`, `mscPrepareDataIn_busy` : the data-in path
  queues a data packet (`packet`, leading to `afterPacket`), queues the status wrapper, or waits;
* `dispatch_eq` : an accepted command, as the state it begins in (`begin`) and the send made there;
* `receiveData_eq` : a data-out packet, as the state `received` and the closing send.

Events that touch no endpoint (`Quiet`) are invisible to every reader of a log but `copies`.
-/

namespace Ch32fun

/-! ### Internal events -/

/-- Bytes copied and bytes stored. -/
def Event.IsInternal : Event → Prop
  | .copied _ | .stored _ => True
  | .accepted _ | .consumed _ | .fallback | .sent _ | .taken _ => False

/-- A log of internal events only. -/
def Quiet (log : List Event) : Prop := ∀ e ∈ log, e.IsInternal

namespace Quiet

variable {log : List Event}

@[simp] theorem nil : Quiet [] := by simp [Quiet]

@[simp] theorem map_copied (l : List Src) : Quiet (l.map .copied) := by
  simp [Quiet, Event.IsInternal]

@[simp] theorem map_stored (l : List ℕ) : Quiet (l.map .stored) := by
  simp [Quiet, Event.IsInternal]

theorem flatMap_eq_nil {β : Type*} {f : Event → List β} (h : Quiet log)
    (hf : ∀ e, e.IsInternal → f e = []) : log.flatMap f = [] :=
  List.flatMap_eq_nil_iff.2 fun e he => hf e (h e he)

theorem sentPackets (h : Quiet log) : sentPackets log = [] :=
  h.flatMap_eq_nil fun e he => by cases e <;> first | rfl | cases he

theorem dataOutCount (h : Quiet log) : dataOutCount log = 0 := by
  refine List.sum_eq_zero fun n hn => ?_
  obtain ⟨e, he, rfl⟩ := List.mem_map.1 hn
  have := h e he
  cases e <;> first | rfl | cases this

theorem fallback_notMem (h : Quiet log) : Event.fallback ∉ log := fun hm => h _ hm

end Quiet

namespace Msc

variable {s : Msc} {p : InPacket}

theorem sendEndpoint_of_none (h : s.epMscIn = none) :
    s.sendEndpoint p = some ({ s with epMscIn := some p }, [.sent p]) := by
  simp [sendEndpoint, h]

theorem sendEndpoint_of_some {q : InPacket} (h : s.epMscIn = some q) :
    s.sendEndpoint p = none := by
  simp [sendEndpoint, h]

theorem sendEndpoint_eq_some {s' : Msc} {o : List Event} (h : s.sendEndpoint p = some (s', o)) :
    s' = { s with epMscIn := some p } ∧ o = [.sent p] := by
  cases he : s.epMscIn with
  | none =>
    rw [sendEndpoint_of_none he] at h
    cases h
    exact ⟨rfl, rfl⟩
  | some q => rw [sendEndpoint_of_some he] at h; cases h

/-- The state after the status wrapper was queued. -/
def afterStatus (s : Msc) : Msc := { s with mscState := .sendCsw, epMscIn := some (.csw s.csw) }

theorem sendStatus_of_none (h : s.epMscIn = none) :
    s.sendStatus = some (s.afterStatus, [.sent (.csw s.csw)]) :=
  sendEndpoint_of_none h

/-! ### The data-in path -/

/-- The bytes of the next data packet. -/
def packet (s : Msc) : List UInt8 := s.dataSource.2.bytes

/-- The state after the next data packet was queued. -/
def afterPacket (s : Msc) : Msc :=
  { s.dataSource.1.updateState s.dataSource.2 with epMscIn := some (.data s.packet) }

/-- The length of the next data packet. -/
def packetLen (s : Msc) : UInt32 := s.dataSource.2.lenToSend

theorem refreshRoot_frame (s : Msc) :
    ∃ cl root, s.refreshRoot = { s with activeFileCluster := cl, rootDirEntry := root } := by
  unfold refreshRoot
  split
  · exact ⟨_, _, rfl⟩
  · exact ⟨s.activeFileCluster, s.rootDirEntry, rfl⟩

theorem dataSource_frame (s : Msc) :
    ∃ cl root, s.dataSource.1 = { s with activeFileCluster := cl, rootDirEntry := root } := by
  unfold dataSource
  split
  · exact refreshRoot_frame s
  all_goals exact ⟨s.activeFileCluster, s.rootDirEntry, rfl⟩

theorem packet_length (s : Msc) : s.packet.length = s.packetLen.toNat := by
  simp [packet, packetLen, Response.bytes]

theorem readLen_ne_zero (h : s.mscBytesRemaining ≠ 0) : s.readLen ≠ 0 := by
  unfold readLen
  split_ifs
  · decide
  · exact h

/-- A data-in command with bytes left never takes the fallback branch. -/
theorem packetLen_pos (ho : s.cbw.opcode.isDataIn = true) (hr : s.mscBytesRemaining ≠ 0) :
    0 < s.packetLen := by
  unfold packetLen dataSource
  cases hc : s.cbw.opcode
  case read10 => exact UInt32.pos_iff_ne_zero.2 (readLen_ne_zero hr)
  case inquiry =>
    simp only [oneShotResponse, Response.header]
    split_ifs
    · exact UInt32.pos_iff_ne_zero.2 hr
    · decide
  all_goals
    first
    | exact absurd ho (by rw [hc]; decide)
    | dsimp only [oneShotResponse, Response.header]; decide

theorem srcPtr_isSome (ho : s.cbw.opcode.isDataIn = true) :
    s.dataSource.2.srcPtr.isSome = true := by
  unfold dataSource
  cases hc : s.cbw.opcode
  all_goals first | exact absurd ho (by rw [hc]; decide) | rfl

theorem updateState_epMscIn (s : Msc) (r : Response) (q : Option InPacket) :
    ({ s with epMscIn := q } : Msc).updateState r = { s.updateState r with epMscIn := q } := by
  unfold updateState
  split <;> rfl

theorem mscPrepareDataIn_of_ne (h : s.mscState = .dataIn) (hr : s.mscBytesRemaining ≠ 0)
    (ho : s.cbw.opcode.isDataIn = true) (he : s.epMscIn = none) :
    s.mscPrepareDataIn = some (s.afterPacket,
      s.dataSource.2.copied.map .copied ++ [.sent (.data s.packet)]) := by
  obtain ⟨cl, root, hs⟩ := dataSource_frame s
  have hlen : 0 < s.dataSource.2.lenToSend := packetLen_pos ho hr
  have he' : s.dataSource.1.epMscIn = none := by rw [hs]; exact he
  simp only [mscPrepareDataIn, h, reduceCtorEq, ↓reduceIte, hr, hlen, srcPtr_isSome ho, and_self,
    sendEndpoint_of_none he', Option.map_some, updateState_epMscIn]
  rfl

theorem mscPrepareDataIn_of_eq (h : s.mscState = .dataIn) (hr : s.mscBytesRemaining = 0)
    (he : s.epMscIn = none) :
    s.mscPrepareDataIn = some (s.afterStatus, [.sent (.csw s.csw)]) := by
  simp [mscPrepareDataIn, h, hr, sendStatus_of_none he]

theorem mscPrepareDataIn_busy (h : s.mscState = .dataIn) {q : InPacket}
    (he : s.epMscIn = some q) : s.mscPrepareDataIn = none := by
  obtain ⟨cl, root, hs⟩ := dataSource_frame s
  have he' : s.dataSource.1.epMscIn = some q := by rw [hs]; exact he
  have hst : ∀ t : Msc, t.epMscIn = some q → t.sendStatus = none :=
    fun t ht => sendEndpoint_of_some (s := { t with mscState := .sendCsw }) ht
  simp only [mscPrepareDataIn, h, reduceCtorEq, ↓reduceIte]
  split
  · exact hst s he
  · split
    · rw [sendEndpoint_of_some he', Option.map_none]
    · rw [hst _ he', Option.map_none]

/-! The choice of the next packet does not look at the slot. -/

theorem refreshRoot_setSlot (s : Msc) (q : Option InPacket) :
    ({ s with epMscIn := q } : Msc).refreshRoot = { s.refreshRoot with epMscIn := q } := by
  unfold refreshRoot
  split_ifs with h₁ h₂ h₂
  · rfl
  · exact absurd h₁ h₂
  · exact absurd h₂ h₁
  · rfl

theorem dataSource_setSlot (s : Msc) (q : Option InPacket) :
    ({ s with epMscIn := q } : Msc).dataSource =
      ({ s.dataSource.1 with epMscIn := q }, s.dataSource.2) := by
  unfold dataSource
  cases s.cbw.opcode
  case read10 =>
    refine Prod.ext (refreshRoot_setSlot s q) ?_
    unfold read10Response
    rw [refreshRoot_setSlot]
    rfl
  all_goals rfl

theorem packet_setSlot (s : Msc) (q : Option InPacket) :
    ({ s with epMscIn := q } : Msc).packet = s.packet := by
  unfold packet
  rw [dataSource_setSlot]

theorem afterPacket_setSlot (s : Msc) (q : Option InPacket) :
    ({ s with epMscIn := q } : Msc).afterPacket = s.afterPacket := by
  unfold afterPacket
  rw [packet_setSlot, dataSource_setSlot, updateState_epMscIn]

section AfterPacket

theorem updateState_frame (s : Msc) (r : Response) : ∃ csw rem off,
    s.updateState r = { s with csw := csw, mscBytesRemaining := rem, mscCurrentOffset := off } ∧
      csw.tag = s.csw.tag ∧ csw.status = s.csw.status ∧ csw.signature = s.csw.signature := by
  unfold updateState
  split
  · exact ⟨_, _, s.mscCurrentOffset, rfl, rfl, rfl, rfl⟩
  · exact ⟨s.csw, _, _, rfl, rfl, rfl, rfl⟩

/-- A data packet leaves everything alone but the transfer counters, the status wrapper's residue,
the active cluster and the cached directory entry. -/
theorem afterPacket_frame (s : Msc) : ∃ csw rem off cl root,
    s.afterPacket = { s with
      csw := csw, mscBytesRemaining := rem, mscCurrentOffset := off, activeFileCluster := cl
      rootDirEntry := root, epMscIn := some (.data s.packet) } ∧
    csw.tag = s.csw.tag ∧ csw.status = s.csw.status ∧ csw.signature = s.csw.signature := by
  obtain ⟨cl, root, hs⟩ := dataSource_frame s
  obtain ⟨csw, rem, off, hu, ht⟩ := updateState_frame s.dataSource.1 s.dataSource.2
  refine ⟨csw, rem, off, cl, root, ?_, ?_⟩
  · unfold afterPacket
    rw [hu, hs]
  · rw [hs] at ht; exact ht

@[simp] theorem afterPacket_epMscIn (s : Msc) : s.afterPacket.epMscIn = some (.data s.packet) := rfl

@[simp] theorem afterPacket_mscState (s : Msc) : s.afterPacket.mscState = s.mscState := by
  obtain ⟨_, _, _, _, _, h, -⟩ := afterPacket_frame s; rw [h]

@[simp] theorem afterPacket_cbw (s : Msc) : s.afterPacket.cbw = s.cbw := by
  obtain ⟨_, _, _, _, _, h, -⟩ := afterPacket_frame s; rw [h]

@[simp] theorem afterPacket_mscRamDisk (s : Msc) : s.afterPacket.mscRamDisk = s.mscRamDisk := by
  obtain ⟨_, _, _, _, _, h, -⟩ := afterPacket_frame s; rw [h]

@[simp] theorem afterPacket_activeFileSize (s : Msc) :
    s.afterPacket.activeFileSize = s.activeFileSize := by
  obtain ⟨_, _, _, _, _, h, -⟩ := afterPacket_frame s; rw [h]

@[simp] theorem afterPacket_csw_tag (s : Msc) : s.afterPacket.csw.tag = s.csw.tag := by
  obtain ⟨_, _, _, _, _, h, ht, -⟩ := afterPacket_frame s; rw [h, ← ht]

@[simp] theorem afterPacket_csw_status (s : Msc) : s.afterPacket.csw.status = s.csw.status := by
  obtain ⟨_, _, _, _, _, h, -, ht, -⟩ := afterPacket_frame s; rw [h, ← ht]

theorem afterPacket_of_read10 (h : s.cbw.opcode = .read10) :
    s.afterPacket.mscBytesRemaining = s.mscBytesRemaining - s.readLen ∧
      s.afterPacket.csw = s.csw := by
  obtain ⟨cl, root, hs⟩ := refreshRoot_frame s
  simp [afterPacket, dataSource, h, read10Response, updateState, hs]

theorem afterPacket_of_oneShot (h : s.cbw.opcode.isDataIn = true) (hn : s.cbw.opcode ≠ .read10) :
    s.afterPacket.mscBytesRemaining = 0 ∧
      s.afterPacket.csw.dataResidue = s.mscBytesRemaining - s.packetLen := by
  unfold afterPacket packetLen dataSource
  cases hc : s.cbw.opcode
  all_goals first | exact absurd hc hn | exact absurd h (by rw [hc]; decide) | exact ⟨rfl, rfl⟩

end AfterPacket

/-! ### Accepting a command -/

/-- The state in which an accepted command begins, before anything is sent for it. -/
def begin (s : Msc) (c : Cbw) : Msc :=
  let s := { s with
    cbw := c
    csw := { signature := 0x53425355, tag := c.tag, dataResidue := 0, status := 0 } }
  match c.opcode with
  | .requestSense | .inquiry | .readCapacity10 | .modeSense6 | .modeSense10 =>
    { s with
      mscState := .dataIn
      mscCurrentOffset := 0
      mscBytesRemaining := c.dataTransferLength }
  | .read10 =>
    { s with
      mscState := .dataIn
      mscCurrentOffset := c.lba * mscBlockSize
      mscBytesRemaining := c.blocks * mscBlockSize }
  | .write10 =>
    { s with
      mscState := .dataOut
      mscCurrentOffset := c.lba * mscBlockSize
      mscBytesRemaining := c.blocks * mscBlockSize }
  | .testUnitReady | .preventAllowRemoval | .other =>
    if 0 < c.dataTransferLength ∧ c.flags &&& 0x80 ≠ 0 then
      { s with csw := { s.csw with status := 1 } }
    else s

/-- The packet `p` is accepted as a CBW in state `s`. -/
def Accepts (s : Msc) (p : OutPacket) : Prop :=
  s.mscState = .idle ∧ p.len = 31 ∧ p.cbw.signature = Cbw.goodSignature

variable {c : Cbw}

theorem begin_frame (s : Msc) (c : Cbw) : ∃ st csw off rem,
    s.begin c = { s with
      mscState := st, cbw := c, csw := csw, mscCurrentOffset := off, mscBytesRemaining := rem } ∧
    csw.tag = c.tag ∧ csw.dataResidue = 0 ∧ csw.signature = 0x53425355 := by
  unfold begin
  cases c.opcode
  case testUnitReady => split_ifs <;> exact ⟨_, _, s.mscCurrentOffset, _, rfl, rfl, rfl, rfl⟩
  case preventAllowRemoval => split_ifs <;> exact ⟨_, _, s.mscCurrentOffset, _, rfl, rfl, rfl, rfl⟩
  case other => split_ifs <;> exact ⟨_, _, s.mscCurrentOffset, _, rfl, rfl, rfl, rfl⟩
  all_goals exact ⟨_, _, _, _, rfl, rfl, rfl, rfl⟩

@[simp] theorem begin_cbw (s : Msc) (c : Cbw) : (s.begin c).cbw = c := by
  obtain ⟨_, _, _, _, h, -⟩ := begin_frame s c; rw [h]

@[simp] theorem begin_epMscIn (s : Msc) (c : Cbw) : (s.begin c).epMscIn = s.epMscIn := by
  obtain ⟨_, _, _, _, h, -⟩ := begin_frame s c; rw [h]

@[simp] theorem begin_mscRamDisk (s : Msc) (c : Cbw) : (s.begin c).mscRamDisk = s.mscRamDisk := by
  obtain ⟨_, _, _, _, h, -⟩ := begin_frame s c; rw [h]

@[simp] theorem begin_activeFileSize (s : Msc) (c : Cbw) :
    (s.begin c).activeFileSize = s.activeFileSize := by
  obtain ⟨_, _, _, _, h, -⟩ := begin_frame s c; rw [h]

@[simp] theorem begin_csw_tag (s : Msc) (c : Cbw) : (s.begin c).csw.tag = c.tag := by
  obtain ⟨_, _, _, _, h, ht, -⟩ := begin_frame s c; rw [h, ← ht]

@[simp] theorem begin_csw_dataResidue (s : Msc) (c : Cbw) : (s.begin c).csw.dataResidue = 0 := by
  obtain ⟨_, _, _, _, h, -, ht, -⟩ := begin_frame s c; rw [h, ← ht]

theorem begin_dataIn (s : Msc) (h : c.opcode.isDataIn = true) :
    (s.begin c).mscState = .dataIn ∧ (s.begin c).csw.status = 0 ∧
      (s.begin c).mscBytesRemaining =
        if c.opcode = .read10 then c.blocks * mscBlockSize else c.dataTransferLength := by
  unfold begin
  cases hc : c.opcode
  all_goals first | exact absurd h (by rw [hc]; decide) | exact ⟨rfl, rfl, rfl⟩

theorem begin_write10 (s : Msc) (h : c.opcode = .write10) :
    (s.begin c).mscState = .dataOut ∧ (s.begin c).csw.status = 0 ∧
      (s.begin c).mscBytesRemaining = c.blocks * mscBlockSize ∧
      (s.begin c).mscCurrentOffset = c.lba * mscBlockSize := by
  unfold begin
  rw [h]
  exact ⟨rfl, rfl, rfl, rfl⟩

theorem dispatch_eq (s : Msc) (he : s.epMscIn = none) : s.dispatch =
    if s.cbw.opcode.isDataIn then (s.begin s.cbw).mscPrepareDataIn
    else if s.cbw.opcode = .write10 then some (s.begin s.cbw, [])
    else some ((s.begin s.cbw).afterStatus, [.sent (.csw (s.begin s.cbw).csw)]) := by
  unfold dispatch begin
  dsimp only
  cases s.cbw.opcode
  case testUnitReady | preventAllowRemoval | other =>
    simp only [Opcode.isDataIn, Bool.false_eq_true, reduceCtorEq, ↓reduceIte]
    split_ifs
    · exact sendStatus_of_none he
    · exact sendStatus_of_none he
  all_goals rfl

theorem receiveCbw_of_accepts {p : OutPacket} (h : s.Accepts p) : s.receiveCbw p =
    (dispatch { s with cbw := p.cbw }).map fun (s', ev) => (s', .accepted p.cbw :: ev) := by
  obtain ⟨-, hl, hs⟩ := h
  simp only [receiveCbw, hl, hs, ne_eq, not_true_eq_false, ↓reduceIte]

/-- A packet that is not accepted in `MSC_IDLE` changes at most the latched command block. -/
theorem receiveCbw_of_not_accepts {p : OutPacket} (h : s.mscState = .idle) (hn : ¬ s.Accepts p) :
    ∃ c, s.receiveCbw p = some ({ s with cbw := c }, []) := by
  unfold receiveCbw
  dsimp only
  split_ifs with hl hs
  · exact ⟨s.cbw, rfl⟩
  · exact ⟨p.cbw, rfl⟩
  · exact absurd ⟨h, not_not.1 hl, not_not.1 hs⟩ hn

/-! ### The data-out phase -/

theorem snoopEntry_frame (f : ℕ → UInt8) (s : Msc) (i : ℕ) : ∃ cl sz fc,
    snoopEntry f s i =
      { s with activeFileCluster := cl, activeFileSize := sz, fileChanged := fc } := by
  unfold snoopEntry
  split_ifs
  · exact ⟨_, _, _, rfl⟩
  · exact ⟨s.activeFileCluster, s.activeFileSize, s.fileChanged, rfl⟩

theorem foldl_snoopEntry_frame (f : ℕ → UInt8) (l : List ℕ) (s : Msc) : ∃ cl sz fc,
    l.foldl (snoopEntry f) s =
      { s with activeFileCluster := cl, activeFileSize := sz, fileChanged := fc } := by
  induction l generalizing s with
  | nil => exact ⟨s.activeFileCluster, s.activeFileSize, s.fileChanged, rfl⟩
  | cons i l ih =>
    obtain ⟨cl, sz, fc, h⟩ := snoopEntry_frame f s i
    obtain ⟨cl', sz', fc', h'⟩ := ih (snoopEntry f s i)
    refine ⟨cl', sz', fc', ?_⟩
    rw [List.foldl_cons, h', h]

theorem absorb_frame (s : Msc) (p : OutPacket) (n : UInt32) : ∃ ram cl sz fc,
    (s.absorb p n).1 = { s with
      mscRamDisk := ram, activeFileCluster := cl, activeFileSize := sz, fileChanged := fc } := by
  unfold absorb
  dsimp only
  split_ifs
  · obtain ⟨cl, sz, fc, h⟩ := foldl_snoopEntry_frame p.data.get _ s
    exact ⟨s.mscRamDisk, cl, sz, fc, h⟩
  · unfold writeDataArea
    dsimp only
    split_ifs
    · exact ⟨_, s.activeFileCluster, s.activeFileSize, s.fileChanged, rfl⟩
    · exact ⟨s.mscRamDisk, s.activeFileCluster, s.activeFileSize, s.fileChanged, rfl⟩
  · exact ⟨s.mscRamDisk, s.activeFileCluster, s.activeFileSize, s.fileChanged, rfl⟩

theorem absorb_stored (s : Msc) (p : OutPacket) (n : UInt32) :
    ∃ l : List ℕ, (s.absorb p n).2 = l.map .stored := by
  unfold absorb
  dsimp only
  split_ifs
  · exact ⟨[], rfl⟩
  · unfold writeDataArea
    dsimp only
    split_ifs
    · exact ⟨(List.range n.toNat).map (fun i => (ramByteOffset s.mscCurrentOffset).toNat + i),
        (List.map_map ..).symm⟩
    · exact ⟨[], rfl⟩
  · exact ⟨[], rfl⟩

theorem absorb_quiet (s : Msc) (p : OutPacket) (n : UInt32) : Quiet (s.absorb p n).2 := by
  obtain ⟨l, hl⟩ := absorb_stored s p n
  rw [hl]
  exact .map_stored l

/-- The state after a data-out packet, before the status wrapper is sent. -/
def received (s : Msc) (p : OutPacket) : Msc :=
  let s' := (s.absorb p (s.writeLen p)).1
  { s' with
    mscCurrentOffset := s'.mscCurrentOffset + s.writeLen p
    mscBytesRemaining := s'.mscBytesRemaining - s.writeLen p }

theorem received_frame (s : Msc) (p : OutPacket) : ∃ ram cl sz fc,
    s.received p = { s with
      mscRamDisk := ram, activeFileCluster := cl, activeFileSize := sz, fileChanged := fc
      mscCurrentOffset := s.mscCurrentOffset + s.writeLen p
      mscBytesRemaining := s.mscBytesRemaining - s.writeLen p } := by
  obtain ⟨ram, cl, sz, fc, h⟩ := absorb_frame s p (s.writeLen p)
  refine ⟨ram, cl, sz, fc, ?_⟩
  unfold received
  rw [h]

section Received

variable (s) (p : OutPacket)

@[simp] theorem received_mscState : (s.received p).mscState = s.mscState := by
  obtain ⟨_, _, _, _, h⟩ := received_frame s p; rw [h]

@[simp] theorem received_cbw : (s.received p).cbw = s.cbw := by
  obtain ⟨_, _, _, _, h⟩ := received_frame s p; rw [h]

@[simp] theorem received_csw : (s.received p).csw = s.csw := by
  obtain ⟨_, _, _, _, h⟩ := received_frame s p; rw [h]

@[simp] theorem received_epMscIn : (s.received p).epMscIn = s.epMscIn := by
  obtain ⟨_, _, _, _, h⟩ := received_frame s p; rw [h]

@[simp] theorem received_mscBytesRemaining :
    (s.received p).mscBytesRemaining = s.mscBytesRemaining - s.writeLen p := by
  obtain ⟨_, _, _, _, h⟩ := received_frame s p; rw [h]

@[simp] theorem received_mscCurrentOffset :
    (s.received p).mscCurrentOffset = s.mscCurrentOffset + s.writeLen p := by
  obtain ⟨_, _, _, _, h⟩ := received_frame s p; rw [h]

theorem writeLen_toNat : (s.writeLen p).toNat = min p.len s.mscBytesRemaining.toNat := by
  have hp : (UInt32.ofNat p.len).toNat = p.len := by
    rw [UInt32.toNat_ofNat']
    exact Nat.mod_eq_of_lt (by have := p.len_le; omega)
  unfold writeLen
  split_ifs with h
  · rw [UInt32.lt_iff_toNat_lt, hp] at h
    omega
  · rw [UInt32.lt_iff_toNat_lt, hp] at h
    omega

end Received

theorem receiveData_eq (p : OutPacket) (he : s.epMscIn = none) :
    s.receiveData p =
      if s.mscBytesRemaining - s.writeLen p = 0 then
        some ((s.received p).afterStatus, (s.absorb p (s.writeLen p)).2 ++
          [.consumed (s.writeLen p).toNat, .sent (.csw s.csw)])
      else some (s.received p, (s.absorb p (s.writeLen p)).2 ++
          [.consumed (s.writeLen p).toNat]) := by
  have h : s.receiveData p =
      if (s.received p).mscBytesRemaining = 0 then
        (s.received p).sendStatus.map fun (s', ev) =>
          (s', (s.absorb p (s.writeLen p)).2 ++ [.consumed (s.writeLen p).toNat] ++ ev)
      else some (s.received p, (s.absorb p (s.writeLen p)).2 ++
          [.consumed (s.writeLen p).toNat]) := rfl
  rw [h, received_mscBytesRemaining]
  split_ifs
  · rw [sendStatus_of_none (by simpa using he)]
    simp
  · rfl

end Msc

end Ch32fun
