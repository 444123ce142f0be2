import Ch32fun.Msc.Complete
import Ch32fun.Msc.Filter

/-!
# Commands played from `MSC_IDLE` to `MSC_IDLE`

`Play s c data log s'` : the command `c` is accepted in `s` and played until the driver is back in
`MSC_IDLE`, in `s'`.  Takes, polls and stray packets come in any order; a data-out phase is fed with
the bytes `data` in packets of 64.  What a play does to the file depends on nothing else:

* a command other than `WRITE(10)` leaves the file alone, up to a reset of the active cluster
  (`Play.sameFile`);
* a `WRITE(10)` ends in the state `fed`, the fold of its packets (`Play.write`).

Every command but an empty write can be played (`exists_play_any`).
-/

namespace Ch32fun

/-- The 64-byte packet that starts with byte `pos` of `data`. -/
def dataPacket (data : ℕ → UInt8) (pos : ℕ) : OutPacket := ⟨fun i => data (pos + i), 64, le_rfl⟩

theorem dataPacket_get (data : ℕ → UInt8) (pos : ℕ) {i : ℕ} (h : i < 64) :
    (dataPacket data pos).data.get i = data (pos + i) := Block.get_of_lt h

namespace Msc

variable {s s' s₁ t : Msc} {a : Input} {as : List Input} {o log : List Event} {p : OutPacket}
  {c : Cbw} {data : ℕ → UInt8} {n : ℕ}

/-- A command is in progress, and OUT packets of its data phase carry `data`, 64 bytes each. -/
def Feeds (data : ℕ → UInt8) (s : Msc) (a : Input) : Prop :=
  Busy s a ∧ ∀ p, a = .out p → s.mscState = .dataOut → p = dataPacket data s.bytesReceived

/-- The command `c` with the data `data` is played from `s` to `s'`. -/
def Play (s : Msc) (c : Cbw) (data : ℕ → UInt8) (log : List Event) (s' : Msc) : Prop :=
  ∃ p e₁ s₁ as e₂, p.cbw = c ∧ s.Starts p e₁ s₁ ∧ mscMachine.Run (Feeds data) s₁ as e₂ s' ∧
    s'.mscState = .idle ∧ log = e₁ ++ e₂

namespace Play

theorem reachable (h : s.Play c data log s') (hr : s.Reachable) : s'.Reachable := by
  obtain ⟨p, e₁, s₁, as, e₂, -, hst, hrun, -, -⟩ := h
  exact (hr.step hst.2).trans_run hrun

theorem slotInv (h : s.Play c data log s') (hs : s.SlotInv) : s'.SlotInv := by
  obtain ⟨p, e₁, s₁, as, e₂, -, hst, hrun, -, -⟩ := h
  exact (hst.slotInv hs).run hrun

theorem idle (h : s.Play c data log s') : s'.mscState = .idle := by
  obtain ⟨p, e₁, s₁, as, e₂, -, -, -, hidle, -⟩ := h
  exact hidle

theorem outputs (h : s.Play c data log s') (hs : s.SlotInv) : outputs log = s.replies c := by
  obtain ⟨p, e₁, s₁, as, e₂, rfl, hst, hrun, hidle, rfl⟩ := h
  exact command_outputs_of_done hs hst (hrun.mono fun _ _ hg => hg.1) (.inr hidle)

theorem status (h : s.Play c data log s') (hs : s.SlotInv) : ∃ w, sentCsws log = [w] ∧
    w.tag = c.tag ∧ w.status = (s.begin c).csw.status := by
  obtain ⟨ds, w, hshape, htag, hstatus⟩ := replies_shape s c
  rw [← h.outputs hs, sentPackets_outputs] at hshape
  exact ⟨w, sentCsws_of_sentPackets hshape, htag, hstatus⟩

end Play

/-! ### Commands that leave the file alone -/

/-- `t` has the same file as `s`; the active cluster may have been reset. -/
structure SameFile (s t : Msc) : Prop where
  ram : t.mscRamDisk = s.mscRamDisk
  size : t.activeFileSize = s.activeFileSize
  entry : ∀ f, t.rootDirEntry.write 28 4 f = s.rootDirEntry.write 28 4 f
  cluster : t.activeFileCluster = s.activeFileCluster ∨ t.activeFileCluster = fileCluster

namespace SameFile

theorem refl (s : Msc) : s.SameFile s := ⟨rfl, rfl, fun _ => rfl, .inl rfl⟩

theorem trans {u : Msc} (h : s.SameFile t) (h' : t.SameFile u) : s.SameFile u where
  ram := h'.ram.trans h.ram
  size := h'.size.trans h.size
  entry f := (h'.entry f).trans (h.entry f)
  cluster := by
    rcases h'.cluster with hc | hc
    · rw [hc]; exact h.cluster
    · exact .inr hc

theorem refreshRoot (s : Msc) : s.SameFile s.refreshRoot := by
  unfold Msc.refreshRoot
  split_ifs
  · exact ⟨rfl, rfl, fun f => Block.write_write .., .inr rfl⟩
  · exact .refl s

theorem afterPacket (s : Msc) : s.SameFile s.afterPacket := by
  have hd : s.SameFile s.dataSource.1 := by
    unfold dataSource
    cases s.cbw.opcode
    case read10 => exact .refreshRoot s
    all_goals exact .refl s
  obtain ⟨csw, rem, off, hu, -⟩ := updateState_frame s.dataSource.1 s.dataSource.2
  refine hd.trans ?_
  rw [Msc.afterPacket, hu]
  exact ⟨rfl, rfl, fun _ => rfl, .inl rfl⟩

theorem begin (s : Msc) (c : Cbw) : s.SameFile (s.begin c) := by
  obtain ⟨_, _, _, _, hf, -⟩ := begin_frame s c
  rw [hf]
  exact ⟨rfl, rfl, fun _ => rfl, .inl rfl⟩

theorem prepare (h : s.Prepare o s') : s.SameFile s' := by
  cases h with
  | data _ => exact .afterPacket s
  | status _ => exact ⟨rfl, rfl, fun _ => rfl, .inl rfl⟩

theorem start (h : s.Begin c o s') : s.SameFile s' := by
  cases h with
  | dataIn _ hp => exact (SameFile.begin s c).trans (.prepare hp)
  | write10 _ => exact .begin s c
  | noData _ _ => exact (SameFile.begin s c).trans ⟨rfl, rfl, fun _ => rfl, .inl rfl⟩

/-- Outside the data-out phase a command in progress leaves the file alone. -/
theorem move (h : s.Move a o s') (hb : Busy s a) (hst : s.mscState ≠ .dataOut) :
    s.SameFile s' := by
  cases h with
  | ignored _ => exact .refl s
  | rejected h _ _ => exact absurd h hb
  | accept h _ => exact absurd h.1 hb
  | receive h _ => exact absurd h hst
  | receiveLast h _ => exact absurd h hst
  | takeData _ _ => exact ⟨rfl, rfl, fun _ => rfl, .inl rfl⟩
  | takeStatus _ => exact ⟨rfl, rfl, fun _ => rfl, .inl rfl⟩
  | pollNothing _ => exact .refl s
  | pollDataIn _ _ hp => exact .prepare hp

end SameFile

/-- **A command other than `WRITE(10)` leaves the file alone.** -/
theorem Play.sameFile (h : s.Play c data log s') (hs : s.SlotInv) (hw : c.opcode ≠ .write10) :
    s.SameFile s' := by
  obtain ⟨p, e₁, s₁, as, e₂, rfl, hst, hrun, -, -⟩ := h
  have hb := hst.begin hs
  refine (SameFile.start hb).trans (run_invariant
    (fun t _ => t.mscState ≠ .dataOut ∧ s₁.SameFile t) [] hrun (hst.slotInv hs)
    ⟨hb.ne_dataOut hw, .refl s₁⟩ ?_).2
  rintro t a t' o log ht ⟨hne, hi⟩ hg hm
  exact ⟨hm.ne_dataOut ht hg.1 hne, hi.trans (.move hm hg.1 hne)⟩

/-! ### `WRITE(10)` -/

/-- The state after `n` packets of a `WRITE(10)`. -/
def fed (s : Msc) (c : Cbw) (data : ℕ → UInt8) : ℕ → Msc
  | 0 => s.begin c
  | n + 1 => (fed s c data n).received (dataPacket data (64 * n))

/-- A `WRITE(10)` after `n` packets of 64 bytes. -/
structure WriteAt (c : Cbw) (n : ℕ) (t : Msc) : Prop where
  cbw : t.cbw = c
  state : t.mscState = .dataOut
  remaining : t.mscBytesRemaining.toNat = 64 * (8 * c.blocks.toNat - n)
  offset : t.mscCurrentOffset.toNat = (c.lba.toNat * 512 + 64 * n) % 2 ^ 32

namespace WriteAt

theorem bytesReceived (h : WriteAt c n t) (hn : n ≤ 8 * c.blocks.toNat) :
    t.bytesReceived = 64 * n := by
  rw [Msc.bytesReceived, h.cbw, h.remaining]
  omega

theorem writeLen (h : WriteAt c n t) (data : ℕ → UInt8) (hn : n < 8 * c.blocks.toNat) :
    (t.writeLen (dataPacket data (64 * n))).toNat = 64 := by
  rw [writeLen_toNat, h.remaining]
  exact Nat.min_eq_left (show 64 ≤ _ by omega)

theorem received (h : WriteAt c n t) (data : ℕ → UInt8) (hn : n < 8 * c.blocks.toNat) :
    WriteAt c (n + 1) (t.received (dataPacket data (64 * n))) := by
  have hw := h.writeLen data hn
  refine ⟨by simpa using h.cbw, by simpa using h.state, ?_, ?_⟩
  · rw [received_mscBytesRemaining, UInt32.toNat_sub_of_le _ _
      (UInt32.le_iff_toNat_le.2 (by rw [hw, h.remaining]; omega)), hw, h.remaining]
    omega
  · rw [received_mscCurrentOffset, UInt32.toNat_add, hw, h.offset]
    omega

end WriteAt

theorem writeAt_begin (s : Msc) (ho : c.opcode = .write10) : WriteAt c 0 (s.begin c) := by
  obtain ⟨hst, -, hrem, hoff⟩ := begin_write10 s ho
  refine ⟨by simp, hst, ?_, ?_⟩
  · rw [hrem, Cbw.blocks_mul_toNat]
    omega
  · rw [hoff, toNat_mul_blockSize, Nat.mul_zero, Nat.add_zero]

theorem writeAt_fed (s : Msc) (data : ℕ → UInt8) (ho : c.opcode = .write10)
    (hn : n ≤ 8 * c.blocks.toNat) : WriteAt c n (s.fed c data n) := by
  induction n with
  | zero => exact writeAt_begin s ho
  | succ n ih => exact (ih (by omega)).received data (by omega)

/-- The state in which a `WRITE(10)` is done. -/
def fedIdle (s : Msc) (c : Cbw) (data : ℕ → UInt8) : Msc :=
  { (s.fed c data (8 * c.blocks.toNat)).afterStatus with mscState := .idle, epMscIn := none }

/-- The states of a `WRITE(10)` that is fed with `data`. -/
def WriteInv (s : Msc) (c : Cbw) (data : ℕ → UInt8) (t : Msc) : Prop :=
  (∃ n, n < 8 * c.blocks.toNat ∧ t = s.fed c data n) ∨
    t = (s.fed c data (8 * c.blocks.toNat)).afterStatus ∨ t = s.fedIdle c data

theorem WriteInv.move (ho : c.opcode = .write10) (hi : s.WriteInv c data t)
    (hg : Feeds data t a) (hm : t.Move a o t') : s.WriteInv c data t' := by
  rcases hi with ⟨n, hn, rfl⟩ | rfl | rfl
  · have hat := writeAt_fed s data ho hn.le
    have hst := hat.state
    -- in `MSC_DATA_OUT` a packet of the data is received, and nothing else happens
    cases a with
    | out p =>
      have hp : (s.fed c data n).received p = s.fed c data (n + 1) := by
        rw [hg.2 p rfl hst, hat.bytesReceived hn.le]
        rfl
      have hrem := (writeAt_fed s data ho (show n + 1 ≤ _ from hn)).remaining
      rw [← hp, received_mscBytesRemaining] at hrem
      obtain ⟨hr, -, rfl⟩ | ⟨hr, -, rfl⟩ := hm.of_dataOut hst
      · -- bytes are left, so this was not the last packet
        rw [ne_eq, ← UInt32.toNat_inj, hrem, UInt32.toNat_zero] at hr
        exact .inl ⟨n + 1, by omega, hp⟩
      · -- no bytes are left, so this was the last packet
        rw [hr, UInt32.toNat_zero] at hrem
        rw [hp, show n + 1 = 8 * c.blocks.toNat by omega]
        exact .inr (.inl rfl)
    | take =>
      cases hm with
      | takeData h => exact absurd (hst.symm.trans h) (by decide)
      | takeStatus h => exact absurd (hst.symm.trans h) (by decide)
    | poll =>
      cases hm with
      | pollNothing _ => exact .inl ⟨n, hn, rfl⟩
      | pollDataIn h => exact absurd (hst.symm.trans h) (by decide)
  · cases hm with
    | ignored _ => exact .inr (.inl rfl)
    | rejected h => cases h
    | accept h => cases h.1
    | receive h => cases h
    | receiveLast h => cases h
    | takeData h => cases h
    | takeStatus _ => exact .inr (.inr rfl)
    | pollNothing _ => exact .inr (.inl rfl)
    | pollDataIn h => cases h
  · exact absurd rfl hg.1

/-- **A `WRITE(10)` ends in the fold of its packets.** -/
theorem Play.write (h : s.Play c data log s') (hs : s.SlotInv) (ho : c.opcode = .write10)
    (hB : 1 ≤ c.blocks.toNat) : s' = s.fedIdle c data := by
  obtain ⟨p, e₁, s₁, as, e₂, rfl, hst, hrun, hidle, -⟩ := h
  have hs₁ : s₁ = s.begin p.cbw := by
    cases hst.begin hs with
    | dataIn ho' _ => rw [ho] at ho'; cases ho'
    | write10 _ => rfl
    | noData _ hn => exact absurd ho hn
  have hinv : s.WriteInv p.cbw data s' :=
    run_invariant (fun t _ => s.WriteInv p.cbw data t) [] hrun (hst.slotInv hs)
      (.inl ⟨0, by omega, hs₁⟩) fun _ _ _ _ _ _ hi hg hm => hi.move ho hg hm
  rcases hinv with ⟨n, hn, rfl⟩ | rfl | rfl
  · exact absurd ((writeAt_fed s data ho hn.le).state.symm.trans hidle) (by decide)
  · cases hidle
  · rfl

/-! ### Plays exist -/

/-- A `WRITE(10)` is fed up to any packet but the last. -/
theorem exists_run_fed (hs : s.SlotInv) (hidle : s.mscState = .idle) (data : ℕ → UInt8)
    (ho : c.opcode = .write10) (hn : n < 8 * c.blocks.toNat) :
    ∃ as o, mscMachine.Run (Feeds data) (s.begin c) as o (s.fed c data n) := by
  have hbegin : (s.begin c).SlotInv := by
    rw [SlotInv, (begin_write10 s ho).1, begin_epMscIn]
    exact hs.idle hidle
  induction n with
  | zero => exact ⟨[], [], .nil _⟩
  | succ n ih =>
    obtain ⟨as, o, hr⟩ := ih (by omega)
    have hat := writeAt_fed s data ho (show n ≤ _ by omega)
    have hrem := (writeAt_fed s data ho hn.le).remaining
    have hne : (s.fed c data n).mscBytesRemaining -
        (s.fed c data n).writeLen (dataPacket data (64 * n)) ≠ 0 := by
      rw [fed, received_mscBytesRemaining] at hrem
      rw [ne_eq, ← UInt32.toNat_inj, hrem, UInt32.toNat_zero]
      omega
    have hfeed : Feeds data (s.fed c data n) (.out (dataPacket data (64 * n))) := by
      refine ⟨fun h => absurd (hat.state.symm.trans h) (by decide), ?_⟩
      rintro p ⟨⟩ -
      rw [hat.bytesReceived (by omega)]
    exact ⟨_, _, hr.snoc hfeed ((step_iff_move (hbegin.run hr)).2 (.receive hat.state hne))⟩

theorem starts_write (hs : s.SlotInv) (hidle : s.mscState = .idle)
    (hsig : c.signature = Cbw.goodSignature) (ho : c.opcode = .write10) :
    s.Starts c.toPacket [.accepted c] (s.begin c) := by
  have hacc : s.Accepts c.toPacket := ⟨hidle, rfl, by rw [Cbw.cbw_toPacket]; exact hsig⟩
  refine ⟨hacc, (step_iff_move hs).2 (.accept hacc ?_)⟩
  rw [Cbw.cbw_toPacket]
  exact .write10 ho

theorem exists_play_write (hs : s.SlotInv) (hidle : s.mscState = .idle) (data : ℕ → UInt8)
    (hsig : c.signature = Cbw.goodSignature) (ho : c.opcode = .write10)
    (hB : 1 ≤ c.blocks.toNat) : ∃ log s', s.Play c data log s' := by
  obtain ⟨as, o, hr⟩ := exists_run_fed (n := 8 * c.blocks.toNat - 1) hs hidle data ho (by omega)
  have hstart := starts_write hs hidle hsig ho
  have hslot := (hstart.slotInv hs).run hr
  have hat := writeAt_fed s data ho (show 8 * c.blocks.toNat - 1 ≤ _ by omega)
  have hz : (s.fed c data (8 * c.blocks.toNat - 1)).mscBytesRemaining -
      (s.fed c data (8 * c.blocks.toNat - 1)).writeLen
        (dataPacket data (64 * (8 * c.blocks.toNat - 1))) = 0 := by
    have hrem := (hat.received data (by omega)).remaining
    rw [received_mscBytesRemaining] at hrem
    rw [← UInt32.toNat_inj, hrem, UInt32.toNat_zero]
    omega
  -- the last packet, and the host taking the status wrapper
  have hlast := (step_iff_move hslot).2 (.receiveLast hat.state hz)
  have hfeed : Feeds data (s.fed c data (8 * c.blocks.toNat - 1))
      (.out (dataPacket data (64 * (8 * c.blocks.toNat - 1)))) := by
    refine ⟨fun h => absurd (hat.state.symm.trans h) (by decide), ?_⟩
    rintro p ⟨⟩ -
    rw [hat.bytesReceived (by omega)]
  have htake := (step_iff_move (slotInv_afterStatus _)).2 (Move.takeStatus
    (s := ((s.fed c data (8 * c.blocks.toNat - 1)).received
      (dataPacket data (64 * (8 * c.blocks.toNat - 1)))).afterStatus) rfl)
  have hfeed' : Feeds data ((s.fed c data (8 * c.blocks.toNat - 1)).received
      (dataPacket data (64 * (8 * c.blocks.toNat - 1)))).afterStatus .take :=
    ⟨fun h => MscState.noConfusion h, fun p h => by cases h⟩
  exact ⟨_, _, c.toPacket, _, _, _, _, Cbw.cbw_toPacket c, hstart,
    (hr.snoc hfeed hlast).snoc hfeed' htake, rfl, rfl⟩

theorem exists_play_of_ne (data : ℕ → UInt8) (hs : s.SlotInv) (hidle : s.mscState = .idle)
    (hsig : c.signature = Cbw.goodSignature) (hw : c.opcode ≠ .write10) :
    ∃ log s', s.Play c data log s' := by
  have hacc : s.Accepts c.toPacket := ⟨hidle, rfl, by rw [Cbw.cbw_toPacket]; exact hsig⟩
  obtain ⟨⟨s₁, e₁⟩, hstep⟩ := Option.ne_none_iff_exists'.1 (handleMscOut_ne_none hs c.toPacket)
  have hstart : s.Starts c.toPacket e₁ s₁ := ⟨hacc, hstep⟩
  rw [← Cbw.cbw_toPacket c] at hw
  obtain ⟨as, e₂, s₂, hrun, hid⟩ := exists_play hs hstart hw
  -- outside the data-out phase nothing is fed
  have hfeed : mscMachine.Run (Feeds data) s₁ as e₂ s₂ := by
    refine hrun.mono_of_invariant (fun t => t.SlotInv ∧ t.mscState ≠ .dataOut)
      ⟨hstart.slotInv hs, (hstart.begin hs).ne_dataOut hw⟩ ?_ ?_
    · rintro t a t' o ⟨ht, hne⟩ hb hst
      have hm := (step_iff_move ht).1 hst
      exact ⟨hm.slotInv ht, hm.ne_dataOut ht hb hne⟩
    · rintro t a ⟨-, hne⟩ hb
      exact ⟨hb, fun _ _ h => absurd h hne⟩
  exact ⟨_, s₂, c.toPacket, e₁, s₁, as, e₂, Cbw.cbw_toPacket c, hstart, hfeed, hid, rfl⟩

theorem exists_play_dataIn (data : ℕ → UInt8) (hs : s.SlotInv) (hidle : s.mscState = .idle)
    (hsig : c.signature = Cbw.goodSignature) (ho : c.opcode.isDataIn = true) :
    ∃ log s', s.Play c data log s' :=
  exists_play_of_ne data hs hidle hsig (by rintro h; rw [h] at ho; cases ho)

theorem exists_play_any (data : ℕ → UInt8) (hs : s.SlotInv) (hidle : s.mscState = .idle)
    (hsig : c.signature = Cbw.goodSignature) (hB : c.opcode = .write10 → 1 ≤ c.blocks.toNat) :
    ∃ log s', s.Play c data log s' := by
  by_cases hw : c.opcode = .write10
  · exact exists_play_write hs hidle data hsig hw (hB hw)
  · exact exists_play_of_ne data hs hidle hsig hw

end Msc

end Ch32fun
