import Ch32fun.Msc.Move

/-!
# What is known about the file, and where a write stands

Two invariants of the reachable states.  `FileInv` : the size of the active file never exceeds the
RAM disk, its cluster is never zero, and the cached directory entry changes in its size field only.
`OffsetInv` : in the data-out phase the two counters add up to the end of the transfer, so that
the disk offset is known from the number of bytes received.
-/

namespace Ch32fun

namespace Msc

variable {s s' t : Msc} {a : Input} {o : List Event} {p : OutPacket} {c : Cbw}

/-! ### The file -/

/-- What is known about the file in every state. -/
structure FileInv (s : Msc) : Prop where
  size_le : s.activeFileSize.toNat ≤ ramDiskSize
  cluster_ne : s.activeFileCluster ≠ 0
  entry : ∀ i, i < 28 → s.rootDirEntry.get i = rootDirEntryInit.get i

namespace FileInv

theorem congr (h : s.FileInv) (h₁ : t.activeFileSize = s.activeFileSize)
    (h₂ : t.activeFileCluster = s.activeFileCluster) (h₃ : t.rootDirEntry = s.rootDirEntry) :
    t.FileInv where
  size_le := h₁ ▸ h.size_le
  cluster_ne := h₂ ▸ h.cluster_ne
  entry := h₃ ▸ h.entry

theorem refreshRoot (h : s.FileInv) : s.refreshRoot.FileInv := by
  unfold Msc.refreshRoot
  split_ifs
  · refine ⟨h.size_le, (by decide : fileCluster ≠ 0), fun i hi => ?_⟩
    rw [← h.entry i hi]
    exact Block.get_write_of_lt hi
  · exact h

theorem afterPacket (h : s.FileInv) : s.afterPacket.FileInv := by
  have hd : s.dataSource.1.FileInv := by
    unfold dataSource
    cases s.cbw.opcode
    case read10 => exact h.refreshRoot
    all_goals exact h
  obtain ⟨csw, rem, off, hu, -⟩ := updateState_frame s.dataSource.1 s.dataSource.2
  refine hd.congr ?_ ?_ ?_ <;> rw [Msc.afterPacket, hu]

theorem begin (h : s.FileInv) (c : Cbw) : (s.begin c).FileInv := by
  obtain ⟨_, _, _, _, hf, -⟩ := begin_frame s c
  refine h.congr ?_ ?_ ?_ <;> rw [hf]

theorem clampSize_le (n : UInt32) : (clampSize n).toNat ≤ ramDiskSize := by
  unfold clampSize
  split_ifs with h
  · exact le_rfl
  · exact UInt32.le_iff_toNat_le.1 (UInt32.not_lt.1 h)

theorem snoopEntry (h : s.FileInv) (f : ℕ → UInt8) (i : ℕ) : (snoopEntry f s i).FileInv := by
  unfold Msc.snoopEntry
  split_ifs with hc
  · exact ⟨clampSize_le _, hc.2, h.entry⟩
  · exact h

theorem absorb (h : s.FileInv) (p : OutPacket) (n : UInt32) : (s.absorb p n).1.FileInv := by
  have hfold : ∀ (l : List ℕ) (t : Msc), t.FileInv →
      (l.foldl (Msc.snoopEntry p.data.get) t).FileInv := by
    intro l
    induction l with
    | nil => exact fun t ht => ht
    | cons i l ih => exact fun t ht => ih _ (ht.snoopEntry _ i)
  unfold Msc.absorb
  dsimp only
  split_ifs
  · exact hfold _ _ h
  · unfold writeDataArea
    dsimp only
    split_ifs
    · exact ⟨h.size_le, h.cluster_ne, h.entry⟩
    · exact h
  · exact h

theorem received (h : s.FileInv) (p : OutPacket) : (s.received p).FileInv :=
  (h.absorb p (s.writeLen p)).congr rfl rfl rfl

theorem prepare (h : s.FileInv) (hp : s.Prepare o s') : s'.FileInv := by
  cases hp with
  | data _ => exact h.afterPacket
  | status _ => exact h.congr rfl rfl rfl

theorem move (h : s.FileInv) (hm : s.Move a o s') : s'.FileInv := by
  cases hm with
  | ignored _ => exact h
  | rejected _ _ _ => exact h.congr rfl rfl rfl
  | accept _ hb =>
    cases hb with
    | dataIn _ hp => exact (h.begin _).prepare hp
    | write10 _ => exact h.begin _
    | noData _ _ => exact (h.begin _).congr rfl rfl rfl
  | receive _ _ => exact h.received _
  | receiveLast _ _ => exact (h.received _).congr rfl rfl rfl
  | takeData _ _ => exact h.congr rfl rfl rfl
  | takeStatus _ => exact h.congr rfl rfl rfl
  | pollNothing _ => exact h
  | pollDataIn _ _ hp => exact h.prepare hp

end FileInv

theorem fileInv_usbInit : usbInit.FileInv where
  size_le := by decide
  cluster_ne := by decide
  entry _ _ := rfl

theorem Reachable.fileInv (h : s.Reachable) : s.FileInv := by
  obtain ⟨as, log, hr⟩ := h
  exact run_invariant (fun t _ => t.FileInv) [] hr slotInv_usbInit fileInv_usbInit
    fun _ _ _ _ _ _ hi _ hm => hi.move hm

/-! ### The disk offset -/

/-- Where a write stands: the bytes left are among those of the command, and the counters add up
to the end of the transfer. -/
def OffsetInv (s : Msc) : Prop :=
  s.mscState = .dataOut → s.cbw.opcode = .write10 ∧
    s.mscBytesRemaining.toNat ≤ s.cbw.blocks.toNat * 512 ∧
    s.mscCurrentOffset + s.mscBytesRemaining = (s.cbw.lba + s.cbw.blocks) * mscBlockSize

theorem OffsetInv.of_ne (h : s.mscState ≠ .dataOut) : s.OffsetInv := fun h' => absurd h' h

theorem Prepare.offsetInv (h : s.Prepare o s') (hst : s.mscState = .dataIn) : s'.OffsetInv := by
  cases h with
  | data _ => exact .of_ne (by rw [afterPacket_mscState, hst]; decide)
  | status _ => exact .of_ne fun h => MscState.noConfusion h

theorem OffsetInv.begin (s : Msc) (h : c.opcode = .write10) : (s.begin c).OffsetInv := by
  intro _
  obtain ⟨-, -, hrem, hoff⟩ := begin_write10 s h
  refine ⟨by simpa using h, ?_, ?_⟩
  · rw [begin_cbw, hrem, Cbw.blocks_mul_toNat]
  · rw [begin_cbw, hrem, hoff, UInt32.add_mul]

theorem OffsetInv.received (h : s.OffsetInv) (hst : s.mscState = .dataOut) (p : OutPacket) :
    (s.received p).OffsetInv := by
  intro _
  obtain ⟨ho, hle, hsum⟩ := h hst
  refine ⟨by simpa using ho, ?_, ?_⟩
  · have hw : s.writeLen p ≤ s.mscBytesRemaining := by
      rw [UInt32.le_iff_toNat_le, writeLen_toNat]
      exact Nat.min_le_right _ _
    rw [received_mscBytesRemaining, received_cbw, UInt32.toNat_sub_of_le _ _ hw]
    omega
  · rw [received_mscBytesRemaining, received_mscCurrentOffset, received_cbw, ← hsum,
      UInt32.add_assoc, UInt32.add_comm (s.writeLen p), UInt32.sub_add_cancel]

theorem Move.offsetInv (h : s.Move a o s') (hi : s.OffsetInv) : s'.OffsetInv := by
  cases h with
  | ignored _ => exact hi
  | rejected h _ _ => exact .of_ne (by rw [h]; decide)
  | accept _ hb =>
    cases hb with
    | dataIn ho hp => exact hp.offsetInv (begin_dataIn s ho).1
    | write10 ho => exact .begin s ho
    | noData _ _ => exact .of_ne fun h => MscState.noConfusion h
  | receive h _ => exact hi.received h _
  | receiveLast _ _ => exact .of_ne fun h => MscState.noConfusion h
  | takeData h _ => exact .of_ne (by rw [h]; decide)
  | takeStatus _ => exact .of_ne fun h => MscState.noConfusion h
  | pollNothing _ => exact hi
  | pollDataIn h _ hp => exact hp.offsetInv h

theorem Reachable.offsetInv (h : s.Reachable) : s.OffsetInv := by
  obtain ⟨as, log, hr⟩ := h
  exact run_invariant (fun t _ => t.OffsetInv) [] hr slotInv_usbInit
    (.of_ne fun h => MscState.noConfusion h) fun _ _ _ _ _ _ hi _ hm => hm.offsetInv hi

/-- The bytes of the command in progress that the host has sent. -/
def bytesReceived (s : Msc) : ℕ := s.cbw.blocks.toNat * 512 - s.mscBytesRemaining.toNat

theorem OffsetInv.offset_toNat (h : s.OffsetInv) (hst : s.mscState = .dataOut) :
    s.mscCurrentOffset.toNat = (s.cbw.lba.toNat * 512 + s.bytesReceived) % 2 ^ 32 := by
  obtain ⟨-, hle, hsum⟩ := h hst
  have hB := s.cbw.blocks_toNat_lt
  have hL := s.cbw.lba.toNat_lt
  have hO := s.mscCurrentOffset.toNat_lt
  have h' := congrArg UInt32.toNat hsum
  rw [UInt32.toNat_add, toNat_mul_blockSize, UInt32.toNat_add] at h'
  unfold bytesReceived
  omega

end Msc

end Ch32fun
