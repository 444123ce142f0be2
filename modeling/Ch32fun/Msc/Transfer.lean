import Ch32fun.Msc.Complete

/-!
# The packets of a `READ(10)`

A `READ(10)` queues eight packets of 64 bytes for each block, whatever length the host announced.
Where packet `k` is copied from depends on the command block alone (`readSrc`), so that the whole
answer has a closed form (`replies_read10_eq`).  The announced length enters the sector and the
offset of a packet by a subtraction that wraps.

## Main definitions

* `Cbw.readOffset`, `Cbw.readLba`, `Cbw.readSrc` : the transfer offset, the sector and the sources
  of packet `k`.
* `ReadAt c k` : the state before packet `k` of the `READ(10)` `c`.
-/

namespace Ch32fun

namespace Cbw

variable {c : Cbw} {k i : ℕ}

/-- `msc_bytes_remaining` before packet `k` of a `READ(10)`. -/
def readRemaining (c : Cbw) (k : ℕ) : UInt32 := .ofNat (64 * (8 * c.blocks.toNat - k))

/-- `cbw.DataTransferLength - msc_bytes_remaining` before packet `k`. -/
def readOffset (c : Cbw) (k : ℕ) : UInt32 := c.dataTransferLength - c.readRemaining k

/-- `current_lba` of packet `k`. -/
def readLba (c : Cbw) (k : ℕ) : UInt32 := c.lba + c.readOffset k / 512

/-- The source of byte `i` of packet `k`. -/
def readSrc (c : Cbw) (k i : ℕ) : Option Src :=
  Msc.read10Src (c.readLba k) (c.readOffset k % 512) 64 i

theorem readRemaining_toNat (c : Cbw) (k : ℕ) :
    (c.readRemaining k).toNat = 64 * (8 * c.blocks.toNat - k) := by
  have := c.blocks_toNat_lt
  rw [readRemaining, UInt32.toNat_ofNat']
  exact Nat.mod_eq_of_lt (by omega)

theorem readOffset_toNat (c : Cbw) (k : ℕ) : (c.readOffset k).toNat =
    (2 ^ 32 - 64 * (8 * c.blocks.toNat - k) + c.dataTransferLength.toNat) % 2 ^ 32 := by
  rw [readOffset, UInt32.toNat_sub, readRemaining_toNat]

end Cbw

namespace Msc

variable {s s' s₁ s₂ : Msc} {a : Input} {as : List Input} {o log e₁ e₂ : List Event}
  {p : OutPacket} {c : Cbw} {k : ℕ}

/-! ### The regions of the disk -/

section Regions

variable {lba off len : UInt32} {i j : ℕ}

theorem ramOffset_toNat (h : startData ≤ lba) : ((lba - startData) * 512 + off).toNat =
    ((lba.toNat - 65) * 512 + off.toNat) % 2 ^ 32 := by
  rw [UInt32.toNat_add, toNat_mul_blockSize, toNat_sub_startData h]
  omega

/-- The guard of the data area, for a packet of 64 bytes. -/
theorem ramOffset_guard_iff (h : startData ≤ lba) :
    (lba - startData) * 512 + off + 64 ≤ mscRamDiskSize ↔
      ((lba.toNat - 65) * 512 + off.toNat + 64) % 2 ^ 32 ≤ 2048 := by
  have h64 : ((lba - startData) * 512 + off + 64).toNat =
      (((lba - startData) * 512 + off).toNat + 64) % 2 ^ 32 := UInt32.toNat_add _ 64
  rw [UInt32.le_iff_toNat_le, h64, ramOffset_toNat h, Nat.mod_add_mod]
  rfl

theorem read10Src_eq_rootDirEntry (h : read10Src lba off len i = some (.rootDirEntry j)) :
    lba = startRoot := by
  rcases region_cases lba with rfl | hl | hl | hl
  · cases h
  · rw [read10Src_fat hl] at h
    split_ifs at h
    cases h
  · rw [read10Src_root hl] at h
    split_ifs at h with hc
    exact hc.1
  · rw [read10Src_data hl] at h
    split_ifs at h
    cases h

end Regions

/-! ### One packet -/

/-- The state with the size field of the cached directory entry up to date. -/
def upToDate (s : Msc) : Msc :=
  { s with rootDirEntry := s.rootDirEntry.write 28 4 (leByte s.activeFileSize) }

/-- What packet `k` of the `READ(10)` `c` outputs. -/
def readLog (s : Msc) (c : Cbw) (k : ℕ) : List Event :=
  ((List.range 64).filterMap (c.readSrc k)).map .copied ++
    [.sent (.data ((List.range 64).map fun i => (c.readSrc k i).elim 0 (Src.load s.upToDate)))]

theorem load_congr {t : Msc} (h₁ : t.mscRamDisk = s.mscRamDisk)
    (h₂ : t.rootDirEntry = s.rootDirEntry) : Src.load t = Src.load s := by
  funext src
  cases src with
  | bootSector i => rfl
  | fatHead i => rfl
  | rootDirEntry i => rw [Src.load, Src.load, h₂]
  | mscRamDisk i => rw [Src.load, Src.load, h₁]

/-- A `READ(10)` before packet `k`. -/
structure ReadAt (c : Cbw) (k : ℕ) (s : Msc) : Prop where
  cbw : s.cbw = c
  opcode : c.opcode = .read10
  remaining : s.mscBytesRemaining = c.readRemaining k

namespace ReadAt

theorem remaining_ne (h : ReadAt c k s) (hk : k < 8 * c.blocks.toNat) :
    s.mscBytesRemaining ≠ 0 := by
  intro h0
  have := congrArg UInt32.toNat (h.remaining.symm.trans h0)
  rw [Cbw.readRemaining_toNat, UInt32.toNat_zero] at this
  omega

theorem readLen (h : ReadAt c k s) (hk : k < 8 * c.blocks.toNat) : s.readLen = 64 := by
  have hr := congrArg UInt32.toNat h.remaining
  rw [Cbw.readRemaining_toNat] at hr
  unfold Msc.readLen
  split_ifs with h64
  · rfl
  · have hle : s.mscBytesRemaining.toNat ≤ 64 := UInt32.le_iff_toNat_le.1 (UInt32.not_lt.1 h64)
    have h64 : s.mscBytesRemaining.toNat = 64 := by omega
    exact UInt32.toNat_inj.1 h64

theorem packetLog (h : ReadAt c k s) (hk : k < 8 * c.blocks.toNat) :
    s.packetLog = s.readLog c k := by
  have hoff : s.transferOffset = c.readOffset k := by
    rw [transferOffset, Cbw.readOffset, h.cbw, h.remaining]
  have hsrc : ∀ i, read10Src s.currentLba s.byteOffsetInSector 64 i = c.readSrc k i := by
    intro i
    rw [Cbw.readSrc, Cbw.readLba, currentLba, byteOffsetInSector, hoff, h.cbw]
  -- a packet that looks at the entry is preceded by its refresh
  have hload : ∀ i, (c.readSrc k i).elim 0 (Src.load s.refreshRoot) =
      (c.readSrc k i).elim 0 (Src.load s.upToDate) := by
    intro i
    cases he : c.readSrc k i with
    | none => rfl
    | some src =>
      cases src with
      | rootDirEntry j =>
        have hroot : s.currentLba = startRoot := by
          rw [← hsrc] at he
          exact read10Src_eq_rootDirEntry he
        rw [Option.elim_some, Option.elim_some, refreshRoot, if_pos hroot]
        rfl
      | mscRamDisk j =>
        obtain ⟨cl, root, hf⟩ := refreshRoot_frame s
        rw [hf]
        rfl
      | _ => rfl
  have hd : s.dataSource = (s.refreshRoot, s.read10Response) := by
    rw [dataSource, h.cbw, h.opcode]
  rw [Msc.packetLog, Msc.packet, hd, readLog, Response.bytes]
  simp only [read10Response, h.readLen hk, hsrc, UInt32.reduceToNat, Option.getD_some, hload]

theorem afterPacket (h : ReadAt c k s) (hk : k < 8 * c.blocks.toNat) :
    ReadAt c (k + 1) s.afterPacket ∧ s.afterPacket.csw = s.csw ∧
      Src.load s.afterPacket.upToDate = Src.load s.upToDate := by
  have ho : s.cbw.opcode = .read10 := by rw [h.cbw, h.opcode]
  obtain ⟨hrem, hcsw⟩ := afterPacket_of_read10 ho
  refine ⟨⟨by simpa using h.cbw, h.opcode, ?_⟩, hcsw, ?_⟩
  · have h64 : (64 : UInt32).toNat = 64 := rfl
    have hle : (64 : UInt32) ≤ c.readRemaining k := by
      rw [UInt32.le_iff_toNat_le, Cbw.readRemaining_toNat, h64]
      omega
    rw [hrem, h.readLen hk, h.remaining]
    apply UInt32.toNat_inj.1
    rw [UInt32.toNat_sub_of_le _ _ hle, Cbw.readRemaining_toNat, Cbw.readRemaining_toNat, h64]
    omega
  · refine load_congr (by simp [upToDate]) ?_
    have hroot : s.afterPacket.rootDirEntry = s.refreshRoot.rootDirEntry := by
      simp [Msc.afterPacket, dataSource, ho, read10Response, updateState]
    rw [upToDate, upToDate, hroot, afterPacket_activeFileSize, refreshRoot]
    split_ifs
    · exact Block.write_write ..
    · rfl

/-- **The rest of a `READ(10)`**, packet by packet. -/
theorem todoIn {n m : ℕ} (h : ReadAt c k s) (hm : k + m = 8 * c.blocks.toNat) (hn : m < n) :
    Msc.todoIn n s = (List.range m).flatMap (fun j => s.readLog c (k + j)) ++
      [.sent (.csw s.csw)] := by
  induction m generalizing n k s with
  | zero =>
    obtain ⟨n, rfl⟩ : ∃ n', n = n' + 1 := ⟨n - 1, by omega⟩
    have h0 : s.mscBytesRemaining = 0 := by
      apply UInt32.toNat_inj.1
      rw [h.remaining, Cbw.readRemaining_toNat, UInt32.toNat_zero]
      omega
    rw [Msc.todoIn, if_pos h0]
    rfl
  | succ m ih =>
    obtain ⟨n, rfl⟩ : ∃ n', n = n' + 1 := ⟨n - 1, by omega⟩
    have hk : k < 8 * c.blocks.toNat := by omega
    obtain ⟨h', hcsw, hload⟩ := h.afterPacket hk
    have hlog : ∀ j, s.afterPacket.readLog c (k + 1 + j) = s.readLog c (k + (j + 1)) := by
      intro j
      rw [readLog, readLog, hload, Nat.add_assoc, Nat.add_comm 1 j]
    rw [Msc.todoIn, if_neg (h.remaining_ne hk), h.packetLog hk, ih h' (by omega) (by omega), hcsw,
      List.range_succ_eq_map, List.flatMap_cons, List.flatMap_map, List.append_assoc]
    simp only [hlog, Nat.add_zero]

end ReadAt

/-- **The answer of `READ(10)`**: eight packets for each block, then the status wrapper. -/
theorem replies_read10_eq (s : Msc) (ho : c.opcode = .read10) : s.replies c =
    (List.range (8 * c.blocks.toNat)).flatMap (s.readLog c) ++
      [.sent (.csw ⟨0x53425355, c.tag, 0, 0⟩)] := by
  have ho' : c.opcode.isDataIn = true := by rw [ho]; rfl
  obtain ⟨hst, hstatus, hrem⟩ := begin_dataIn s ho'
  rw [if_pos ho] at hrem
  have hat : ReadAt c 0 (s.begin c) := by
    refine ⟨begin_cbw s c, ho, ?_⟩
    apply UInt32.toNat_inj.1
    rw [hrem, Cbw.blocks_mul_toNat, Cbw.readRemaining_toNat]
    omega
  have hbound : 8 * c.blocks.toNat < (s.begin c).mscBytesRemaining.toNat + 1 := by
    rw [hrem, Cbw.blocks_mul_toNat]
    omega
  obtain ⟨_, csw, _, _, hf, htag, hres, hsig⟩ := begin_frame s c
  have hcsw : (s.begin c).csw = ⟨0x53425355, c.tag, 0, 0⟩ := by
    rw [hf] at hstatus ⊢
    obtain ⟨sig, tag, res, status⟩ := csw
    exact (Csw.mk.injEq ..).mpr ⟨hsig, htag, hres, hstatus⟩
  have hload : ∀ k, (s.begin c).readLog c k = s.readLog c k := by
    intro k
    have hl : Src.load (s.begin c).upToDate = Src.load s.upToDate := by
      rw [hf]
      exact load_congr rfl rfl
    rw [readLog, readLog, hl]
  rw [replies, if_pos (.inl ho'), todo_dataIn hst, hat.todoIn (Nat.zero_add _) hbound, hcsw]
  simp only [Nat.zero_add, hload]

end Msc

end Ch32fun
