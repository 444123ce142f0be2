import Ch32fun.Msc.Invariant

/-!
# The write filter

The RAM disk holds the sectors of one file.  A data-out packet of a data sector is stored there if
its cluster passes the filter, at the offset of its sector within the cluster
(`received_mscRamDisk`).  The comments of the driver describe a filter that lets the cluster of the
active file through and nothing else; the comparison in the code is `>=`.  `ram_unchanged_iff` says
which packets aimed at a sector outside the active cluster leave the RAM disk alone.
-/

namespace Ch32fun

namespace Msc

variable {s s' : Msc} {o : List Event} {p : OutPacket}

/-! ### A data-out packet, in natural numbers -/

/-- The RAM offset of the byte at disk offset `n`. -/
def ramIndex (n : ℕ) : ℕ := (n / 512 - 65) % 8 * 512 + n % 512

/-- The packet passes the filter and fits. -/
def Stored (s : Msc) (p : OutPacket) : Prop :=
  65 ≤ s.mscCurrentOffset.toNat / 512 ∧
    s.activeFileCluster.toNat ≤ 2 + (s.mscCurrentOffset.toNat / 512 - 65) / 8 ∧
    ramIndex s.mscCurrentOffset.toNat + (s.writeLen p).toNat ≤ ramDiskSize

instance (s : Msc) (p : OutPacket) : Decidable (s.Stored p) := by
  unfold Stored
  exact inferInstance

section Sector

variable (s)

theorem startData_le_iff :
    startData ≤ s.mscCurrentOffset / 512 ↔ 65 ≤ s.mscCurrentOffset.toNat / 512 := by
  rw [UInt32.le_iff_toNat_le, toNat_div_512]
  rfl

theorem root_sector_iff :
    startRoot ≤ s.mscCurrentOffset / 512 ∧ s.mscCurrentOffset / 512 < startData ↔
      33 ≤ s.mscCurrentOffset.toNat / 512 ∧ s.mscCurrentOffset.toNat / 512 < 65 := by
  rw [UInt32.le_iff_toNat_le, UInt32.lt_iff_toNat_lt, toNat_div_512]
  rfl

theorem sector_sub_toNat (h : 65 ≤ s.mscCurrentOffset.toNat / 512) :
    (s.mscCurrentOffset / 512 - startData).toNat = s.mscCurrentOffset.toNat / 512 - 65 := by
  rw [toNat_sub_startData ((startData_le_iff s).2 h), toNat_div_512]

theorem targetCluster_ge_iff (h : 65 ≤ s.mscCurrentOffset.toNat / 512) :
    targetCluster (s.mscCurrentOffset / 512) ≥ s.activeFileCluster.toUInt32 ↔
      s.activeFileCluster.toNat ≤ 2 + (s.mscCurrentOffset.toNat / 512 - 65) / 8 := by
  have hO := s.mscCurrentOffset.toNat_lt
  have hc : (targetCluster (s.mscCurrentOffset / 512)).toNat =
      (2 + (s.mscCurrentOffset / 512 - startData).toNat / 8) % 2 ^ 32 := rfl
  rw [ge_iff_le, UInt32.le_iff_toNat_le, hc, sector_sub_toNat s h, UInt16.toNat_toUInt32,
    Nat.mod_eq_of_lt (by omega)]

theorem ramByteOffset_toNat (h : 65 ≤ s.mscCurrentOffset.toNat / 512) :
    (ramByteOffset s.mscCurrentOffset).toNat = ramIndex s.mscCurrentOffset.toNat := by
  have hb : (ramByteOffset s.mscCurrentOffset).toNat =
      ((s.mscCurrentOffset / 512 - startData).toNat % 8 * 512 % 2 ^ 32 +
        s.mscCurrentOffset.toNat % 512) % 2 ^ 32 := rfl
  rw [hb, sector_sub_toNat s h, ramIndex]
  omega

end Sector

/-- **What a data-out packet does to the RAM disk.** -/
theorem received_mscRamDisk (s : Msc) (p : OutPacket) : (s.received p).mscRamDisk =
    if s.Stored p then
      s.mscRamDisk.write (ramIndex s.mscCurrentOffset.toNat) (s.writeLen p).toNat p.data.get
    else s.mscRamDisk := by
  have hlen : (s.writeLen p).toNat ≤ 64 := by
    rw [writeLen_toNat]
    exact (Nat.min_le_left _ _).trans p.len_le
  change (s.absorb p (s.writeLen p)).1.mscRamDisk = _
  unfold absorb
  dsimp only
  by_cases hroot : startRoot ≤ s.mscCurrentOffset / 512 ∧ s.mscCurrentOffset / 512 < startData
  · -- directory sectors are only observed
    obtain ⟨_, _, _, hf⟩ := foldl_snoopEntry_frame p.data.get
      (List.range' 0 (((s.writeLen p).toNat + 31) / 32) 32) s
    have hn : ¬ s.Stored p := fun h => by
      have := ((root_sector_iff s).1 hroot).2
      exact absurd h.1 (by omega)
    rw [if_pos hroot, if_neg hn, snoopDirectory, hf]
  · rw [if_neg hroot]
    by_cases hdata : startData ≤ s.mscCurrentOffset / 512
    · have h65 := (startData_le_iff s).1 hdata
      have hidx := ramByteOffset_toNat s h65
      have hfit : ramByteOffset s.mscCurrentOffset + s.writeLen p ≤ mscRamDiskSize ↔
          ramIndex s.mscCurrentOffset.toNat + (s.writeLen p).toNat ≤ ramDiskSize := by
        have hi : ramIndex s.mscCurrentOffset.toNat < 4096 := by unfold ramIndex; omega
        rw [UInt32.le_iff_toNat_le, UInt32.toNat_add, hidx, Nat.mod_eq_of_lt (by omega)]
        rfl
      rw [if_pos hdata, writeDataArea, hidx]
      split_ifs with h₁ h₂ h₂
      · rfl
      · exact absurd ⟨h65, (targetCluster_ge_iff s h65).1 h₁.1, hfit.1 h₁.2⟩ h₂
      · exact absurd ⟨(targetCluster_ge_iff s h65).2 h₂.2.1, hfit.2 h₂.2.2⟩ h₁
      · rfl
    · rw [if_neg hdata, if_neg fun h => hdata ((startData_le_iff s).2 h.1)]

theorem absorb_stored_lt {i : ℕ} (h : .stored i ∈ (s.absorb p (s.writeLen p)).2) :
    i < ramDiskSize := by
  have hlen : (s.writeLen p).toNat ≤ 64 := by
    rw [writeLen_toNat]
    exact (Nat.min_le_left _ _).trans p.len_le
  unfold absorb at h
  dsimp only at h
  split_ifs at h with hroot hdata
  · simp at h
  · unfold writeDataArea at h
    dsimp only at h
    split_ifs at h with hc
    · obtain ⟨j, hj, he⟩ := List.mem_map.1 h
      obtain rfl := Event.stored.inj he
      have hj := List.mem_range.1 hj
      -- neither the offset nor the sum of the check wraps around
      have hfit := UInt32.le_iff_toNat_le.1 hc.2
      have hi : ramIndex s.mscCurrentOffset.toNat < 4096 := by unfold ramIndex; omega
      rw [UInt32.toNat_add, ramByteOffset_toNat s ((startData_le_iff s).1 hdata),
        Nat.mod_eq_of_lt (by omega)] at hfit
      rw [ramByteOffset_toNat s ((startData_le_iff s).1 hdata)]
      exact lt_of_lt_of_le (Nat.add_lt_add_left hj _) hfit
    · simp at h
  · simp at h

/-! ### Packets outside the active cluster -/

/-- The sector a data-out packet is aimed at: that of the first byte of the command plus the bytes
received so far. -/
def targetSector (s : Msc) : ℕ := (s.cbw.lba.toNat * 512 + s.bytesReceived) / 512

/-- The sector lies in the cluster of the active file. -/
def InActiveCluster (s : Msc) : Prop :=
  65 + 8 * ((s.activeFileCluster.toNat : ℤ) - 2) ≤ s.targetSector ∧
    (s.targetSector : ℤ) ≤ 65 + 8 * ((s.activeFileCluster.toNat : ℤ) - 2) + 7

/-- The packet cannot change the RAM disk: its sector, modulo the `2^23` sectors a 32-bit offset
tells apart, is before the data area; or its cluster is below the active one; or it does not fit;
or the bytes are there already. -/
def Harmless (s : Msc) (p : OutPacket) : Prop :=
  s.targetSector % 2 ^ 23 < 65 ∨
  2 + (s.targetSector % 2 ^ 23 - 65) / 8 < s.activeFileCluster.toNat ∨
  ramDiskSize < (s.targetSector % 2 ^ 23 - 65) % 8 * 512 + s.bytesReceived % 512 +
    min p.len s.mscBytesRemaining.toNat ∨
  ∀ i, i < min p.len s.mscBytesRemaining.toNat →
    s.mscRamDisk.get ((s.targetSector % 2 ^ 23 - 65) % 8 * 512 + s.bytesReceived % 512 + i) =
      p.data.get i

/-- Handling the packet leaves the RAM disk as it is. -/
def RamUnchanged (s : Msc) (p : OutPacket) : Prop :=
  ∀ s' o, s.handleMscOut p = some (s', o) → s'.mscRamDisk = s.mscRamDisk

theorem ramUnchanged_iff_received (hs : s.SlotInv) (hst : s.mscState = .dataOut) :
    s.RamUnchanged p ↔ (s.received p).mscRamDisk = s.mscRamDisk := by
  have hmove : ∀ s' o, s.handleMscOut p = some (s', o) →
      s'.mscRamDisk = (s.received p).mscRamDisk := by
    intro s' o hso
    obtain ⟨-, -, rfl⟩ | ⟨-, -, rfl⟩ := ((handleMscOut_iff_move hs).1 hso).of_dataOut hst
    · rfl
    · rfl
  constructor
  · intro h
    obtain ⟨⟨s', o⟩, hso⟩ := Option.ne_none_iff_exists'.1 (handleMscOut_ne_none hs p)
    rw [← hmove s' o hso, h s' o hso]
  · intro h s' o hso
    rw [hmove s' o hso, h]

theorem received_eq_self_iff (ho : s.OffsetInv) (hst : s.mscState = .dataOut) :
    (s.received p).mscRamDisk = s.mscRamDisk ↔ s.Harmless p := by
  have hoff := ho.offset_toNat hst
  have hsec : s.mscCurrentOffset.toNat / 512 = s.targetSector % 2 ^ 23 := by
    unfold targetSector
    omega
  have hidx : ramIndex s.mscCurrentOffset.toNat =
      (s.targetSector % 2 ^ 23 - 65) % 8 * 512 + s.bytesReceived % 512 := by
    rw [ramIndex, hsec]
    omega
  rw [received_mscRamDisk, Harmless, ← writeLen_toNat, ← hidx]
  by_cases hst : s.Stored p
  · have hst' := hst
    rw [Stored, hsec] at hst'
    rw [if_pos hst, Block.write_eq_self_iff hst.2.2, or_iff_right (by omega),
      or_iff_right (by omega), or_iff_right (by omega)]
  · rw [if_neg hst, eq_self_iff_true, true_iff]
    rw [Stored, hsec] at hst
    omega

/-- **What the write filter protects.**  In a reachable state of the data-out phase, a packet aimed
at a sector outside the active cluster leaves the RAM disk alone if and only if it is
`Harmless`. -/
theorem ram_unchanged_iff (hr : s.Reachable) (hst : s.mscState = .dataOut) (p : OutPacket) :
    (¬ s.InActiveCluster → s.RamUnchanged p) ↔ (s.InActiveCluster ∨ s.Harmless p) := by
  rw [ramUnchanged_iff_received hr.slotInv hst, received_eq_self_iff hr.offsetInv hst,
    or_iff_not_imp_left]

/-- A `WRITE(10)` of the boot sector, at power-up. -/
theorem ram_unchanged_bootSector : ∃ s : Msc, s.Reachable ∧ s.mscState = .dataOut ∧
    (¬ s.InActiveCluster → s.RamUnchanged ⟨fun _ => 0xFF, 64, le_rfl⟩) := by
  have h : mscMachine.step usbInit
      (.out (Cbw.ofBlock 1 512 0 [0x2A, 0, 0, 0, 0, 0, 0, 0, 1]).toPacket) = some (_, _) := rfl
  have hr : Msc.Reachable _ := (Machine.Reachable.refl usbInit).step h
  exact ⟨_, hr, rfl, (ram_unchanged_iff hr rfl _).2 (.inr (.inl (by decide)))⟩

/-- A `WRITE(10)` of the first sector of cluster 3, at power-up, when the active cluster is 2: its
first packet is stored over the script. -/
theorem ram_changed_outside : ∃ (s s' : Msc) (o : List Event) (p : OutPacket),
    s.Reachable ∧ s.mscState = .dataOut ∧ ¬ s.InActiveCluster ∧
      s.handleMscOut p = some (s', o) ∧ s'.mscRamDisk ≠ s.mscRamDisk := by
  have h : mscMachine.step usbInit
      (.out (Cbw.ofBlock 1 512 0 [0x2A, 0, 0, 0, 0, 73, 0, 0, 1]).toPacket) = some (_, _) := rfl
  refine ⟨_, _, _, ⟨fun _ => 0xFF, 64, le_rfl⟩, (Machine.Reachable.refl usbInit).step h, rfl, ?_,
    rfl, fun he => ?_⟩
  · rintro ⟨-, hle⟩
    exact absurd hle (by decide)
  · exact absurd (congrFun he 0) (by decide +kernel)

end Msc

end Ch32fun
