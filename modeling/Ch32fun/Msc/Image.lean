import Ch32fun.Msc.Transfer

/-!
# `READ(10)` serves a disk image

What the volume holds is a function of the driver's state: `image s n j` is byte `j` of sector `n`.
A well-formed `READ(10)` (the length announced is that of its blocks, and the blocks lie on the
disk) is answered with the image of its sectors, in packets of 64 bytes, and with one status
wrapper (`read10_serves`), under every schedule.
-/

namespace Ch32fun

namespace Msc

variable {s : Msc}

/-- The directory entry with the size of the active file. -/
def dirEntry (s : Msc) : Block UInt8 32 := s.rootDirEntry.write 28 4 (leByte s.activeFileSize)

/-- Byte `j` of sector `n` of the volume. -/
def image (s : Msc) (n j : ℕ) : UInt8 :=
  if n = 0 then bootSector.get j
  else if n = 1 ∨ n = 17 then [0xF8, 0xFF, 0xFF, 0xFF, 0xFF, 0xFF].getD j 0
  else if n = 33 then s.dirEntry.get j
  else if 65 ≤ n ∧ n ≤ 68 then s.mscRamDisk.get ((n - 65) * 512 + j)
  else 0

/-- Sector `n` of the volume. -/
def sector (s : Msc) (n : ℕ) : List UInt8 := (List.range 512).map (s.image n)

theorem image_congr {t : Msc} (h₁ : t.mscRamDisk = s.mscRamDisk) (h₂ : t.dirEntry = s.dirEntry) :
    t.image = s.image := by
  funext n j
  rw [image, image, h₁, h₂]

theorem image_fat {n : ℕ} (h : 1 ≤ n ∧ n < 33) (s : Msc) (j : ℕ) : s.image n j =
    if n = 1 ∨ n = 17 then [0xF8, 0xFF, 0xFF, 0xFF, 0xFF, 0xFF].getD j 0 else 0 := by
  have hdata : ¬ (65 ≤ n ∧ n ≤ 68) := by omega
  have hroot : ¬ n = 33 := by omega
  rw [image, if_neg (by omega), if_neg hroot, if_neg hdata]

theorem image_root {n : ℕ} (h : 33 ≤ n ∧ n < 65) (s : Msc) (j : ℕ) :
    s.image n j = if n = 33 then s.dirEntry.get j else 0 := by
  have hdata : ¬ (65 ≤ n ∧ n ≤ 68) := by omega
  rw [image, if_neg (by omega), if_neg (by omega), if_neg hdata]

theorem image_data {n : ℕ} (h : 65 ≤ n) (s : Msc) (j : ℕ) :
    s.image n j = if n ≤ 68 then s.mscRamDisk.get ((n - 65) * 512 + j) else 0 := by
  rw [image, if_neg (by omega), if_neg (by omega), if_neg (by omega)]
  simp only [h, true_and]

end Msc

namespace Cbw.InRange

variable {c : Cbw} {k : ℕ}

theorem readOffset (h : c.InRange) (hk : k < 8 * c.blocks.toNat) :
    (c.readOffset k).toNat = 64 * k := by
  have hB := c.blocks_toNat_lt
  rw [readOffset_toNat, h.length]
  omega

theorem readLba (h : c.InRange) (hk : k < 8 * c.blocks.toNat) :
    (c.readLba k).toNat = c.lba.toNat + k / 8 := by
  have hfits : c.lba.toNat + c.blocks.toNat ≤ 0x4000 := h.fits
  rw [Cbw.readLba, UInt32.toNat_add, toNat_div_512, h.readOffset hk]
  omega

theorem readOffset_mod (h : c.InRange) (hk : k < 8 * c.blocks.toNat) :
    (c.readOffset k % 512).toNat = 64 * (k % 8) := by
  rw [toNat_mod_512, h.readOffset hk]
  omega

end Cbw.InRange

namespace Msc

open Machine

variable {s s' s₁ s₂ : Msc} {a : Input} {as : List Input} {o log e₁ e₂ : List Event}
  {p : OutPacket} {c : Cbw} {k i : ℕ}

section Load

variable {lba off : UInt32}

theorem load_read10Src_fat (hl : startFat1 ≤ lba ∧ lba < startRoot) :
    (read10Src lba off 64 i).elim 0 (Src.load s.upToDate) = s.image lba.toNat (off.toNat + i) := by
  have h₁ : 1 ≤ lba.toNat := UInt32.le_iff_toNat_le.1 hl.1
  have h₂ : lba.toNat < 33 := UInt32.lt_iff_toNat_lt.1 hl.2
  have h6 : off < 6 ↔ off.toNat < 6 := UInt32.lt_iff_toNat_lt
  have hf : lba = startFat1 ∨ lba = startFat2 ↔ lba.toNat = 1 ∨ lba.toNat = 17 := by
    rw [← UInt32.toNat_inj, ← UInt32.toNat_inj]
    rfl
  rw [read10Src_fat hl, image_fat ⟨h₁, h₂⟩]
  simp only [hf, h6]
  by_cases hfat : lba.toNat = 1 ∨ lba.toNat = 17
  · rw [if_pos hfat]
    by_cases hin : off.toNat + i < 6
    · rw [if_pos ⟨hfat, by omega, hin⟩]
      exact Block.get_ofList hin
    · rw [if_neg (fun h => hin h.2.2)]
      rw [List.getD_eq_getElem?_getD, List.getElem?_eq_none (by simpa using hin)]
      rfl
  · rw [if_neg (fun h => hfat h.1), if_neg hfat]
    rfl

theorem load_read10Src_root (hl : startRoot ≤ lba ∧ lba < startData) :
    (read10Src lba off 64 i).elim 0 (Src.load s.upToDate) = s.image lba.toNat (off.toNat + i) := by
  have h₁ : 33 ≤ lba.toNat := UInt32.le_iff_toNat_le.1 hl.1
  have h₂ : lba.toNat < 65 := UInt32.lt_iff_toNat_lt.1 hl.2
  have hf : lba = startRoot ↔ lba.toNat = 33 := UInt32.toNat_inj.symm
  rw [read10Src_root hl, image_root ⟨h₁, h₂⟩]
  simp only [hf]
  by_cases hroot : lba.toNat = 33
  · rw [if_pos hroot]
    by_cases hin : off.toNat + i < 32
    · rw [if_pos ⟨hroot, hin⟩]
      rfl
    · rw [if_neg (fun h => hin h.2)]
      rw [Block.get_of_le (by omega)]
      rfl
  · rw [if_neg (fun h => hroot h.1), if_neg hroot]
    rfl

/-- On the disk the guard of the data area does not wrap, and admits just the sectors of the RAM
disk. -/
theorem load_read10Src_data (hl : startData ≤ lba) (hlba : lba.toNat < mscTotalSectors.toNat)
    (hoff : off.toNat ≤ 448) :
    (read10Src lba off 64 i).elim 0 (Src.load s.upToDate) = s.image lba.toNat (off.toNat + i) := by
  have hlba : lba.toNat < 0x4000 := hlba
  have h₁ : 65 ≤ lba.toNat := UInt32.le_iff_toNat_le.1 hl
  have hram : ((lba - startData) * 512 + off).toNat = (lba.toNat - 65) * 512 + off.toNat := by
    rw [ramOffset_toNat hl]
    omega
  have hguard : (lba - startData) * 512 + off + 64 ≤ mscRamDiskSize ↔ lba.toNat ≤ 68 := by
    rw [ramOffset_guard_iff hl]
    omega
  rw [read10Src_data hl, image_data h₁]
  simp only [hguard]
  by_cases hin : lba.toNat ≤ 68
  · rw [if_pos hin, if_pos hin, hram, Nat.add_assoc]
    rfl
  · rw [if_neg hin, if_neg hin]
    rfl

theorem load_read10Src (hlba : lba.toNat < mscTotalSectors.toNat) (hoff : off.toNat ≤ 448) :
    (read10Src lba off 64 i).elim 0 (Src.load s.upToDate) = s.image lba.toNat (off.toNat + i) := by
  rcases region_cases lba with rfl | hl | hl | hl
  · rfl
  · exact load_read10Src_fat hl
  · exact load_read10Src_root hl
  · exact load_read10Src_data hl hlba hoff

end Load

/-- The data of packet `k` of a `READ(10)`. -/
def readPacket (s : Msc) (c : Cbw) (k : ℕ) : List UInt8 :=
  (List.range 64).map fun i => s.image (c.lba.toNat + k / 8) (64 * (k % 8) + i)

theorem sentPackets_readLog (h : c.InRange) (hk : k < 8 * c.blocks.toNat) :
    sentPackets (s.readLog c k) = [.data (s.readPacket c k)] := by
  have hlba := h.readLba hk
  have hoff := h.readOffset_mod hk
  have hfits := h.fits
  rw [readLog, sentPackets_append, (Quiet.map_copied _).sentPackets]
  simp only [sentPackets_cons, Event.sentPackets, sentPackets_nil, List.append_nil,
    List.nil_append, List.cons.injEq, InPacket.data.injEq, and_true]
  refine List.map_congr_left fun i _ => ?_
  rw [Cbw.readSrc, load_read10Src (by omega) (by omega), hlba, hoff]

/-- **The packets of an in-range `READ(10)`.** -/
theorem sentPackets_replies_read10 (s : Msc) (h : c.InRange) : sentPackets (s.replies c) =
    ((List.range (8 * c.blocks.toNat)).map (s.readPacket c)).map .data ++
      [.csw ⟨0x53425355, c.tag, 0, 0⟩] := by
  have hflat : ∀ l : List ℕ, (∀ k ∈ l, k < 8 * c.blocks.toNat) →
      sentPackets (l.flatMap (s.readLog c)) = (l.map (s.readPacket c)).map .data := by
    intro l hl
    induction l with
    | nil => rfl
    | cons k l ih =>
      rw [List.flatMap_cons, sentPackets_append, sentPackets_readLog h (hl k List.mem_cons_self),
        ih fun k hk => hl k (List.mem_cons_of_mem _ hk)]
      rfl
  rw [replies_read10_eq s h.opcode, sentPackets_append, hflat _ fun k => List.mem_range.1]
  rfl

theorem flatMap_sector (s : Msc) (lba n : ℕ) :
    (List.range n).flatMap (fun b => s.sector (lba + b)) =
      (List.range (n * 512)).map fun x => s.image (lba + x / 512) (x % 512) := by
  rw [← flatMap_range_mul]
  refine List.flatMap_congr fun b _ => List.map_congr_left fun i hi => ?_
  have hi := List.mem_range.1 hi
  congr 1 <;> omega

theorem flatten_readPackets (s : Msc) (c : Cbw) (n : ℕ) :
    ((List.range (8 * n)).map (s.readPacket c)).flatten =
      (List.range n).flatMap fun b => s.sector (c.lba.toNat + b) := by
  have hbytes : (List.range (8 * n)).flatMap (s.readPacket c) =
      (List.range (8 * n * 64)).map fun x => s.image (c.lba.toNat + x / 512) (x % 512) := by
    rw [← flatMap_range_mul]
    refine List.flatMap_congr fun k _ => List.map_congr_left fun i hi => ?_
    have hi := List.mem_range.1 hi
    congr 1 <;> omega
  rw [← List.flatMap_def, hbytes, flatMap_sector, show 8 * n * 64 = n * 512 by omega]

/-- **`READ(10)` serves the disk image.**  An in-range `READ(10)` accepted in a reachable state
determines `8 * blocks` packets of 64 bytes, which put together are the image of its sectors, and a
status wrapper of success.  Whatever happens during the command, the packets queued so far are the
first of these; and under every schedule fair to takes and polls, whatever OUT packets it contains,
the driver comes back to `MSC_IDLE`, with exactly these packets queued for the command. -/
theorem read10_serves (hr : s.Reachable) (h : s.Starts p e₁ s₁) (hc : p.cbw.InRange) :
    ∃ (packets : List (List UInt8)) (w : Csw),
      packets.length = 8 * p.cbw.blocks.toNat ∧ (∀ bs ∈ packets, bs.length = 64) ∧
      packets.flatten =
        (List.range p.cbw.blocks.toNat).flatMap (fun b => s.sector (p.cbw.lba.toNat + b)) ∧
      w.tag = p.cbw.tag ∧ w.status = 0 ∧ w.dataResidue = 0 ∧
      (∀ as e₂ s₂, mscMachine.Run Busy s₁ as e₂ s₂ →
        sentPackets (e₁ ++ e₂) <+: packets.map .data ++ [.csw w]) ∧
      ∀ σ, Fair σ .take → Fair σ .poll → ∃ N as,
        mscMachine.Run Busy s₁ as (mscMachine.exec σ s₁ N).2 (mscMachine.exec σ s₁ N).1 ∧
        (mscMachine.exec σ s₁ N).1.mscState = .idle ∧
        sentPackets (e₁ ++ (mscMachine.exec σ s₁ N).2) = packets.map .data ++ [.csw w] := by
  have hs := hr.slotInv
  have hsent := sentPackets_replies_read10 s hc
  refine ⟨(List.range (8 * p.cbw.blocks.toNat)).map (s.readPacket p.cbw),
    ⟨0x53425355, p.cbw.tag, 0, 0⟩, by simp, ?_,
    flatten_readPackets s p.cbw _, rfl, rfl, rfl, ?_, ?_⟩
  · intro bs hbs
    obtain ⟨k, -, rfl⟩ := List.mem_map.1 hbs
    simp [readPacket]
  · -- at every moment the packets so far and those of `todo` make up the replies
    intro as e₂ s₂ hrun
    rw [← hsent, ← command_outputs hs h hrun, sentPackets_append (outputs _), sentPackets_outputs]
    exact List.prefix_append _ _
  · -- back in `MSC_IDLE` nothing is left of them
    intro σ htake hpoll
    have hst : s₁.mscState ≠ .dataOut := (h.begin hs).ne_dataOut (by rw [hc.opcode]; decide)
    obtain ⟨m, -, hm⟩ := exec_idle (n := 0) htake hpoll (h.slotInv hs) hst
    obtain ⟨N, as, hidle, hrun⟩ := exists_first_idle ⟨m, hm⟩
    refine ⟨N, as, hrun, hidle, ?_⟩
    rw [← hsent, ← command_outputs_of_done hs h hrun (.inr hidle), sentPackets_outputs]

/-- A `READ(10)` of the boot sector, at power-up. -/
theorem read10_serves_bootSector : ∃ e₁ s₁ packets,
    usbInit.Starts (Cbw.ofBlock 1 512 0x80 [0x28, 0, 0, 0, 0, 0, 0, 0, 1]).toPacket e₁ s₁ ∧
      List.flatten packets = usbInit.sector 0 := by
  have h : usbInit.Starts (Cbw.ofBlock 1 512 0x80 [0x28, 0, 0, 0, 0, 0, 0, 0, 1]).toPacket _ _ :=
    ⟨⟨rfl, rfl, rfl⟩, rfl⟩
  obtain ⟨packets, -, -, -, hflat, -⟩ :=
    read10_serves (Machine.Reachable.refl _) h ⟨rfl, rfl, by decide⟩
  refine ⟨_, _, packets, h, hflat.trans ?_⟩
  exact List.append_nil _

end Msc

end Ch32fun
