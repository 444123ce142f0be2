import Ch32fun.Msc.Transfer

/-!
# Which `READ(10)` commands read inside their sources

The announced length enters the sector and the offset of a packet by a subtraction that wraps
(`Cbw.readOffset`), and the bound of the RAM disk is tested after an addition that wraps.  Two
kinds of packets are copied from outside:

* a packet of the boot sector at an offset beyond 448, which the offsets reach only when the length
  is no multiple of 64;
* the last packet of a sector whose offset in the RAM disk is within 64 bytes of `2^32`.

Both are the last packets of their sectors, and a transfer has one such packet for each block
(`exists_block`, `exists_packet`), so that a condition on the blocks decides (`reads_inBounds_iff`).
-/

namespace Ch32fun

namespace Cbw

variable {c : Cbw} {b k : ℕ}

/-- The sector in which the last packet of block `b` of the transfer is looked up. -/
def blockLba (c : Cbw) (b : ℕ) : UInt32 :=
  c.lba + .ofNat ((c.dataTransferLength.toNat / 512 + 2 ^ 23 - c.blocks.toNat + b) % 2 ^ 23)

/-- The commands that read inside their sources: no block is looked up in the boot sector, unless
the length is a multiple of 64, or in the sector before the data area as it reappears behind the
wrap of the RAM offset. -/
def ReadsInBounds (c : Cbw) : Prop :=
  ∀ b, b < c.blocks.toNat →
    ¬ (c.blockLba b = 0 ∧ c.dataTransferLength.toNat % 64 ≠ 0) ∧
    ¬ (startData ≤ c.blockLba b ∧ (c.blockLba b).toNat % 2 ^ 23 = 64)

theorem readLba_eq_blockLba (h : (c.readOffset k).toNat / 512 =
    (c.dataTransferLength.toNat / 512 + 2 ^ 23 - c.blocks.toNat + b) % 2 ^ 23) :
    c.readLba k = c.blockLba b := by
  rw [readLba, blockLba, ← h]
  congr 1
  apply UInt32.toNat_inj.1
  have := (c.readOffset k).toNat_lt
  rw [toNat_div_512, UInt32.toNat_ofNat', Nat.mod_eq_of_lt (by omega)]

theorem exists_block (hk : k < 8 * c.blocks.toNat) (hoff : 448 ≤ (c.readOffset k).toNat % 512) :
    ∃ b, b < c.blocks.toNat ∧ c.readLba k = c.blockLba b := by
  have hD := c.dataTransferLength.toNat_lt
  have hB := c.blocks_toNat_lt
  have ht := c.readOffset_toNat k
  refine ⟨(c.dataTransferLength.toNat % 512 + 64 * k) / 512, ?_, readLba_eq_blockLba ?_⟩
  · omega
  · omega

theorem exists_packet (hb : b < c.blocks.toNat) : ∃ k, k < 8 * c.blocks.toNat ∧
    448 ≤ (c.readOffset k).toNat % 512 ∧ c.readLba k = c.blockLba b := by
  have hD := c.dataTransferLength.toNat_lt
  have hB := c.blocks_toNat_lt
  have ht := c.readOffset_toNat (8 * b + 7 - c.dataTransferLength.toNat % 512 / 64)
  exact ⟨8 * b + 7 - c.dataTransferLength.toNat % 512 / 64, by omega, by omega,
    readLba_eq_blockLba (by omega)⟩

/-- Offsets agree with the announced length modulo the size of a packet. -/
theorem readOffset_mod (c : Cbw) (k : ℕ) :
    (c.readOffset k).toNat % 64 = c.dataTransferLength.toNat % 64 := by
  have hB := c.blocks_toNat_lt
  have ht := c.readOffset_toNat k
  omega

end Cbw

namespace Msc

variable {s s₁ s₂ : Msc} {as : List Input} {e₁ e₂ : List Event} {p : OutPacket} {c : Cbw}
  {k : ℕ}

section Packet

variable {lba off : UInt32}

theorem read10Src_boot_inBounds_iff :
    (∀ i, i < 64 → ∀ src, read10Src 0 off 64 i = some src → src.InBounds) ↔
      off.toNat ≤ 448 := by
  constructor
  · intro h
    have h63 : off.toNat + 63 < 512 := h 63 (by omega) _ rfl
    omega
  · rintro h i hi src ⟨⟩
    change off.toNat + i < 512
    omega

/-- A packet of the data area: the guard holds inside the RAM disk, and for the last packet of the
sector before the data area as it reappears behind the wrap. -/
theorem read10Src_data_inBounds_iff (hoff : off.toNat < 512) (hl : startData ≤ lba) :
    (∀ i, i < 64 → ∀ src, read10Src lba off 64 i = some src → src.InBounds) ↔
      (448 ≤ off.toNat → lba.toNat % 2 ^ 23 ≠ 64) := by
  have hL := lba.toNat_lt
  have h65 : 65 ≤ lba.toNat := UInt32.le_iff_toNat_le.1 hl
  have hram := @ramOffset_toNat lba off hl
  have hguard := @ramOffset_guard_iff lba off hl
  simp only [read10Src_data hl]
  constructor
  · intro h hle h'
    have hg := hguard.2 (by omega)
    have h63 : (Src.mscRamDisk (((lba - startData) * 512 + off).toNat + 63)).InBounds :=
      h 63 (by omega) _ (by rw [if_pos hg])
    change ((lba - startData) * 512 + off).toNat + 63 < 2048 at h63
    omega
  · intro h i hi src hsrc
    split_ifs at hsrc with hg
    cases hsrc
    change ((lba - startData) * 512 + off).toNat + i < 2048
    rw [hguard] at hg
    rw [hram]
    by_cases hle : 448 ≤ off.toNat
    · have := h hle
      omega
    · omega

theorem read10Src_inBounds_iff (hoff : off.toNat < 512) :
    (∀ i, i < 64 → ∀ src, read10Src lba off 64 i = some src → src.InBounds) ↔
      (448 ≤ off.toNat → ¬ (lba = 0 ∧ off.toNat ≠ 448) ∧
        ¬ (startData ≤ lba ∧ lba.toNat % 2 ^ 23 = 64)) := by
  rcases region_cases lba with rfl | hl | hl | hl
  · have h0 : ¬ startData ≤ 0 := by decide
    simp only [read10Src_boot_inBounds_iff, true_and, h0, false_and, not_false_iff, and_true]
    omega
  · -- each byte of the FAT and of the directory is tested for itself
    have h0 : lba ≠ 0 := by rintro rfl; exact absurd hl.1 (by decide)
    have hd : ¬ startData ≤ lba := fun h =>
      absurd (UInt32.le_trans (by decide : startRoot ≤ startData) h) (UInt32.not_le.2 hl.2)
    simp only [read10Src_fat hl]
    refine iff_of_true ?_ fun _ => ⟨fun h => h0 h.1, fun h => hd h.1⟩
    intro i _ src h
    split_ifs at h with hc
    cases h
    exact hc.2.2
  · have h0 : lba ≠ 0 := by rintro rfl; exact absurd hl.1 (by decide)
    have hd : ¬ startData ≤ lba := UInt32.not_le.2 hl.2
    simp only [read10Src_root hl]
    refine iff_of_true ?_ fun _ => ⟨fun h => h0 h.1, fun h => hd h.1⟩
    intro i _ src h
    split_ifs at h with hc
    cases h
    exact hc.2
  · have h0 : lba ≠ 0 := by rintro rfl; exact absurd hl (by decide)
    rw [read10Src_data_inBounds_iff hoff hl]
    simp only [h0, false_and, not_false_iff, true_and, hl]

end Packet

theorem readSrc_inBounds_iff (c : Cbw) :
    (∀ k, k < 8 * c.blocks.toNat → ∀ i, i < 64 → ∀ src, c.readSrc k i = some src →
      src.InBounds) ↔ c.ReadsInBounds := by
  have hpacket : ∀ k, (∀ i, i < 64 → ∀ src, c.readSrc k i = some src → src.InBounds) ↔
      (448 ≤ (c.readOffset k).toNat % 512 →
        ¬ (c.readLba k = 0 ∧ c.dataTransferLength.toNat % 64 ≠ 0) ∧
        ¬ (startData ≤ c.readLba k ∧ (c.readLba k).toNat % 2 ^ 23 = 64)) := by
    intro k
    have hmod := c.readOffset_mod k
    have hoff : (c.readOffset k % 512).toNat = (c.readOffset k).toNat % 512 := UInt32.toNat_mod ..
    have hne : 448 ≤ (c.readOffset k).toNat % 512 →
        ((c.readOffset k).toNat % 512 ≠ 448 ↔ c.dataTransferLength.toNat % 64 ≠ 0) := by omega
    refine (read10Src_inBounds_iff (by rw [hoff]; omega)).trans ?_
    rw [hoff]
    exact forall_congr' fun hle => by rw [hne hle]
  constructor
  · intro h b hb
    obtain ⟨k, hk, hoff, hlba⟩ := Cbw.exists_packet hb
    rw [← hlba]
    exact (hpacket k).1 (h k hk) hoff
  · intro h k hk
    refine (hpacket k).2 fun hoff => ?_
    obtain ⟨b, hb, hlba⟩ := Cbw.exists_block hk hoff
    rw [hlba]
    exact h b hb

theorem mem_copies_readLog {src : Src} :
    src ∈ copies (s.readLog c k) ↔ ∃ i, i < 64 ∧ c.readSrc k i = some src := by
  have hcop : ∀ l : List Src, copies (l.map .copied) = l := by
    intro l
    induction l with
    | nil => rfl
    | cons x l ih => rw [List.map_cons, copies_cons, ih]; rfl
  rw [readLog, copies_append, hcop]
  simp

theorem mem_copies_replies {src : Src} (ho : c.opcode = .read10) :
    src ∈ copies (s.replies c) ↔
      ∃ k, k < 8 * c.blocks.toNat ∧ ∃ i, i < 64 ∧ c.readSrc k i = some src := by
  have hflat : ∀ l : List ℕ, src ∈ copies (l.flatMap (s.readLog c)) ↔
      ∃ k ∈ l, ∃ i, i < 64 ∧ c.readSrc k i = some src := by
    intro l
    induction l with
    | nil => simp
    | cons k l ih => simp [ih, mem_copies_readLog]
  rw [replies_read10_eq s ho, copies_append, List.mem_append, hflat]
  simp

/-- **Which `READ(10)` commands read inside their sources.**  In a reachable state a `READ(10)` is
accepted.  However it is played, all bytes copied for it have indices inside their arrays, if and
only if the command satisfies `ReadsInBounds`. -/
theorem reads_inBounds_iff (hr : s.Reachable) (h : s.Starts p e₁ s₁)
    (ho : p.cbw.opcode = .read10) :
    (∀ as e₂ s₂, mscMachine.Run Busy s₁ as e₂ s₂ →
      ∀ src ∈ copies (e₁ ++ e₂), src.InBounds) ↔ p.cbw.ReadsInBounds := by
  have hs := hr.slotInv
  rw [← readSrc_inBounds_iff]
  constructor
  · intro hin k hk i hi src hsrc
    obtain ⟨as, e₂, s₂, hrun, hidle⟩ := exists_play hs h (by rw [ho]; decide)
    refine hin as e₂ s₂ hrun src ?_
    rw [← copies_outputs, command_outputs_of_done hs h hrun (.inr hidle), mem_copies_replies ho]
    exact ⟨k, hk, i, hi, hsrc⟩
  · intro hin as e₂ s₂ hrun src hsrc
    have hmem : src ∈ copies (s.replies p.cbw) := by
      rw [← command_outputs hs h hrun, copies_append, copies_outputs]
      exact List.mem_append_left _ hsrc
    obtain ⟨k, hk, i, hi, hk'⟩ := (mem_copies_replies ho).1 hmem
    exact hin k hk i hi src hk'

/-- A `READ(10)` of the last sector of the RAM disk, at power-up. -/
theorem reads_inBounds_ramDisk : ∃ e₁ s₁,
    usbInit.Starts (Cbw.ofBlock 1 512 0x80 [0x28, 0, 0, 0, 0, 68, 0, 0, 1]).toPacket e₁ s₁ ∧
      ∀ as e₂ s₂, mscMachine.Run Busy s₁ as e₂ s₂ →
        ∀ src ∈ copies (e₁ ++ e₂), src.InBounds := by
  have h : usbInit.Starts (Cbw.ofBlock 1 512 0x80 [0x28, 0, 0, 0, 0, 68, 0, 0, 1]).toPacket _ _ :=
    ⟨⟨rfl, rfl, rfl⟩, rfl⟩
  refine ⟨_, _, h, (reads_inBounds_iff (Machine.Reachable.refl _) h rfl).2 ?_⟩
  intro b hb
  obtain rfl : b = 0 := Nat.lt_one_iff.1 hb
  decide

/-- A `READ(10)` of one block at sector `0x800040`, at power-up: its last packet is copied from
behind the wrap of the RAM offset. -/
theorem not_reads_inBounds : ∃ e₁ s₁ as e₂ s₂,
    usbInit.Starts (Cbw.ofBlock 1 512 0x80 [0x28, 0, 0, 0x80, 0, 0x40, 0, 0, 1]).toPacket e₁ s₁ ∧
      mscMachine.Run Busy s₁ as e₂ s₂ ∧
      Src.mscRamDisk 0xFFFFFFC0 ∈ copies (e₁ ++ e₂) ∧
      ¬ (Src.mscRamDisk 0xFFFFFFC0).InBounds := by
  have h : usbInit.Starts
      (Cbw.ofBlock 1 512 0x80 [0x28, 0, 0, 0x80, 0, 0x40, 0, 0, 1]).toPacket _ _ :=
    ⟨⟨rfl, rfl, rfl⟩, rfl⟩
  obtain ⟨as, e₂, s₂, hrun, hidle⟩ := exists_play slotInv_usbInit h (by decide)
  refine ⟨_, _, as, e₂, s₂, h, hrun, ?_, by decide⟩
  rw [← copies_outputs, command_outputs_of_done slotInv_usbInit h hrun (.inr hidle),
    mem_copies_replies rfl]
  exact ⟨7, by decide, 0, by decide, by decide⟩

end Msc

end Ch32fun
