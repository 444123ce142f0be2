import Ch32fun.Msc.Play

/-!
# What a `WRITE(10)` does to the file

The data of a `WRITE(10)` is seen as 32-byte records and as sectors, without regard to the packets
it came in:

* `fed_filePair` : the active cluster and size are those of a scan over the records that lie in the
  root directory;
* `fed_mscRamDisk_of_root`, `fed_mscRamDisk_of_data` : sectors before the data area do not touch the
  RAM disk, and the first sectors of a cluster are stored as a whole or dropped as a whole.
-/

namespace Ch32fun

namespace Msc

variable {s s' t : Msc} {p : OutPacket} {c : Cbw} {data f g : ℕ → UInt8} {n k cl : ℕ}

/-! ### Records -/

/-- The active cluster and the active size. -/
def filePair (s : Msc) : UInt16 × UInt32 := (s.activeFileCluster, s.activeFileSize)

/-- What the record number `r` of `data` makes of the active cluster and size. -/
def scanRecord (data : ℕ → UInt8) (v : UInt16 × UInt32) (r : ℕ) : UInt16 × UInt32 :=
  if nameAt data (32 * r) ∧ le16 data (32 * r + 26) ≠ 0 then
    (le16 data (32 * r + 26), clampSize (le32 data (32 * r + 28)))
  else v

/-- The records among the first `n` of a write at sector `lba` that lie in the root directory. -/
def rootRecords (lba n : ℕ) : List ℕ :=
  (List.range n).filter fun r => 33 ≤ lba + r / 16 ∧ lba + r / 16 < 65

theorem clampSize_toNat (x : UInt32) : (clampSize x).toNat = min x.toNat ramDiskSize := by
  unfold clampSize
  split_ifs with h
  · exact (Nat.min_eq_right (UInt32.lt_iff_toNat_lt.1 h).le).symm
  · exact (Nat.min_eq_left (UInt32.le_iff_toNat_le.1 (UInt32.not_lt.1 h))).symm

theorem clampSize_of_le {x : UInt32} (h : ramDiskSize ≤ x.toNat) :
    clampSize x = mscRamDiskSize := by
  rw [← UInt32.toNat_inj, clampSize_toNat]
  exact Nat.min_eq_right h

theorem nameAt_congr {i j : ℕ} (h : ∀ x, x < 10 → f (i + x) = g (j + x)) :
    nameAt f i = nameAt g j := by
  unfold nameAt
  rw [Bool.eq_iff_iff, List.all_eq_true, List.all_eq_true]
  refine forall_congr' fun x => forall_congr' fun hx => ?_
  rw [h x (List.mem_range.1 hx)]

theorem filePair_snoopEntry (s : Msc) {i r : ℕ} (h : ∀ x, x < 32 → f (i + x) = data (32 * r + x)) :
    (snoopEntry f s i).filePair = scanRecord data s.filePair r := by
  have hname : nameAt f i = nameAt data (32 * r) := nameAt_congr fun x hx => h x (by omega)
  have hcl : le16 f (i + 26) = le16 data (32 * r + 26) :=
    le16_congr fun x hx => by rw [Nat.add_assoc, Nat.add_assoc]; exact h _ (by omega)
  have hsize : le32 f (i + 0x1C) = le32 data (32 * r + 28) :=
    le32_congr fun x hx => by rw [Nat.add_assoc, Nat.add_assoc]; exact h _ (by omega)
  rw [snoopEntry, scanRecord, hname, hcl, hsize]
  split_ifs <;> rfl

theorem filePair_snoopDirectory (s : Msc) (n : ℕ) :
    (snoopDirectory (dataPacket data (64 * n)).data.get 64 s).filePair =
      scanRecord data (scanRecord data s.filePair (2 * n)) (2 * n + 1) := by
  have hrec : ∀ i, i < 2 → ∀ x, x < 32 →
      (dataPacket data (64 * n)).data.get (32 * i + x) = data (32 * (2 * n + i) + x) := by
    intro i hi x hx
    rw [dataPacket_get data _ (by omega)]
    congr 1
    omega
  change (snoopEntry _ (snoopEntry _ s 0) 32).filePair = _
  rw [filePair_snoopEntry _ (hrec 1 (by omega)), filePair_snoopEntry _ (hrec 0 (by omega))]
  rfl

/-! ### One packet -/

theorem filePair_received_of_root (h : 33 ≤ s.mscCurrentOffset.toNat / 512 ∧
    s.mscCurrentOffset.toNat / 512 < 65) : (s.received p).filePair =
      (snoopDirectory p.data.get (s.writeLen p).toNat s).filePair := by
  change (s.absorb p (s.writeLen p)).1.filePair = _
  rw [absorb]
  rw [if_pos ((root_sector_iff s).2 h)]

theorem filePair_received_of_not_root (h : ¬ (33 ≤ s.mscCurrentOffset.toNat / 512 ∧
    s.mscCurrentOffset.toNat / 512 < 65)) : (s.received p).filePair = s.filePair := by
  change (s.absorb p (s.writeLen p)).1.filePair = _
  rw [absorb]
  rw [if_neg fun h' => h ((root_sector_iff s).1 h')]
  split_ifs
  · rw [writeDataArea]
    split_ifs <;> rfl
  · rfl

theorem WriteAt.sector (h : WriteAt c n t) (hfits : c.lba.toNat + c.blocks.toNat ≤ 0x4000)
    (hn : n < 8 * c.blocks.toNat) : t.mscCurrentOffset.toNat / 512 = c.lba.toNat + n / 8 ∧
      t.mscCurrentOffset.toNat % 512 = 64 * (n % 8) := by
  rw [h.offset]
  omega

/-! ### A whole write -/

theorem rootRecords_succ (lba n : ℕ) : rootRecords lba (2 * (n + 1)) = rootRecords lba (2 * n) ++
    if 33 ≤ lba + n / 8 ∧ lba + n / 8 < 65 then [2 * n, 2 * n + 1] else [] := by
  have h₀ : 2 * n / 16 = n / 8 := by omega
  have h₁ : (2 * n + 1) / 16 = n / 8 := by omega
  rw [rootRecords, rootRecords, show 2 * (n + 1) = 2 * n + 1 + 1 by omega, List.range_succ,
    List.range_succ, List.filter_append, List.filter_append, List.append_assoc]
  simp only [List.filter_cons, List.filter_nil, h₀, h₁, decide_eq_true_eq]
  split_ifs <;> rfl

/-- **The active cluster and size after a write** are those of a scan of its directory records. -/
theorem fed_filePair (s : Msc) (data : ℕ → UInt8) (ho : c.opcode = .write10)
    (hfits : c.lba.toNat + c.blocks.toNat ≤ 0x4000) (hn : n ≤ 8 * c.blocks.toNat) :
    (s.fed c data n).filePair =
      (rootRecords c.lba.toNat (2 * n)).foldl (scanRecord data) s.filePair := by
  induction n with
  | zero =>
    obtain ⟨_, _, _, _, hf, -⟩ := begin_frame s c
    rw [fed, hf]
    rfl
  | succ n ih =>
    have hat := writeAt_fed s data ho (show n ≤ _ by omega)
    obtain ⟨hsec, -⟩ := hat.sector hfits (by omega)
    have hw := hat.writeLen data (by omega)
    rw [fed, rootRecords_succ, List.foldl_append, ← ih (by omega)]
    by_cases hroot : 33 ≤ c.lba.toNat + n / 8 ∧ c.lba.toNat + n / 8 < 65
    · rw [if_pos hroot, filePair_received_of_root (by rwa [hsec]), hw, filePair_snoopDirectory]
      rfl
    · rw [if_neg hroot, filePair_received_of_not_root (by rwa [hsec])]
      rfl

theorem fed_mscRamDisk_of_root (s : Msc) (data : ℕ → UInt8) (ho : c.opcode = .write10)
    (hroot : c.lba.toNat + c.blocks.toNat ≤ 65) (hn : n ≤ 8 * c.blocks.toNat) :
    (s.fed c data n).mscRamDisk = s.mscRamDisk := by
  induction n with
  | zero => exact begin_mscRamDisk s c
  | succ n ih =>
    have hat := writeAt_fed s data ho (show n ≤ _ by omega)
    obtain ⟨hsec, -⟩ := hat.sector (by omega) (by omega)
    have hnot : ¬ (s.fed c data n).Stored (dataPacket data (64 * n)) := by
      intro h
      have h65 := h.1
      omega
    rw [fed, received_mscRamDisk, if_neg hnot, ih (by omega)]

/-- The first sector of a cluster. -/
def clusterSector (cl : ℕ) : ℕ := 65 + 8 * (cl - 2)

/-- **Writes to the first sectors of a cluster** are stored if the cluster passes the filter, and
dropped otherwise. -/
theorem fed_mscRamDisk_of_data (s : Msc) (data : ℕ → UInt8) (ho : c.opcode = .write10)
    (hcl : 2 ≤ cl) (hlba : c.lba.toNat = clusterSector cl + k) (hk : k + c.blocks.toNat ≤ 4)
    (hfit : clusterSector cl + 3 < 0x4000) (hn : n ≤ 8 * c.blocks.toNat) :
    (s.fed c data n).mscRamDisk =
      if s.activeFileCluster.toNat ≤ cl then s.mscRamDisk.write (512 * k) (64 * n) data
      else s.mscRamDisk := by
  unfold clusterSector at hlba hfit
  have hfits : c.lba.toNat + c.blocks.toNat ≤ 0x4000 := by omega
  induction n with
  | zero =>
    rw [fed, begin_mscRamDisk, Nat.mul_zero, Block.write_zero]
    split_ifs <;> rfl
  | succ n ih =>
    have hat := writeAt_fed s data ho (show n ≤ _ by omega)
    obtain ⟨hsec, hoff⟩ := hat.sector hfits (by omega)
    have hw := hat.writeLen data (by omega)
    have hidx : ramIndex (s.fed c data n).mscCurrentOffset.toNat = 512 * k + 64 * n := by
      rw [ramIndex, hsec, hoff]
      omega
    -- no directory sector is written, so the filter is that of the beginning
    have hactive : (s.fed c data n).activeFileCluster = s.activeFileCluster := by
      have hnil : rootRecords c.lba.toNat (2 * n) = [] := by
        refine List.filter_eq_nil_iff.2 fun r _ => ?_
        simp only [decide_eq_true_eq]
        omega
      have := fed_filePair s data ho hfits (show n ≤ _ by omega)
      rw [hnil] at this
      exact congrArg Prod.fst this
    have hst : (s.fed c data n).Stored (dataPacket data (64 * n)) ↔
        s.activeFileCluster.toNat ≤ cl := by
      rw [Stored, hsec, hactive, hidx, hw, show ramDiskSize = 2048 from rfl]
      omega
    rw [fed, received_mscRamDisk, hidx, hw, ih (by omega)]
    by_cases hle : s.activeFileCluster.toNat ≤ cl
    · rw [if_pos (hst.2 hle), if_pos hle, if_pos hle,
        Block.write_congr _ _ fun i hi => dataPacket_get data _ hi, Block.write_append]
      rfl
    · rw [if_neg fun h => hle (hst.1 h), if_neg hle, if_neg hle]

end Msc

end Ch32fun
