import Ch32fun.Msc.Write
import Mathlib.Data.List.GetD

/-!
# A `WRITE(10)` as one scan and one copy

What a `WRITE(10)` does to the file, in terms of the sectors of the disk: the directory sectors of
the range are scanned as a whole, and the data sectors are copied one by one.

* `IsFileRecord`, `LastRecord` : the records that describe the file, and the last of them.
* `storeSectors` : the data sectors of a write that pass the filter for a given active cluster.
* `fed_mscRamDisk` : the RAM disk after a write is that of `storeSectors` for the cluster the write
  itself ends with; the directory sectors come before the data sectors.
* `write_scans_directory` : the effect of a whole write on the file.
-/

namespace Ch32fun

namespace Msc

variable {s s' t : Msc} {log : List Event} {c : Cbw} {data data' : ℕ → UInt8} {lba n k j r : ℕ}

/-! ### The last record -/

/-- The record number `r` of `data` has the driver's name and a first cluster. -/
def IsFileRecord (data : ℕ → UInt8) (r : ℕ) : Prop :=
  nameAt data (32 * r) = true ∧ le16 data (32 * r + 26) ≠ 0

instance (data : ℕ → UInt8) : DecidablePred (IsFileRecord data) := fun r => by
  unfold IsFileRecord
  exact inferInstance

/-- The cluster and the size of a record, the size cut to that of the RAM disk. -/
def recordPair (data : ℕ → UInt8) (r : ℕ) : UInt16 × UInt32 :=
  (le16 data (32 * r + 26), clampSize (le32 data (32 * r + 28)))

/-- The last record of the file among the first `n` records of a write at sector `lba`, those
outside the root directory left out. -/
structure LastRecord (data : ℕ → UInt8) (lba n r : ℕ) : Prop where
  mem : r ∈ rootRecords lba n
  record : IsFileRecord data r
  last : ∀ r' ∈ rootRecords lba n, IsFileRecord data r' → r' ≤ r

theorem mem_rootRecords :
    r ∈ rootRecords lba n ↔ r < n ∧ 33 ≤ lba + r / 16 ∧ lba + r / 16 < 65 := by
  simp [rootRecords]

theorem rootRecords_pairwise (lba n : ℕ) : (rootRecords lba n).Pairwise (· < ·) :=
  List.pairwise_lt_range.filter _

theorem foldl_scanRecord_cases (data : ℕ → UInt8) (l : List ℕ) (hl : l.Pairwise (· < ·))
    (v : UInt16 × UInt32) :
    ((∀ r ∈ l, ¬ IsFileRecord data r) ∧ l.foldl (scanRecord data) v = v) ∨
      ∃ r ∈ l, IsFileRecord data r ∧ (∀ r' ∈ l, IsFileRecord data r' → r' ≤ r) ∧
        l.foldl (scanRecord data) v = recordPair data r := by
  induction l using List.reverseRecOn with
  | nil => exact .inl ⟨by simp, rfl⟩
  | append_singleton l r ih =>
    obtain ⟨hl, -, hr⟩ := List.pairwise_append.1 hl
    rw [List.foldl_append, List.foldl_cons, List.foldl_nil]
    by_cases hf : IsFileRecord data r
    · refine .inr ⟨r, by simp, hf, fun r' hr' _ => ?_, if_pos hf⟩
      rcases List.mem_append.1 hr' with h | h
      · exact (hr r' h r (by simp)).le
      · exact (List.mem_singleton.1 h).le
    · -- the record is passed over
      rw [show scanRecord data (l.foldl (scanRecord data) v) r = l.foldl (scanRecord data) v from
        if_neg hf]
      have hmem : ∀ r', r' ∈ l ++ [r] → IsFileRecord data r' → r' ∈ l := by
        intro r' h' hf'
        rcases List.mem_append.1 h' with h | h
        · exact h
        · exact absurd (List.mem_singleton.1 h ▸ hf') hf
      rcases ih hl with ⟨hnone, hv⟩ | ⟨r₀, hr₀, hf₀, hlast, hv⟩
      · exact .inl ⟨fun r' h' hf' => hnone r' (hmem r' h' hf') hf', hv⟩
      · exact .inr ⟨r₀, by simp [hr₀], hf₀, fun r' h' hf' => hlast r' (hmem r' h' hf') hf', hv⟩

theorem scanRecord_congr {v : UInt16 × UInt32}
    (h : ∀ x, x < 32 → data (32 * r + x) = data' (32 * r + x)) :
    scanRecord data v r = scanRecord data' v r := by
  have hcl : le16 data (32 * r + 26) = le16 data' (32 * r + 26) :=
    le16_congr fun x hx => by rw [Nat.add_assoc]; exact h _ (by omega)
  have hsize : le32 data (32 * r + 28) = le32 data' (32 * r + 28) :=
    le32_congr fun x hx => by rw [Nat.add_assoc]; exact h _ (by omega)
  rw [scanRecord, scanRecord, nameAt_congr fun x hx => h x (by omega), hcl, hsize]

theorem foldl_rootRecords_congr (v : UInt16 × UInt32)
    (h : ∀ i, 33 ≤ lba + i / 512 → lba + i / 512 < 65 → data i = data' i) :
    (rootRecords lba n).foldl (scanRecord data) v =
      (rootRecords lba n).foldl (scanRecord data') v := by
  refine List.foldl_ext _ _ _ fun v r hr => scanRecord_congr fun x hx => ?_
  have := mem_rootRecords.1 hr
  exact h _ (by omega) (by omega)

/-! ### The data sectors -/

/-- The data sector `lba + k` of a write, with the active cluster `cl`: stored in the RAM disk if
its cluster passes the filter and its place in the cluster lies in the RAM disk. -/
def storeSector (cl lba : ℕ) (data : ℕ → UInt8) (ram : Block UInt8 ramDiskSize) (k : ℕ) :
    Block UInt8 ramDiskSize :=
  if 65 ≤ lba + k ∧ cl ≤ 2 + (lba + k - 65) / 8 ∧ (lba + k - 65) % 8 < 4 then
    ram.write ((lba + k - 65) % 8 * 512) 512 fun i => data (512 * k + i)
  else ram

/-- The first `n` sectors of a write. -/
def storeSectors (cl lba : ℕ) (data : ℕ → UInt8) (n : ℕ) (ram : Block UInt8 ramDiskSize) :
    Block UInt8 ramDiskSize := (List.range n).foldl (storeSector cl lba data) ram

theorem storeSectors_succ (cl lba : ℕ) (data : ℕ → UInt8) (n : ℕ)
    (ram : Block UInt8 ramDiskSize) : storeSectors cl lba data (n + 1) ram =
      storeSector cl lba data (storeSectors cl lba data n ram) n := by
  rw [storeSectors, List.range_succ, List.foldl_append]
  rfl

theorem storeSectors_congr {cl : ℕ} (ram : Block UInt8 ramDiskSize)
    (h : ∀ i, 65 ≤ lba + i / 512 → data i = data' i) :
    storeSectors cl lba data n ram = storeSectors cl lba data' n ram := by
  refine List.foldl_ext _ _ _ fun ram k _ => ?_
  unfold storeSector
  split_ifs with hk
  · exact Block.write_congr _ _ fun i hi => h _ (by omega)
  · rfl

theorem rootRecords_of_data {n m : ℕ} (h : 65 ≤ lba + n / 8) (hnm : n ≤ m) :
    rootRecords lba (2 * m) = rootRecords lba (2 * n) := by
  induction m, hnm using Nat.le_induction with
  | base => rfl
  | succ m hm ih => rw [rootRecords_succ, if_neg (by omega), List.append_nil, ih]

/-- In the data area the active cluster is the one the write ends with. -/
theorem fed_activeFileCluster_of_data (s : Msc) (data : ℕ → UInt8) (ho : c.opcode = .write10)
    (hfits : c.lba.toNat + c.blocks.toNat ≤ 0x4000) (hn : n ≤ 8 * c.blocks.toNat)
    (h : 65 ≤ c.lba.toNat + n / 8) : (s.fed c data n).activeFileCluster =
      (s.fed c data (8 * c.blocks.toNat)).activeFileCluster := by
  have h₁ := fed_filePair s data ho hfits hn
  rw [← rootRecords_of_data h hn, ← fed_filePair s data ho hfits le_rfl] at h₁
  exact congrArg Prod.fst h₁

theorem fed_mscRamDisk_sector (s : Msc) (data : ℕ → UInt8) (ho : c.opcode = .write10)
    (hfits : c.lba.toNat + c.blocks.toNat ≤ 0x4000) (hk : k < c.blocks.toNat) (hj : j ≤ 8) :
    (s.fed c data (8 * k + j)).mscRamDisk =
      if 65 ≤ c.lba.toNat + k ∧
          (s.fed c data (8 * c.blocks.toNat)).activeFileCluster.toNat ≤
            2 + (c.lba.toNat + k - 65) / 8 ∧ (c.lba.toNat + k - 65) % 8 < 4 then
        (s.fed c data (8 * k)).mscRamDisk.write ((c.lba.toNat + k - 65) % 8 * 512) (64 * j)
          fun i => data (512 * k + i)
      else (s.fed c data (8 * k)).mscRamDisk := by
  induction j with
  | zero =>
    rw [Nat.mul_zero, Block.write_zero, ite_self]
    rfl
  | succ j ih =>
    have hat := writeAt_fed s data ho (show 8 * k + j ≤ 8 * c.blocks.toNat by omega)
    obtain ⟨hsec, hoff⟩ := hat.sector hfits (by omega)
    have hw := hat.writeLen data (by omega)
    rw [show (8 * k + j) / 8 = k by omega] at hsec
    rw [show (8 * k + j) % 8 = j by omega] at hoff
    have hidx : ramIndex (s.fed c data (8 * k + j)).mscCurrentOffset.toNat =
        (c.lba.toNat + k - 65) % 8 * 512 + 64 * j := by
      rw [ramIndex, hsec, hoff]
    have hst : (s.fed c data (8 * k + j)).Stored (dataPacket data (64 * (8 * k + j))) ↔
        65 ≤ c.lba.toNat + k ∧ (s.fed c data (8 * c.blocks.toNat)).activeFileCluster.toNat ≤
          2 + (c.lba.toNat + k - 65) / 8 ∧ (c.lba.toNat + k - 65) % 8 < 4 := by
      rw [Stored, hsec, hidx, hw]
      refine and_congr_right fun h65 => ?_
      rw [fed_activeFileCluster_of_data s data ho hfits (by omega)
        (show 65 ≤ c.lba.toNat + (8 * k + j) / 8 by omega)]
      refine and_congr_right fun _ => ?_
      rw [show ramDiskSize = 2048 from rfl]
      omega
    rw [← Nat.add_assoc, fed, received_mscRamDisk, hidx, hw, ih (by omega)]
    by_cases hc : 65 ≤ c.lba.toNat + k ∧
        (s.fed c data (8 * c.blocks.toNat)).activeFileCluster.toNat ≤
          2 + (c.lba.toNat + k - 65) / 8 ∧ (c.lba.toNat + k - 65) % 8 < 4
    · -- the packet continues the sector
      rw [if_pos (hst.2 hc), if_pos hc, if_pos hc, show 64 * (j + 1) = 64 * j + 64 by omega,
        ← Block.write_append]
      refine Block.write_congr _ _ fun i hi => ?_
      rw [dataPacket_get data _ hi]
      congr 1
      omega
    · rw [if_neg fun h => hc (hst.1 h), if_neg hc, if_neg hc]

/-- **The RAM disk after a write** holds the data sectors that the final active cluster lets
through. -/
theorem fed_mscRamDisk (s : Msc) (data : ℕ → UInt8) (ho : c.opcode = .write10)
    (hfits : c.lba.toNat + c.blocks.toNat ≤ 0x4000) (hk : k ≤ c.blocks.toNat) :
    (s.fed c data (8 * k)).mscRamDisk =
      storeSectors (s.fed c data (8 * c.blocks.toNat)).activeFileCluster.toNat c.lba.toNat data k
        s.mscRamDisk := by
  induction k with
  | zero => exact begin_mscRamDisk s c
  | succ k ih =>
    rw [storeSectors_succ, ← ih (by omega), storeSector, Nat.mul_succ,
      fed_mscRamDisk_sector s data ho hfits (by omega) le_rfl]

/-! ### A whole write -/

theorem Play.filePair (h : s.Play c data log s') (hs : s.SlotInv) (ho : c.opcode = .write10)
    (hB : 1 ≤ c.blocks.toNat) (hfits : c.lba.toNat + c.blocks.toNat ≤ 0x4000) : s'.filePair =
      (rootRecords c.lba.toNat (16 * c.blocks.toNat)).foldl (scanRecord data) s.filePair := by
  rw [h.write hs ho hB, show 16 * c.blocks.toNat = 2 * (8 * c.blocks.toNat) by omega,
    ← fed_filePair s data ho hfits le_rfl]
  rfl

theorem Play.mscRamDisk (h : s.Play c data log s') (hs : s.SlotInv) (ho : c.opcode = .write10)
    (hB : 1 ≤ c.blocks.toNat) (hfits : c.lba.toNat + c.blocks.toNat ≤ 0x4000) : s'.mscRamDisk =
      storeSectors s'.activeFileCluster.toNat c.lba.toNat data c.blocks.toNat s.mscRamDisk := by
  rw [h.write hs ho hB]
  exact fed_mscRamDisk s data ho hfits le_rfl

/-- **A `WRITE(10)` is a scan of its directory sectors and a copy of its data sectors.**  The last
record of the file decides on the active cluster and size, sectors outside the directory have no
part in that, and what is stored in the RAM disk depends on the sectors before the data area
through the active cluster alone. -/
theorem write_scans_directory (hr : s.Reachable) (ho : c.opcode = .write10)
    (hB : 1 ≤ c.blocks.toNat) (hfits : c.lba.toNat + c.blocks.toNat ≤ 0x4000)
    (h : s.Play c data log s') :
    (∀ r, LastRecord data c.lba.toNat (16 * c.blocks.toNat) r →
      s'.activeFileCluster = le16 data (32 * r + 26) ∧
      s'.activeFileSize.toNat = min (le32 data (32 * r + 28)).toNat ramDiskSize) ∧
    ((∀ r ∈ rootRecords c.lba.toNat (16 * c.blocks.toNat), ¬ IsFileRecord data r) →
      s'.activeFileCluster = s.activeFileCluster ∧ s'.activeFileSize = s.activeFileSize) ∧
    (∀ data' log' t', s.Play c data' log' t' →
      (∀ i, 33 ≤ c.lba.toNat + i / 512 → c.lba.toNat + i / 512 < 65 → data i = data' i) →
      t'.activeFileCluster = s'.activeFileCluster ∧ t'.activeFileSize = s'.activeFileSize) ∧
    s'.mscRamDisk = storeSectors s'.activeFileCluster.toNat c.lba.toNat data c.blocks.toNat
      s.mscRamDisk ∧
    (∀ data' log' t', s.Play c data' log' t' →
      (∀ i, 65 ≤ c.lba.toNat + i / 512 → data i = data' i) →
      t'.activeFileCluster = s'.activeFileCluster → t'.mscRamDisk = s'.mscRamDisk) := by
  have hs := hr.slotInv
  have hpair := h.filePair hs ho hB hfits
  have hram := h.mscRamDisk hs ho hB hfits
  have hscan := foldl_scanRecord_cases data _
    (rootRecords_pairwise c.lba.toNat (16 * c.blocks.toNat)) s.filePair
  refine ⟨?_, ?_, ?_, hram, ?_⟩
  · rintro r ⟨hmem, hrec, hlast⟩
    rcases hscan with ⟨hnone, -⟩ | ⟨r₀, hmem₀, hrec₀, hlast₀, hv⟩
    · exact absurd hrec (hnone r hmem)
    · obtain rfl : r₀ = r := le_antisymm (hlast r₀ hmem₀ hrec₀) (hlast₀ r hmem hrec)
      have hv' : s'.filePair = recordPair data r₀ := hpair.trans hv
      exact ⟨congrArg Prod.fst hv', by
        rw [← clampSize_toNat]; exact congrArg UInt32.toNat (congrArg Prod.snd hv')⟩
  · intro hnone
    rcases hscan with ⟨-, hv⟩ | ⟨r₀, hmem₀, hrec₀, -, -⟩
    · have hv' : s'.filePair = s.filePair := hpair.trans hv
      exact ⟨congrArg Prod.fst hv', congrArg Prod.snd hv'⟩
    · exact absurd hrec₀ (hnone r₀ hmem₀)
  · intro data' log' t' h' heq
    have hv : t'.filePair = s'.filePair := by
      rw [hpair, h'.filePair hs ho hB hfits, foldl_rootRecords_congr s.filePair heq]
    exact ⟨congrArg Prod.fst hv, congrArg Prod.snd hv⟩
  · intro data' log' t' h' heq hcl
    rw [hram, h'.mscRamDisk hs ho hB hfits, hcl, storeSectors_congr s.mscRamDisk heq]

/-- A directory entry with the driver's name and the first cluster `cl`, then zeros. -/
def entryData (cl : UInt8) (i : ℕ) : UInt8 :=
  if i = 26 then cl else snoopName.getD i 0

/-- An entry with cluster 5 is written to the first directory sector. -/
theorem entry_moves_file : ∃ log s',
    usbInit.Play (Cbw.ofBlock 1 512 0 [0x2A, 0, 0, 0, 0, 33, 0, 0, 1]) (entryData 5) log s' ∧
      s'.activeFileCluster = 5 := by
  obtain ⟨log, s', h⟩ := exists_play_write slotInv_usbInit rfl (entryData 5)
    (c := Cbw.ofBlock 1 512 0 [0x2A, 0, 0, 0, 0, 33, 0, 0, 1]) rfl rfl (by decide)
  refine ⟨log, s', h, ?_⟩
  have hlast : LastRecord (entryData 5) 33 16 0 := by
    refine ⟨by decide, by decide +kernel, ?_⟩
    decide +kernel
  exact ((write_scans_directory (.refl usbInit) rfl (by decide) (by decide) h).1 0 hlast).1

/-- **The bytes of sector 64 do have an effect on the RAM disk.**  Two writes of sectors 64 and 65
with the same sector 65: the record in sector 64 of the first moves the file to cluster 3, and
sector 65, which is in cluster 2, is no longer stored. -/
theorem directory_bytes_filter_data : ∃ (c : Cbw) (data data' : ℕ → UInt8) (log log' : List Event)
    (s' t' : Msc), c.opcode = .write10 ∧ c.dataTransferLength.toNat = c.blocks.toNat * 512 ∧
      c.lba.toNat = 64 ∧ c.blocks.toNat = 2 ∧ (∀ i, 512 ≤ i → data i = data' i) ∧
      usbInit.Play c data log s' ∧ usbInit.Play c data' log' t' ∧
      s'.mscRamDisk ≠ t'.mscRamDisk := by
  let c := Cbw.ofBlock 1 1024 0 [0x2A, 0, 0, 0, 0, 64, 0, 0, 2]
  obtain ⟨log, s', h⟩ := exists_play_write slotInv_usbInit rfl (entryData 3) (c := c) rfl rfl
    (by decide)
  obtain ⟨log', t', h'⟩ := exists_play_write slotInv_usbInit rfl (fun _ => 0) (c := c) rfl rfl
    (by decide)
  have hcl : s'.activeFileCluster = 3 :=
    congrArg Prod.fst ((h.filePair slotInv_usbInit rfl (by decide) (by decide)).trans
      (by decide +kernel : _ = ((3 : UInt16), (0 : UInt32))))
  have hcl' : t'.activeFileCluster = 2 :=
    congrArg Prod.fst ((h'.filePair slotInv_usbInit rfl (by decide) (by decide)).trans
      (by decide +kernel : _ = ((2 : UInt16), (142 : UInt32))))
  have hram := h.mscRamDisk slotInv_usbInit rfl (by decide) (by decide)
  have hram' := h'.mscRamDisk slotInv_usbInit rfl (by decide) (by decide)
  rw [hcl] at hram
  rw [hcl'] at hram'
  refine ⟨c, entryData 3, fun _ => 0, log, log', s', t', rfl, by decide, by decide, by decide, ?_,
    h, h', fun he => ?_⟩
  · intro i hi
    rw [entryData, if_neg (by omega), List.getD_eq_default _ _ (by exact le_trans (by decide) hi)]
  · -- the first byte of the script is overwritten in the second run only
    have h0 : s'.mscRamDisk.get 0 = t'.mscRamDisk.get 0 := by rw [he]
    rw [hram, hram'] at h0
    exact absurd h0 (by decide +kernel)

end Msc

end Ch32fun
