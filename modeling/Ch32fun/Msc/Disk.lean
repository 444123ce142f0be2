import Ch32fun.Msc.Directory
import Ch32fun.Msc.Volume
import Ch32fun.Msc.Query
import Ch32fun.Msc.Save

/-!
# The disk that a host finds

What the mass-storage function is for, without packets, counters or a state machine: a `ScriptDisk`
is the RAM disk, the cluster and the size of the file, and a command takes it to the next disk with
an answer.

* `ScriptDisk.write` : the sectors of a write, as one scan of the directory sectors and one copy of
  the data sectors.  Four sectors of every cluster share the RAM disk, the last one written wins
  (`storeSectors_get`).
* `ScriptDisk.write_add`, `ScriptDisk.write_write` : how a write is cut does not matter, and writing
  the same sectors twice is writing them once.
* `ScriptDisk.serve` : one command; `diskMachine` : one command after the other.

That the driver is such a disk is shown in `Ch32fun.Msc.Refine`.
-/

namespace Ch32fun

open Msc

/-- The disk of one script. -/
@[ext] structure ScriptDisk where
  /-- The sectors of the script. -/
  ram : Block UInt8 ramDiskSize
  /-- Data sectors of clusters below this one are dropped. -/
  cluster : UInt16
  /-- The size in the directory entry. -/
  size : UInt32
  cluster_ne : cluster ≠ 0
  size_le : size.toNat ≤ ramDiskSize

namespace ScriptDisk

variable {d : ScriptDisk} {data : ℕ → UInt8} {lba n m i j k cl : ℕ}

/-! ### Reading -/

/-- The directory entry. -/
def entry (d : ScriptDisk) : Block UInt8 32 := rootDirEntryInit.write 28 4 (leByte d.size)

/-- Byte `j` of sector `n`. -/
def image (d : ScriptDisk) (n j : ℕ) : UInt8 :=
  if n = 0 then bootSector.get j
  else if n = 1 ∨ n = 17 then [0xF8, 0xFF, 0xFF, 0xFF, 0xFF, 0xFF].getD j 0
  else if n = 33 then d.entry.get j
  else if 65 ≤ n ∧ n ≤ 68 then d.ram.get ((n - 65) * 512 + j)
  else 0

/-- Sector `n`. -/
def sector (d : ScriptDisk) (n : ℕ) : List UInt8 := (List.range 512).map (d.image n)

/-- Reading the first sector of the root directory resets the cluster. -/
def read (d : ScriptDisk) (lba n : ℕ) : ScriptDisk :=
  if lba ≤ 33 ∧ 33 < lba + n then { d with cluster := fileCluster, cluster_ne := by decide } else d

/-! ### Writing -/

/-- The cluster and the size after a scan of the directory sectors. -/
def scanned (d : ScriptDisk) (lba n : ℕ) (data : ℕ → UInt8) : UInt16 × UInt32 :=
  (rootRecords lba (16 * n)).foldl (scanRecord data) (d.cluster, d.size)

theorem scanned_ok (d : ScriptDisk) (lba n : ℕ) (data : ℕ → UInt8) :
    (d.scanned lba n data).1 ≠ 0 ∧ (d.scanned lba n data).2.toNat ≤ ramDiskSize := by
  rcases foldl_scanRecord_cases data _ (rootRecords_pairwise lba (16 * n)) (d.cluster, d.size) with
    ⟨-, hv⟩ | ⟨r, -, hrec, -, hv⟩
  · rw [scanned, hv]
    exact ⟨d.cluster_ne, d.size_le⟩
  · rw [scanned, hv]
    refine ⟨hrec.2, ?_⟩
    change (clampSize _).toNat ≤ _
    rw [clampSize_toNat]
    exact Nat.min_le_right _ _

/-- The `n` sectors from `lba` on are written, with the bytes `data`. -/
def write (d : ScriptDisk) (lba n : ℕ) (data : ℕ → UInt8) : ScriptDisk where
  ram := storeSectors (d.scanned lba n data).1.toNat lba data n d.ram
  cluster := (d.scanned lba n data).1
  size := (d.scanned lba n data).2
  cluster_ne := (d.scanned_ok lba n data).1
  size_le := (d.scanned_ok lba n data).2

/-! ### Sectors that share a place -/

/-- Sector `k` of a write at `lba` is stored at place `j` of the RAM disk. -/
def Hits (cl lba j k : ℕ) : Prop :=
  65 ≤ lba + k ∧ cl ≤ 2 + (lba + k - 65) / 8 ∧ (lba + k - 65) % 8 = j

instance (cl lba j k : ℕ) : Decidable (Hits cl lba j k) := by
  unfold Hits
  exact inferInstance

/-- The last of the first `n` sectors of a write that is stored at place `j`. -/
def lastHit (cl lba j : ℕ) : ℕ → Option ℕ
  | 0 => none
  | n + 1 => if Hits cl lba j n then some n else lastHit cl lba j n

theorem lastHit_eq_some (h : lastHit cl lba j n = some k) : k < n ∧ Hits cl lba j k ∧
    ∀ k' < n, Hits cl lba j k' → k' ≤ k := by
  induction n with
  | zero => cases h
  | succ n ih =>
    rw [lastHit] at h
    split_ifs at h with hn
    · obtain rfl : n = k := Option.some.inj h
      exact ⟨Nat.lt_succ_self n, hn, fun k' hk' _ => Nat.le_of_lt_succ hk'⟩
    · obtain ⟨hlt, hk, hlast⟩ := ih h
      refine ⟨by omega, hk, fun k' hk' hh => ?_⟩
      have hne : k' ≠ n := by rintro rfl; exact hn hh
      exact hlast k' (by omega) hh

theorem lastHit_eq_none (h : lastHit cl lba j n = none) : ∀ k < n, ¬ Hits cl lba j k := by
  induction n with
  | zero => exact fun k hk => absurd hk (Nat.not_lt_zero k)
  | succ n ih =>
    rw [lastHit] at h
    split_ifs at h with hn
    intro k hk hh
    have hne : k ≠ n := by rintro rfl; exact hn hh
    exact ih h k (by omega) hh

theorem storeSector_get (ram : Block UInt8 ramDiskSize) (hi : i < ramDiskSize) :
    (storeSector cl lba data ram k).get i =
      if Hits cl lba (i / 512) k then data (512 * k + i % 512) else ram.get i := by
  have hi' : i < 2048 := hi
  unfold storeSector
  by_cases hc : 65 ≤ lba + k ∧ cl ≤ 2 + (lba + k - 65) / 8 ∧ (lba + k - 65) % 8 < 4
  · rw [if_pos hc, Block.get_write hi]
    by_cases hj : (lba + k - 65) % 8 = i / 512
    · rw [if_pos (by omega), if_pos ⟨hc.1, hc.2.1, hj⟩]
      congr 1
      omega
    · rw [if_neg (by omega), if_neg fun h => hj h.2.2]
  · rw [if_neg hc, if_neg]
    rintro ⟨h₁, h₂, h₃⟩
    exact hc ⟨h₁, h₂, by omega⟩

/-- **Of the sectors that share a place the last one is kept.** -/
theorem storeSectors_get (ram : Block UInt8 ramDiskSize) (hi : i < ramDiskSize) :
    (storeSectors cl lba data n ram).get i =
      (lastHit cl lba (i / 512) n).elim (ram.get i) fun k => data (512 * k + i % 512) := by
  induction n with
  | zero => rfl
  | succ n ih =>
    rw [storeSectors_succ, storeSector_get _ hi, ih, lastHit]
    split_ifs <;> rfl

theorem storeSectors_storeSectors (ram : Block UInt8 ramDiskSize) :
    storeSectors cl lba data n (storeSectors cl lba data n ram) =
      storeSectors cl lba data n ram := by
  refine Block.ext_get fun i hi => ?_
  rw [storeSectors_get _ hi, storeSectors_get _ hi]
  cases lastHit cl lba (i / 512) n <;> rfl

theorem storeSectors_of_root (ram : Block UInt8 ramDiskSize) (h : lba + n ≤ 65) :
    storeSectors cl lba data n ram = ram := by
  refine Block.ext_get fun i hi => ?_
  rw [storeSectors_get _ hi]
  cases hl : lastHit cl lba (i / 512) n with
  | none => rfl
  | some k =>
    obtain ⟨hk, hh, -⟩ := lastHit_eq_some hl
    have := hh.1
    omega

theorem storeSectors_add (cl lba : ℕ) (data : ℕ → UInt8) (m n : ℕ)
    (ram : Block UInt8 ramDiskSize) : storeSectors cl lba data (m + n) ram =
      storeSectors cl (lba + m) (fun i => data (512 * m + i)) n
        (storeSectors cl lba data m ram) := by
  induction n with
  | zero => rfl
  | succ n ih =>
    rw [← Nat.add_assoc, storeSectors_succ, storeSectors_succ, ih, storeSector, storeSector,
      Nat.add_assoc lba m n]
    have hdata : (fun i => data (512 * (m + n) + i)) =
        fun i => (fun i => data (512 * m + i)) (512 * n + i) := by
      funext i
      dsimp only
      congr 1
      omega
    rw [hdata]

theorem rootRecords_add (lba m n : ℕ) : rootRecords lba (16 * (m + n)) =
    rootRecords lba (16 * m) ++ (rootRecords (lba + m) (16 * n)).map (16 * m + ·) := by
  unfold rootRecords
  rw [Nat.mul_add, List.range_add, List.filter_append, List.filter_map]
  congr 2
  refine List.filter_congr fun r _ => ?_
  simp only [Function.comp_apply, decide_eq_decide]
  omega

theorem scanned_add (d : ScriptDisk) (lba m n : ℕ) (data : ℕ → UInt8) :
    d.scanned lba (m + n) data =
      (d.write lba m data).scanned (lba + m) n fun i => data (512 * m + i) := by
  unfold scanned
  rw [rootRecords_add, List.foldl_append, List.foldl_map]
  refine List.foldl_ext _ _ _ fun v r _ => ?_
  -- record `16 * m + r` of the whole write is record `r` of its second part
  have hat : ∀ x, 32 * (16 * m + r) + x = 512 * m + (32 * r + x) := by
    intro x
    omega
  have hname : nameAt data (32 * (16 * m + r)) = nameAt (fun i => data (512 * m + i)) (32 * r) :=
    nameAt_congr fun x _ => by rw [hat]
  have hcl : le16 data (32 * (16 * m + r) + 26) =
      le16 (fun i => data (512 * m + i)) (32 * r + 26) :=
    le16_congr fun x _ => by rw [Nat.add_assoc, hat, Nat.add_assoc]
  have hsize : le32 data (32 * (16 * m + r) + 28) =
      le32 (fun i => data (512 * m + i)) (32 * r + 28) :=
    le32_congr fun x _ => by rw [Nat.add_assoc, hat, Nat.add_assoc]
  rw [scanRecord, scanRecord, hname, hcl, hsize]

/-- Past the root directory a write finds no record. -/
theorem scanned_of_data (d : ScriptDisk) (n : ℕ) (data : ℕ → UInt8) (h : 65 ≤ lba) :
    d.scanned lba n data = (d.cluster, d.size) := by
  have hnil : rootRecords lba (16 * n) = [] := by
    refine List.filter_eq_nil_iff.2 fun r _ => ?_
    simp only [decide_eq_true_eq]
    omega
  rw [scanned, hnil]
  rfl

/-- **How a write is cut does not matter**: the directory sectors come before the data sectors, so
the second part meets the filter that the whole would have met. -/
theorem write_add (d : ScriptDisk) (lba m n : ℕ) (data : ℕ → UInt8) :
    d.write lba (m + n) data =
      (d.write lba m data).write (lba + m) n fun i => data (512 * m + i) := by
  have hscan := scanned_add d lba m n data
  refine ScriptDisk.ext ?_ (congrArg Prod.fst hscan) (congrArg Prod.snd hscan)
  change storeSectors _ lba data (m + n) d.ram = storeSectors _ (lba + m) _ n
    (storeSectors (d.scanned lba m data).1.toNat lba data m d.ram)
  rw [storeSectors_add, hscan]
  rcases Nat.le_total (lba + m) 65 with h | h
  · -- the first part stores nothing
    rw [storeSectors_of_root _ h, storeSectors_of_root _ h]
  · -- the second part holds no record
    rw [scanned_of_data _ n _ h]
    rfl

/-- **Writing the same sectors twice is writing them once.** -/
theorem write_write (d : ScriptDisk) (lba n : ℕ) (data : ℕ → UInt8) :
    (d.write lba n data).write lba n data = d.write lba n data := by
  have hscan : (d.write lba n data).scanned lba n data = d.scanned lba n data := by
    have hl := rootRecords_pairwise lba (16 * n)
    have h₂ := foldl_scanRecord_cases data _ hl (d.scanned lba n data)
    have h₁ := foldl_scanRecord_cases data _ hl (d.cluster, d.size)
    change (rootRecords lba (16 * n)).foldl (scanRecord data) (d.scanned lba n data) = _
    rcases h₂ with ⟨-, hv⟩ | ⟨r, hr, hrec, hlast, hv⟩
    · exact hv
    · -- the last record is the same in both scans
      rcases h₁ with ⟨hnone, -⟩ | ⟨r', hr', hrec', hlast', hv'⟩
      · exact absurd hrec (hnone r hr)
      · obtain rfl : r = r' := le_antisymm (hlast' r hr hrec) (hlast r' hr' hrec')
        rw [hv]
        exact hv'.symm
  refine ScriptDisk.ext ?_ (congrArg Prod.fst hscan) (congrArg Prod.snd hscan)
  change storeSectors ((d.write lba n data).scanned lba n data).1.toNat lba data n
    (storeSectors (d.scanned lba n data).1.toNat lba data n d.ram) = _
  rw [hscan]
  exact storeSectors_storeSectors d.ram

theorem write_congr (d : ScriptDisk) (lba : ℕ) {data' : ℕ → UInt8}
    (h : ∀ i < 512 * n, data i = data' i) : d.write lba n data = d.write lba n data' := by
  have hscan : d.scanned lba n data = d.scanned lba n data' := by
    refine List.foldl_ext _ _ _ fun v r hr => scanRecord_congr fun x hx => h _ ?_
    have := mem_rootRecords.1 hr
    omega
  refine ScriptDisk.ext ?_ (congrArg Prod.fst hscan) (congrArg Prod.snd hscan)
  change storeSectors (d.scanned lba n data).1.toNat lba data n d.ram =
    storeSectors (d.scanned lba n data').1.toNat lba data' n d.ram
  rw [hscan]
  refine Block.ext_get fun i hi => ?_
  rw [storeSectors_get _ hi, storeSectors_get _ hi]
  cases hl : lastHit (d.scanned lba n data').1.toNat lba (i / 512) n with
  | none => rfl
  | some k =>
    have hk := (lastHit_eq_some hl).1
    exact h _ (by omega)

/-- A write may be broken off and begun again. -/
theorem write_restart (d : ScriptDisk) (lba : ℕ) (data : ℕ → UInt8) (h : m ≤ n) :
    (d.write lba m data).write lba n data = d.write lba n data := by
  obtain ⟨k, rfl⟩ := Nat.exists_eq_add_of_le h
  rw [write_add, write_write, ← write_add]

theorem image_data (d : ScriptDisk) (h : 65 ≤ m ∧ m ≤ 68) (j : ℕ) :
    d.image m j = d.ram.get ((m - 65) * 512 + j) := by
  have hroot : ¬ m = 33 := by omega
  rw [image, if_neg (by omega), if_neg (by omega), if_neg hroot, if_pos h]

theorem image_write_data (d : ScriptDisk) (lba n : ℕ) (data : ℕ → UInt8) (hm : 65 ≤ m ∧ m ≤ 68)
    (hj : j < 512) : (d.write lba n data).image m j =
      (lastHit (d.scanned lba n data).1.toNat lba (m - 65) n).elim (d.image m j)
        fun k => data (512 * k + j) := by
  have hi : (m - 65) * 512 + j < ramDiskSize := show _ < 2048 by omega
  have hslot : ((m - 65) * 512 + j) / 512 = m - 65 := by omega
  have hbyte : ((m - 65) * 512 + j) % 512 = j := by omega
  rw [image_data _ hm, image_data _ hm]
  change (storeSectors _ lba data n d.ram).get _ = _
  rw [storeSectors_get _ hi, hslot, hbyte]

theorem image_write_of_ne (d : ScriptDisk) (lba n : ℕ) (data : ℕ → UInt8) (h33 : m ≠ 33)
    (hm : ¬ (65 ≤ m ∧ m ≤ 68)) (j : ℕ) : (d.write lba n data).image m j = d.image m j := by
  rw [image, image, if_neg h33, if_neg h33, if_neg hm, if_neg hm]

theorem image_of_ge (d : ScriptDisk) (h : 69 ≤ m) (j : ℕ) : d.image m j = 0 := by
  have hroot : ¬ m = 33 := by omega
  have hdata : ¬ (65 ≤ m ∧ m ≤ 68) := by omega
  rw [image, if_neg (by omega), if_neg (by omega), if_neg hroot, if_neg hdata]

theorem sectors_eq (d : ScriptDisk) (lba n : ℕ) : Fat16.sectors d.sector lba n =
    (List.range (n * 512)).map fun i => d.image (lba + i / 512) (i % 512) := by
  rw [← flatMap_range_mul]
  refine List.flatMap_congr fun b _ => List.map_congr_left fun i hi => ?_
  have hi := List.mem_range.1 hi
  congr 1 <;> omega

/-- **Which data sectors can be read back**: those of the RAM disk, as long as the file is not moved
behind their cluster. -/
theorem read_back_iff (d : ScriptDisk) (hlba : 65 ≤ lba) (hn : 1 ≤ n) :
    (∀ data, Fat16.sectors (d.write lba n data).sector lba n = (List.range (n * 512)).map data) ↔
      lba + n ≤ 69 ∧ d.cluster.toNat ≤ 2 := by
  have hscan : ∀ data, (d.scanned lba n data).1 = d.cluster := fun data => by
    rw [scanned_of_data d n data hlba]
  simp only [sectors_eq, List.map_inj_left, List.mem_range]
  constructor
  · intro h
    have hle : lba + n ≤ 69 := by
      -- otherwise the last sector of the write reads as zero
      by_contra hgt
      have hlast := h (fun _ => 1) ((n - 1) * 512) (by omega)
      rw [image_of_ge _ (by omega)] at hlast
      exact absurd hlast (by decide)
    refine ⟨hle, ?_⟩
    -- otherwise the first sector of the write is not stored
    by_contra hcl
    have hfirst : ∀ b, (d.write lba n fun _ => b).image lba 0 = b := fun b => by
      simpa using h (fun _ => b) 0 (by omega)
    have hold : ∀ b, (d.write lba n fun _ => b).image lba 0 = d.image lba 0 := by
      intro b
      rw [image_write_data _ _ _ _ (by omega) (by omega), hscan]
      cases hl : lastHit d.cluster.toNat lba (lba - 65) n with
      | none => rfl
      | some k =>
        obtain ⟨hk, ⟨-, hpass, -⟩, -⟩ := lastHit_eq_some hl
        omega
    have hb := (hfirst 0).symm.trans ((hold 0).trans ((hold 1).symm.trans (hfirst 1)))
    exact absurd hb (by decide)
  · rintro ⟨hle, hcl⟩ data i hi
    rw [image_write_data _ _ _ _ (by omega) (Nat.mod_lt _ (by omega))]
    have hhit : Hits (d.scanned lba n data).1.toNat lba (lba + i / 512 - 65) (i / 512) := by
      rw [hscan]
      exact ⟨by omega, by omega, by omega⟩
    cases hl : lastHit (d.scanned lba n data).1.toNat lba (lba + i / 512 - 65) n with
    | none => exact absurd hhit (lastHit_eq_none hl _ (by omega))
    | some k =>
      obtain ⟨hk, hh, hlast⟩ := lastHit_eq_some hl
      have := hlast _ (by omega) hhit
      have := hh.2.2
      change data _ = data i
      congr 1
      omega

end ScriptDisk

/-! ### Commands -/

/-- The commands a host sends to the disk: an in-range `READ(10)`, a `WRITE(10)` of at least one
sector that stays on the disk, or any other command. -/
def Command.OnDisk (x : Command) : Prop :=
  x.cbw.signature = Cbw.goodSignature ∧
    (x.cbw.opcode = .read10 → x.cbw.dataTransferLength.toNat = x.cbw.blocks.toNat * 512) ∧
    (x.cbw.opcode = .write10 → 1 ≤ x.cbw.blocks.toNat) ∧
    (x.cbw.opcode = .read10 ∨ x.cbw.opcode = .write10 →
      x.cbw.lba.toNat + x.cbw.blocks.toNat ≤ 0x4000)

instance : DecidablePred Command.OnDisk := fun x => by
  unfold Command.OnDisk
  exact inferInstance

theorem Command.OnDisk.inRange {x : Command} (hx : x.OnDisk) (ho : x.cbw.opcode = .read10) :
    x.cbw.InRange where
  opcode := ho
  length := hx.2.1 ho
  fits := hx.2.2.2 (.inl ho)

/-- The answer to a command that reads a generated header. -/
def Cbw.headerReply (c : Cbw) : Reply :=
  if c.dataTransferLength = 0 then ⟨[], c.status 0 0⟩
  else ⟨c.header, c.status (c.dataTransferLength - .ofNat c.header.length) 0⟩

namespace ScriptDisk

/-- One command on the disk. -/
def serve (d : ScriptDisk) (x : Command) : ScriptDisk × Reply :=
  match x.cbw.opcode with
  | .read10 =>
    (d.read x.cbw.lba.toNat x.cbw.blocks.toNat,
      ⟨Fat16.sectors d.sector x.cbw.lba.toNat x.cbw.blocks.toNat, x.cbw.status 0 0⟩)
  | .write10 => (d.write x.cbw.lba.toNat x.cbw.blocks.toNat x.data, ⟨[], x.cbw.status 0 0⟩)
  | .requestSense | .inquiry | .modeSense6 | .readCapacity10 | .modeSense10 =>
    (d, x.cbw.headerReply)
  | .testUnitReady | .preventAllowRemoval | .other =>
    (d, ⟨[], x.cbw.status 0
      (if 0 < x.cbw.dataTransferLength ∧ x.cbw.flags &&& 0x80 ≠ 0 then 1 else 0)⟩)

end ScriptDisk

/-- The disk, one command after the other. -/
def diskMachine : Machine ScriptDisk Command Reply where
  step d x := if x.OnDisk then some ((d.serve x).1, [(d.serve x).2]) else none

end Ch32fun
