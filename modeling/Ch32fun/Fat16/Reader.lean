import Ch32fun.Data.Block

/-!
# Reading a FAT16 volume

A reader is a program that asks for sectors and goes on with their bytes (`Reader`), so that it can
be run on a disk image as well as on a device that has to be asked.  `readVolume` takes the layout
from sector 0, reads the root directory up to its first empty entry, and follows the cluster chain
of every file in one of the copies of the allocation table.

## Main definitions

* `Reader`, `Reader.run` : programs that read sectors, and their result on a disk image.
* `Layout.parse`, `Entry.parse` : the fields of the boot sector and of a directory entry.
* `entries`, `chain` : the files of a directory, the clusters of a file.
* `readVolume` : all the files of a volume.
-/

namespace Ch32fun

namespace Fat16

/-- A program that reads sectors. -/
inductive Reader (α : Type*)
  | done (a : α)
  /-- Read `n` sectors from `lba` on, and go on with their bytes. -/
  | fetch (lba n : ℕ) (k : List UInt8 → Reader α)

/-- The bytes of the `n` sectors from `lba` on. -/
def sectors (disk : ℕ → List UInt8) (lba n : ℕ) : List UInt8 :=
  (List.range n).flatMap fun b => disk (lba + b)

theorem sectors_add (disk : ℕ → List UInt8) (lba m n : ℕ) :
    sectors disk lba (m + n) = sectors disk lba m ++ sectors disk (lba + m) n := by
  rw [sectors, List.range_add, List.flatMap_append, List.flatMap_map]
  simp only [sectors, Nat.add_assoc]

/-- The result of a reader on a disk image. -/
def Reader.run {α : Type*} (disk : ℕ → List UInt8) : Reader α → α
  | .done a => a
  | .fetch lba n k => (k (sectors disk lba n)).run disk

/-- Every sector the reader asks for, on this disk image, lies before sector `total`. -/
def Reader.Within {α : Type*} (disk : ℕ → List UInt8) (total : ℕ) : Reader α → Prop
  | .done _ => True
  | .fetch lba n k => lba + n ≤ total ∧ (k (sectors disk lba n)).Within disk total

/-! ### The layout -/

/-- The fields of the boot sector a reader needs. -/
structure Layout where
  bytesPerSector : ℕ
  sectorsPerCluster : ℕ
  reservedSectors : ℕ
  fatCount : ℕ
  rootEntries : ℕ
  sectorsPerFat : ℕ
  deriving DecidableEq

/-- The layout in the boot sector with the bytes `f`. -/
def Layout.parse (f : ℕ → UInt8) : Layout where
  bytesPerSector := (le16 f 11).toNat
  sectorsPerCluster := (f 13).toNat
  reservedSectors := (le16 f 14).toNat
  fatCount := (f 16).toNat
  rootEntries := (le16 f 17).toNat
  sectorsPerFat := (le16 f 22).toNat

namespace Layout

variable (L : Layout)

/-- The first sector of a copy of the allocation table. -/
def fatStart (copy : ℕ) : ℕ := L.reservedSectors + copy * L.sectorsPerFat

/-- The first sector of the root directory. -/
def rootStart : ℕ := L.fatStart L.fatCount

/-- The number of sectors of the root directory. -/
def rootSectors : ℕ := (L.rootEntries * 32 + L.bytesPerSector - 1) / L.bytesPerSector

/-- The first sector of a cluster. -/
def clusterStart (c : ℕ) : ℕ := L.rootStart + L.rootSectors + (c - 2) * L.sectorsPerCluster

end Layout

theorem Layout.parse_congr {f g : ℕ → UInt8} (h : ∀ i, i < 24 → f i = g i) :
    Layout.parse f = Layout.parse g := by
  have h16 : ∀ i, i < 23 → le16 f i = le16 g i := fun i hi =>
    le16_congr fun k hk => h _ (by omega)
  rw [Layout.parse, Layout.parse, h16 11 (by omega), h16 14 (by omega), h16 17 (by omega),
    h16 22 (by omega), h 13 (by omega), h 16 (by omega)]

/-! ### The directory -/

/-- A directory entry. -/
structure Entry where
  name : List UInt8
  cluster : ℕ
  size : ℕ
  deriving DecidableEq

/-- The directory entry number `i` of the directory with the bytes `f`. -/
def Entry.parse (f : ℕ → UInt8) (i : ℕ) : Entry where
  name := (List.range 11).map fun k => f (32 * i + k)
  cluster := (le16 f (32 * i + 26)).toNat
  size := (le32 f (32 * i + 28)).toNat

/-- The files among the `n` entries from number `i` on, up to the first empty one: deleted entries
(`0xE5`) and volume labels (attribute `0x08`) are passed over. -/
def entries (f : ℕ → UInt8) : ℕ → ℕ → List Entry
  | 0, _ => []
  | n + 1, i =>
    if f (32 * i) = 0 then []
    else if f (32 * i) = 0xE5 ∨ f (32 * i + 11) &&& 0x08 ≠ 0 then entries f n (i + 1)
    else Entry.parse f i :: entries f n (i + 1)

theorem entries_of_eq_zero {f : ℕ → UInt8} {i : ℕ} (n : ℕ) (h : f (32 * i) = 0) :
    entries f n i = [] := by
  cases n with
  | zero => rfl
  | succ n => exact if_pos h

theorem entries_of_file {f : ℕ → UInt8} {i : ℕ} (n : ℕ) (h₀ : f (32 * i) ≠ 0)
    (h₁ : f (32 * i) ≠ 0xE5) (h₂ : f (32 * i + 11) &&& 0x08 = 0) :
    entries f (n + 1) i = Entry.parse f i :: entries f n (i + 1) := by
  rw [entries, if_neg h₀, if_neg (not_or.2 ⟨h₁, not_not.2 h₂⟩)]

/-! ### Cluster chains -/

/-- The chain of at most `n` clusters from `c` on in the allocation table with the bytes `f`: an
entry of at least `0xFFF8` ends it.  `none` if it does not end, or runs into a free or a bad
cluster. -/
def chain (f : ℕ → UInt8) : ℕ → ℕ → Option (List ℕ)
  | 0, _ => none
  | n + 1, c =>
    let next := (le16 f (2 * c)).toNat
    if 0xFFF8 ≤ next then some [c]
    else if next < 2 ∨ next = 0xFFF7 then none
    else (chain f n next).map (c :: ·)

theorem chain_of_end {f : ℕ → UInt8} {c : ℕ} (n : ℕ) (h : 0xFFF8 ≤ (le16 f (2 * c)).toNat) :
    chain f (n + 1) c = some [c] := if_pos h

/-- A file as the reader finds it. -/
structure File where
  name : List UInt8
  size : ℕ
  clusters : List ℕ
  content : List UInt8
  deriving DecidableEq

/-! ### The reader -/

/-- The bytes of a list as a function. -/
def bytesAt (bs : List UInt8) (i : ℕ) : UInt8 := bs.getD i 0

/-- Read the clusters of a chain. -/
def readClusters {α : Type*} (L : Layout) : List ℕ → (List UInt8 → Reader α) → Reader α
  | [], k => k []
  | c :: cs, k => .fetch (L.clusterStart c) L.sectorsPerCluster fun bs =>
      readClusters L cs fun rest => k (bs ++ rest)

/-- Read the files of a directory, `none` if the chain of one of them does not end. -/
def readFiles (L : Layout) (fat : ℕ → UInt8) : List Entry → List File → Reader (Option (List File))
  | [], files => .done (some files)
  | e :: es, files =>
    match chain fat (L.sectorsPerFat * L.bytesPerSector / 2) e.cluster with
    | none => .done none
    | some cs => readClusters L cs fun bs =>
        readFiles L fat es (files ++ [⟨e.name, e.size, cs, bs.take e.size⟩])

/-- All the files of a volume, by the copy number `copy` of the allocation table, `none` if there is
no such copy. -/
def readVolume (copy : ℕ) : Reader (Option (List File)) :=
  .fetch 0 1 fun boot =>
    let L := Layout.parse (bytesAt boot)
    if copy < L.fatCount then
      .fetch L.rootStart L.rootSectors fun root =>
        .fetch (L.fatStart copy) L.sectorsPerFat fun fat =>
          readFiles L (bytesAt fat) (entries (bytesAt root) L.rootEntries 0) []
    else .done none

section Volume

variable {disk : ℕ → List UInt8} {total copy c : ℕ} {L : Layout} {es : List Entry} {e : Entry}

/-- A reader that has found the layout and the directory goes on with the files. -/
theorem run_readVolume (hL : Layout.parse (bytesAt (sectors disk 0 1)) = L)
    (hcopy : copy < L.fatCount)
    (hes : entries (bytesAt (sectors disk L.rootStart L.rootSectors)) L.rootEntries 0 = es) :
    (readVolume copy).run disk =
      (readFiles L (bytesAt (sectors disk (L.fatStart copy) L.sectorsPerFat)) es []).run disk := by
  subst hes hL
  rw [readVolume, Reader.run]
  dsimp only
  rw [if_pos hcopy]
  rfl

theorem within_readVolume (hL : Layout.parse (bytesAt (sectors disk 0 1)) = L)
    (hcopy : copy < L.fatCount)
    (hes : entries (bytesAt (sectors disk L.rootStart L.rootSectors)) L.rootEntries 0 = es)
    (h₀ : 1 ≤ total) (hroot : L.rootStart + L.rootSectors ≤ total)
    (hfat : L.fatStart copy + L.sectorsPerFat ≤ total)
    (hfiles : (readFiles L (bytesAt (sectors disk (L.fatStart copy) L.sectorsPerFat))
      es []).Within disk total) : (readVolume copy).Within disk total := by
  subst hes hL
  rw [readVolume, Reader.Within]
  dsimp only
  rw [if_pos hcopy]
  exact ⟨h₀, hroot, hfat, hfiles⟩

theorem readFiles_singleton {fat : ℕ → UInt8}
    (h : chain fat (L.sectorsPerFat * L.bytesPerSector / 2) e.cluster = some [c]) :
    readFiles L fat [e] [] = .fetch (L.clusterStart c) L.sectorsPerCluster fun bs =>
      .done (some [⟨e.name, e.size, [c], (bs ++ []).take e.size⟩]) := by
  rw [readFiles, h]
  rfl

end Volume

end Fat16

end Ch32fun
