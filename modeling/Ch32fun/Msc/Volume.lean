import Ch32fun.Fat16.Reader
import Ch32fun.Msc.Accounting
import Ch32fun.Msc.Image
import Ch32fun.Msc.Play

/-!
# The synthetic volume, as a FAT16 reader finds it

A reader that asks the device for sectors, by one or more `READ(10)` commands for each of its
requests (`Exec`), gets the same result as on the disk image of the state it starts in
(`Exec.run_eq`): its own reads move the active cluster at most.  On that image the reader of
`Ch32fun.Fat16.Reader` finds one file, which is the active file (`run_sector`).
-/

namespace Ch32fun

namespace Msc

open Fat16

variable {s s' t : Msc} {log : List Event} {c : Cbw} {data : ℕ → UInt8} {lba n : ℕ}
  {bs : List UInt8} {α : Type} {r : Reader α} {a : α}

/-! ### Reading through the device -/

/-- The `n` sectors from `lba` on are read by in-range `READ(10)` commands; `bs` are the bytes
received. -/
inductive Reads : Msc → ℕ → ℕ → List UInt8 → Msc → Prop
  | nil (s : Msc) (lba : ℕ) : Reads s lba 0 [] s
  | cons {s t s' : Msc} {c : Cbw} {data : ℕ → UInt8} {log : List Event} {n : ℕ}
      {bs : List UInt8} : c.InRange → 1 ≤ c.blocks.toNat → s.Play c data log t →
      Reads t (c.lba.toNat + c.blocks.toNat) n bs s' →
      Reads s c.lba.toNat (c.blocks.toNat + n) (dataInBytes log ++ bs) s'

/-- A reader gets its sectors from the device. -/
inductive Exec : Msc → Reader α → α → Msc → Prop
  | done (s : Msc) (a : α) : Exec s (.done a) a s
  | fetch {s t s' : Msc} {lba n : ℕ} {k : List UInt8 → Reader α} {bs : List UInt8} {a : α} :
      Reads s lba n bs t → Exec t (k bs) a s' → Exec s (.fetch lba n k) a s'

theorem Play.dataInBytes (h : s.Play c data log s') (hs : s.SlotInv) (hc : c.InRange) :
    dataInBytes log = sectors s.sector c.lba.toNat c.blocks.toNat := by
  rw [dataInBytes_eq, ← sentPackets_outputs, h.outputs hs, sentPackets_replies_read10 s hc,
    flatMap_dataBytes, flatten_readPackets]
  rfl

theorem SameFile.sector (h : s.SameFile t) : t.sector = s.sector := by
  have hd : t.dirEntry = s.dirEntry := by rw [dirEntry, dirEntry, h.size, h.entry]
  funext n
  rw [Msc.sector, Msc.sector, image_congr h.ram hd]

/-- Reads return the sectors of the image and leave the image alone. -/
theorem Reads.bytes (h : Reads s lba n bs s') (hs : s.SlotInv) :
    bs = sectors s.sector lba n ∧ s'.sector = s.sector ∧ s'.SlotInv := by
  induction h with
  | nil s lba => exact ⟨rfl, rfl, hs⟩
  | cons hc _ hp _ ih =>
    obtain ⟨hbs, hsec, hs'⟩ := ih (hp.slotInv hs)
    have hsame := (hp.sameFile hs (by rw [hc.opcode]; decide)).sector
    refine ⟨?_, hsec.trans hsame, hs'⟩
    rw [hp.dataInBytes hs hc, hbs, hsame, sectors_add]

/-- **A reader finds on the device what it finds on the disk image.** -/
theorem Exec.run_eq (h : Exec s r a s') (hs : s.SlotInv) : a = r.run s.sector := by
  induction h with
  | done s a => rfl
  | fetch hr _ ih =>
    obtain ⟨hbs, hsec, ht⟩ := hr.bytes hs
    rw [ih ht, Reader.run, hbs, hsec]

/-! ### Every reader on the disk can be executed -/

/-- A `READ(10)` of the `n` sectors from `lba` on. -/
def readCbw (lba n : ℕ) : Cbw :=
  let w := UInt32.ofNat lba
  Cbw.ofBlock 1 (UInt32.ofNat (n * 512)) 0x80
    [0x28, 0, leByte w 3, leByte w 2, leByte w 1, leByte w 0, 0, (n / 256).toUInt8, n.toUInt8]

theorem readCbw_lba (h : lba < 2 ^ 32) (n : ℕ) : (readCbw lba n).lba.toNat = lba := by
  have hw : (readCbw lba n).lba = le32 (leByte (UInt32.ofNat lba)) 0 := by
    change (leByte _ 3).toUInt32 <<< 24 ||| (leByte _ 2).toUInt32 <<< 16 |||
      (leByte _ 1).toUInt32 <<< 8 ||| (leByte _ 0).toUInt32 = _
    have hor : ∀ a b c d : UInt32, d ||| c ||| b ||| a = a ||| b ||| c ||| d := by
      intro a b c d
      ac_rfl
    exact hor _ _ _ _
  rw [hw, le32_leByte, UInt32.toNat_ofNat', Nat.mod_eq_of_lt h]

theorem readCbw_blocks (lba : ℕ) (h : n < 65536) : (readCbw lba n).blocks.toNat = n := by
  change ((n / 256).toUInt8.toUInt32 <<< 8 ||| n.toUInt8.toUInt32).toNat = n
  have hhi : (n / 256).toUInt8.toNat = n / 256 := by
    rw [Nat.toUInt8_eq, UInt8.toNat_ofNat']
    omega
  have hlo : n.toUInt8.toNat = n % 256 := by rw [Nat.toUInt8_eq, UInt8.toNat_ofNat']
  rw [UInt32.toNat_or, UInt32.toNat_shiftLeft, UInt8.toNat_toUInt32, UInt8.toNat_toUInt32, hhi, hlo,
    Nat.or_comm, show (8 : UInt32).toNat % 32 = 8 from rfl,
    Nat.mod_eq_of_lt (show (n / 256) <<< 8 < 2 ^ 32 by rw [Nat.shiftLeft_eq]; omega),
    or_shiftLeft_toNat (a := n % 256) 8 (Nat.mod_lt _ (by omega))]
  omega

theorem readCbw_inRange (h : lba + n ≤ 0x4000) : (readCbw lba n).InRange where
  opcode := rfl
  length := by
    rw [readCbw_blocks lba (by omega)]
    change (UInt32.ofNat (n * 512)).toNat = n * 512
    rw [UInt32.toNat_ofNat', Nat.mod_eq_of_lt (by omega)]
  fits := by
    rw [readCbw_lba (by omega), readCbw_blocks lba (by omega)]
    exact h

theorem exists_reads (hs : s.SlotInv) (hidle : s.mscState = .idle) (h : lba + n ≤ 0x4000) :
    ∃ bs s', Reads s lba n bs s' ∧ s'.mscState = .idle := by
  rcases Nat.eq_zero_or_pos n with rfl | hpos
  · exact ⟨[], s, .nil s lba, hidle⟩
  have hin := readCbw_inRange h
  have hlba := readCbw_lba (show lba < 2 ^ 32 by omega) n
  have hblocks := readCbw_blocks lba (show n < 65536 by omega)
  obtain ⟨log, t, hp⟩ :=
    exists_play_dataIn (fun _ => 0) hs hidle (c := readCbw lba n) rfl rfl
  have hread := Reads.cons hin (by omega) hp (.nil t _)
  rw [hlba, hblocks] at hread
  exact ⟨_, t, hread, hp.idle⟩

theorem exists_exec (hs : s.SlotInv) (hidle : s.mscState = .idle)
    (hr : r.Within s.sector 0x4000) : ∃ a s', Exec s r a s' := by
  induction r generalizing s with
  | done a => exact ⟨a, s, .done s a⟩
  | fetch lba n k ih =>
    obtain ⟨hle, hk⟩ := hr
    obtain ⟨bs, t, hread, ht⟩ := exists_reads hs hidle hle
    obtain ⟨hbs, hsec, hslot⟩ := hread.bytes hs
    rw [← hbs, ← hsec] at hk
    obtain ⟨a, s', h⟩ := ih bs hslot ht hk
    exact ⟨a, s', .fetch hread h⟩

/-! ### What the reader finds -/

theorem bytesAt_sectors (s : Msc) {i : ℕ} (h : i < n * 512) :
    bytesAt (sectors s.sector lba n) i = s.image (lba + i / 512) (i % 512) := by
  rw [bytesAt, sectors, flatMap_sector, List.getD_eq_getElem?_getD, List.getElem?_map,
    List.getElem?_range h]
  rfl

/-- The layout in the boot sector. -/
def layout : Layout := ⟨512, 8, 1, 2, 512, 16⟩

theorem parse_bootSector (s : Msc) : Layout.parse (bytesAt (sectors s.sector 0 1)) = layout := by
  have h : Layout.parse bootSector.get = layout := by decide +kernel
  rw [← h]
  refine Layout.parse_congr fun i hi => ?_
  rw [bytesAt_sectors s (by omega), Nat.mod_eq_of_lt (by omega), Nat.div_eq_of_lt (by omega)]
  rfl

/-- The entry of the active file. -/
def fileEntry (s : Msc) : Entry := ⟨rootDirName, 2, s.activeFileSize.toNat⟩

theorem dirEntry_get (hf : s.FileInv) {i : ℕ} (hi : i < 28) :
    s.dirEntry.get i = rootDirEntryInit.get i := by
  rw [dirEntry, Block.get_write_of_lt hi, hf.entry i hi]

theorem bytesAt_root (s : Msc) {i : ℕ} (hi : i < 512) :
    bytesAt (sectors s.sector 33 32) i = s.dirEntry.get i := by
  rw [bytesAt_sectors s (by omega), Nat.mod_eq_of_lt (by omega), Nat.div_eq_of_lt (by omega)]
  rfl

theorem parse_root (hf : s.FileInv) :
    Entry.parse (bytesAt (sectors s.sector 33 32)) 0 = s.fileEntry := by
  have hinit : ∀ i, i < 28 → bytesAt (sectors s.sector 33 32) i = rootDirEntryInit.get i :=
    fun i hi => (bytesAt_root s (by omega)).trans (dirEntry_get hf hi)
  have hname : (List.range 11).map (fun k => bytesAt (sectors s.sector 33 32) (32 * 0 + k)) =
      (List.range 11).map rootDirEntryInit.get := by
    refine List.map_congr_left fun k hk => ?_
    have := List.mem_range.1 hk
    rw [hinit _ (by omega), Nat.mul_zero, Nat.zero_add]
  have hcl : le16 (bytesAt (sectors s.sector 33 32)) (32 * 0 + 26) = le16 rootDirEntryInit.get 26 :=
    le16_congr fun k hk => hinit _ (by omega)
  have hsize : le32 (bytesAt (sectors s.sector 33 32)) (32 * 0 + 28) =
      le32 (leByte s.activeFileSize) 0 := by
    refine le32_congr fun k hk => ?_
    rw [bytesAt_root s (by omega), dirEntry, Block.get_write (by omega), if_pos (by omega)]
    congr 1
    omega
  rw [Entry.parse, hname, hcl, hsize, le32_leByte]
  exact (Entry.mk.injEq ..).mpr ⟨by decide +kernel, by decide +kernel, rfl⟩

theorem entries_root (hf : s.FileInv) :
    entries (bytesAt (sectors s.sector 33 32)) 512 0 = [s.fileEntry] := by
  have hinit : ∀ i, i < 28 → bytesAt (sectors s.sector 33 32) i = rootDirEntryInit.get i :=
    fun i hi => (bytesAt_root s (by omega)).trans (dirEntry_get hf hi)
  have hend : bytesAt (sectors s.sector 33 32) (32 * (0 + 1)) = 0 := by
    rw [bytesAt_root s (by omega), Block.get_of_le (by omega)]
    rfl
  rw [entries_of_file 511 (by rw [hinit _ (by omega)]; decide) (by rw [hinit _ (by omega)]; decide)
    (by rw [hinit _ (by omega)]; decide), parse_root hf, entries_of_eq_zero 511 hend]

/-- In both copies of the allocation table the chain of the file ends at once. -/
theorem chain_fat (s : Msc) {copy : ℕ} (hcopy : copy < 2) :
    chain (bytesAt (sectors s.sector (layout.fatStart copy) 16)) 4096 2 = some [2] := by
  have hstart : layout.fatStart copy = 1 ∨ layout.fatStart copy = 17 := by
    rw [Layout.fatStart, layout]
    dsimp only
    omega
  have hbyte : ∀ i, i < 6 → bytesAt (sectors s.sector (layout.fatStart copy) 16) i =
      [0xF8, 0xFF, 0xFF, 0xFF, 0xFF, 0xFF].getD i 0 := by
    intro i hi
    rw [bytesAt_sectors s (by omega), Nat.mod_eq_of_lt (by omega), Nat.div_eq_of_lt (by omega),
      Nat.add_zero, image_fat (by omega), if_pos hstart]
  have hend : le16 (bytesAt (sectors s.sector (layout.fatStart copy) 16)) (2 * 2) =
      le16 (fun i => [0xF8, 0xFF, 0xFF, 0xFF, 0xFF, 0xFF].getD i 0) 4 :=
    le16_congr fun k hk => hbyte _ (by omega)
  refine chain_of_end 4095 ?_
  rw [hend]
  decide

theorem take_cluster (hf : s.FileInv) :
    (sectors s.sector 65 8).take s.activeFileSize.toNat =
      (List.range s.activeFileSize.toNat).map s.mscRamDisk.get := by
  have hle := hf.size_le
  have hle : s.activeFileSize.toNat ≤ 2048 := hle
  rw [sectors, flatMap_sector, ← List.map_take, List.take_range, Nat.min_eq_left (by omega)]
  refine List.map_congr_left fun i hi => ?_
  have hi := List.mem_range.1 hi
  rw [image_data (by omega), if_pos (by omega)]
  congr 1
  omega

/-- The file the reader finds. -/
def activeFile (s : Msc) : File where
  name := ascii "main    py "
  size := s.activeFileSize.toNat
  clusters := [2]
  content := (List.range s.activeFileSize.toNat).map s.mscRamDisk.get

/-- **The volume on the disk image**: the reader finds the active file and nothing else. -/
theorem run_sector (hf : s.FileInv) {copy : ℕ} (hcopy : copy < 2) :
    (readVolume copy).run s.sector = some [s.activeFile] ∧
      (readVolume copy).Within s.sector 0x4000 := by
  have hL := parse_bootSector s
  have hes : entries (bytesAt (sectors s.sector layout.rootStart layout.rootSectors))
    layout.rootEntries 0 = [s.fileEntry] := entries_root hf
  have hfat : layout.fatStart copy + layout.sectorsPerFat ≤ 0x4000 := by
    rw [Layout.fatStart, layout]
    dsimp only
    omega
  have hfiles := readFiles_singleton (L := layout) (e := s.fileEntry) (chain_fat s hcopy)
  constructor
  · rw [run_readVolume hL hcopy hes]
    refine (congrArg (Reader.run s.sector) hfiles).trans ?_
    change some [File.mk _ _ _ ((sectors s.sector 65 8 ++ []).take s.activeFileSize.toNat)] = _
    rw [List.append_nil, take_cluster hf]
    rfl
  · refine within_readVolume hL hcopy hes (by omega) (by decide) hfat ?_
    exact (congrArg (Reader.Within s.sector 0x4000) hfiles).mpr ⟨by decide, trivial⟩

/-- **The synthetic disk is a consistent FAT16 volume.**  In a reachable state that waits for a
command, a FAT16 reader that gets its sectors from the device, by either copy of the allocation
table, can be executed, and whatever `READ(10)` commands it uses it finds exactly one file: its name
is that of the script, its size the active size, its chain one cluster, and its content the
beginning of the RAM disk. -/
theorem volume_consistent (hr : s.Reachable) (hidle : s.mscState = .idle) {copy : ℕ}
    (hcopy : copy < 2) : (∃ files s', Exec s (readVolume copy) files s') ∧
      ∀ files s', Exec s (readVolume copy) files s' → files = some [s.activeFile] := by
  obtain ⟨hrun, hwithin⟩ := run_sector hr.fileInv hcopy
  refine ⟨exists_exec hr.slotInv hidle hwithin, fun files s' h => ?_⟩
  rw [h.run_eq hr.slotInv, hrun]

/-- The volume at power-up, by the second copy of the allocation table. -/
theorem volume_consistent_usbInit : ∃ files s', Exec usbInit (readVolume 1) files s' ∧
    files = some [usbInit.activeFile] := by
  obtain ⟨⟨files, s', h⟩, huniq⟩ :=
    volume_consistent (s := usbInit) (Machine.Reachable.refl _) rfl (show 1 < 2 by omega)
  exact ⟨files, s', h, huniq files s' h⟩

end Msc

end Ch32fun
