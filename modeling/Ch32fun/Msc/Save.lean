import Ch32fun.Msc.Write
import Ch32fun.RamFile

/-!
# Saving `main.py`

A host that saves the script writes a directory entry with the file's cluster and size, and the
sectors of the file to that cluster, with other commands in between.  `Session` plays a list of
commands; a poll in `MSC_IDLE` does nothing and needs no place in it.

* `Command.IsDirectory`, `Command.IsData`, `Command.IsHarmless` : the commands of a save.
* `save_main_py` : directory first, then the sectors in any order and any grouping; the file is
  stored and can be read back.
-/

namespace Ch32fun

/-- A command with the bytes the host sends for it. -/
structure Command where
  cbw : Cbw
  data : ℕ → UInt8

/-- A `WRITE(10)` of at least one block, the length announced rightly. -/
structure Command.IsWrite (x : Command) : Prop where
  opcode : x.cbw.opcode = .write10
  length : x.cbw.dataTransferLength.toNat = x.cbw.blocks.toNat * 512
  blocks : 1 ≤ x.cbw.blocks.toNat

open Msc in
/-- A write of root directory sectors in which exactly one record starts with the name the driver
looks for, and carries the first cluster `cl` and the size `size`. -/
structure Command.IsDirectory (cl : UInt16) (size : ℕ) (x : Command) : Prop extends x.IsWrite where
  root : 33 ≤ x.cbw.lba.toNat ∧ x.cbw.lba.toNat + x.cbw.blocks.toNat ≤ 65
  entry : ∃ r, r < 16 * x.cbw.blocks.toNat ∧ nameAt x.data (32 * r) = true ∧
    le16 x.data (32 * r + 26) = cl ∧ (le32 x.data (32 * r + 28)).toNat = size ∧
    ∀ r', r' < 16 * x.cbw.blocks.toNat → nameAt x.data (32 * r') = true → r' = r

/-- The number of sectors of a file. -/
def sectorCount (f : List UInt8) : ℕ := (f.length + 511) / 512

/-- A write of the sectors `k, k + 1, …` of the file `f` to the cluster `cl`, the last sector of
the file padded with any bytes. -/
structure Command.IsData (cl : UInt16) (f : List UInt8) (k : ℕ) (x : Command) : Prop
    extends x.IsWrite where
  lba : x.cbw.lba.toNat = Msc.clusterSector cl.toNat + k
  sectors : k + x.cbw.blocks.toNat ≤ sectorCount f
  content : ∀ i (h : 512 * k + i < f.length), i < x.cbw.blocks.toNat * 512 →
    x.data i = f.get ⟨512 * k + i, h⟩

/-- An in-range `READ(10)`, a `REQUEST SENSE`, or a `TEST UNIT READY` without a data-in phase. -/
def Command.IsHarmless (x : Command) : Prop :=
  x.cbw.InRange ∨ x.cbw.opcode = .requestSense ∨
    (x.cbw.opcode = .testUnitReady ∧ (x.cbw.dataTransferLength = 0 ∨ x.cbw.flags &&& 0x80 = 0))

theorem Command.IsHarmless.ne_write10 {x : Command} (h : x.IsHarmless) :
    x.cbw.opcode ≠ .write10 := by
  rcases h with ⟨ho, -, -⟩ | ho | ⟨ho, -⟩ <;> rw [ho] <;> decide

namespace Msc

variable {s s' t : Msc} {log : List Event} {logs : List (List Event)} {x : Command}
  {xs : List Command} {cl : UInt16} {f : List UInt8} {k size : ℕ}

/-- Commands played one after the other, each with its log. -/
inductive Session : Msc → List Command → List (List Event) → Msc → Prop
  | nil (s : Msc) : Session s [] [] s
  | cons {s s' s'' : Msc} {x : Command} {xs : List Command} {log : List Event}
      {logs : List (List Event)} : s.Play x.cbw x.data log s' → Session s' xs logs s'' →
      Session s (x :: xs) (log :: logs) s''

theorem Session.slotInv (h : Session s xs logs s') (hs : s.SlotInv) : s'.SlotInv := by
  induction h with
  | nil => exact hs
  | cons hp _ ih => exact ih (hp.slotInv hs)

theorem session_append {ys : List Command} {logs : List (List Event)}
    (h : Session s (xs ++ ys) logs s') :
    ∃ t logs₁ logs₂, Session s xs logs₁ t ∧ Session t ys logs₂ s' ∧ logs = logs₁ ++ logs₂ := by
  induction xs generalizing s logs with
  | nil => exact ⟨s, [], logs, .nil s, h, rfl⟩
  | cons x xs ih =>
    cases h with
    | cons hp hrest =>
      obtain ⟨t, l₁, l₂, h₁, h₂, rfl⟩ := ih hrest
      exact ⟨t, _, l₂, .cons hp h₁, h₂, rfl⟩

/-! ### The effect of one command -/

theorem foldl_scanRecord {data : ℕ → UInt8} {r : ℕ} (hcl : le16 data (32 * r + 26) ≠ 0)
    (hname : nameAt data (32 * r) = true) (l : List ℕ)
    (huniq : ∀ r' ∈ l, nameAt data (32 * r') = true → r' = r) (v : UInt16 × UInt32) :
    l.foldl (scanRecord data) v =
      if r ∈ l then (le16 data (32 * r + 26), clampSize (le32 data (32 * r + 28))) else v := by
  induction l generalizing v with
  | nil => rfl
  | cons r' l ih =>
    rw [List.foldl_cons, ih fun r'' h => huniq r'' (List.mem_cons_of_mem _ h)]
    by_cases hr' : r' = r
    · have hscan : scanRecord data v r =
          (le16 data (32 * r + 26), clampSize (le32 data (32 * r + 28))) := if_pos ⟨hname, hcl⟩
      rw [hr', hscan, if_pos (List.mem_cons_self (a := r))]
      split_ifs <;> rfl
    · have hscan : scanRecord data v r' = v :=
        if_neg fun h => hr' (huniq r' List.mem_cons_self h.1)
      rw [hscan]
      simp only [List.mem_cons, show r ≠ r' from fun h => hr' h.symm, false_or]

/-- A directory write moves the active cluster and size to those of its entry. -/
theorem Play.directory (h : s.Play x.cbw x.data log s') (hs : s.SlotInv)
    (hx : x.IsDirectory cl size) (hcl : cl ≠ 0) (hsize : size ≤ ramDiskSize) :
    s'.mscRamDisk = s.mscRamDisk ∧ s'.activeFileCluster = cl ∧ s'.activeFileSize.toNat = size := by
  obtain ⟨r, hr, hname, hcluster, hlen, huniq⟩ := hx.entry
  have hroot := hx.root
  have hpair := fed_filePair s x.data hx.opcode (by omega) (le_refl _)
  -- all records of the write lie in the root directory
  have hall : rootRecords x.cbw.lba.toNat (2 * (8 * x.cbw.blocks.toNat)) =
      List.range (16 * x.cbw.blocks.toNat) := by
    rw [rootRecords, show 2 * (8 * x.cbw.blocks.toNat) = 16 * x.cbw.blocks.toNat by omega]
    refine List.filter_eq_self.2 fun r' hr' => ?_
    have := List.mem_range.1 hr'
    simp only [decide_eq_true_eq]
    omega
  have hclamp : (clampSize (le32 x.data (32 * r + 28))).toNat = size := by
    rw [clampSize, if_neg, hlen]
    rw [gt_iff_lt, UInt32.lt_iff_toNat_lt, hlen]
    exact not_lt.2 hsize
  rw [hall, foldl_scanRecord (by rwa [hcluster]) hname _
    (fun r' hr' => huniq r' (List.mem_range.1 hr')), if_pos (List.mem_range.2 hr),
    hcluster] at hpair
  rw [h.write hs hx.opcode hx.blocks]
  refine ⟨fed_mscRamDisk_of_root s x.data hx.opcode hroot.2 le_rfl, congrArg Prod.fst hpair, ?_⟩
  rw [← hclamp]
  exact congrArg (fun v => UInt32.toNat v.2) hpair

/-- A data write stores its sectors, or is dropped by the filter. -/
theorem Play.dataWrite (h : s.Play x.cbw x.data log s') (hs : s.SlotInv) (hx : x.IsData cl f k)
    (hcl : 2 ≤ cl.toNat) (hfit : clusterSector cl.toNat + 3 < 0x4000)
    (hf : f.length ≤ ramDiskSize) :
    s'.filePair = s.filePair ∧ s'.mscRamDisk =
      if s.activeFileCluster.toNat ≤ cl.toNat then
        s.mscRamDisk.write (512 * k) (512 * x.cbw.blocks.toNat) x.data
      else s.mscRamDisk := by
  have hlba := hx.lba
  have hsec := hx.sectors
  have hcount : sectorCount f ≤ 4 := by
    unfold sectorCount
    have hf : f.length ≤ 2048 := hf
    omega
  have h65 : 65 ≤ x.cbw.lba.toNat := by
    rw [hlba, clusterSector]
    omega
  rw [h.write hs hx.opcode hx.blocks]
  constructor
  · -- no record of the write lies in the root directory
    have hnil : rootRecords x.cbw.lba.toNat (2 * (8 * x.cbw.blocks.toNat)) = [] := by
      refine List.filter_eq_nil_iff.2 fun r _ => ?_
      simp only [decide_eq_true_eq]
      omega
    have hpair := fed_filePair s x.data hx.opcode (by omega) (le_refl _)
    rwa [hnil] at hpair
  · have hram := fed_mscRamDisk_of_data s x.data hx.opcode hcl hlba (by omega) hfit (le_refl _)
    rwa [show 64 * (8 * x.cbw.blocks.toNat) = 512 * x.cbw.blocks.toNat by omega] at hram

/-- Sector `j` of the file is in the RAM disk. -/
def Holds (f : List UInt8) (s : Msc) (j : ℕ) : Prop :=
  ∀ i (h : i < f.length), i / 512 = j → s.mscRamDisk.get i = f.get ⟨i, h⟩

/-- A data write that passes the filter brings its sectors, and takes none away. -/
theorem Play.holds (h : s.Play x.cbw x.data log s') (hs : s.SlotInv) (hx : x.IsData cl f k)
    (hcl : 2 ≤ cl.toNat) (hfit : clusterSector cl.toNat + 3 < 0x4000)
    (hf : f.length ≤ ramDiskSize) (hactive : s.activeFileCluster.toNat ≤ cl.toNat) {j : ℕ}
    (hj : Holds f s j ∨ k ≤ j ∧ j < k + x.cbw.blocks.toNat) : Holds f s' j := by
  obtain ⟨-, hram⟩ := h.dataWrite hs hx hcl hfit hf
  rw [if_pos hactive] at hram
  intro i hi hij
  rw [hram, Block.get_write (by omega)]
  split_ifs with hin
  · -- byte `i` is one of those written, at its place in the write
    have hc := hx.content (i - 512 * k) (by omega) (by omega)
    rw [hc]
    congr 2
    omega
  · rcases hj with hj | hj
    · exact hj i hi hij
    · omega

theorem Play.statusZero (h : s.Play x.cbw x.data log s') (hs : s.SlotInv)
    (hx : x.IsWrite ∨ x.IsHarmless) :
    ∃ w, sentCsws log = [w] ∧ w.tag = x.cbw.tag ∧ w.status = 0 := by
  obtain ⟨w, hw, htag, hstatus⟩ := h.status hs
  refine ⟨w, hw, htag, hstatus.trans ?_⟩
  rcases hx with hx | ⟨ho, -, -⟩ | ho | ⟨ho, hn⟩
  · exact (begin_write10 s hx.opcode).2.1
  · exact (begin_dataIn s (by rw [ho]; rfl)).2.1
  · exact (begin_dataIn s (by rw [ho]; rfl)).2.1
  · have hno : ¬ (0 < x.cbw.dataTransferLength ∧ x.cbw.flags &&& 0x80 ≠ 0) := by
      rintro ⟨hpos, hflag⟩
      rcases hn with h0 | h0
      · rw [h0] at hpos
        exact absurd hpos (by decide)
      · exact hflag h0
    rw [Msc.begin, ho]
    dsimp only
    rw [if_neg hno]

/-! ### Directory first -/

/-- The sectors of the file, and what may come between them. -/
def SaveCommand (cl : UInt16) (f : List UInt8) (x : Command) : Prop :=
  (∃ k, x.IsData cl f k) ∨ x.IsHarmless

/-- Every sector of the file is written by some command. -/
def Covers (cl : UInt16) (f : List UInt8) (xs : List Command) : Prop :=
  ∀ j, j < sectorCount f → ∃ x ∈ xs, ∃ k, x.IsData cl f k ∧ k ≤ j ∧ j < k + x.cbw.blocks.toNat

/-- The command is answered with one status wrapper of success. -/
def Succeeds (x : Command) (log : List Event) : Prop :=
  ∃ w, sentCsws log = [w] ∧ w.tag = x.cbw.tag ∧ w.status = 0

theorem Play.save (h : s.Play x.cbw x.data log s') (hs : s.SlotInv) (hx : SaveCommand cl f x)
    (hcl : 2 ≤ cl.toNat) (hfit : clusterSector cl.toNat + 3 < 0x4000)
    (hf : f.length ≤ ramDiskSize) (hactive : s.activeFileCluster.toNat ≤ cl.toNat) :
    s'.activeFileSize = s.activeFileSize ∧ s'.activeFileCluster.toNat ≤ cl.toNat ∧
      (∀ j, Holds f s j → Holds f s' j) ∧ Succeeds x log := by
  rcases hx with ⟨k, hx⟩ | hx
  · obtain ⟨hpair, -⟩ := h.dataWrite hs hx hcl hfit hf
    refine ⟨congrArg Prod.snd hpair, ?_, fun j hj => h.holds hs hx hcl hfit hf hactive (.inl hj),
      h.statusZero hs (.inl hx.toIsWrite)⟩
    rwa [show s'.activeFileCluster = s.activeFileCluster from congrArg Prod.fst hpair]
  · have hsame := h.sameFile hs hx.ne_write10
    refine ⟨hsame.size, ?_, fun j hj i hi hij => ?_, h.statusZero hs (.inr hx)⟩
    · -- a read of the directory resets the active cluster to 2, which passes no less
      rcases hsame.cluster with hc | hc
      · rwa [hc]
      · rw [hc]
        exact hcl
    · rw [hsame.ram]
      exact hj i hi hij

theorem Session.save (h : Session s xs logs s') (hs : s.SlotInv)
    (hxs : ∀ x ∈ xs, SaveCommand cl f x) (hcl : 2 ≤ cl.toNat)
    (hfit : clusterSector cl.toNat + 3 < 0x4000) (hf : f.length ≤ ramDiskSize)
    (hactive : s.activeFileCluster.toNat ≤ cl.toNat) :
    s'.activeFileSize = s.activeFileSize ∧ (∀ j, Holds f s j → Holds f s' j) ∧
      (∀ x ∈ xs, ∀ k, x.IsData cl f k → ∀ j, k ≤ j → j < k + x.cbw.blocks.toNat → Holds f s' j) ∧
      List.Forall₂ Succeeds xs logs := by
  induction h with
  | nil s => exact ⟨rfl, fun _ hj => hj, by simp, .nil⟩
  | @cons s t s' x xs log logs hp _ ih =>
    obtain ⟨hsize, hact, hkeep, hsucc⟩ :=
      hp.save hs (hxs x List.mem_cons_self) hcl hfit hf hactive
    obtain ⟨hsize', hkeep', hnew, hall⟩ := ih (hp.slotInv hs)
      (fun x hx => hxs x (List.mem_cons_of_mem _ hx)) hact
    refine ⟨hsize'.trans hsize, fun j hj => hkeep' j (hkeep j hj), ?_, .cons hsucc hall⟩
    intro y hy k hdata j hkj hjk
    rcases List.mem_cons.1 hy with rfl | hy
    · exact hkeep' j (hp.holds hs hdata hcl hfit hf hactive (.inr ⟨hkj, hjk⟩))
    · exact hnew y hy k hdata j hkj hjk

theorem stored_of_holds (h : ∀ j, j < sectorCount f → Holds f s j) (i : ℕ) (hi : i < f.length) :
    s.mscRamDisk.get i = f.get ⟨i, hi⟩ := by
  refine h (i / 512) ?_ i hi rfl
  unfold sectorCount
  omega

theorem Session.directoryFirst {dir : Command} (h : Session s (dir :: xs) logs s')
    (hs : s.SlotInv) (hcl : 2 ≤ cl.toNat) (hfit : clusterSector cl.toNat + 3 < 0x4000)
    (hf : f.length ≤ ramDiskSize) (hdir : dir.IsDirectory cl f.length)
    (hxs : ∀ x ∈ xs, SaveCommand cl f x) (hcover : Covers cl f xs) :
    (∀ i (hi : i < f.length), s'.mscRamDisk.get i = f.get ⟨i, hi⟩) ∧
      s'.activeFileSize.toNat = f.length ∧ List.Forall₂ Succeeds (dir :: xs) logs := by
  obtain _ | ⟨hp, hrest⟩ := h
  obtain ⟨-, hactive, hsize⟩ := hp.directory hs hdir
    (by rintro rfl; exact absurd hcl (by decide)) hf
  obtain ⟨hsize', -, hnew, hall⟩ :=
    hrest.save (hp.slotInv hs) hxs hcl hfit hf (by rw [hactive])
  refine ⟨stored_of_holds fun j hj => ?_, by rw [hsize', hsize],
    .cons (hp.statusZero hs (.inl hdir.toIsWrite)) hall⟩
  obtain ⟨x, hx, k, hdata, hkj, hjk⟩ := hcover j hj
  exact hnew x hx k hdata j hkj hjk

theorem exists_session (xs : List Command) (hs : s.SlotInv) (hidle : s.mscState = .idle)
    (hxs : ∀ x ∈ xs, x.cbw.signature = Cbw.goodSignature ∧
      (x.cbw.opcode = .write10 → 1 ≤ x.cbw.blocks.toNat)) :
    ∃ logs s', Session s xs logs s' := by
  induction xs generalizing s with
  | nil => exact ⟨[], s, .nil s⟩
  | cons x xs ih =>
    obtain ⟨hsig, hB⟩ := hxs x List.mem_cons_self
    obtain ⟨log, t, hp⟩ := exists_play_any x.data hs hidle hsig hB
    obtain ⟨logs, s', h⟩ := ih (hp.slotInv hs) hp.idle fun y hy => hxs y (List.mem_cons_of_mem _ hy)
    exact ⟨log :: logs, s', .cons hp h⟩

theorem SaveCommand.blocks (h : SaveCommand cl f x) (hw : x.cbw.opcode = .write10) :
    1 ≤ x.cbw.blocks.toNat := by
  rcases h with ⟨k, hx⟩ | hx
  · exact hx.blocks
  · exact absurd hw hx.ne_write10

/-- **Saving `main.py`, directory first.**  From a reachable state in `MSC_IDLE` a host writes the
directory entry of a file `f` at cluster `cl`, and then all sectors of `f` to the cluster, in any
order and any grouping, with harmless commands in between.  Such a session can always be played to
its end, and however it is played, the RAM disk then holds `f`, the active size is that of `f`,
every command was answered with success, and a script that opens `main.py` reads `f`. -/
theorem save_main_py {dir : Command} (hr : s.Reachable) (hidle : s.mscState = .idle)
    (hcl : 2 ≤ cl.toNat) (hfit : clusterSector cl.toNat + 3 < 0x4000) (hf₁ : 1 ≤ f.length)
    (hf₂ : f.length ≤ ramDiskSize) (hdir : dir.IsDirectory cl f.length)
    (hxs : ∀ x ∈ xs, SaveCommand cl f x) (hcover : Covers cl f xs)
    (hsig : ∀ x ∈ dir :: xs, x.cbw.signature = Cbw.goodSignature) :
    (∃ logs s', Session s (dir :: xs) logs s') ∧ ∀ logs s', Session s (dir :: xs) logs s' →
      (∀ i (hi : i < f.length), s'.mscRamDisk.get i = f.get ⟨i, hi⟩) ∧
        s'.activeFileSize.toNat = f.length ∧
        List.Forall₂ Succeeds (dir :: xs) logs ∧
        ∃ self, mpBuiltinOpen (ascii "main.py") = .ok self ∧
          (ramFileRead s' self none).2 = .str f := by
  refine ⟨exists_session _ hr.slotInv hidle fun x hx => ⟨hsig x hx, ?_⟩, fun logs s' h => ?_⟩
  · rcases List.mem_cons.1 hx with rfl | hx
    · exact fun _ => hdir.blocks
    · exact (hxs x hx).blocks
  obtain ⟨hstored, hsize, hall⟩ :=
    h.directoryFirst hr.slotInv hcl hfit hf₂ hdir hxs hcover
  refine ⟨hstored, hsize, hall, ⟨0⟩, mpBuiltinOpen_main, ?_⟩
  have hpos : (0 : UInt32) < s'.activeFileSize := by
    rw [UInt32.lt_iff_toNat_lt, hsize, UInt32.toNat_zero]
    omega
  rw [ramFileRead_of_lt hpos]
  refine congrArg FileValue.str (List.ext_getElem ?_ fun i h₁ h₂ => ?_)
  · rw [List.length_map, List.length_range, hsize, UInt32.toNat_zero, Nat.sub_zero]
  · rw [List.getElem_map, List.getElem_range, UInt32.toNat_zero, Nat.zero_add]
    exact hstored i h₂

/-! ### Saves of the host -/

/-- `WRITE(10)` of the first root directory sector. -/
def directoryCbw : Cbw := Cbw.ofBlock 1 512 0 [0x2A, 0, 0, 0, 0, 33, 0, 0, 1]

/-- `WRITE(10)` of the first sector of cluster 2. -/
def sectorCbw : Cbw := Cbw.ofBlock 2 512 0 [0x2A, 0, 0, 0, 0, 65, 0, 0, 1]

/-- `TEST UNIT READY` of a host that expects data, which the driver has none of. -/
def testUnitReadyCbw : Cbw := Cbw.ofBlock 3 512 0x80 [0, 0, 0, 0, 0, 0, 0, 0, 1]

theorem directoryCbw_blocks : directoryCbw.blocks.toNat = 1 := by decide

theorem sectorCbw_blocks : sectorCbw.blocks.toNat = 1 := by decide

/-- A directory sector whose only entry is `main    py`, of cluster `cl` and size `lo + 256 hi`. -/
def entryWrite (cl lo hi : UInt8) : Command where
  cbw := directoryCbw
  data i := (ascii "main    py " ++ List.replicate 15 0 ++ [cl, 0, lo, hi, 0, 0]).getD i 0

/-- The entry of a file of one byte. -/
def directoryWrite (cl : UInt8) : Command := entryWrite cl 1 0

/-- A sector of bytes `b`. -/
def sectorWrite (b : UInt8) : Command where
  cbw := sectorCbw
  data _ := b

/-- `WRITE(10)` of the `n` sectors from `lba` on, every byte `b`. -/
def fillWrite (lba n b : UInt8) : Command where
  cbw := Cbw.ofBlock 2 (512 * n.toUInt32) 0 [0x2A, 0, 0, 0, 0, lba, 0, 0, n]
  data _ := b

/-- `READ(10)` of the `n` sectors from `lba` on. -/
def fillRead (lba n : UInt8) : Command where
  cbw := Cbw.ofBlock 3 (512 * n.toUInt32) 0x80 [0x28, 0, 0, 0, 0, lba, 0, 0, n]
  data _ := 0

theorem nameAt_head {g : ℕ → UInt8} {i : ℕ} (h : nameAt g i = true) : g i = 0x6D := by
  have := List.all_eq_true.1 h 0 (by decide)
  exact eq_of_beq this

theorem isDirectory_entryWrite (cl lo hi : UInt8) : (entryWrite cl lo hi).IsDirectory cl.toUInt16
    (le32 (fun i => [lo, hi, 0, 0].getD i 0) 0).toNat where
  opcode := rfl
  length := by
    change directoryCbw.dataTransferLength.toNat = directoryCbw.blocks.toNat * 512
    decide
  blocks := directoryCbw_blocks.ge
  root := by
    change 33 ≤ directoryCbw.lba.toNat ∧ directoryCbw.lba.toNat + directoryCbw.blocks.toNat ≤ 65
    decide
  entry := by
    refine ⟨0, by change 0 < 16 * directoryCbw.blocks.toNat; decide, by rfl, ?_, by rfl, ?_⟩
    · change cl.toUInt16 ||| (0 : UInt8).toUInt16 <<< 8 = _
      exact UInt16.or_zero
    · intro r _ hname
      -- the bytes behind the entry are zero
      by_contra hr
      have hzero : (entryWrite cl lo hi).data (32 * r) = 0 := by
        change List.getD _ (32 * r) 0 = 0
        rw [List.getD_eq_getElem?_getD, List.getElem?_eq_none]
        · rfl
        · change 32 ≤ 32 * r
          omega
      rw [nameAt_head hname] at hzero
      exact absurd hzero (by decide)

theorem isDirectory_directoryWrite (cl : UInt8) :
    (directoryWrite cl).IsDirectory cl.toUInt16 1 := isDirectory_entryWrite cl 1 0

theorem sectorCount_singleton (b : UInt8) : sectorCount [b] = 1 := by simp [sectorCount]

theorem isData_sectorWrite (b : UInt8) : (sectorWrite b).IsData 2 [b] 0 where
  opcode := rfl
  length := by change sectorCbw.dataTransferLength.toNat = sectorCbw.blocks.toNat * 512; decide
  blocks := sectorCbw_blocks.ge
  lba := by change sectorCbw.lba.toNat = clusterSector 2 + 0; decide
  sectors := by rw [sectorCount_singleton]; change 0 + sectorCbw.blocks.toNat ≤ 1; decide
  content i h _ := by
    have hlt : 512 * 0 + i < 1 := h
    obtain rfl : i = 0 := by omega
    rfl

theorem covers_sectorWrite {b : UInt8} {xs : List Command} (h : sectorWrite b ∈ xs) :
    Covers 2 [b] xs := by
  intro j hj
  rw [sectorCount_singleton] at hj
  obtain rfl : j = 0 := by omega
  exact ⟨_, h, 0, isData_sectorWrite b, le_rfl, sectorCbw_blocks.symm ▸ Nat.one_pos⟩

/-- A `TEST UNIT READY` with a data-in phase is answered with the status of a failure. -/
theorem save_main_py_refused :
    let tur : Command := ⟨testUnitReadyCbw, fun _ => 0⟩
    let xs := [directoryWrite 2, tur, sectorWrite 0x61]
    usbInit.Reachable ∧ usbInit.mscState = .idle ∧
      (directoryWrite 2).IsDirectory 2 ([0x61] : List UInt8).length ∧
      (sectorWrite 0x61).IsData 2 [0x61] 0 ∧ Covers 2 [0x61] [tur, sectorWrite 0x61] ∧
      tur.cbw.opcode = .testUnitReady ∧
      tur.cbw.dataTransferLength.toNat = tur.cbw.blocks.toNat * 512 ∧
      (∃ logs s', Session usbInit xs logs s') ∧
      ∀ logs s', Session usbInit xs logs s' → ¬ List.Forall₂ Succeeds xs logs := by
  refine ⟨Machine.Reachable.refl _, rfl, isDirectory_directoryWrite 2, isData_sectorWrite 0x61,
    covers_sectorWrite (by simp), by decide, by decide, ?_, fun logs s' h hall => ?_⟩
  · exact exists_session _ slotInv_usbInit rfl (by simp only [List.forall_mem_cons]; decide)
  · obtain _ | ⟨hdir, _ | ⟨htur, -⟩⟩ := h
    obtain ⟨w, hw, -, hstatus⟩ := htur.status (hdir.slotInv slotInv_usbInit)
    obtain _ | ⟨-, _ | ⟨⟨w', hw', -, hzero⟩, -⟩⟩ := hall
    cases hw.symm.trans hw'
    -- the branch for commands without data sets the status where the host expects data
    have hone : ∀ t : Msc, (t.begin testUnitReadyCbw).csw.status = 1 := fun _ => rfl
    exact absurd (hzero.symm.trans (hstatus.trans (hone _))) (by decide)

/-- A script of two sectors, the second one not full. -/
def twoSectors : List UInt8 := List.replicate 512 0x61 ++ List.replicate 88 0x62

theorem length_twoSectors : twoSectors.length = 600 := by
  rw [twoSectors, List.length_append, List.length_replicate, List.length_replicate]

theorem isDirectory_twoSectors : (entryWrite 2 88 2).IsDirectory 2 twoSectors.length := by
  rw [length_twoSectors]
  exact isDirectory_entryWrite 2 88 2

theorem sectorCount_twoSectors : sectorCount twoSectors = 2 := by
  rw [sectorCount, length_twoSectors]

theorem isData_twoSectors₀ : (fillWrite 65 1 0x61).IsData 2 twoSectors 0 where
  opcode := rfl
  length := by decide
  blocks := by decide
  lba := by decide
  sectors := by rw [sectorCount_twoSectors]; decide
  content i h hi := by
    have hi : i < 512 := hi
    have hfirst : 512 * 0 + i < (List.replicate 512 (0x61 : UInt8)).length := by
      rw [List.length_replicate]
      omega
    rw [List.get_eq_getElem]
    exact ((List.getElem_append_left hfirst).trans (List.getElem_replicate _)).symm

theorem isData_twoSectors₁ : (fillWrite 66 1 0x62).IsData 2 twoSectors 1 where
  opcode := rfl
  length := by decide
  blocks := by decide
  lba := by decide
  sectors := by rw [sectorCount_twoSectors]; decide
  content i h _ := by
    have hsecond : (List.replicate 512 (0x61 : UInt8)).length ≤ 512 * 1 + i := by
      rw [List.length_replicate]
      omega
    rw [List.get_eq_getElem]
    exact ((List.getElem_append_right hsecond).trans (List.getElem_replicate _)).symm

theorem covers_twoSectors {xs : List Command} (h₀ : fillWrite 65 1 0x61 ∈ xs)
    (h₁ : fillWrite 66 1 0x62 ∈ xs) : Covers 2 twoSectors xs := by
  intro j hj
  rw [sectorCount_twoSectors] at hj
  obtain rfl | rfl : j = 0 ∨ j = 1 := by omega
  · exact ⟨_, h₀, 0, isData_twoSectors₀, le_rfl, by decide⟩
  · exact ⟨_, h₁, 1, isData_twoSectors₁, le_rfl, by decide⟩

/-- The second sector first, and a read of the directory before the other one. -/
def saveTwoSectors : List Command :=
  [fillWrite 66 1 0x62, fillRead 33 1, fillWrite 65 1 0x61]

theorem saveCommand_twoSectors : ∀ x ∈ saveTwoSectors, SaveCommand 2 twoSectors x := by
  simp only [saveTwoSectors, List.forall_mem_cons]
  exact ⟨.inl ⟨1, isData_twoSectors₁⟩, .inr (.inl ⟨by decide, by decide, by decide⟩),
    .inl ⟨0, isData_twoSectors₀⟩, by simp⟩

/-- A script of two sectors is saved to cluster 2, at power-up, and read back. -/
theorem save_main_py_twoSectors : ∃ logs s',
    Session usbInit (entryWrite 2 88 2 :: saveTwoSectors) logs s' ∧
      (ramFileRead s' ⟨0⟩ none).2 = .str twoSectors := by
  obtain ⟨⟨logs, s', h⟩, hall⟩ := save_main_py (Machine.Reachable.refl _) (s := usbInit) rfl
    (by decide) (by decide) (by rw [length_twoSectors]; decide)
    (by rw [length_twoSectors]; decide)
    isDirectory_twoSectors saveCommand_twoSectors
    (covers_twoSectors (by simp [saveTwoSectors]) (by simp [saveTwoSectors]))
    (by simp only [saveTwoSectors, List.forall_mem_cons]; decide)
  obtain ⟨-, -, -, self, hopen, hread⟩ := hall logs s' h
  cases mpBuiltinOpen_main.symm.trans hopen
  exact ⟨logs, s', h, hread⟩

end Msc

end Ch32fun
