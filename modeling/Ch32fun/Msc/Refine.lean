import Ch32fun.Msc.Disk

/-!
# The driver is the disk

In `MSC_IDLE` a reachable state stands for a `ScriptDisk` (`Msc.disk`).  A command on the disk, in
whatever way the host plays it, takes the driver to a state of the next disk and is answered as the
disk answers it (`Play.serve`); so a session of commands is a run of `diskMachine`
(`session_refines`), and the laws of the disk hold of the driver:

* `pieces_agree` : how a host cuts a write into `WRITE(10)` commands, and which of them it repeats,
  does not matter;
* `read_after_write` : what a `READ(10)` returns after a `WRITE(10)`.
-/

namespace Ch32fun

namespace Msc

open Machine Fat16

variable {s s' t t' : Msc} {log log' : List Event} {logs logs' : List (List Event)} {c : Cbw}
  {x y : Command} {xs ys : List Command} {data data' : ℕ → UInt8} {lba n m : ℕ}

/-- The disk that a state stands for. -/
def disk (s : Msc) (h : s.FileInv) : ScriptDisk where
  ram := s.mscRamDisk
  cluster := s.activeFileCluster
  size := s.activeFileSize
  cluster_ne := h.cluster_ne
  size_le := h.size_le

theorem entry_disk (h : s.FileInv) : (s.disk h).entry = s.dirEntry := by
  refine Block.ext_get fun i hi => ?_
  by_cases hlt : i < 28
  · rw [dirEntry_get h hlt, ScriptDisk.entry, Block.get_write_of_lt hlt]
  · -- the size field
    rw [ScriptDisk.entry, dirEntry, Block.get_write hi, Block.get_write hi, if_pos (by omega),
      if_pos (by omega)]
    rfl

theorem sector_disk (h : s.FileInv) : (s.disk h).sector = s.sector := by
  funext n
  refine List.map_congr_left fun j _ => ?_
  rw [ScriptDisk.image, image, entry_disk]
  rfl

/-! ### One command -/

/-- A `READ(10)` comes past the first directory sector if its range holds it. -/
theorem clusterAfter_eq (s : Msc) (hc : c.InRange) : s.clusterAfter c (8 * c.blocks.toNat) =
    if c.lba.toNat ≤ 33 ∧ 33 < c.lba.toNat + c.blocks.toNat then fileCluster
    else s.activeFileCluster := by
  refine if_congr ?_ rfl rfl
  constructor
  · rintro ⟨j, hj, hr⟩
    have h33 : (c.readLba j).toNat = 33 := congrArg UInt32.toNat hr
    rw [hc.readLba hj] at h33
    omega
  · rintro ⟨h₁, h₂⟩
    have hj : 8 * (33 - c.lba.toNat) < 8 * c.blocks.toNat := by omega
    refine ⟨8 * (33 - c.lba.toNat), hj, UInt32.toNat_inj.1 ?_⟩
    rw [hc.readLba hj]
    change _ = 33
    omega

theorem Play.read (h : s.Play c data log s') (hs : s.SlotInv) (hf : s.FileInv) (hf' : s'.FileInv)
    (hc : c.InRange) : s'.disk hf' = (s.disk hf).read c.lba.toNat c.blocks.toNat := by
  have hsame := h.sameFile hs (by rw [hc.opcode]; decide)
  have hcl := (h.cluster_read10 hs hc.opcode).trans (clusterAfter_eq s hc)
  unfold ScriptDisk.read
  split_ifs at hcl ⊢
  · exact ScriptDisk.ext hsame.ram hcl hsame.size
  · exact ScriptDisk.ext hsame.ram hcl hsame.size

theorem Play.writeDisk (h : s.Play c data log s') (hs : s.SlotInv) (hf : s.FileInv)
    (hf' : s'.FileInv) (ho : c.opcode = .write10) (hB : 1 ≤ c.blocks.toNat)
    (hfits : c.lba.toNat + c.blocks.toNat ≤ 0x4000) :
    s'.disk hf' = (s.disk hf).write c.lba.toNat c.blocks.toNat data := by
  have hpair := h.filePair hs ho hB hfits
  have hram := h.mscRamDisk hs ho hB hfits
  have hcl : s'.activeFileCluster = _ := congrArg Prod.fst hpair
  rw [hcl] at hram
  exact ScriptDisk.ext hram hcl (congrArg Prod.snd hpair)

theorem Play.disk_of_ne (h : s.Play c data log s') (hs : s.SlotInv) (hf : s.FileInv)
    (hf' : s'.FileInv) (hr : c.opcode ≠ .read10) (hw : c.opcode ≠ .write10) :
    s'.disk hf' = s.disk hf := by
  have hsame := h.sameFile hs hw
  exact ScriptDisk.ext hsame.ram (h.cluster_of_ne hs hr hw) hsame.size

/-- **One command on the driver is one command on the disk**, and is answered as that is. -/
theorem Play.serve (h : s.Play x.cbw x.data log s') (hs : s.SlotInv) (hf : s.FileInv)
    (hf' : s'.FileInv) (hx : x.OnDisk) :
    s'.disk hf' = ((s.disk hf).serve x).1 ∧ Answers log ((s.disk hf).serve x).2 := by
  unfold ScriptDisk.serve
  cases ho : x.cbw.opcode
  case read10 =>
    refine ⟨h.read hs hf hf' (hx.inRange ho), ?_⟩
    rw [sector_disk]
    exact h.answers_read10 hs (hx.inRange ho)
  case write10 =>
    exact ⟨h.writeDisk hs hf hf' ho (hx.2.2.1 ho) (hx.2.2.2 (.inr ho)), h.answers_write10 hs ho⟩
  case requestSense | inquiry | modeSense6 | readCapacity10 | modeSense10 =>
    exact ⟨h.disk_of_ne hs hf hf' (by rw [ho]; decide) (by rw [ho]; decide),
      h.answers_oneShot hs (by rw [ho]; rfl) (by rw [ho]; decide)⟩
  case testUnitReady | preventAllowRemoval | other =>
    exact ⟨h.disk_of_ne hs hf hf' (by rw [ho]; decide) (by rw [ho]; decide),
      h.answers_noData hs (by rw [ho]; rfl) (by rw [ho]; decide)⟩

/-! ### A session of commands -/

theorem exists_session_onDisk (xs : List Command) (hs : s.SlotInv) (hidle : s.mscState = .idle)
    (hxs : ∀ x ∈ xs, x.OnDisk) : ∃ logs s', Session s xs logs s' :=
  exists_session xs hs hidle fun x hx => ⟨(hxs x hx).1, (hxs x hx).2.2.1⟩

theorem Session.reachable (h : Session s xs logs s') (hr : s.Reachable) : s'.Reachable := by
  induction h with
  | nil => exact hr
  | cons hp _ ih => exact ih (hp.reachable hr)

theorem Session.disk_run (h : Session s xs logs s') (hr : s.Reachable)
    (hxs : ∀ x ∈ xs, x.OnDisk) (hf' : s'.FileInv) :
    ∃ rs, diskMachine.Run Free (s.disk hr.fileInv) xs rs (s'.disk hf') ∧
      List.Forall₂ Answers logs rs := by
  induction h with
  | nil s => exact ⟨[], .nil _, .nil⟩
  | @cons s t s' x xs log logs hp _ ih =>
    have ht := hp.reachable hr
    have hx := hxs x List.mem_cons_self
    obtain ⟨hd, ha⟩ := hp.serve hr.slotInv hr.fileInv ht.fileInv hx
    obtain ⟨rs, hrun, hall⟩ := ih ht (fun y hy => hxs y (List.mem_cons_of_mem _ hy)) hf'
    refine ⟨_, .cons trivial (if_pos hx) ?_, .cons ha hall⟩
    rw [← hd]
    exact hrun

/-- **A session of commands is a run of the disk.**  From a reachable state that waits for a command
every sequence of commands on the disk can be played, and there is one run of the disk that all ways
to play it agree with: every command is answered with the data bytes and the status wrapper of the
disk, and the state at the end stands for the disk at the end. -/
theorem session_refines (hr : s.Reachable) (hidle : s.mscState = .idle)
    (hxs : ∀ x ∈ xs, x.OnDisk) : (∃ logs s', Session s xs logs s') ∧
      ∃ rs d, diskMachine.Run Free (s.disk hr.fileInv) xs rs d ∧
        ∀ logs s', Session s xs logs s' → List.Forall₂ Answers logs rs ∧
          ∃ hr' : s'.Reachable, s'.disk hr'.fileInv = d := by
  obtain ⟨logs, s', h⟩ := exists_session_onDisk xs hr.slotInv hidle hxs
  obtain ⟨rs, hrun, -⟩ := h.disk_run hr hxs (h.reachable hr).fileInv
  refine ⟨⟨logs, s', h⟩, rs, _, hrun, fun logs' t' h' => ?_⟩
  obtain ⟨rs', hrun', hall⟩ := h'.disk_run hr hxs (h'.reachable hr).fileInv
  obtain ⟨rfl, hd⟩ := hrun.det hrun'
  exact ⟨hall, h'.reachable hr, hd.symm⟩

/-- A byte is saved, and the session is that of the disk. -/
theorem session_refines_byte : ∃ logs s' rs,
    Session usbInit [directoryWrite 2, sectorWrite 0x61] logs s' ∧
      List.Forall₂ Answers logs rs := by
  have hon : ∀ x ∈ [directoryWrite 2, sectorWrite 0x61], x.OnDisk := by
    simp only [List.forall_mem_cons]
    exact ⟨by decide, by decide, by simp⟩
  obtain ⟨⟨logs, s', h⟩, rs, _, -, hall⟩ := session_refines (.refl usbInit) rfl hon
  exact ⟨logs, s', rs, h, (hall logs s' h).1⟩

/-! ### A write in pieces -/

/-- The commands write the `n` sectors from `lba` on, with the bytes `data`, in pieces: a piece may
be followed by the next one, or be broken off and begun again, and commands that are neither
`READ(10)` nor `WRITE(10)` may come anywhere. -/
inductive Pieces : ℕ → (ℕ → UInt8) → List Command → ℕ → Prop
  | other {lba : ℕ} {data : ℕ → UInt8} {x : Command} : x.OnDisk → x.cbw.opcode ≠ .read10 →
      x.cbw.opcode ≠ .write10 → Pieces lba data [x] 0
  | write {data : ℕ → UInt8} {x : Command} : x.OnDisk → x.cbw.opcode = .write10 →
      (∀ i < 512 * x.cbw.blocks.toNat, x.data i = data i) →
      Pieces x.cbw.lba.toNat data [x] x.cbw.blocks.toNat
  | append {lba m n : ℕ} {data : ℕ → UInt8} {xs ys : List Command} : Pieces lba data xs m →
      Pieces (lba + m) (fun i => data (512 * m + i)) ys n → Pieces lba data (xs ++ ys) (m + n)
  | again {lba m n : ℕ} {data : ℕ → UInt8} {xs ys : List Command} : Pieces lba data xs m →
      m ≤ n → Pieces lba data ys n → Pieces lba data (xs ++ ys) n

/-- However a write is cut, it is one write on the disk. -/
theorem Session.pieces (h : Session s xs logs s') (hr : s.Reachable) (hf' : s'.FileInv)
    (hxs : Pieces lba data xs n) :
    s'.disk hf' = (s.disk hr.fileInv).write lba n data := by
  induction hxs generalizing s s' logs with
  | other hx hread hwrite =>
    obtain _ | ⟨hp, hnil⟩ := h
    cases hnil
    exact hp.disk_of_ne hr.slotInv hr.fileInv hf' hread hwrite
  | write hx ho hdata =>
    obtain _ | ⟨hp, hnil⟩ := h
    cases hnil
    rw [hp.writeDisk hr.slotInv hr.fileInv hf' ho (hx.2.2.1 ho) (hx.2.2.2 (.inr ho))]
    exact ScriptDisk.write_congr _ _ hdata
  | append _ _ ih₁ ih₂ =>
    obtain ⟨t, logs₁, logs₂, h₁, h₂, -⟩ := session_append h
    have ht := h₁.reachable hr
    rw [ih₂ h₂ ht hf', ih₁ h₁ hr ht.fileInv, ScriptDisk.write_add]
  | again _ hle _ ih₁ ih₂ =>
    obtain ⟨t, logs₁, logs₂, h₁, h₂, -⟩ := session_append h
    have ht := h₁.reachable hr
    rw [ih₂ h₂ ht hf', ih₁ h₁ hr ht.fileInv, ScriptDisk.write_restart _ _ _ hle]

/-- **How a write is cut into commands does not matter.**  Two hosts write the same sectors with the
same bytes from the same reachable state, each in its own pieces, with repetitions and with other
commands in between.  The RAM disk, the active cluster and the active size come out the same, and
so does every sector of the volume. -/
theorem pieces_agree (hr : s.Reachable) (hxs : Pieces lba data xs n) (hys : Pieces lba data ys n)
    (h : Session s xs logs s') (h' : Session s ys logs' t') :
    s'.mscRamDisk = t'.mscRamDisk ∧ s'.activeFileCluster = t'.activeFileCluster ∧
      s'.activeFileSize = t'.activeFileSize ∧ s'.sector = t'.sector := by
  have hs' := (h.reachable hr).fileInv
  have ht' := (h'.reachable hr).fileInv
  have hd : s'.disk hs' = t'.disk ht' := by
    rw [h.pieces hr hs' hxs, h'.pieces hr ht' hys]
  refine ⟨congrArg ScriptDisk.ram hd, congrArg ScriptDisk.cluster hd,
    congrArg ScriptDisk.size hd, ?_⟩
  rw [← sector_disk hs', ← sector_disk ht', hd]

/-- Two sectors at once, and one after the other with the first one repeated. -/
theorem pieces_agree_fill : ∃ logs s' logs' t',
    Session usbInit [fillWrite 65 2 0x61] logs s' ∧
      Session usbInit [fillWrite 65 1 0x61, fillWrite 65 1 0x61, fillWrite 66 1 0x61] logs' t' ∧
      s'.mscRamDisk = t'.mscRamDisk := by
  have hon : ∀ x ∈ [fillWrite 65 2 0x61, fillWrite 65 1 0x61, fillWrite 66 1 0x61], x.OnDisk := by
    simp only [List.forall_mem_cons]
    exact ⟨by decide, by decide, by decide, by simp⟩
  have hpiece : ∀ lba n : UInt8, fillWrite lba n 0x61 ∈
      [fillWrite 65 2 0x61, fillWrite 65 1 0x61, fillWrite 66 1 0x61] →
      Pieces (fillWrite lba n 0x61).cbw.lba.toNat (fun _ => 0x61) [fillWrite lba n 0x61]
        (fillWrite lba n 0x61).cbw.blocks.toNat :=
    fun lba n h => .write (hon _ h) rfl fun _ _ => rfl
  have h₁ : Pieces 65 (fun _ => 0x61) [fillWrite 65 1 0x61] 1 := hpiece 65 1 (by simp)
  have h₂ : Pieces 66 (fun _ => 0x61) [fillWrite 66 1 0x61] 1 := hpiece 66 1 (by simp)
  have hwhole : Pieces 65 (fun _ => 0x61) [fillWrite 65 2 0x61] 2 := hpiece 65 2 (by simp)
  have hparts : Pieces 65 (fun _ => 0x61)
      [fillWrite 65 1 0x61, fillWrite 65 1 0x61, fillWrite 66 1 0x61] 2 :=
    .again h₁ (by omega) (.append h₁ h₂)
  obtain ⟨logs, s', h⟩ := exists_session_onDisk [fillWrite 65 2 0x61] slotInv_usbInit rfl
    fun x hx => hon x (by simp_all)
  obtain ⟨logs', t', h'⟩ := exists_session_onDisk
    [fillWrite 65 1 0x61, fillWrite 65 1 0x61, fillWrite 66 1 0x61] slotInv_usbInit rfl
    fun x hx => hon x (by simp_all)
  exact ⟨logs, s', logs', t', h, h', (pieces_agree (.refl _) hwhole hparts h h').1⟩

/-! ### Reading after a write -/

theorem Session.dataInBytes {w r : Command} (h : Session s [w, r] [log, log'] s')
    (hr : s.Reachable) (hw : w.OnDisk) (hwo : w.cbw.opcode = .write10) (hrd : r.OnDisk)
    (hro : r.cbw.opcode = .read10) : dataInBytes log' = sectors
      ((s.disk hr.fileInv).write w.cbw.lba.toNat w.cbw.blocks.toNat w.data).sector
      r.cbw.lba.toNat r.cbw.blocks.toNat := by
  obtain _ | ⟨hp, _ | ⟨hq, hnil⟩⟩ := h
  have ht := hp.reachable hr
  rw [hq.dataInBytes ht.slotInv (hrd.inRange hro), ← sector_disk ht.fileInv,
    hp.writeDisk hr.slotInv hr.fileInv ht.fileInv hwo (hw.2.2.1 hwo) (hw.2.2.2 (.inr hwo))]

/-- **What a `READ(10)` returns after a `WRITE(10)`.**  A sector of the RAM disk is the last written
one of those that share its place and pass the filter of the cluster that the write ends with, or
what it was before; the first directory sector shows the size that the write ends with; all other
sectors are as before the write. -/
theorem read_after_write {w r : Command} (hr : s.Reachable) (hw : w.OnDisk)
    (hwo : w.cbw.opcode = .write10) (hrd : r.OnDisk) (hro : r.cbw.opcode = .read10)
    (h : Session s [w, r] [log, log'] s') :
    ∃ cl size, (rootRecords w.cbw.lba.toNat (16 * w.cbw.blocks.toNat)).foldl (scanRecord w.data)
        (s.activeFileCluster, s.activeFileSize) = (cl, size) ∧
      dataInBytes log' = (List.range (r.cbw.blocks.toNat * 512)).map fun i =>
        let m := r.cbw.lba.toNat + i / 512
        if 65 ≤ m ∧ m ≤ 68 then
          (ScriptDisk.lastHit cl.toNat w.cbw.lba.toNat (m - 65) w.cbw.blocks.toNat).elim
            (s.image m (i % 512)) fun k => w.data (512 * k + i % 512)
        else if m = 33 then (rootDirEntryInit.write 28 4 (leByte size)).get (i % 512)
        else s.image m (i % 512) := by
  refine ⟨_, _, rfl, ?_⟩
  have himage : s.image = (s.disk hr.fileInv).image := by
    funext m j
    rw [image, ScriptDisk.image, entry_disk]
    rfl
  rw [h.dataInBytes hr hw hwo hrd hro, ScriptDisk.sectors_eq, himage]
  refine List.map_congr_left fun i _ => ?_
  dsimp only
  split_ifs with h₁ h₂
  · exact ScriptDisk.image_write_data _ _ _ _ h₁ (Nat.mod_lt _ (by omega))
  · rw [h₂]
    rfl
  · exact ScriptDisk.image_write_of_ne _ _ _ _ h₂ h₁ _

theorem exists_session_fill : ∃ log log' s',
    Session usbInit [fillWrite 65 1 0x61, fillRead 65 1] [log, log'] s' := by
  obtain ⟨logs, s', h⟩ := exists_session_onDisk [fillWrite 65 1 0x61, fillRead 65 1]
    slotInv_usbInit rfl (by
      simp only [List.forall_mem_cons]
      exact ⟨by decide, by decide, by simp⟩)
  obtain _ | ⟨hp, _ | ⟨hq, hnil⟩⟩ := h
  cases hnil
  exact ⟨_, _, s', .cons hp (.cons hq (.nil s'))⟩

/-- A sector of the script is written and read. -/
theorem read_after_write_fill : ∃ log log' s',
    Session usbInit [fillWrite 65 1 0x61, fillRead 65 1] [log, log'] s' ∧
      (dataInBytes log')[0]? = some 0x61 := by
  obtain ⟨log, log', s', h⟩ := exists_session_fill
  refine ⟨log, log', s', h, ?_⟩
  obtain ⟨cl, size, hscan, hbytes⟩ := read_after_write (.refl _)
    (by decide : (fillWrite 65 1 0x61).OnDisk) rfl (by decide : (fillRead 65 1).OnDisk) rfl h
  -- the write holds no directory record
  cases (by decide +kernel : _ = ((2 : UInt16), (142 : UInt32))).symm.trans hscan
  rw [hbytes, List.getElem?_map, List.getElem?_range (by decide)]
  decide +kernel

/-- **Which data sectors can be read back.**  From a reachable state that waits for a command,
sectors of the data area are written and read again.  That returns the bytes written, whatever they
are, if and only if they all lie in the RAM disk and the active cluster is not behind the first
one. -/
theorem write_read_back_iff {w r : Cbw} (hr : s.Reachable) (hidle : s.mscState = .idle)
    (hw : Command.OnDisk ⟨w, fun _ => 0⟩) (hwo : w.opcode = .write10)
    (hrd : Command.OnDisk ⟨r, fun _ => 0⟩) (hro : r.opcode = .read10) (hlba : 65 ≤ w.lba.toNat)
    (hsame : r.lba = w.lba ∧ r.blocks = w.blocks) :
    (∀ data log log' s', Session s [⟨w, data⟩, ⟨r, fun _ => 0⟩] [log, log'] s' →
      dataInBytes log' = (List.range (w.blocks.toNat * 512)).map data) ↔
      w.lba.toNat + w.blocks.toNat ≤ 69 ∧ s.activeFileCluster.toNat ≤ 2 := by
  refine Iff.trans ?_ ((s.disk hr.fileInv).read_back_iff hlba (hw.2.2.1 hwo))
  refine forall_congr' fun data => ?_
  have hbytes : ∀ log log' s', Session s [⟨w, data⟩, ⟨r, fun _ => 0⟩] [log, log'] s' →
      dataInBytes log' = sectors ((s.disk hr.fileInv).write w.lba.toNat w.blocks.toNat data).sector
        w.lba.toNat w.blocks.toNat := by
    intro log log' s' h
    rw [h.dataInBytes hr hw hwo hrd hro, hsame.1, hsame.2]
  constructor
  · intro h
    obtain ⟨logs, s', hses⟩ := exists_session_onDisk [⟨w, data⟩, ⟨r, fun _ => 0⟩] hr.slotInv hidle
      (by
        intro x hx
        rcases List.mem_cons.1 hx with rfl | hx
        · exact hw
        · rw [List.mem_singleton.1 hx]
          exact hrd)
    obtain ⟨log, log', rfl⟩ : ∃ log log', logs = [log, log'] := by
      obtain _ | ⟨-, _ | ⟨-, hnil⟩⟩ := hses
      cases hnil
      exact ⟨_, _, rfl⟩
    rw [← hbytes _ _ _ hses, h _ _ _ hses]
  · intro h log log' s' hses
    rw [hbytes _ _ _ hses, h]

/-- A sector of the script is read back at power-up. -/
theorem write_read_back_fill : ∃ log log' s',
    Session usbInit [fillWrite 65 1 0x61, fillRead 65 1] [log, log'] s' ∧
      dataInBytes log' = (List.range 512).map fun _ => 0x61 := by
  obtain ⟨log, log', s', h⟩ := exists_session_fill
  exact ⟨log, log', s', h, (write_read_back_iff (w := (fillWrite 65 1 0x61).cbw)
    (r := (fillRead 65 1).cbw) (.refl _) rfl (by decide) rfl (by decide) rfl (by decide)
    ⟨by decide, by decide⟩).2 ⟨by decide, by decide⟩ (fun _ => 0x61) log log' s' h⟩

end Msc

end Ch32fun
