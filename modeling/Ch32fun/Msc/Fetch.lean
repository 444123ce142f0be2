import Ch32fun.Machine.Routine
import Ch32fun.Msc.Refine
import Ch32fun.Msc.Reading

/-!
# Taking the script out of the RAM disk

`ram_main_py.c` takes the script out of the RAM disk in two places: `read` copies it to a new
string, and `execute_main_py` hands it to the lexer, which reads it byte by byte as it goes.  Both
ask for the size of the file twice, to compare it and to compute a length, and both may be
interrupted by the driver in between.

* `fetchStmts` : the accesses to the globals, one statement each.
* `fetch_interrupted` : what comes out, whatever the driver does in the meantime: the bytes lie in
  the RAM disk exactly when the file did not become shorter than the position between the two
  looks at the size, and a byte that is not that of the beginning was stored by the host since.
* `views_agree`, `saved_views_agree` : without interruption a FAT16 reader, `read` and
  `execute_main_py` find the same file.
-/

namespace Ch32fun

namespace Msc

variable {s s' t : Msc} {a : Input} {as : List Input} {o o₁ log : List Event} {p : OutPacket}
  {i pos n : ℕ} {bs : List UInt8} {σ σ' : List (List Input)}

/-! ### What changes the RAM disk -/

theorem absorb_get (s : Msc) (p : OutPacket) (n : UInt32) (i : ℕ) :
    (s.absorb p n).1.mscRamDisk.get i = s.mscRamDisk.get i ∨ .stored i ∈ (s.absorb p n).2 := by
  unfold absorb
  dsimp only
  split_ifs
  · obtain ⟨_, _, _, hf⟩ := foldl_snoopEntry_frame p.data.get
      (List.range' 0 ((n.toNat + 31) / 32) 32) s
    rw [snoopDirectory, hf]
    exact .inl rfl
  · unfold writeDataArea
    dsimp only
    split_ifs
    · by_cases hi : i < ramDiskSize
      · rw [Block.get_write hi]
        split_ifs with hin
        · refine .inr (List.mem_map.2 ⟨i - (ramByteOffset s.mscCurrentOffset).toNat,
            List.mem_range.2 (by omega), ?_⟩)
          rw [Nat.add_sub_cancel' hin.1]
        · exact .inl rfl
      · rw [Block.get_of_le (not_lt.1 hi), Block.get_of_le (not_lt.1 hi)]
        exact .inl rfl
    · exact .inl rfl
  · exact .inl rfl

/-- A byte of the RAM disk changes only when it is stored. -/
theorem Move.ram_get (h : s.Move a o s') (i : ℕ) :
    s'.mscRamDisk.get i = s.mscRamDisk.get i ∨ .stored i ∈ o := by
  have hsame : ∀ {t t' : Msc}, t.SameFile t' → t'.mscRamDisk.get i = t.mscRamDisk.get i :=
    fun h => by rw [h.ram]
  cases h with
  | ignored _ => exact .inl rfl
  | rejected _ _ _ => exact .inl rfl
  | accept _ hb => exact .inl (hsame (.start hb))
  | @receive p _ _ => exact (absorb_get s p _ i).imp_right (List.mem_append_left _)
  | @receiveLast p _ _ => exact (absorb_get s p _ i).imp_right (List.mem_append_left _)
  | takeData _ _ => exact .inl rfl
  | takeStatus _ => exact .inl rfl
  | pollNothing _ => exact .inl rfl
  | pollDataIn _ _ hp => exact .inl (hsame (.prepare hp))

/-- The RAM disk is that of `s₀`, but for the bytes stored since. -/
structure Since (s₀ s : Msc) (log : List Event) : Prop where
  slotInv : s.SlotInv
  ram : ∀ i, s.mscRamDisk.get i = s₀.mscRamDisk.get i ∨ .stored i ∈ log

theorem Since.step {s₀ : Msc} (h : Since s₀ s log) (hst : mscMachine.step s a = some (s', o)) :
    Since s₀ s' (log ++ o) := by
  have hm := (step_iff_move h.slotInv).1 hst
  refine ⟨hm.slotInv h.slotInv, fun i => ?_⟩
  rcases hm.ram_get i with he | hs
  · rw [he]
    exact (h.ram i).imp_right (List.mem_append_left _)
  · exact .inr (List.mem_append_right _ hs)

/-! ### The statements -/

/-- The bytes of the RAM disk from `pos` on, one after the other. -/
def copyRam (pos : ℕ) : ℕ → Routine Msc Event (List UInt8)
  | 0 => pure []
  | n + 1 => do
    let bytes ← copyRam pos n
    let b ← Routine.read fun s => s.mscRamDisk.get (pos + n)
    pure (bytes ++ [b])

/-- The file from `pos` on: the size is compared with `pos`, read again for the length, and the
bytes are copied. -/
def fetchStmts (pos : UInt32) : Routine Msc Event (Option (List UInt8)) := do
  let size ← Routine.read activeFileSize
  if pos ≥ size then pure none
  else
    let size ← Routine.read activeFileSize
    let bytes ← copyRam pos.toNat (size - pos).toNat
    pure (some bytes)

/-- `ram_file_read`, statement by statement. -/
def ramFileReadStmts (self : RamFileObj) (_size : Option ℤ) :
    Routine Msc Event (RamFileObj × FileValue) := do
  match ← fetchStmts self.pos with
  | none => pure (self, .emptyBytes)
  | some bytes => pure ({ self with pos := self.pos + .ofNat bytes.length }, .str bytes)

/-- `execute_main_py` up to the end of the parse: the text that the lexer finds. -/
def executeMainPyStmts : Routine Msc Event (Option (List UInt8)) := fetchStmts 0

/-- The text that `execute_main_py` compiles. -/
def executeMainPy (s : Msc) : Option (List UInt8) :=
  if s.activeFileSize = 0 then none else some s.file

/-! ### Without interruption -/

theorem perform_copyRam (s : Msc) (pos n : ℕ) : (copyRam pos n).perform s =
    some ((List.range n).map fun i => s.mscRamDisk.get (pos + i), s, []) := by
  induction n with
  | zero => rfl
  | succ n ih => simp [copyRam, ih, List.range_succ]

theorem perform_fetchStmts (s : Msc) (pos : UInt32) : (fetchStmts pos).perform s =
    some (if pos ≥ s.activeFileSize then none
      else some ((List.range (s.activeFileSize - pos).toNat).map fun i =>
        s.mscRamDisk.get (pos.toNat + i)), s, []) := by
  rw [fetchStmts, Routine.perform_read_bind]
  split_ifs
  · rfl
  · rw [Routine.perform_read_bind, Routine.perform_bind, perform_copyRam, Option.bind_some]
    rfl

/-- **`read` without interruption** does what `ramFileRead` says. -/
theorem perform_ramFileReadStmts (s : Msc) (self : RamFileObj) (size : Option ℤ) :
    (ramFileReadStmts self size).perform s = some (ramFileRead s self size, s, []) := by
  rw [ramFileReadStmts, Routine.perform_bind, perform_fetchStmts, Option.bind_some, ramFileRead,
    ramFileSlice]
  split_ifs
  · rfl
  · dsimp only
    rw [List.length_map, List.length_range, UInt32.ofNat_toNat]
    rfl

/-- **`execute_main_py` without interruption** compiles the file. -/
theorem perform_executeMainPyStmts (s : Msc) :
    executeMainPyStmts.perform s = some (s.executeMainPy, s, []) := by
  have hzero : (0 : UInt32) ≥ s.activeFileSize ↔ s.activeFileSize = 0 := by
    rw [ge_iff_le, UInt32.le_iff_toNat_le, ← UInt32.toNat_inj, UInt32.toNat_zero]
    exact Nat.le_zero
  rw [executeMainPyStmts, perform_fetchStmts, executeMainPy, file, UInt32.sub_zero]
  simp only [hzero, UInt32.toNat_zero, Nat.zero_add]

/-! ### With interruption -/

/-- `n` bytes from `pos` on are those of `s₀`, but for the bytes stored since. -/
structure Copied (s₀ : Msc) (pos n : ℕ) (bs : List UInt8) (s : Msc) (log : List Event) : Prop
    extends Since s₀ s log where
  length : bs.length = n
  bytes : ∀ k (h : k < bs.length), bs[k] = s₀.mscRamDisk.get (pos + k) ∨ .stored (pos + k) ∈ log

theorem admissible_copied (s₀ : Msc) (pos n : ℕ) (bs : List UInt8) :
    Routine.Admissible mscMachine.step Machine.Free (fun _ _ => True) (Copied s₀ pos n bs) where
  inv _ := trivial
  stable h _ hst :=
    ⟨h.toSince.step hst, h.length, fun k hk => (h.bytes k hk).imp_right (List.mem_append_left _)⟩

theorem triple_copyRam (s₀ : Msc) (pos n : ℕ) : Routine.Triple mscMachine.step Machine.Free
    (fun _ _ => True) (Since s₀) (copyRam pos n) (Copied s₀ pos n) := by
  induction n with
  | zero => exact .pure fun s log h => ⟨h, rfl, nofun⟩
  | succ n ih =>
    refine ih.bind fun bs => .bind (Q := fun b => Copied s₀ pos (n + 1) (bs ++ [b]))
      (.read (fun b => admissible_copied ..) fun s log h => ?_) fun b => .pure fun _ _ h => h
    refine ⟨h.toSince, by rw [List.length_append, h.length]; rfl, fun k hk => ?_⟩
    by_cases hlt : k < bs.length
    · rw [List.getElem_append_left hlt]
      exact h.bytes k hlt
    · -- the byte copied just now
      obtain rfl : k = n := by
        have := h.length
        rw [List.length_append, List.length_singleton] at hk
        omega
      rw [List.getElem_append_right (not_lt.1 hlt)]
      simpa using h.ram (pos + k)

theorem admissible_since (s₀ : Msc) : Routine.Admissible mscMachine.step Machine.Free
    (fun _ _ => True) (Since s₀) := ⟨fun _ => trivial, fun h _ hst => h.step hst⟩

/-- An interrupted fetch, cut where it looks at the size for the second time. -/
theorem fetch_cases {pos : UInt32} {r : Option (List UInt8)} (hs : s.SlotInv)
    (h : (fetchStmts pos).performIrq mscMachine.step σ s = some (r, s', o, σ')) :
    (s.activeFileSize ≤ pos ∧ r = none) ∨ ∃ t o₁ o₂ bs, pos < s.activeFileSize ∧ r = some bs ∧
      mscMachine.perform s (σ.headD []) = some (t, o₁) ∧ o = o₁ ++ o₂ ∧
      Copied s pos.toNat (t.activeFileSize - pos).toNat bs s' o := by
  rw [fetchStmts, Routine.performIrq_bind, Routine.performIrq_read] at h
  obtain ⟨⟨x, t, o₁, σ₁⟩, h₁, h⟩ := Option.bind_eq_some_iff.1 h
  obtain ⟨⟨t, o₁⟩, ht, he⟩ := Option.map_eq_some_iff.1 h₁
  cases he
  obtain ⟨⟨r', s₁, o₂, σ₂⟩, h, he⟩ := Option.map_eq_some_iff.1 h
  cases he
  split_ifs at h with hpos
  · cases h
    exact .inl ⟨hpos, rfl⟩
  rw [Routine.performIrq_bind, Routine.performIrq_read] at h
  obtain ⟨⟨x, t', o₃, σ₃⟩, h₂, h⟩ := Option.bind_eq_some_iff.1 h
  obtain ⟨⟨t', o₃⟩, ht', he⟩ := Option.map_eq_some_iff.1 h₂
  cases he
  obtain ⟨⟨r', s₁, o₄, σ₄⟩, h, he⟩ := Option.map_eq_some_iff.1 h
  cases he
  rw [Routine.performIrq_bind] at h
  obtain ⟨⟨bs, s₂, o₅, σ₅⟩, hcopy, h⟩ := Option.bind_eq_some_iff.1 h
  cases h
  -- the driver's steps between the statements, and then the copy
  have h₀ : Since s s [] := ⟨hs, fun _ => .inl rfl⟩
  have hadm := admissible_since s
  have hbefore := hadm.irqs (hadm.irqs h₀ ht) ht'
  have hdone := (triple_copyRam s _ _).performIrq hadm hbefore hcopy
  refine .inr ⟨t, o₁, _, bs, UInt32.not_le.1 hpos, rfl, ht, rfl, ?_⟩
  simpa using hdone

/-- The bytes `bs` were fetched from `pos` on, in a call that began in `s`, with the interrupts `σ`
and the observations `o`; `t` is the state at the second look at the size. -/
def Fetched (s : Msc) (pos : UInt32) (σ : List (List Input)) (bs : List UInt8) (o : List Event) :
    Prop :=
  ∃ t o₁ o₂, mscMachine.Run Machine.Free s (σ.headD []) o₁ t ∧ o = o₁ ++ o₂ ∧
    bs.length = (t.activeFileSize - pos).toNat ∧
    (pos.toNat + bs.length ≤ ramDiskSize ↔ pos ≤ t.activeFileSize) ∧
    (∀ k (h : k < bs.length), bs[k] = s.mscRamDisk.get (pos.toNat + k) ∨
      .stored (pos.toNat + k) ∈ o) ∧
    (t.activeFileSize = s.activeFileSize → (∀ i < s.activeFileSize.toNat, .stored i ∉ o) →
      bs = s.file.drop pos.toNat)

theorem fetch_interrupted {pos : UInt32} {r : Option (List UInt8)} (hr : s.Reachable)
    (h : (fetchStmts pos).performIrq mscMachine.step σ s = some (r, s', o, σ')) :
    (s.activeFileSize ≤ pos ∧ r = none) ∨ ∃ bs, r = some bs ∧ Fetched s pos σ bs o := by
  rcases fetch_cases hr.slotInv h with hnone | ⟨t, o₁, o₂, bs, hlt, rfl, ht, ho, hc⟩
  · exact .inl hnone
  have hrun := Machine.run_of_perform _ ht
  have hrt : t.Reachable := Machine.Reachable.trans_run hr hrun
  have hsize : t.activeFileSize.toNat ≤ 2048 := hrt.fileInv.size_le
  have hpos : pos.toNat < 2048 := by
    have h₁ : s.activeFileSize.toNat ≤ 2048 := hr.fileInv.size_le
    have h₂ := UInt32.lt_iff_toNat_lt.1 hlt
    omega
  refine .inr ⟨bs, rfl, t, o₁, o₂, hrun, ho, hc.length, ?_, hc.bytes, ?_⟩
  · rw [hc.length, UInt32.toNat_sub, UInt32.le_iff_toNat_le, show ramDiskSize = 2048 from rfl]
    omega
  · intro heq hkeep
    have hlen : bs.length = s.activeFileSize.toNat - pos.toNat := by
      rw [hc.length, heq, UInt32.toNat_sub_of_le _ _ (UInt32.le_of_lt hlt)]
    refine List.ext_getElem (by rw [hlen, List.length_drop, length_file]) fun k hk hk' => ?_
    have hbyte := (hc.bytes k hk).resolve_right (hkeep _ (by omega))
    rw [hbyte, List.getElem_drop]
    simp [file]

/-- **Taking the script under interrupts.**  Whatever the driver does between the statements of a
`read` or of `execute_main_py`: the bytes handed out lie in the RAM disk, and their number has not
wrapped around, if and only if the file is not shorter than the position when its size is looked at
for the second time; `execute_main_py`, which begins at 0, never leaves the RAM disk.  A byte that
is not that of the beginning of the call was stored by the host during the call, and if neither the
size changed nor a byte of the file was stored, the rest of the file is handed out. -/
theorem script_under_interrupts (hr : s.Reachable) :
    (∀ self size self' v s' o σ', (ramFileReadStmts self size).performIrq mscMachine.step σ s =
        some ((self', v), s', o, σ') →
      (v = .emptyBytes ∧ self' = self ∧ s.activeFileSize ≤ self.pos) ∨
        ∃ bs, v = .str bs ∧ self'.pos = self.pos + .ofNat bs.length ∧
          Fetched s self.pos σ bs o) ∧
    (∀ r s' o σ', executeMainPyStmts.performIrq mscMachine.step σ s = some (r, s', o, σ') →
      (r = none ∧ s.activeFileSize = 0) ∨
        ∃ bs, r = some bs ∧ Fetched s 0 σ bs o ∧ bs.length ≤ ramDiskSize) := by
  constructor
  · intro self size self' v s' o σ' h
    rw [ramFileReadStmts, Routine.performIrq_bind] at h
    obtain ⟨⟨r, s₁, o₁, σ₁⟩, hf, h⟩ := Option.bind_eq_some_iff.1 h
    obtain ⟨⟨x, s₂, o₂, σ₂⟩, h, he⟩ := Option.map_eq_some_iff.1 h
    cases he
    rcases fetch_interrupted hr hf with ⟨hle, rfl⟩ | ⟨bs, rfl, hbs⟩
    · cases h
      exact .inl ⟨rfl, rfl, hle⟩
    · cases h
      rw [List.append_nil]
      exact .inr ⟨bs, rfl, rfl, hbs⟩
  · intro r s' o σ' h
    rcases fetch_interrupted hr h with ⟨hle, rfl⟩ | ⟨bs, rfl, hbs⟩
    · refine .inl ⟨rfl, UInt32.toNat_inj.1 (Nat.le_zero.1 ?_)⟩
      exact UInt32.le_iff_toNat_le.1 hle
    · refine .inr ⟨bs, rfl, hbs, ?_⟩
      obtain ⟨t, o₁, o₂, -, -, -, hiff, -⟩ := hbs
      have hzero : (0 : UInt32) ≤ t.activeFileSize :=
        UInt32.le_iff_toNat_le.2 (Nat.zero_le _)
      simpa using hiff.2 hzero

/-- The host writes the entry of a file of `size` bytes to the first directory sector. -/
def entryOfSize (size : UInt8) (i : ℕ) : UInt8 :=
  if i = 26 then 2 else if i = 28 then size else snoopName.getD i 0

/-- **A file may become shorter than a position between the two looks at its size**: it has 200
bytes when it is compared with the position 142, and then the next packet of a directory write
leaves 10 of them. -/
theorem fetch_overruns : ∃ (s t : Msc) (p : OutPacket) (o : List Event), s.Reachable ∧
    mscMachine.perform s [.out p] = some (t, o) ∧ (142 : UInt32) < s.activeFileSize ∧
      t.activeFileSize < 142 := by
  let is : List Input := [.out directoryCbw.toPacket, .out (dataPacket (entryOfSize 200) 0)]
  let is' : List Input := [.out (dataPacket (entryOfSize 10) 0)]
  have h : ((mscMachine.perform usbInit is).bind fun x => (mscMachine.perform x.1 is').map
      fun y => (x.1.activeFileSize, y.1.activeFileSize)) = some (200, 10) := by decide +kernel
  obtain ⟨⟨s, o⟩, hs, h⟩ := Option.bind_eq_some_iff.1 h
  obtain ⟨⟨t, o'⟩, ht, he⟩ := Option.map_eq_some_iff.1 h
  obtain ⟨h₁, h₂⟩ := Prod.mk.inj he
  refine ⟨s, t, _, o', ⟨_, _, Machine.run_of_perform _ hs⟩, ht, ?_, ?_⟩
  · rw [h₁]
    decide
  · rw [h₂]
    decide

/-- Steps of the driver that come right behind the first look at the size, and none later. -/
theorem performIrq_fetchStmts {pos : UInt32} {is : List Input} (hlt : pos < s.activeFileSize)
    (h : mscMachine.perform s is = some (t, o)) :
    (fetchStmts pos).performIrq mscMachine.step [is] s =
      some (some ((List.range (t.activeFileSize - pos).toNat).map fun i =>
        t.mscRamDisk.get (pos.toNat + i)), t, o, []) := by
  have h : Machine.perform ⟨mscMachine.step⟩ s ([is].headD []) = some (t, o) := h
  rw [fetchStmts, Routine.performIrq_bind, Routine.performIrq_read, h, Option.map_some,
    Option.bind_some]
  dsimp only
  rw [if_neg (UInt32.not_le.2 hlt), List.tail_cons, Routine.performIrq_nil,
    Routine.perform_read_bind, Routine.perform_bind, perform_copyRam, Option.bind_some]
  simp

/-- A host shortens the file from 200 bytes to 10 between the two looks of a `read` at 142: the
bytes handed out do not lie in the RAM disk. -/
theorem script_under_interrupts_overrun : ∃ (s s' : Msc) (self' : RamFileObj) (p : OutPacket)
    (bs : List UInt8) (o : List Event), s.Reachable ∧
      (ramFileReadStmts ⟨142⟩ none).performIrq mscMachine.step [[.out p]] s =
        some ((self', .str bs), s', o, []) ∧
      ¬ 142 + bs.length ≤ ramDiskSize := by
  obtain ⟨s, t, p, o, hr, ht, hbefore, hafter⟩ := fetch_overruns
  have h : ∃ self' bs, (ramFileReadStmts ⟨142⟩ none).performIrq mscMachine.step [[.out p]] s =
      some ((self', .str bs), t, o, []) := by
    rw [ramFileReadStmts, Routine.performIrq_bind, performIrq_fetchStmts hbefore ht,
      Option.bind_some]
    simp [Routine.performIrq_nil]
  obtain ⟨self', bs, h⟩ := h
  refine ⟨s, t, self', p, bs, o, hr, h, ?_⟩
  rcases (script_under_interrupts hr).1 _ _ _ _ _ _ _ h with ⟨hv, -⟩ | ⟨bs', hv, -, hf⟩
  · cases hv
  · cases hv
    obtain ⟨t', o₁, o₂, hrun, -, -, hiff, -⟩ := hf
    -- the state at the second look is the one the packet has led to
    obtain ⟨-, rfl⟩ := hrun.det (Machine.run_of_perform _ ht)
    exact mt hiff.1 (UInt32.not_le.2 hafter)

/-! ### Three views of one file -/

/-- **Three views of one file.**  In a reachable state a FAT16 reader that gets its sectors from the
device, by either copy of the allocation table, `read` on a new object, and `execute_main_py` all
find the same content. -/
theorem views_agree {copy : ℕ} {files : Option (List Fat16.File)}
    (hr : s.Reachable) (hcopy : copy < 2) (h : Exec s (Fat16.readVolume copy) files t) :
    files = some [s.activeFile] ∧ s.activeFile.content = s.file ∧
      (∀ size, (ramFileRead s ⟨0⟩ size).2.bytes = s.file) ∧
      s.executeMainPy.getD [] = s.file := by
  refine ⟨?_, rfl, fun size => ?_, ?_⟩
  · rw [h.run_eq hr.slotInv, (run_sector hr.fileInv hcopy).1]
  · exact (ramFileRead_file s size (Nat.zero_le _)).1
  · unfold executeMainPy
    split_ifs with hz
    · rw [file, hz]
      rfl
    · rfl

theorem Session.idle {xs : List Command} {logs : List (List Event)} (h : Session s xs logs s')
    (hidle : s.mscState = .idle) : s'.mscState = .idle := by
  induction h with
  | nil => exact hidle
  | cons hp _ ih => exact ih hp.idle

/-- **A saved file is the same in three views.**  A host saves a file of at most 2048 bytes, its
directory entry first.  Then a FAT16 reader on the device can be executed by either copy of the
allocation table, and finds one file with the name of the script and this content; a script that
opens `main.py` reads it; and `execute_main_py` compiles it. -/
theorem saved_views_agree {dir : Command} {xs : List Command} {logs : List (List Event)}
    {cl : UInt16} {f : List UInt8} {copy : ℕ} (hr : s.Reachable) (hidle : s.mscState = .idle)
    (hcl : 2 ≤ cl.toNat) (hfit : clusterSector cl.toNat + 3 < 0x4000)
    (hf : f.length ≤ ramDiskSize) (hdir : dir.IsDirectory cl f.length)
    (hxs : ∀ x ∈ xs, SaveCommand cl f x) (hcover : Covers cl f xs)
    (h : Session s (dir :: xs) logs s') (hcopy : copy < 2) :
    (∃ files t, Exec s' (Fat16.readVolume copy) files t) ∧
      (∀ files t, Exec s' (Fat16.readVolume copy) files t →
        files = some [⟨ascii "main    py ", f.length, [2], f⟩]) ∧
      (∃ self, mpBuiltinOpen (ascii "main.py") = .ok self ∧
        ∀ size, (ramFileRead s' self size).2.bytes = f) ∧
      s'.executeMainPy.getD [] = f := by
  obtain ⟨hstored, hsize, -⟩ := h.directoryFirst hr.slotInv hcl hfit hf hdir hxs hcover
  have hr' : s'.Reachable := h.reachable hr
  have hfile : s'.file = f := by
    refine List.ext_getElem (by rw [length_file, hsize]) fun i h₁ h₂ => ?_
    simp only [file, List.getElem_map, List.getElem_range]
    exact hstored i h₂
  have hactive : s'.activeFile = ⟨ascii "main    py ", f.length, [2], f⟩ :=
    (Fat16.File.mk.injEq ..).mpr ⟨rfl, hsize, rfl, hfile⟩
  obtain ⟨files, t, hex⟩ := exists_exec hr'.slotInv (h.idle hidle)
    (run_sector hr'.fileInv hcopy).2
  obtain ⟨-, -, hread, hexec⟩ := views_agree hr' hcopy hex
  refine ⟨⟨files, t, hex⟩, fun files t hex => ?_, ⟨⟨0⟩, mpBuiltinOpen_main, fun size => ?_⟩, ?_⟩
  · rw [(views_agree hr' hcopy hex).1, hactive]
  · rw [hread, hfile]
  · rw [hexec, hfile]

/-- A script of two sectors is saved to cluster 2 at power-up, and compiled. -/
theorem saved_views_agree_twoSectors : ∃ logs s',
    Session usbInit (entryWrite 2 88 2 :: saveTwoSectors) logs s' ∧
      s'.executeMainPy.getD [] = twoSectors := by
  obtain ⟨logs, s', h⟩ := exists_session (entryWrite 2 88 2 :: saveTwoSectors) slotInv_usbInit rfl
    (by simp only [saveTwoSectors, List.forall_mem_cons]; decide)
  exact ⟨logs, s', h, (saved_views_agree (.refl _) rfl (by decide) (by decide)
    (by rw [length_twoSectors]; decide) isDirectory_twoSectors saveCommand_twoSectors
    (covers_twoSectors (by simp [saveTwoSectors]) (by simp [saveTwoSectors])) h
    (by omega : 0 < 2)).2.2.2⟩

end Msc

end Ch32fun
