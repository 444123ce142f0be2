import Ch32fun.Msc.Script

/-!
# Reading a file that does not change

While the content of `main.py` stays as it is, a script opens it and reads it, with several objects
at once.  `read` accepts a number of bytes and does not look at it.

* `readsMachine` : the driver and a script, with the values that `read` returns as observations.
* `Positioned` : every object has returned the bytes before its position.
* `FileRight` : every read returns the next bytes, as many as it was asked for.
* `file_right_iff` : this is so exactly when no read asks for less than what is left.
-/

namespace Ch32fun

/-- The content of `main.py`. -/
def Msc.file (s : Msc) : List UInt8 := (List.range s.activeFileSize.toNat).map s.mscRamDisk.get

/-- A call of `read` on the object number `i`. -/
structure FileRead where
  i : ℕ
  size : Option ℤ
  value : FileValue

/-- What the script reads in a step. -/
def ScriptSystem.reads (s : ScriptSystem) : ScriptInput → List FileRead
  | .readFile i size =>
    (s.files[i]?).toList.map fun self => ⟨i, size, (ramFileRead s.msc self size).2⟩
  | .driver _ | .openFile _ => []

/-- The driver and a script; the values read are observed. -/
def readsMachine : Machine ScriptSystem ScriptInput FileRead where
  step s a := (systemMachine.step s a).map fun (s', _) => (s', s.reads a)

/-- The driver leaves the file as it is, and no size is negative. -/
def Unchanged (s : ScriptSystem) : ScriptInput → Prop
  | .driver a => ∀ m o, mscMachine.step s.msc a = some (m, o) → m.file = s.msc.file
  | .readFile _ size => ∀ n ∈ size, 0 ≤ n
  | .openFile _ => True

/-- A read asks for all bytes that are left, or for more. -/
def AsksAll (s : ScriptSystem) : ScriptInput → Prop
  | .readFile i size => ∀ self ∈ s.files[i]?, ∀ n ∈ size,
    ((s.msc.activeFileSize.toNat - self.pos.toNat : ℕ) : ℤ) ≤ n
  | .driver _ | .openFile _ => True

/-- The bytes that the object number `i` has returned. -/
def bytesOf (i : ℕ) (log : List FileRead) : List UInt8 :=
  log.flatMap fun r => if r.i = i then r.value.bytes else []

/-- What a read is to return when `rest` is left. -/
def nextBytes (rest : List UInt8) : Option ℤ → List UInt8
  | none => rest
  | some n => rest.take n.toNat

/-- Every read returns the next bytes; `log` are the reads before. -/
def ReadsNext (file : List UInt8) : List FileRead → List FileRead → Prop
  | _, [] => True
  | log, r :: rs =>
    r.value.bytes = nextBytes (file.drop (bytesOf r.i log).length) r.size ∧
      ReadsNext file (log ++ [r]) rs

/-- The objects read like a file. -/
structure FileRight (file : List UInt8) (log : List FileRead) : Prop where
  next : ReadsNext file [] log
  /-- What an object returns is the beginning of the file. -/
  initial : ∀ i, bytesOf i log <+: file

variable {file : List UInt8} {s s' : ScriptSystem} {a : ScriptInput} {as : List ScriptInput}
variable {log o : List FileRead} {self : RamFileObj} {size : Option ℤ}

@[simp] theorem bytesOf_append (i : ℕ) (l l' : List FileRead) :
    bytesOf i (l ++ l') = bytesOf i l ++ bytesOf i l' := List.flatMap_append

theorem bytesOf_single (i : ℕ) (r : FileRead) :
    bytesOf i [r] = if r.i = i then r.value.bytes else [] := List.flatMap_singleton ..

@[simp] theorem Msc.length_file (s : Msc) : s.file.length = s.activeFileSize.toNat := by
  simp [Msc.file]

/-! ### One read -/

/-- **A read returns all that is left**, and leads to the end. -/
theorem ramFileRead_file (m : Msc) (size : Option ℤ) (h : self.pos.toNat ≤ m.file.length) :
    (ramFileRead m self size).2.bytes = m.file.drop self.pos.toNat ∧
      (ramFileRead m self size).1.pos.toNat = m.file.length := by
  rw [Msc.length_file] at h ⊢
  by_cases hlt : self.pos < m.activeFileSize
  · rw [ramFileRead_of_lt hlt]
    refine ⟨?_, rfl⟩
    refine List.ext_getElem (by simp [FileValue.bytes, Msc.file]) fun i hi hi' => ?_
    simp [FileValue.bytes, Msc.file]
  · have hge : self.pos ≥ m.activeFileSize := UInt32.not_lt.1 hlt
    have heq : self.pos.toNat = m.activeFileSize.toNat :=
      Nat.le_antisymm h (UInt32.le_iff_toNat_le.1 hge)
    rw [ramFileRead_of_le hge, List.drop_of_length_le (by rw [Msc.length_file, heq])]
    exact ⟨rfl, heq⟩

theorem eq_nextBytes_iff (rest : List UInt8) (hsize : ∀ n ∈ size, 0 ≤ n) :
    rest = nextBytes rest size ↔ ∀ n ∈ size, (rest.length : ℤ) ≤ n := by
  cases size with
  | none => exact iff_of_true rfl nofun
  | some n =>
    have hn := hsize n rfl
    rw [nextBytes, eq_comm, List.take_eq_self_iff]
    simp only [Option.mem_some_iff, forall_eq']
    omega

/-! ### Runs -/

/-- Every object has returned the bytes before its position. -/
structure Positioned (file : List UInt8) (s : ScriptSystem) (log : List FileRead) : Prop where
  file_eq : s.msc.file = file
  pos : ∀ i, ∀ self ∈ s.files[i]?, self.pos.toNat ≤ file.length ∧
    bytesOf i log = file.take self.pos.toNat
  fresh : ∀ i, s.files.length ≤ i → bytesOf i log = []

namespace Positioned

theorem read (h : Positioned file s log) {i : ℕ}
    (hst : readsMachine.step s (.readFile i size) = some (s', o)) : ∃ self ∈ s.files[i]?,
      o = [⟨i, size, (ramFileRead s.msc self size).2⟩] ∧
      (ramFileRead s.msc self size).2.bytes = file.drop (bytesOf i log).length ∧
      Positioned file s' (log ++ o) := by
  obtain ⟨⟨s₁, o₁⟩, hsys, he⟩ := Option.map_eq_some_iff.1 hst
  cases he
  obtain ⟨self, hself, he⟩ := Option.map_eq_some_iff.1 hsys
  cases he
  obtain ⟨hpos, hbytes⟩ := h.pos i self hself
  obtain ⟨hvalue, hend⟩ := ramFileRead_file s.msc size (h.file_eq.symm ▸ hpos)
  rw [h.file_eq] at hvalue hend
  have hlen : (bytesOf i log).length = self.pos.toNat := by
    rw [hbytes, List.length_take, Nat.min_eq_left hpos]
  have hreads : s.reads (.readFile i size) = [⟨i, size, (ramFileRead s.msc self size).2⟩] := by
    rw [ScriptSystem.reads, hself]
    rfl
  have hi : i < s.files.length := (List.getElem?_eq_some_iff.1 hself).1
  refine ⟨self, hself, hreads, by rw [hvalue, hlen], h.file_eq, ?_, ?_⟩
  · intro j self' hj
    rw [hreads, bytesOf_append, bytesOf_single]
    dsimp only at hj ⊢
    by_cases hij : i = j
    · subst hij
      rw [List.getElem?_set_self hi] at hj
      cases hj
      rw [if_pos rfl, hvalue, hbytes, hend, List.take_append_drop, List.take_length]
      exact ⟨le_rfl, rfl⟩
    · rw [List.getElem?_set_ne hij] at hj
      rw [if_neg hij, List.append_nil]
      exact h.pos j self' hj
  · intro j hj
    dsimp only at hj
    rw [List.length_set] at hj
    rw [hreads, bytesOf_append, h.fresh j hj, bytesOf_single, if_neg (by dsimp only; omega)]
    rfl

theorem opened (h : Positioned file s log) :
    Positioned file { s with files := s.files ++ [⟨0⟩] } log := by
  refine ⟨h.file_eq, fun i self hi => ?_, fun i hi => ?_⟩
  · dsimp only at hi
    rcases Nat.lt_trichotomy i s.files.length with hlt | heq | hgt
    · rw [List.getElem?_append_left hlt] at hi
      exact h.pos i self hi
    · rw [heq, List.getElem?_concat_length] at hi
      cases hi
      rw [heq, h.fresh _ le_rfl]
      exact ⟨Nat.zero_le _, rfl⟩
    · rw [List.getElem?_eq_none (by simp; omega)] at hi
      cases hi
  · dsimp only at hi
    rw [List.length_append] at hi
    exact h.fresh i (by omega)

theorem quiet (h : Positioned file s log) (hu : Unchanged s a) (hread : ∀ i n, a ≠ .readFile i n)
    (hst : readsMachine.step s a = some (s', o)) : o = [] ∧ Positioned file s' log := by
  obtain ⟨⟨s₁, o₁⟩, hsys, he⟩ := Option.map_eq_some_iff.1 hst
  cases he
  cases a with
  | readFile i n => exact absurd rfl (hread i n)
  | driver a =>
    obtain ⟨⟨m, om⟩, hm, he⟩ := Option.map_eq_some_iff.1 hsys
    cases he
    exact ⟨rfl, (hu m om hm).trans h.file_eq, h.pos, h.fresh⟩
  | openFile filename =>
    simp only [systemMachine] at hsys
    split at hsys
    case h_1 self hopen =>
      cases hsys
      unfold mpBuiltinOpen at hopen
      split_ifs at hopen
      cases hopen
      exact ⟨rfl, h.opened⟩
    case h_2 =>
      cases hsys
      exact ⟨rfl, h⟩

theorem step (h : Positioned file s log) (hu : Unchanged s a)
    (hst : readsMachine.step s a = some (s', o)) : Positioned file s' (log ++ o) := by
  by_cases hread : ∃ i n, a = .readFile i n
  · obtain ⟨i, n, rfl⟩ := hread
    obtain ⟨self, -, -, -, hp⟩ := h.read hst
    exact hp
  · obtain ⟨rfl, hp⟩ := h.quiet hu (fun i n he => hread ⟨i, n, he⟩) hst
    rw [List.append_nil]
    exact hp

theorem initial (h : Positioned file s log) (i : ℕ) : bytesOf i log <+: file := by
  cases hself : s.files[i]? with
  | none => rw [h.fresh i (List.getElem?_eq_none_iff.1 hself)]; exact List.nil_prefix
  | some self => rw [(h.pos i self hself).2]; exact List.take_prefix ..

/-- **A step goes right exactly when it asks for all that is left.** -/
theorem step_iff (h : Positioned file s log) (hu : Unchanged s a)
    (hst : readsMachine.step s a = some (s', o)) : ReadsNext file log o ↔ AsksAll s a := by
  by_cases hread : ∃ i n, a = .readFile i n
  · obtain ⟨i, n, rfl⟩ := hread
    obtain ⟨self, hself, rfl, hvalue, -⟩ := h.read hst
    obtain ⟨hpos, hbytes⟩ := h.pos i self hself
    have hleft : (file.drop (bytesOf i log).length).length =
        s.msc.activeFileSize.toNat - self.pos.toNat := by
      rw [List.length_drop, hbytes, List.length_take, Nat.min_eq_left hpos, ← h.file_eq,
        Msc.length_file]
    have hnext : ReadsNext file log [⟨i, n, (ramFileRead s.msc self n).2⟩] ↔
        file.drop (bytesOf i log).length = nextBytes (file.drop (bytesOf i log).length) n := by
      rw [ReadsNext, hvalue]
      exact and_iff_left trivial
    rw [hnext, eq_nextBytes_iff _ hu, hleft]
    constructor
    · intro hall self' hself'
      cases hself.symm.trans hself'
      exact hall
    · exact fun hall => hall self hself
  · obtain ⟨rfl, -⟩ := h.quiet hu (fun i n he => hread ⟨i, n, he⟩) hst
    refine iff_of_true trivial ?_
    cases a with
    | readFile i n => exact absurd ⟨i, n, rfl⟩ hread
    | driver | openFile => trivial

end Positioned

theorem readsNext_append (log l l' : List FileRead) :
    ReadsNext file log (l ++ l') ↔ ReadsNext file log l ∧ ReadsNext file (log ++ l) l' := by
  induction l generalizing log with
  | nil => simp [ReadsNext]
  | cons r l ih =>
    rw [List.cons_append, ReadsNext, ReadsNext, ih, and_assoc, List.append_assoc]
    rfl

theorem readsNext_iff {rs : List FileRead} (h : readsMachine.Run Unchanged s as rs s')
    (hp : Positioned file s log) :
    ReadsNext file log rs ↔ readsMachine.Run AsksAll s as rs s' := by
  induction h generalizing log with
  | nil s => exact iff_of_true trivial (.nil s)
  | @cons s s₁ s' a as o os hu hst hr ih =>
    rw [readsNext_append, hp.step_iff hu hst, ih (hp.step hu hst)]
    constructor
    · rintro ⟨hasks, hrest⟩
      exact .cons hasks hst hrest
    · intro hrun
      obtain ⟨s₂, o₂, os₂, hasks, hst', hrest, he⟩ := Machine.Run.cons_iff.1 hrun
      rw [hst] at hst'
      cases hst'
      cases List.append_cancel_left he
      exact ⟨hasks, hrest⟩

/-- **When file objects read like a file.**  In a run that leaves `main.py` as it is, every read
returns the next bytes, as many as it was asked for, exactly when none asks for less than what is
left. -/
theorem file_right_iff (m : Msc) (h : readsMachine.Run Unchanged ⟨m, []⟩ as log s) :
    FileRight m.file log ↔ readsMachine.Run AsksAll ⟨m, []⟩ as log s := by
  have h₀ : Positioned m.file ⟨m, []⟩ [] := ⟨rfl, fun _ _ => nofun, fun _ _ => rfl⟩
  have hp : Positioned m.file s log := by
    simpa using h.invariant (Positioned m.file) [] h₀ fun _ _ _ _ _ hi hu hst => hi.step hu hst
  rw [← readsNext_iff h h₀]
  exact ⟨fun hr => hr.next, fun hnext => ⟨hnext, hp.initial⟩⟩

/-- The file of 142 bytes at power-up is read with a size of 200, and once more. -/
theorem file_right_whole : ∃ log s, readsMachine.Run Unchanged ⟨usbInit, []⟩
    [.openFile (ascii "main.py"), .readFile 0 (some 200), .readFile 0 (some 1)] log s ∧
    FileRight usbInit.file log := by
  have hsize : ∀ n : ℤ, 0 ≤ n → ∀ k ∈ some n, 0 ≤ k := by
    rintro n hn k ⟨⟩
    exact hn
  have hu : readsMachine.Run Unchanged ⟨usbInit, []⟩
      [.openFile (ascii "main.py"), .readFile 0 (some 200), .readFile 0 (some 1)] _ _ :=
    .cons trivial rfl (.cons (hsize 200 (by decide)) rfl (.single (hsize 1 (by decide)) rfl))
  refine ⟨_, _, hu, (file_right_iff usbInit hu).2 (.cons trivial rfl (.cons ?_ rfl
    (.single ?_ rfl)))⟩
  · rintro self ⟨⟩ n ⟨⟩
    decide
  · rintro self ⟨⟩ n ⟨⟩
    decide

/-- **The size is ignored.**  `read(1)` returns the 142 bytes of the file. -/
theorem read_ignores_size : ∃ log s, readsMachine.Run Unchanged ⟨usbInit, []⟩
    [.openFile (ascii "main.py"), .readFile 0 (some 1)] log s ∧ ¬ FileRight usbInit.file log := by
  have hsize : ∀ k ∈ some (1 : ℤ), 0 ≤ k := by
    rintro k ⟨⟩
    decide
  have hu : readsMachine.Run Unchanged ⟨usbInit, []⟩
      [.openFile (ascii "main.py"), .readFile 0 (some 1)] _ _ :=
    .cons trivial rfl (.single hsize rfl)
  refine ⟨_, _, hu, fun h => ?_⟩
  have hlen := congrArg List.length h.next.1
  exact absurd hlen (by decide +kernel)

end Ch32fun
