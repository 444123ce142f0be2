import Ch32fun.Msc.Filter
import Ch32fun.RamFile
import Mathlib.Data.Nat.ModEq

/-!
# The driver and the file objects of a script

A script opens `main.py` and reads it while the host goes on writing.  `systemMachine` is the
driver together with the file objects that the script has opened; their positions outlive every
change of the file.

* `SystemInv` : the invariants of the driver, and of everything observed so far.
* `file_bounds` : the bounds of the file hold for ever, and no store and no read leaves the RAM
  disk.
-/

namespace Ch32fun

/-- The driver and the open file objects. -/
structure ScriptSystem where
  msc : Msc
  files : List RamFileObj

/-- The driver's inputs and the calls of a script. -/
inductive ScriptInput
  | driver (a : Input)
  /-- `open(filename)`. -/
  | openFile (filename : List UInt8)
  /-- `read(size)` on the file object number `i`. -/
  | readFile (i : ℕ) (size : Option ℤ)

/-- What can be observed of the driver and of a read. -/
inductive ScriptEvent
  | driver (e : Event)
  /-- A read, with the size of the file at the time, hands out `len` bytes from `pos` on. -/
  | slice (size pos len : UInt32)
  deriving DecidableEq

/-- A call of `read` : the object moves on, and the slice it hands out is observed. -/
def ScriptSystem.read (s : ScriptSystem) (i : ℕ) (size : Option ℤ) :
    Option (ScriptSystem × List ScriptEvent) :=
  (s.files[i]?).map fun self =>
    ({ s with files := s.files.set i (ramFileRead s.msc self size).1 },
      (ramFileSlice s.msc self).toList.map fun (pos, len) => .slice s.msc.activeFileSize pos len)

/-- The driver and a script, every handler and every call run without interruption. -/
def systemMachine : Machine ScriptSystem ScriptInput ScriptEvent where
  step s
    | .driver a => (mscMachine.step s.msc a).map fun (m, o) => ({ s with msc := m }, o.map .driver)
    | .openFile filename =>
      match mpBuiltinOpen filename with
      | .ok self => some ({ s with files := s.files ++ [self] }, [])
      | .error .enoent => some (s, [])
    | .readFile i size => s.read i size

/-- Power-up, with no file open. -/
def scriptInit : ScriptSystem := ⟨usbInit, []⟩

namespace Msc

variable {s s' : Msc} {a : Input} {o : List Event}

theorem Move.stored_lt (h : s.Move a o s') {i : ℕ} (hi : .stored i ∈ o) : i < ramDiskSize := by
  have hprep : ∀ {t t' : Msc} {o}, t.Prepare o t' → Event.stored i ∉ o := by
    intro t t' o hp hm
    cases hp with
    | data _ => simp at hm
    | status _ => simp at hm
  cases h with
  | ignored _ => simp at hi
  | rejected _ _ _ => simp at hi
  | accept _ hb =>
    cases hb with
    | dataIn _ hp => exact absurd (by simpa using hi) (hprep hp)
    | write10 _ => simp at hi
    | noData _ _ => simp at hi
  | receive _ _ => exact absorb_stored_lt (by simpa using hi)
  | receiveLast _ _ => exact absorb_stored_lt (by simpa using hi)
  | takeData _ _ => simp at hi
  | takeStatus _ => simp at hi
  | pollNothing _ => simp at hi
  | pollDataIn _ _ hp => exact absurd hi (hprep hp)

end Msc

theorem ramFileSlice_bounds {s : Msc} {self : RamFileObj} {pos len : UInt32}
    (h : ramFileSlice s self = some (pos, len)) : pos.toNat ≤ s.activeFileSize.toNat ∧
      len.toNat = s.activeFileSize.toNat - pos.toNat := by
  unfold ramFileSlice at h
  split_ifs at h with hpos
  · cases h
    have hle : self.pos ≤ s.activeFileSize := UInt32.le_of_lt (UInt32.not_le.1 hpos)
    exact ⟨UInt32.le_iff_toNat_le.1 hle, UInt32.toNat_sub_of_le _ _ hle⟩

/-- The bounds an observation must keep. -/
def ScriptEvent.InBounds : ScriptEvent → Prop
  | .driver (.stored i) => i < ramDiskSize
  | .driver _ => True
  | .slice size pos len => pos.toNat ≤ size.toNat ∧ len.toNat = size.toNat - pos.toNat ∧
      pos.toNat + len.toNat ≤ ramDiskSize

/-- The invariants of the driver, and the bounds of everything observed. -/
structure SystemInv (s : ScriptSystem) (log : List ScriptEvent) : Prop where
  reachable : s.msc.Reachable
  inBounds : ∀ e ∈ log, e.InBounds

namespace SystemInv

variable {s s' : ScriptSystem} {a : ScriptInput} {log o : List ScriptEvent}

theorem read (h : SystemInv s log) {i : ℕ} {size : Option ℤ} (hst : s.read i size = some (s', o)) :
    SystemInv s' (log ++ o) := by
  obtain ⟨self, -, he⟩ := Option.map_eq_some_iff.1 hst
  cases he
  refine ⟨h.reachable, fun e hm => ?_⟩
  rcases List.mem_append.1 hm with hm | hm
  · exact h.inBounds e hm
  · obtain ⟨⟨pos, len⟩, hsl, rfl⟩ := List.mem_map.1 hm
    obtain ⟨hpos, hlen⟩ := ramFileSlice_bounds (Option.mem_toList.1 hsl)
    have hsize := h.reachable.fileInv.size_le
    exact ⟨hpos, hlen, by omega⟩

theorem driver (h : SystemInv s log) {a : Input}
    (hst : systemMachine.step s (.driver a) = some (s', o)) : SystemInv s' (log ++ o) := by
  obtain ⟨⟨m, om⟩, hm, he⟩ := Option.map_eq_some_iff.1 hst
  cases he
  refine ⟨h.reachable.step hm, fun e he => ?_⟩
  rcases List.mem_append.1 he with he | he
  · exact h.inBounds e he
  · obtain ⟨e, hmem, rfl⟩ := List.mem_map.1 he
    cases e with
    | stored i => exact ((Msc.step_iff_move h.reachable.slotInv).1 hm).stored_lt hmem
    | accepted _ => trivial
    | copied _ => trivial
    | consumed _ => trivial
    | fallback => trivial
    | sent _ => trivial
    | taken _ => trivial

theorem step (h : SystemInv s log) (hst : systemMachine.step s a = some (s', o)) :
    SystemInv s' (log ++ o) := by
  cases a with
  | driver a => exact h.driver hst
  | openFile filename =>
    simp only [systemMachine] at hst
    split at hst
    · cases hst
      rw [List.append_nil]
      exact ⟨h.reachable, h.inBounds⟩
    · cases hst
      rw [List.append_nil]
      exact h
  | readFile i size => exact h.read hst

end SystemInv

theorem systemInv_run {s : ScriptSystem} {as : List ScriptInput} {log : List ScriptEvent}
    (h : systemMachine.Run Machine.Free scriptInit as log s) : SystemInv s log :=
  h.invariant SystemInv [] ⟨.refl usbInit, by simp⟩ fun _ _ _ _ _ hi _ hst => hi.step hst

/-- **The bounds of the file hold for ever**, whatever the host writes and whenever scripts open
and read the file. -/
theorem file_bounds {s : ScriptSystem} {as : List ScriptInput} {log : List ScriptEvent}
    (h : systemMachine.Run Machine.Free scriptInit as log s) :
    s.msc.activeFileSize.toNat ≤ ramDiskSize ∧ s.msc.activeFileCluster ≠ 0 ∧
    (∀ i, i < 28 → s.msc.rootDirEntry.get i = rootDirEntryInit.get i) ∧
    (s.msc.mscState = .dataOut →
      s.msc.mscCurrentOffset.toNat + s.msc.mscBytesRemaining.toNat ≡
        (s.msc.cbw.lba.toNat + s.msc.cbw.blocks.toNat) * 512 [MOD 2 ^ 32]) ∧
    (∀ i, .driver (.stored i) ∈ log → i < ramDiskSize) ∧
    (∀ size pos len, .slice size pos len ∈ log → pos.toNat ≤ size.toNat ∧
      len.toNat = size.toNat - pos.toNat ∧ pos.toNat + len.toNat ≤ ramDiskSize) := by
  obtain ⟨hr, hlog⟩ := systemInv_run h
  have hfile := hr.fileInv
  refine ⟨hfile.size_le, hfile.cluster_ne, hfile.entry, fun hst => ?_, fun i hi => hlog _ hi,
    fun size pos len hm => hlog _ hm⟩
  have hsum := congrArg UInt32.toNat (hr.offsetInv hst).2.2
  rw [UInt32.toNat_add, toNat_mul_blockSize, UInt32.toNat_add] at hsum
  rw [Nat.ModEq, hsum]
  omega

/-- A script opens `main.py` and reads it at power-up. -/
theorem file_bounds_read : ∃ s log, (∃ as, systemMachine.Run Machine.Free scriptInit as log s) ∧
    .slice 142 0 142 ∈ log ∧ (142 : UInt32).toNat ≤ ramDiskSize := by
  have h : systemMachine.perform scriptInit [.openFile (ascii "main.py"), .readFile 0 none] =
      some (_, _) := rfl
  have hr := Machine.run_of_perform _ h
  exact ⟨_, _, ⟨_, hr⟩, by decide, ((file_bounds hr).2.2.2.2.2 142 0 142 (by decide)).2.2⟩

end Ch32fun
