import Ch32fun.Msc.Basic

/-!
# The file object of `main.py`

`ram_main_py.c` gives scripts a file object on the RAM disk.  Only `main.py` can be opened, and
`read` returns all the bytes from the object's position to the end of the active file; an argument
is accepted and not looked at.
-/

namespace Ch32fun

/-- The objects returned by `read`. -/
inductive FileValue
  /-- `mp_obj_new_str`: a new string with these bytes. -/
  | str (bytes : List UInt8)
  /-- `mp_const_empty_bytes`. -/
  | emptyBytes
  deriving DecidableEq

/-- The bytes of a returned object. -/
def FileValue.bytes : FileValue → List UInt8
  | .str bs => bs
  | .emptyBytes => []

/-- The errors raised by `open`. -/
inductive OSError
  /-- `MP_ENOENT`. -/
  | enoent
  deriving DecidableEq

/-- `ram_file_obj_t`. -/
structure RamFileObj where
  pos : UInt32
  deriving DecidableEq

/-- `mp_builtin_open` ; `strcmp` looks at the file name up to its first zero byte. -/
def mpBuiltinOpen (filename : List UInt8) : Except OSError RamFileObj :=
  if filename.takeWhile (· ≠ 0) = ascii "main.py" then .ok { pos := 0 } else .error .enoent

/-- The slice of `msc_ram_disk` that `ram_file_read` hands to `mp_obj_new_str`, as its position and
its length `len`; there is none at the end of the file. -/
def ramFileSlice (s : Msc) (self : RamFileObj) : Option (UInt32 × UInt32) :=
  if self.pos ≥ s.activeFileSize then none
  else
    let len := s.activeFileSize - self.pos
    some (self.pos, len)

/-- `ram_file_read`, with its optional argument. -/
def ramFileRead (s : Msc) (self : RamFileObj) (_size : Option ℤ) : RamFileObj × FileValue :=
  match ramFileSlice s self with
  | none => (self, .emptyBytes)
  | some (pos, len) => ({ self with pos := self.pos + len },
      .str ((List.range len.toNat).map fun i => s.mscRamDisk.get (pos.toNat + i)))

variable {s : Msc} {self : RamFileObj} {size : Option ℤ}

theorem ramFileSlice_of_lt (h : self.pos < s.activeFileSize) :
    ramFileSlice s self = some (self.pos, s.activeFileSize - self.pos) :=
  if_neg (UInt32.not_le.2 h)

theorem ramFileRead_of_le (h : s.activeFileSize ≤ self.pos) :
    ramFileRead s self size = (self, .emptyBytes) := by
  rw [ramFileRead, ramFileSlice, if_pos h]

/-- A read before the end of the file returns the bytes up to there, and leads there. -/
theorem ramFileRead_of_lt (h : self.pos < s.activeFileSize) : ramFileRead s self size =
    (⟨s.activeFileSize⟩, .str ((List.range (s.activeFileSize.toNat - self.pos.toNat)).map
      fun i => s.mscRamDisk.get (self.pos.toNat + i))) := by
  have hend : self.pos + (s.activeFileSize - self.pos) = s.activeFileSize := by
    rw [UInt32.add_comm, UInt32.sub_add_cancel]
  rw [ramFileRead, ramFileSlice_of_lt h]
  dsimp only
  rw [hend, UInt32.toNat_sub_of_le _ _ (UInt32.le_of_lt h)]

theorem mpBuiltinOpen_main : mpBuiltinOpen (ascii "main.py") = .ok ⟨0⟩ := by decide +kernel

end Ch32fun
