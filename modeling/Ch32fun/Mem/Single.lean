import Ch32fun.Mem.Bounds

/-!
# One byte of RAM, as an index and as a slice

`RAM[i]` and `RAM[i:i+1]` name the same byte, and `ram_subscr` serves them in two branches that
rebase, check and dispatch separately.

* `RamOp` : load, store and delete, for the two forms.
* `RamOp.Agrees` : both forms are refused, or both do the same; a delete raises `TypeError`.
* `single_agrees_iff` : they agree on everything but the delete of a byte of RAM, which the single
  branch takes for a store of `MP_OBJ_NULL`.
-/

namespace Ch32fun

/-- What is done to the byte. -/
inductive RamOp
  | load
  | store (v : Int32)
  | delete

namespace RamOp

/-- `value` in the operation on `RAM[i]`. -/
def single : RamOp → RamValue
  | load => .sentinel
  | store v => .int v
  | delete => .null

/-- `value` in the operation on `RAM[i:i+1]`; the byte `v mod 256` is stored as a buffer. -/
def slice : RamOp → RamValue
  | load => .sentinel
  | store v => .buffer (.bytes [v.toUInt32.toUInt8])
  | delete => .null

end RamOp

/-- The bytes behind an object. -/
def MpObj.bytes (mem : Memory) : MpObj → List UInt8
  | .none => []
  | .smallInt b => [b]
  | .memoryview len addr => (addrRange addr len).map mem

/-- Both forms do the same. -/
def RamOp.Same (mem : Memory) (single slice : Except MpException MemResult) : RamOp → Prop
  | load => ∃ r r', single = .ok r ∧ slice = .ok r' ∧ r.mem = mem ∧ r'.mem = mem ∧
    ∃ b, r.obj.bytes mem = [b] ∧ r'.obj.bytes mem = [b]
  | store _ => ∃ r r', single = .ok r ∧ slice = .ok r' ∧ r.mem = r'.mem
  | delete => ∃ msg msg', single = .error (.typeError msg) ∧ slice = .error (.typeError msg')

/-- The operation on `RAM[i]` agrees with that on `RAM[i:i+1]`. -/
def RamOp.Agrees (mem : Memory) (i : Int32) (op : RamOp) : Prop :=
  let single := ramSubscr mem (.int i) op.single
  let slice := ramSubscr mem (.slice i (i + 1) none) op.slice
  (single = .error addressOutOfBounds ∧ slice = .error addressOutOfBounds) ∨
    op.Same mem single slice

variable {mem : Memory} {i : Int32} {addr : UInt32} {op : RamOp}

theorem ramSlice_succ_iff (i : ℤ) : RamSlice i (i + 1) ↔ RamByte i := by
  unfold RamSlice RamByte
  omega

/-- **The two checks agree**: both pass, with the same address, or both raise. -/
theorem ramSingle_slice (hi : i.toInt < 2 ^ 31 - 1) :
    (RamByte i.toInt ∧ ∃ addr, ramSingle i = .ok addr ∧
      ramSliceRange i (i + 1) none = .ok (addr, 1)) ∨
    (¬ RamByte i.toInt ∧ ramSingle i = .error addressOutOfBounds ∧
      ramSliceRange i (i + 1) none = .error addressOutOfBounds) := by
  have hge := i.le_toInt
  have hone : (1 : Int32).toInt = 1 := rfl
  have hstop : (i + 1).toInt = i.toInt + 1 :=
    toInt_add_of_bounds (by rw [hone]; omega) (by rw [hone]; omega)
  rcases ramSingle_cases i with ⟨hbyte, addr, hr, haddr⟩ | ⟨hbyte, hr⟩
  · rcases ramSliceRange_cases i (i + 1) with ⟨-, addr', len, hr', haddr', hlen⟩ | ⟨h, -⟩
    · have he : addr' = addr := UInt32.toNat_inj.1 (haddr'.trans haddr.symm)
      have hlen' : len = 1 := UInt32.toNat_inj.1 (hlen.trans (by rw [hstop]; simp))
      subst he hlen'
      exact .inl ⟨hbyte, addr', hr, hr'⟩
    · rw [hstop, ramSlice_succ_iff] at h
      exact absurd hbyte h
  · rcases ramSliceRange_cases i (i + 1) with ⟨h, -⟩ | ⟨-, hr'⟩
    · rw [hstop, ramSlice_succ_iff] at h
      exact absurd h hbyte
    · exact .inr ⟨hbyte, hr, hr'⟩

theorem memcpy_one (mem : Memory) (addr : UInt32) (b : UInt8) :
    memcpy mem addr (.bytes [b]) 1 = mem.set addr b := by
  change mem.set (addr + UInt32.ofNat 0) b = _
  rw [show UInt32.ofNat 0 = 0 from rfl, UInt32.add_zero]

/-- The single branch has no case for a delete: it converts `MP_OBJ_NULL` to an integer. -/
theorem ramSubscr_int_delete (mem : Memory) (hr : ramSingle i = .ok addr) :
    ramSubscr mem (.int i) .null = .error .nullObject := by
  simp only [ramSubscr, hr, RamValue.mpObjGetInt]
  rfl

/-- **When the two forms agree**: always, but for the delete of a byte of RAM. -/
theorem single_agrees_iff (mem : Memory) (op : RamOp) (hi : i.toInt < 2 ^ 31 - 1) :
    op.Agrees mem i ↔ ¬ (op = .delete ∧ RamByte i.toInt) := by
  unfold RamOp.Agrees
  dsimp only
  rcases ramSingle_slice hi with ⟨hbyte, addr, hr, hr'⟩ | ⟨hbyte, hr, hr'⟩
  · cases op with
    | load =>
      refine ⟨fun _ => nofun, fun _ => .inr ⟨_, _, ramSubscr_int_load mem hr,
        ramSubscr_slice_load mem hr', rfl, rfl, mem addr, rfl, ?_⟩⟩
      change [mem (addr + UInt32.ofNat 0)] = _
      rw [show UInt32.ofNat 0 = 0 from rfl, UInt32.add_zero]
    | store v =>
      refine ⟨fun _ => nofun, fun _ => .inr ⟨_, _, ramSubscr_int_store mem hr v,
        ramSubscr_slice_store mem hr' _, ?_⟩⟩
      exact (memcpy_one ..).symm
    | delete =>
      -- the slice branch raises `TypeError`
      have hnull := ramSubscr_int_delete mem hr
      simp only [RamOp.single, RamOp.slice, RamOp.Same, hnull]
      simp [hbyte]
  · have hsingle : ramSubscr mem (.int i) op.single = .error addressOutOfBounds := by
      simp only [ramSubscr, hr]
      rfl
    have hslice : ramSubscr mem (.slice i (i + 1) none) op.slice = .error addressOutOfBounds := by
      simp only [ramSubscr, hr']
      rfl
    exact ⟨fun _ h => hbyte h.2, fun _ => .inl ⟨hsingle, hslice⟩⟩

/-- Storing at the second byte of RAM, as an offset. -/
theorem single_agrees_store : (RamOp.store 300).Agrees (fun _ => 0) 1 :=
  (single_agrees_iff (fun _ => 0) (.store 300) (by decide)).2 nofun

/-- `del RAM[0]` uses `MP_OBJ_NULL` as an integer. -/
theorem single_delete : ¬ RamOp.delete.Agrees (fun _ => 0) 0 := by
  have hr : ramSingle 0 = .ok ramStart := rfl
  have hnull := ramSubscr_int_delete (fun _ => 0) hr
  rintro (⟨h, -⟩ | ⟨msg, msg', h, -⟩)
  · cases hnull.symm.trans h
  · cases hnull.symm.trans h

end Ch32fun
