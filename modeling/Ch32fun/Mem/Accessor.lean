import Ch32fun.Data.Block
import Mathlib.Tactic.SplitIfs

/-!
# The memory accessors `ch32fun.RAM` and `ch32fun.ch5xx_flash`

Scripts read and write memory by address.  `uintptr_t`, `size_t` and `mp_int_t` have 32 bits and
wrap around; an address handed over as a Python integer is an `Int32` until the source converts it.

* `ch32funCheckAddr` : `ch32fun_check_addr`.
* `ramSubscr` : `ram_subscr`, for the indices `RAM[start:stop:step]` and `RAM[i]` and for the four
  uses of `value` (load, delete, store of an integer, store of a buffer).
* `funFlashRead`, `funFlashWrite` : the methods of `ch5xx_flash`; programming the flash is not
  implemented in the source.

Each result says which addresses were read, written or handed out (`touched`).
-/

namespace Ch32fun

/-! ### Exceptions -/

/-- What ends a call without a result. -/
inductive MpException
  | valueError (msg : String)
  | typeError (msg : String)
  | notImplementedError (msg : String)
  /-- An object function is called with `MP_OBJ_NULL`, which is no object. -/
  | nullObject
  deriving DecidableEq

/-- The exception of `ch32fun_check_addr`. -/
abbrev addressOutOfBounds : MpException := .valueError "address out of bounds"

/-! ### The memory map -/

/-- `RAM_START`. -/
abbrev ramStart : UInt32 := 0x20000000

/-- `RAM_SIZE`. -/
abbrev ramSize : UInt32 := 12 * 1024

/-- `RAM_END`. -/
abbrev ramEnd : UInt32 := ramStart + ramSize

/-- `FLASH_START`. -/
abbrev flashStart : UInt32 := 0

/-- `FLASH_SIZE`. -/
abbrev flashSize : UInt32 := ramStart

/-- `FLASH_END`. -/
abbrev flashEnd : UInt32 := flashStart + flashSize

/-- `ch32fun_check_addr`. -/
def ch32funCheckAddr (addr len start end' : UInt32) : Except MpException Unit :=
  if addr < start ∨ addr + len > end' ∨ addr + len < addr then .error addressOutOfBounds else .ok ()

/-- The contents of the address space. -/
abbrev Memory := UInt32 → UInt8

namespace Memory

/-- Store a byte. -/
def set (mem : Memory) (addr : UInt32) (b : UInt8) : Memory :=
  fun a => if a = addr then b else mem a

end Memory

/-! ### Values -/

/-- A buffer as `mp_get_buffer_raise` describes it: the bytes of an object elsewhere, or a
memoryview onto the address space. -/
inductive Buffer
  | bytes (l : List UInt8)
  | view (addr len : UInt32)

/-- `bufinfo.len`. -/
def Buffer.len : Buffer → UInt32
  | .bytes l => UInt32.ofNat l.length
  | .view _ len => len

/-- Byte `i` of the buffer. -/
def Buffer.load (mem : Memory) : Buffer → ℕ → UInt8
  | .bytes l, i => l.getD i 0
  | .view addr _, i => mem (addr + UInt32.ofNat i)

/-- The argument `value` of `ram_subscr`, classified by what the two conversions of MicroPython make
of it: an object that is converted to an integer, an object with the buffer protocol, or one of the
two marks.  `RamValue.mpObjGetInt` and `RamValue.mpGetBufferRaise` read the classification back. -/
inductive RamValue
  /-- `MP_OBJ_SENTINEL` : a load. -/
  | sentinel
  /-- `MP_OBJ_NULL` : a delete. -/
  | null
  /-- The store of an integer. -/
  | int (v : Int32)
  /-- The store of an object with the buffer protocol. -/
  | buffer (b : Buffer)

namespace RamValue

/-- `mp_obj_get_int(value)`. -/
def mpObjGetInt : RamValue → Except MpException Int32
  | .int v => .ok v
  | .null => .error .nullObject
  | .sentinel | .buffer _ => .error (.typeError "can't convert to int")

/-- `mp_get_buffer_raise(value, &bufinfo, MP_BUFFER_READ)`. -/
def mpGetBufferRaise : RamValue → Except MpException Buffer
  | .buffer b => .ok b
  | .null => .error .nullObject
  | .sentinel | .int _ => .error (.typeError "object with buffer protocol required")

end RamValue

/-- The argument `index` of `ram_subscr`. -/
inductive RamIndex
  | slice (start stop : Int32) (step : Option Int32)
  | int (i : Int32)

/-- The object that a call returns. -/
inductive MpObj
  | none
  | smallInt (b : UInt8)
  /-- `mp_obj_new_memoryview('B', len, addr)`. -/
  | memoryview (len addr : UInt32)
  deriving DecidableEq

/-- A call that returned: the object, the memory afterwards, and the addresses that were read,
written or handed out. -/
structure MemResult where
  obj : MpObj
  mem : Memory
  touched : List UInt32

/-- The `len` addresses from `addr` on. -/
def addrRange (addr len : UInt32) : List UInt32 :=
  (List.range len.toNat).map fun i => addr + UInt32.ofNat i

/-- `memcpy(addr, bufinfo.buf, len)`, byte by byte from the first on. -/
def memcpy (mem : Memory) (addr : UInt32) (src : Buffer) (len : UInt32) : Memory :=
  (List.range len.toNat).foldl
    (fun mem i => mem.set (addr + UInt32.ofNat i) (src.load mem i)) mem

/-! ### `ram_subscr` -/

/-- `start_addr` after "offset vs absolute"; the comparison is one of signed integers. -/
def ramRebase (start : Int32) : Int32 :=
  if start < ramStart.toInt32 then start + ramStart.toInt32 else start

/-- The first half of the slice branch: the address and the length that passed the check. -/
def ramSliceRange (start stop : Int32) (step : Option Int32) :
    Except MpException (UInt32 × UInt32) :=
  if step ≠ none ∧ step ≠ some 1 then .error (.notImplementedError "only step=1 supported")
  else
    let len := (stop - start).toUInt32
    let addr := (ramRebase start).toUInt32
    (ch32funCheckAddr addr len ramStart ramEnd).map fun _ => (addr, len)

/-- The address of the single-address branch that passed the check; here the comparison is one of
unsigned integers. -/
def ramSingle (i : Int32) : Except MpException UInt32 :=
  let addr := i.toUInt32
  let addr := addr + if addr < ramStart then ramStart else 0
  (ch32funCheckAddr addr 1 ramStart ramEnd).map fun _ => addr

/-- `ram_subscr`. -/
def ramSubscr (mem : Memory) (index : RamIndex) (value : RamValue) :
    Except MpException MemResult :=
  match index with
  | .slice start stop step => do
    let (addr, len) ← ramSliceRange start stop step
    match value with
    | .sentinel => return ⟨.memoryview len addr, mem, addrRange addr len⟩
    | .null => throw (.typeError "cannot delete memory")
    | .int _ | .buffer _ =>
      let src ← value.mpGetBufferRaise
      if src.len ≠ len then throw (.valueError "slice assignment size mismatch")
      return ⟨.none, memcpy mem addr src len, addrRange addr len⟩
  | .int i => do
    let addr ← ramSingle i
    match value with
    | .sentinel => return ⟨.smallInt (mem addr), mem, [addr]⟩
    | .null | .int _ | .buffer _ =>
      let v ← value.mpObjGetInt
      return ⟨.none, mem.set addr v.toUInt32.toUInt8, [addr]⟩

/-! ### `ch5xx_flash` -/

/-- `fun_flash_read`, with its optional argument. -/
def funFlashRead (mem : Memory) (addr : Int32) (len : Option Int32) :
    Except MpException MemResult := do
  let addr := addr.toUInt32
  match len with
  | none =>
    ch32funCheckAddr addr 1 flashStart flashEnd
    return ⟨.smallInt (mem addr), mem, [addr]⟩
  | some len =>
    let len := len.toUInt32
    ch32funCheckAddr addr len flashStart flashEnd
    return ⟨.memoryview len addr, mem, addrRange addr len⟩

/-- The argument `data` of `ch5xx_flash.write`. -/
inductive FlashData
  | int (v : ℤ)
  | buffer (b : Buffer)

/-- `fun_flash_write`; nothing is programmed after the check. -/
def funFlashWrite (mem : Memory) (addr : Int32) (data : FlashData) :
    Except MpException MemResult := do
  let addr := addr.toUInt32
  match data with
  | .int _ =>
    ch32funCheckAddr addr 4 flashStart flashEnd
    return ⟨.none, mem, []⟩
  | .buffer b =>
    ch32funCheckAddr addr b.len flashStart flashEnd
    return ⟨.none, mem, []⟩

end Ch32fun
