import Ch32fun.Machine.Refine
import Ch32fun.Mem.Copy
import Mathlib.Data.List.Forall2

/-!
# The memory that a script sees

A script calls `ch32fun.RAM` and `ch32fun.ch5xx_flash` one after the other, and may keep the
memoryviews that it gets, which show the memory as it is when they are read.

* `memScript` : the calls, on the address space and on addresses in 32-bit words.
* `Arena` : what the calls are for: an array of 12288 bytes beside bytes that never change, and
  views that lie in the one or the other; `arenaMachine` : the calls on it.
* `simulates_arena` : the calls of a script are calls on the arena.
* `script_memory` : this in whole runs; bytes outside of RAM never change, and it does not matter
  which of its two numbers a byte of RAM is called by.
-/

namespace Ch32fun

open Machine

/-! ### Calls -/

/-- An object that a script stores or writes; views are numbered in the order in which the script
got them. -/
inductive ScriptData
  | int (v : Int32)
  | bytes (l : List UInt8)
  | view (k : ℕ)

/-- A call. -/
inductive MemCall
  /-- `RAM[index]`. -/
  | load (index : RamIndex)
  /-- `del RAM[index]`. -/
  | delete (index : RamIndex)
  /-- `RAM[index] = data`. -/
  | store (index : RamIndex) (data : ScriptData)
  /-- `ch5xx_flash.read(addr)` and `ch5xx_flash.read(addr, len)`. -/
  | flashRead (addr : Int32) (len : Option Int32)
  /-- `ch5xx_flash.write(addr, data)`. -/
  | flashWrite (addr : Int32) (data : ScriptData)
  /-- Byte `j` of view `k`. -/
  | viewLoad (k j : ℕ)

/-- What a call comes to. -/
inductive Outcome
  | raised (e : MpException)
  | none
  | byte (b : UInt8)
  /-- The script got one more view. -/
  | view
  /-- `IndexError`, of a view. -/
  | indexError
  deriving DecidableEq

/-- A bytes object fits into the address space. -/
def ScriptData.Fits : ScriptData → Prop
  | bytes l => l.length < 2 ^ 32
  | int _ | view _ => True

/-- The objects of the call fit into the address space. -/
def MemCall.Fits : MemCall → Prop
  | store _ data | flashWrite _ data => data.Fits
  | load _ | delete _ | flashRead _ _ | viewLoad _ _ => True

/-! ### The calls on the address space -/

/-- The memory, and the address and length of each view. -/
structure Scripted where
  mem : Memory
  views : List (UInt32 × UInt32)

namespace Scripted

/-- `value` in a store. -/
def value (s : Scripted) : ScriptData → Option RamValue
  | .int v => some (.int v)
  | .bytes l => some (.buffer (.bytes l))
  | .view k => s.views[k]?.map fun v => .buffer (.view v.1 v.2)

/-- The object in a write to the flash. -/
def flashData (s : Scripted) : ScriptData → Option FlashData
  | .int v => some (.int v.toInt)
  | .bytes l => some (.buffer (.bytes l))
  | .view k => s.views[k]?.map fun v => .buffer (.view v.1 v.2)

/-- What is left of a call that returned or raised. -/
def finish (s : Scripted) : Except MpException MemResult → Scripted × List Outcome
  | .error e => (s, [.raised e])
  | .ok r =>
    match r.obj with
    | .none => ({ s with mem := r.mem }, [.none])
    | .smallInt b => ({ s with mem := r.mem }, [.byte b])
    | .memoryview len addr => (⟨r.mem, s.views ++ [(addr, len)]⟩, [.view])

/-- A call. -/
def call (s : Scripted) : MemCall → Option (Scripted × List Outcome)
  | .load index => some (s.finish (ramSubscr s.mem index .sentinel))
  | .delete index => some (s.finish (ramSubscr s.mem index .null))
  | .store index data => (s.value data).map fun v => s.finish (ramSubscr s.mem index v)
  | .flashRead addr len => some (s.finish (funFlashRead s.mem addr len))
  | .flashWrite addr data =>
    (s.flashData data).map fun d => s.finish (funFlashWrite s.mem addr d)
  | .viewLoad k j => s.views[k]?.map fun v =>
    (s, [if j < v.2.toNat then .byte (s.mem (v.1 + UInt32.ofNat j)) else .indexError])

end Scripted

/-- A script at work on the memory. -/
def memScript : Machine Scripted MemCall Outcome where
  step := Scripted.call

/-! ### The arena -/

/-- The number of bytes of RAM. -/
abbrev ramBytes : ℕ := 12 * 1024

theorem ramBytes_eq : ramBytes = 12288 := rfl

/-- Where a view can lie. -/
inductive Region
  | ram
  | flash
  deriving DecidableEq

/-- The first address. -/
def Region.base : Region → ℕ
  | ram => 0x20000000
  | flash => 0

/-- The number of bytes. -/
def Region.size : Region → ℕ
  | ram => ramBytes
  | flash => 0x20000000

/-- A view, inside its region. -/
structure View where
  region : Region
  off : ℕ
  len : ℕ
  fits : off + len ≤ region.size

/-- What a script sees: the bytes of RAM, all others by their addresses, and its views. -/
structure Arena where
  ram : Block UInt8 ramBytes
  rest : ℕ → UInt8
  views : List View

instance (i : ℤ) : Decidable (RamByte i) := by
  unfold RamByte
  exact inferInstance

namespace RamIndex

/-- The index is a slice. -/
def isSlice : RamIndex → Bool
  | slice _ _ _ => true
  | int _ => false

/-- The bytes of RAM that an index stands for. -/
def view : RamIndex → Except MpException View
  | slice s e step =>
    if step ≠ none ∧ step ≠ some 1 then .error (.notImplementedError "only step=1 supported")
    else if h : RamSlice s.toInt e.toInt then
      .ok ⟨.ram, ramAddress s.toInt - Region.ram.base, (e.toInt - s.toInt).toNat, by
        have := h.region
        rw [ramStart_toNat, ramEnd_toNat] at this
        simp only [Region.base, Region.size, ramBytes]
        omega⟩
    else .error addressOutOfBounds
  | int i =>
    if h : RamByte i.toInt then
      .ok ⟨.ram, ramAddress i.toInt - Region.ram.base, 1, by
        have := h.region
        rw [ramStart_toNat, ramEnd_toNat] at this
        simp only [Region.base, Region.size, ramBytes]
        omega⟩
    else .error addressOutOfBounds

end RamIndex

/-- The bytes of the flash that a read stands for. -/
def flashView (a n : ℤ) : Except MpException View :=
  if h : 0 ≤ a ∧ 0 ≤ n ∧ a + n ≤ 0x20000000 then
    .ok ⟨.flash, a.toNat, n.toNat, by simp only [Region.size]; omega⟩
  else .error addressOutOfBounds

namespace Arena

/-- The byte at an address. -/
def get (m : Arena) (x : ℕ) : UInt8 :=
  if Region.ram.base ≤ x ∧ x < Region.ram.base + ramBytes then m.ram.get (x - Region.ram.base)
  else m.rest x

/-- Byte `j` of a view. -/
def read (m : Arena) (v : View) (j : ℕ) : UInt8 := m.get (v.region.base + v.off + j)

/-- Byte `off` of RAM is set. -/
def set (m : Arena) (off : ℕ) (b : UInt8) : Arena := { m with ram := m.ram.write off 1 fun _ => b }

/-- The first `n` bytes of a view onto RAM are set one after the other, each to what `src` is when
its turn comes. -/
def fill (m : Arena) (v : View) (src : Arena → ℕ → UInt8) : ℕ → Arena
  | 0 => m
  | n + 1 => (m.fill v src n).set (v.off + n) (src (m.fill v src n) n)

/-- The bytes of an object, if it has any: their number, and how to get them. -/
def source (m : Arena) : ScriptData → Option (Option (ℕ × (Arena → ℕ → UInt8)))
  | .int _ => some none
  | .bytes l => some (some (l.length, fun _ i => l.getD i 0))
  | .view k => m.views[k]?.map fun v => some (v.len, fun m i => m.read v i)

/-- A load. -/
def load (m : Arena) (index : RamIndex) : Arena × List Outcome :=
  match index.view with
  | .error e => (m, [.raised e])
  | .ok v =>
    if index.isSlice then ({ m with views := m.views ++ [v] }, [.view])
    else (m, [.byte (m.read v 0)])

/-- A delete is refused for a slice, and has no meaning for a byte. -/
def delete (m : Arena) (index : RamIndex) : Arena × List Outcome :=
  match index.view with
  | .error e => (m, [.raised e])
  | .ok _ =>
    (m, [.raised (if index.isSlice then .typeError "cannot delete memory" else .nullObject)])

/-- A slice takes an object of its own length, byte by byte. -/
def storeSlice (m : Arena) (v : View) : Option (ℕ × (Arena → ℕ → UInt8)) → Arena × List Outcome
  | none => (m, [.raised (.typeError "object with buffer protocol required")])
  | some src =>
    if src.1 ≠ v.len then (m, [.raised (.valueError "slice assignment size mismatch")])
    else (m.fill v src.2 v.len, [.none])

/-- A byte takes an integer, modulo 256. -/
def storeByte (m : Arena) (v : View) : ScriptData → Arena × List Outcome
  | .int x => (m.set v.off (UInt8.ofNat (x.toInt % 256).toNat), [.none])
  | .bytes _ | .view _ => (m, [.raised (.typeError "can't convert to int")])

/-- A store. -/
def store (m : Arena) (index : RamIndex) (data : ScriptData) : Option (Arena × List Outcome) :=
  (m.source data).map fun src =>
    match index.view with
    | .error e => (m, [.raised e])
    | .ok v => if index.isSlice then m.storeSlice v src else m.storeByte v data

/-- A read of the flash. -/
def flashRead (m : Arena) (addr : Int32) (len : Option Int32) : Arena × List Outcome :=
  match flashView addr.toInt (len.elim 1 Int32.toInt) with
  | .error e => (m, [.raised e])
  | .ok v =>
    if len = none then (m, [.byte (m.read v 0)])
    else ({ m with views := m.views ++ [v] }, [.view])

/-- A write to the flash is checked, and does nothing. -/
def flashWrite (m : Arena) (addr : Int32) (data : ScriptData) : Option (Arena × List Outcome) :=
  (m.source data).map fun src =>
    match flashView addr.toInt (src.elim 4 fun x => (x.1 : ℤ)) with
    | .error e => (m, [.raised e])
    | .ok _ => (m, [.none])

/-- A call. -/
def call (m : Arena) : MemCall → Option (Arena × List Outcome)
  | .load index => some (m.load index)
  | .delete index => some (m.delete index)
  | .store index data => m.store index data
  | .flashRead addr len => some (m.flashRead addr len)
  | .flashWrite addr data => m.flashWrite addr data
  | .viewLoad k j => m.views[k]?.map fun v =>
    (m, [if j < v.len then .byte (m.read v j) else .indexError])

end Arena

/-- The calls on the arena. -/
def arenaMachine : Machine Arena MemCall Outcome where
  step := Arena.call

/-! ### The one and the other -/

section Simulates

variable {s s' : Scripted} {m m' : Arena} {c c' : MemCall} {o : List Outcome} {mem : Memory}
  {v : View} {p : UInt32 × UInt32} {addr : UInt32} {b : UInt8} {x k n : ℕ}

/-- A pair of an address and a length stands for a view. -/
def Names (p : UInt32 × UInt32) (v : View) : Prop :=
  p.1.toNat = v.region.base + v.off ∧ p.2.toNat = v.len

/-- The address space and the views of a script, as it sees them. -/
structure Shows (s : Scripted) (m : Arena) : Prop where
  mem : s.mem.nat = m.get
  views : List.Forall₂ Names s.views m.views

theorem View.end_le (v : View) : v.region.base + v.off + v.len ≤ 0x20003000 := by
  have := v.fits
  cases h : v.region with
  | ram =>
    rw [h, Region.size, ramBytes] at this
    rw [Region.base]
    omega
  | flash =>
    rw [h, Region.size] at this
    rw [Region.base]
    omega

theorem Names.addr_add (h : Names p v) {j : ℕ} (hj : j < v.len) :
    (p.1 + UInt32.ofNat j).toNat = v.region.base + v.off + j := by
  have hend := v.end_le
  rw [UInt32.toNat_add, UInt32.toNat_ofNat', h.1]
  omega

theorem Shows.read (h : mem.nat = m.get) (hp : Names p v) {j : ℕ} (hj : j < v.len) :
    mem (p.1 + UInt32.ofNat j) = m.read v j := by
  rw [← mem.nat_toNat, hp.addr_add hj, h]
  rfl

theorem Arena.fill_frame (m : Arena) (v : View) (src : Arena → ℕ → UInt8) (n : ℕ) :
    (m.fill v src n).rest = m.rest ∧ (m.fill v src n).views = m.views := by
  induction n with
  | zero => exact ⟨rfl, rfl⟩
  | succ n ih => exact ih

theorem Shows.set (h : mem.nat = m.get) (hx : addr.toNat = Region.ram.base + x)
    (hlt : x < ramBytes) (b : UInt8) : (mem.set addr b).nat = (m.set x b).get := by
  rw [Memory.nat_set, h, hx]
  funext y
  by_cases hy : y = Region.ram.base + x
  · rw [hy, Function.update_self, Arena.get, if_pos (by omega), Arena.set, Nat.add_sub_cancel_left,
      Block.get_write hlt, if_pos (by omega)]
  · rw [Function.update_of_ne hy, Arena.get, Arena.get]
    split_ifs with hc
    · rw [Arena.set, Block.get_write (by omega), if_neg (by omega)]
    · rfl

/-- **Filling a view** is the copy of the source: what is copied next is read from memories that
agree. -/
theorem Shows.fill (h : mem.nat = m.get) (hp : Names p v) (hv : v.region = .ram) {src : Buffer}
    {f : Arena → ℕ → UInt8} (hsrc : ∀ (mem : Memory) (m : Arena), mem.nat = m.get →
      ∀ i < v.len, src.load mem i = f m i) :
    (memcpy mem p.1 src p.2).nat = (m.fill v f v.len).get := by
  have hfits := v.fits
  rw [hv] at hfits
  have hlen := p.2.toNat_lt
  have hsize := hp.2
  have hturns : ∀ n ≤ v.len, (memcpy mem p.1 src (UInt32.ofNat n)).nat = (m.fill v f n).get := by
    intro n
    induction n with
    | zero => exact fun _ => h
    | succ n ih =>
      intro hn
      have hturn := ih (by omega)
      rw [memcpy_succ src (by omega), hsrc _ _ hturn n (by omega)]
      refine Shows.set hturn ?_ (show v.off + n < ramBytes from ?_) _
      · rw [hp.addr_add (by omega), hv, Nat.add_assoc]
      · exact Nat.lt_of_lt_of_le (by omega) hfits
  have hwhole := hturns v.len le_rfl
  rwa [← hsize, UInt32.ofNat_toNat, hsize] at hwhole

/-! ### What an index stands for -/

variable {index : RamIndex} {e : MpException}

theorem ramSubscr_badStep (mem : Memory) (s e : Int32) {step : Option Int32} (value : RamValue)
    (h : step ≠ none ∧ step ≠ some 1) : ramSubscr mem (.slice s e step) value =
      .error (.notImplementedError "only step=1 supported") := by
  simp only [ramSubscr, ramSliceRange, if_pos h]
  rfl

theorem ramSubscr_of_view_error (h : index.view = .error e) (mem : Memory) (value : RamValue) :
    ramSubscr mem index value = .error e := by
  cases index with
  | slice s t step =>
    rw [RamIndex.view] at h
    split_ifs at h with hstep hin
    · cases h
      exact ramSubscr_badStep mem s t value hstep
    · cases h
      rcases ramSliceRange_cases s t with ⟨hin', -⟩ | ⟨-, hr⟩
      · exact absurd hin' hin
      · have hnone : ramSubscr mem (.slice s t none) value = .error addressOutOfBounds := by
          simp only [ramSubscr, hr]
          rfl
        obtain rfl | rfl : step = none ∨ step = some 1 := by tauto
        · exact hnone
        · exact hnone
  | int i =>
    rw [RamIndex.view] at h
    split_ifs at h with hin
    cases h
    rcases ramSingle_cases i with ⟨hin', -⟩ | ⟨-, hr⟩
    · exact absurd hin' hin
    · simp only [ramSubscr, hr]
      rfl

theorem ramSubscr_of_slice (h : index.view = .ok v) (hs : index.isSlice = true) :
    ∃ p, Names p v ∧ v.region = .ram ∧ ∀ mem,
      ramSubscr mem index .sentinel = .ok ⟨.memoryview p.2 p.1, mem, addrRange p.1 p.2⟩ ∧
      ramSubscr mem index .null = .error (.typeError "cannot delete memory") ∧
      (∀ x, ramSubscr mem index (.int x) =
        .error (.typeError "object with buffer protocol required")) ∧
      ∀ b : Buffer, ramSubscr mem index (.buffer b) =
        if b.len ≠ p.2 then .error (.valueError "slice assignment size mismatch")
        else .ok ⟨.none, memcpy mem p.1 b p.2, addrRange p.1 p.2⟩ := by
  cases index with
  | int i => cases hs
  | slice s t step =>
    rw [RamIndex.view] at h
    split_ifs at h with hstep hin
    cases h
    rcases ramSliceRange_cases s t with ⟨-, addr, len, hr, haddr, hlen⟩ | ⟨hin', -⟩
    swap
    · exact absurd hin hin'
    have hregion := hin.region
    rw [ramStart_toNat] at hregion
    refine ⟨(addr, len), ⟨?_, hlen⟩, rfl, fun mem => ?_⟩
    · rw [haddr]
      simp only [Region.base]
      omega
    · have hload := ramSubscr_slice_load mem hr
      have hstore := ramSubscr_slice_store mem hr
      have hnull : ramSubscr mem (.slice s t none) .null =
          .error (.typeError "cannot delete memory") := by
        simp only [ramSubscr, hr]
        rfl
      have hint : ∀ x, ramSubscr mem (.slice s t none) (.int x) =
          .error (.typeError "object with buffer protocol required") := by
        intro x
        simp only [ramSubscr, hr]
        rfl
      obtain rfl | rfl : step = none ∨ step = some 1 := by tauto
      · exact ⟨hload, hnull, hint, hstore⟩
      · exact ⟨hload, hnull, hint, hstore⟩

theorem ramSubscr_of_int (h : index.view = .ok v) (hs : index.isSlice = false) :
    ∃ addr, Names (addr, 1) v ∧ v.region = .ram ∧ ∀ mem,
      ramSubscr mem index .sentinel = .ok ⟨.smallInt (mem addr), mem, [addr]⟩ ∧
      ramSubscr mem index .null = .error .nullObject ∧
      (∀ x, ramSubscr mem index (.int x) = .ok ⟨.none, mem.set addr x.toUInt32.toUInt8, [addr]⟩) ∧
      ∀ b, ramSubscr mem index (.buffer b) = .error (.typeError "can't convert to int") := by
  cases index with
  | slice s t step => cases hs
  | int i =>
    rw [RamIndex.view] at h
    split_ifs at h with hin
    cases h
    rcases ramSingle_cases i with ⟨-, addr, hr, haddr⟩ | ⟨hin', -⟩
    swap
    · exact absurd hin hin'
    have hregion := hin.region
    rw [ramStart_toNat] at hregion
    refine ⟨addr, ⟨?_, rfl⟩, rfl, fun mem => ⟨ramSubscr_int_load mem hr, ?_,
      ramSubscr_int_store mem hr, fun b => ?_⟩⟩
    · rw [haddr]
      simp only [Region.base]
      omega
    · simp only [ramSubscr, hr]
      rfl
    · simp only [ramSubscr, hr]
      rfl

/-! ### One call -/

variable {data : ScriptData} {value : RamValue}

theorem Shows.view (h : Shows s m) (hp : s.views[k]? = some p) :
    ∃ v, m.views[k]? = some v ∧ Names p v := by
  have hall := h.views
  generalize s.views = ps at hp hall
  generalize m.views = vs at hall
  induction hall generalizing k with
  | nil => cases hp
  | @cons p' v' ps vs hpv _ ih =>
    cases k with
    | zero =>
      cases hp
      exact ⟨v', rfl, hpv⟩
    | succ k => exact ih hp

/-- A buffer and how the bytes of an object are got. -/
structure Supplies (b : Buffer) (src : ℕ × (Arena → ℕ → UInt8)) : Prop where
  len : b.len.toNat = src.1
  load : ∀ (mem : Memory) (m : Arena), mem.nat = m.get → ∀ i < src.1, b.load mem i = src.2 m i

theorem supplies_bytes {l : List UInt8} (h : l.length < 2 ^ 32) :
    Supplies (.bytes l) (l.length, fun _ i => l.getD i 0) where
  len := by
    rw [Buffer.len, UInt32.toNat_ofNat']
    exact Nat.mod_eq_of_lt h
  load _ _ _ _ _ := rfl

theorem Names.supplies (hp : Names p v) :
    Supplies (.view p.1 p.2) (v.len, fun m i => m.read v i) where
  len := hp.2
  load _ _ h _ hi := Shows.read h hp hi

theorem Shows.stored (h : Shows s m) (hf : data.Fits) (hv : s.value data = some value) :
    (∃ x, data = .int x ∧ value = .int x ∧ s.flashData data = some (.int x.toInt) ∧
      m.source data = some none) ∨
    ∃ b src, value = .buffer b ∧ s.flashData data = some (.buffer b) ∧
      m.source data = some (some src) ∧ Supplies b src ∧
      ∀ v, m.storeByte v data = (m, [.raised (.typeError "can't convert to int")]) := by
  cases data with
  | int x =>
    cases hv
    exact .inl ⟨x, rfl, rfl, rfl, rfl⟩
  | bytes l =>
    cases hv
    exact .inr ⟨_, _, rfl, rfl, rfl, supplies_bytes hf, fun _ => rfl⟩
  | view k =>
    obtain ⟨p, hp, rfl⟩ := Option.map_eq_some_iff.1 hv
    obtain ⟨w, hw, hpw⟩ := h.view hp
    refine .inr ⟨_, _, rfl, ?_, ?_, hpw.supplies, fun _ => rfl⟩
    · rw [Scripted.flashData, hp]
      rfl
    · rw [Arena.source, hw]
      rfl

theorem Shows.push (h : Shows s m) (hp : Names p v) :
    Shows ⟨s.mem, s.views ++ [p]⟩ { m with views := m.views ++ [v] } where
  mem := h.mem
  views := List.rel_append h.views (.cons hp .nil)

theorem toUInt8_toUInt32 (x : Int32) :
    x.toUInt32.toUInt8 = UInt8.ofNat (x.toInt % 256).toNat := by
  have hx := toNat_toUInt32 x
  apply UInt8.toNat_inj.1
  rw [UInt32.toNat_toUInt8, UInt8.toNat_ofNat']
  omega

theorem Shows.load (h : Shows s m) (index : RamIndex) :
    ∃ m', m.load index = (m', (s.finish (ramSubscr s.mem index .sentinel)).2) ∧
      Shows (s.finish (ramSubscr s.mem index .sentinel)).1 m' := by
  unfold Arena.load
  cases hv : index.view with
  | error e =>
    rw [ramSubscr_of_view_error hv]
    exact ⟨m, rfl, h⟩
  | ok v =>
    cases hs : index.isSlice with
    | true =>
      obtain ⟨p, hp, -, hcall⟩ := ramSubscr_of_slice hv hs
      rw [(hcall s.mem).1]
      exact ⟨_, rfl, h.push hp⟩
    | false =>
      obtain ⟨addr, hp, -, hcall⟩ := ramSubscr_of_int hv hs
      have hlen : 0 < v.len := hp.2 ▸ Nat.one_pos
      have hbyte : s.mem addr = m.read v 0 := by
        rw [← Shows.read h.mem hp hlen]
        exact congrArg s.mem (UInt32.add_zero addr).symm
      rw [(hcall s.mem).1, hbyte]
      exact ⟨m, rfl, h⟩

theorem Shows.delete (h : Shows s m) (index : RamIndex) :
    ∃ m', m.delete index = (m', (s.finish (ramSubscr s.mem index .null)).2) ∧
      Shows (s.finish (ramSubscr s.mem index .null)).1 m' := by
  unfold Arena.delete
  cases hv : index.view with
  | error e =>
    rw [ramSubscr_of_view_error hv]
    exact ⟨m, rfl, h⟩
  | ok v =>
    cases hs : index.isSlice with
    | true =>
      obtain ⟨p, -, -, hcall⟩ := ramSubscr_of_slice hv hs
      rw [(hcall s.mem).2.1]
      exact ⟨m, rfl, h⟩
    | false =>
      obtain ⟨addr, -, -, hcall⟩ := ramSubscr_of_int hv hs
      rw [(hcall s.mem).2.1]
      exact ⟨m, rfl, h⟩

theorem Shows.store (h : Shows s m) (index : RamIndex) (hf : data.Fits)
    (hv : s.value data = some value) :
    ∃ m', m.store index data = some (m', (s.finish (ramSubscr s.mem index value)).2) ∧
      Shows (s.finish (ramSubscr s.mem index value)).1 m' := by
  unfold Arena.store
  cases hview : index.view with
  | error e =>
    rw [ramSubscr_of_view_error hview]
    rcases h.stored hf hv with ⟨x, -, -, -, hsrc⟩ | ⟨b, src, -, -, hsrc, -⟩
    · rw [hsrc]
      exact ⟨m, rfl, h⟩
    · rw [hsrc]
      exact ⟨m, rfl, h⟩
  | ok v =>
    cases hs : index.isSlice with
    | true =>
      obtain ⟨p, hp, hram, hcall⟩ := ramSubscr_of_slice hview hs
      rcases h.stored hf hv with ⟨x, rfl, rfl, -, hsrc⟩ | ⟨b, src, rfl, -, hsrc, hsup, -⟩
      · rw [hsrc, (hcall s.mem).2.2.1]
        exact ⟨m, rfl, h⟩
      · have hlen : b.len = p.2 ↔ src.1 = v.len := by
          rw [← UInt32.toNat_inj, hsup.len, hp.2]
        rw [hsrc, (hcall s.mem).2.2.2]
        simp only [Option.map_some, if_true, Arena.storeSlice, ne_eq, ← hlen]
        split_ifs with he
        · refine ⟨_, rfl, Shows.fill h.mem hp hram (hlen.1 he ▸ hsup.load), ?_⟩
          rw [(m.fill_frame v src.2 v.len).2]
          exact h.views
        · exact ⟨m, rfl, h⟩
    | false =>
      obtain ⟨addr, hp, hram, hcall⟩ := ramSubscr_of_int hview hs
      rcases h.stored hf hv with ⟨x, rfl, rfl, -, hsrc⟩ | ⟨b, src, rfl, -, hsrc, -, hbyte⟩
      · rw [hsrc, (hcall s.mem).2.2.1]
        have hfits := v.fits
        have hone : 1 = v.len := hp.2
        rw [hram] at hfits
        refine ⟨_, rfl, ?_, h.views⟩
        rw [← toUInt8_toUInt32]
        exact Shows.set h.mem (hp.1.trans (by rw [hram])) (Nat.lt_of_lt_of_le (by omega) hfits) _
      · rw [hsrc, (hcall s.mem).2.2.2]
        simp only [Option.map_some, Bool.false_eq_true, if_false, hbyte]
        exact ⟨m, rfl, h⟩

theorem ch32funCheckAddr_of_not {a len start end' : UInt32}
    (h : ¬ (start.toNat ≤ a.toNat ∧ a.toNat + len.toNat ≤ end'.toNat)) :
    ch32funCheckAddr a len start end' = .error addressOutOfBounds := by
  rw [ch32funCheckAddr_eq, if_neg h]

theorem flash_check_view (a : Int32) (len : UInt32) {n : ℤ} (hn : (len.toNat : ℤ) = n % 2 ^ 32)
    (hlt : n < 2 ^ 31 ∨ 0 ≤ n ∧ n < 2 ^ 32) (hge : -2 ^ 31 ≤ n) :
    (∃ v, flashView a.toInt n = .ok v ∧ Names (a.toUInt32, len) v ∧ v.region = .flash ∧
      ch32funCheckAddr a.toUInt32 len flashStart flashEnd = .ok ()) ∨
    (flashView a.toInt n = .error addressOutOfBounds ∧
      ch32funCheckAddr a.toUInt32 len flashStart flashEnd = .error addressOutOfBounds) := by
  have ha := toNat_toUInt32 a
  have ha' := a.toInt_lt
  have ha'' := a.le_toInt
  have hiff : ch32funCheckAddr a.toUInt32 len flashStart flashEnd = .ok () ↔ _ :=
    ch32funCheckAddr_ok_iff
  unfold flashView
  rw [show flashStart.toNat = 0 from rfl, flashEnd_toNat] at hiff
  split_ifs with h
  · exact .inl ⟨_, rfl, ⟨by simp only [Region.base]; omega, by simp only; omega⟩, rfl,
      hiff.2 (by omega)⟩
  · refine .inr ⟨rfl, ch32funCheckAddr_of_not ?_⟩
    rw [show flashStart.toNat = 0 from rfl, flashEnd_toNat]
    omega

theorem Shows.flashRead (h : Shows s m) (a : Int32) (len : Option Int32) :
    ∃ m', m.flashRead a len = (m', (s.finish (funFlashRead s.mem a len)).2) ∧
      Shows (s.finish (funFlashRead s.mem a len)).1 m' := by
  unfold Arena.flashRead
  cases len with
  | none =>
    rcases flash_check_view a 1 (n := 1) rfl (.inl (by omega)) (by omega) with
      ⟨v, hv, hp, -, hc⟩ | ⟨hv, hc⟩
    · have hbyte : s.mem a.toUInt32 = m.read v 0 := by
        rw [← Shows.read h.mem hp (hp.2 ▸ Nat.one_pos)]
        exact congrArg s.mem (UInt32.add_zero _).symm
      simp only [Option.elim_none, hv, funFlashRead, hc, hbyte]
      exact ⟨m, rfl, h⟩
    · simp only [Option.elim_none, hv, funFlashRead, hc]
      exact ⟨m, rfl, h⟩
  | some n =>
    have hn := n.toInt_lt
    rcases flash_check_view a n.toUInt32 (toNat_toUInt32 n) (.inl hn) n.le_toInt with
      ⟨v, hv, hp, -, hc⟩ | ⟨hv, hc⟩
    · simp only [Option.elim_some, hv, funFlashRead, hc]
      exact ⟨_, rfl, h.push hp⟩
    · simp only [Option.elim_some, hv, funFlashRead, hc]
      exact ⟨m, rfl, h⟩

theorem Shows.flashWrite (h : Shows s m) (a : Int32) {d : FlashData} (hf : data.Fits)
    (hd : s.flashData data = some d) :
    ∃ m', m.flashWrite a data = some (m', (s.finish (funFlashWrite s.mem a d)).2) ∧
      Shows (s.finish (funFlashWrite s.mem a d)).1 m' := by
  unfold Arena.flashWrite
  obtain ⟨value, hv⟩ : ∃ value, s.value data = some value := by
    cases data with
    | int _ | bytes _ => exact ⟨_, rfl⟩
    | view k =>
      obtain ⟨p, hp, -⟩ := Option.map_eq_some_iff.1 hd
      exact ⟨.buffer (.view p.1 p.2), by rw [Scripted.value, hp]; rfl⟩
  rcases h.stored hf hv with ⟨x, -, -, hd', hsrc⟩ | ⟨b, src, -, hd', hsrc, hsup, -⟩
  · cases hd.symm.trans hd'
    rw [hsrc]
    rcases flash_check_view a 4 (n := 4) rfl (.inl (by omega)) (by omega) with
      ⟨v, hv, -, -, hc⟩ | ⟨hv, hc⟩
    · simp only [Option.map_some, Option.elim_none, hv, funFlashWrite, hc]
      exact ⟨m, rfl, h⟩
    · simp only [Option.map_some, Option.elim_none, hv, funFlashWrite, hc]
      exact ⟨m, rfl, h⟩
  · cases hd.symm.trans hd'
    have hlt := b.len.toNat_lt
    have hlen := hsup.len
    rw [hsrc]
    rcases flash_check_view a b.len (n := (src.1 : ℤ)) (by omega) (.inr (by omega)) (by omega) with
      ⟨v, hv, -, -, hc⟩ | ⟨hv, hc⟩
    · simp only [Option.map_some, Option.elim_some, hv, funFlashWrite, hc]
      exact ⟨m, rfl, h⟩
    · simp only [Option.map_some, Option.elim_some, hv, funFlashWrite, hc]
      exact ⟨m, rfl, h⟩

theorem Shows.viewLoad (h : Shows s m) {k j : ℕ} (hp : s.views[k]? = some p) :
    m.call (.viewLoad k j) = some (m, [if j < p.2.toNat then
      .byte (s.mem (p.1 + UInt32.ofNat j)) else .indexError]) := by
  obtain ⟨v, hv, hpv⟩ := h.view hp
  rw [Arena.call, hv, hpv.2, Option.map_some]
  split_ifs with hj
  · rw [Shows.read h.mem hpv hj]
  · rfl

/-- **The calls of a script are calls on the arena.** -/
theorem simulates_arena : Simulates memScript arenaMachine (fun _ c => c.Fits) Free Shows
    (fun c => [c]) (fun o => [o]) where
  step := by
    intro s m c s' o h hf hst
    have hcall : s.call c = some (s', o) := hst
    -- one step, with the same outcome
    suffices hone : ∃ m', m.call c = some (m', o) ∧ Shows s' m' by
      obtain ⟨m', hm, hs⟩ := hone
      refine ⟨m', ?_, hs⟩
      rw [List.flatMap_singleton']
      exact .single trivial hm
    cases c with
    | load index =>
      obtain ⟨m', hm, hs⟩ := h.load index
      rw [Option.some.inj hcall] at hm hs
      exact ⟨m', congrArg some hm, hs⟩
    | delete index =>
      obtain ⟨m', hm, hs⟩ := h.delete index
      rw [Option.some.inj hcall] at hm hs
      exact ⟨m', congrArg some hm, hs⟩
    | store index data =>
      obtain ⟨value, hv, he⟩ := Option.map_eq_some_iff.1 hcall
      obtain ⟨m', hm, hs⟩ := h.store index hf hv
      rw [he] at hm hs
      exact ⟨m', hm, hs⟩
    | flashRead addr len =>
      obtain ⟨m', hm, hs⟩ := h.flashRead addr len
      rw [Option.some.inj hcall] at hm hs
      exact ⟨m', congrArg some hm, hs⟩
    | flashWrite addr data =>
      obtain ⟨d, hd, he⟩ := Option.map_eq_some_iff.1 hcall
      obtain ⟨m', hm, hs⟩ := h.flashWrite addr hf hd
      rw [he] at hm hs
      exact ⟨m', hm, hs⟩
    | viewLoad k j =>
      obtain ⟨p, hp, he⟩ := Option.map_eq_some_iff.1 hcall
      cases he
      exact ⟨m, h.viewLoad hp, h⟩

end Simulates

/-! ### Numbers of a byte -/

/-- An offset into RAM, as an absolute address. -/
def RamIndex.absolute : RamIndex → RamIndex
  | slice s e step =>
    if 0 ≤ s.toInt ∧ s.toInt ≤ e.toInt ∧ e.toInt ≤ ramBytes then
      slice (s + ramStart.toInt32) (e + ramStart.toInt32) step
    else slice s e step
  | int i =>
    if 0 ≤ i.toInt ∧ i.toInt < ramBytes then int (i + ramStart.toInt32) else int i

/-- A call with all offsets as absolute addresses. -/
def MemCall.absolute : MemCall → MemCall
  | load index => load index.absolute
  | delete index => delete index.absolute
  | store index data => store index.absolute data
  | flashRead addr len => flashRead addr len
  | flashWrite addr data => flashWrite addr data
  | viewLoad k j => viewLoad k j

section Absolute

variable {s s' : Scripted} {cs : List MemCall} {os : List Outcome} {i : Int32}

theorem toInt_add_ramStart (h : i.toInt ≤ ramBytes) :
    (i + ramStart.toInt32).toInt = i.toInt + 0x20000000 := by
  have hsize := ramBytes_eq
  have hi := i.le_toInt
  have hstart : ramStart.toInt32.toInt = 0x20000000 := rfl
  rw [toInt_add_of_bounds (by omega) (by omega), hstart]

theorem ramSliceRange_absolute {a e : Int32} (h0 : 0 ≤ a.toInt) (hle : a.toInt ≤ e.toInt)
    (he : e.toInt ≤ ramBytes) : ramSliceRange (a + ramStart.toInt32) (e + ramStart.toInt32) none =
      ramSliceRange a e none := by
  have hsize := ramBytes_eq
  have ha' := toInt_add_ramStart (i := a) (by omega)
  have he' := toInt_add_ramStart he
  rcases ramSliceRange_cases a e with ⟨-, addr, len, hr, haddr, hlen⟩ | ⟨hout, -⟩
  swap
  · exact absurd (.inl ⟨h0, hle, he⟩) hout
  rcases ramSliceRange_cases (a + ramStart.toInt32) (e + ramStart.toInt32) with
    ⟨-, addr', len', hr', haddr', hlen'⟩ | ⟨hout, -⟩
  swap
  · refine absurd (.inr ?_) hout
    rw [ha', he', ramStart_toNat, ramEnd_toNat]
    omega
  rw [ha'] at haddr' hlen'
  rw [he'] at hlen'
  -- the same range of addresses
  have h₁ : addr' = addr := by
    rw [← UInt32.toNat_inj, haddr, haddr', ramAddress, ramAddress, ramStart_toNat]
    split_ifs <;> omega
  have h₂ : len' = len := by
    rw [← UInt32.toNat_inj, hlen, hlen']
    omega
  rw [hr, hr', h₁, h₂]

theorem ramSingle_absolute (h0 : 0 ≤ i.toInt) (hi : i.toInt < ramBytes) :
    ramSingle (i + ramStart.toInt32) = ramSingle i := by
  have hsize := ramBytes_eq
  have hi' := toInt_add_ramStart (i := i) (by omega)
  rcases ramSingle_cases i with ⟨-, addr, hr, haddr⟩ | ⟨hout, -⟩
  swap
  · exact absurd (.inl ⟨h0, hi⟩) hout
  rcases ramSingle_cases (i + ramStart.toInt32) with ⟨-, addr', hr', haddr'⟩ | ⟨hout, -⟩
  swap
  · refine absurd (.inr ?_) hout
    rw [hi', ramStart_toNat, ramEnd_toNat]
    omega
  rw [hi'] at haddr'
  have he : addr' = addr := by
    rw [← UInt32.toNat_inj, haddr, haddr', ramAddress, ramAddress, ramStart_toNat]
    split_ifs <;> omega
  rw [hr, hr', he]

/-- **A byte of RAM may be called by its offset or by its address.** -/
theorem ramSubscr_absolute (mem : Memory) (index : RamIndex) (value : RamValue) :
    ramSubscr mem index.absolute value = ramSubscr mem index value := by
  cases index with
  | slice s e step =>
    rw [RamIndex.absolute]
    split_ifs with h
    · have hr := ramSliceRange_absolute h.1 h.2.1 h.2.2
      have hnone : ramSubscr mem (.slice (s + ramStart.toInt32) (e + ramStart.toInt32) none) value =
          ramSubscr mem (.slice s e none) value := by
        simp only [ramSubscr, hr]
      by_cases hstep : step ≠ none ∧ step ≠ some 1
      · exact (ramSubscr_badStep _ _ _ _ hstep).trans (ramSubscr_badStep _ _ _ _ hstep).symm
      · rw [not_and_or, not_not, not_not] at hstep
        rcases hstep with rfl | rfl
        · exact hnone
        · exact hnone
    · rfl
  | int i =>
    rw [RamIndex.absolute]
    split_ifs with h
    · simp only [ramSubscr, ramSingle_absolute h.1 h.2]
    · rfl

theorem call_absolute (s : Scripted) (c : MemCall) : s.call c.absolute = s.call c := by
  cases c with
  | load _ | delete _ | store _ _ =>
    simp only [MemCall.absolute, Scripted.call, ramSubscr_absolute]
  | flashRead _ _ | flashWrite _ _ | viewLoad _ _ => rfl

theorem run_absolute (h : memScript.Run (fun _ c => c.Fits) s cs os s') :
    memScript.Run (fun _ c => c.Fits) s (cs.map MemCall.absolute) os s' := by
  induction h with
  | nil s => exact .nil s
  | @cons s _ _ c _ _ _ hf hst _ ih =>
    refine .cons ?_ ((call_absolute s c).trans hst) ih
    cases c <;> exact hf

end Absolute

/-! ### Whole scripts -/

/-- The arena of an address space, before a script has any views. -/
def Arena.ofMemory (mem : Memory) : Arena where
  ram i := mem.nat (Region.ram.base + i)
  rest := mem.nat
  views := []

theorem ofMemory_get (mem : Memory) {x : ℕ} (hx : x < ramBytes) :
    (Arena.ofMemory mem).ram.get x = mem.nat (Region.ram.base + x) := Block.get_of_lt hx

theorem shows_ofMemory (mem : Memory) : Shows ⟨mem, []⟩ (.ofMemory mem) where
  mem := by
    funext x
    rw [Arena.get]
    split_ifs with h
    · rw [ofMemory_get mem (by omega), Nat.add_sub_of_le h.1]
    · rfl
  views := .nil

/-- No call changes a byte outside of RAM. -/
theorem Arena.call_rest {m m' : Arena} {c : MemCall} {o : List Outcome}
    (h : m.call c = some (m', o)) : m'.rest = m.rest := by
  cases c with
  | load index =>
    have hm := congrArg (fun x => x.1.rest) (Option.some.inj h)
    rw [← hm, Arena.load]
    split
    · rfl
    · split_ifs <;> rfl
  | delete index =>
    have hm := congrArg (fun x => x.1.rest) (Option.some.inj h)
    rw [← hm, Arena.delete]
    split <;> rfl
  | store index data =>
    obtain ⟨src, -, he⟩ := Option.map_eq_some_iff.1 h
    rw [← congrArg (fun x => x.1.rest) he]
    split
    · rfl
    · split_ifs
      · unfold Arena.storeSlice
        split
        · rfl
        · split_ifs
          · rfl
          · exact (Arena.fill_frame ..).1
      · unfold Arena.storeByte
        split <;> rfl
  | flashRead addr len =>
    have hm := congrArg (fun x => x.1.rest) (Option.some.inj h)
    rw [← hm, Arena.flashRead]
    split
    · rfl
    · split_ifs <;> rfl
  | flashWrite addr data =>
    obtain ⟨src, -, he⟩ := Option.map_eq_some_iff.1 h
    rw [← congrArg (fun x => x.1.rest) he]
    split <;> rfl
  | viewLoad k j =>
    obtain ⟨v, -, he⟩ := Option.map_eq_some_iff.1 h
    cases he
    rfl

/-- **What a script does to the memory.**  A script works on the memory in any number of calls, with
indices of any size and with the views that it has got so far.  What it sees is what it would see on
an array of 12288 bytes beside bytes that never change: every call has the same outcome, and the
memory and the views at the end are those of the array.  No byte outside of RAM has changed.  And
the script may write every offset as an absolute address. -/
theorem script_memory {mem : Memory} {cs : List MemCall} {os : List Outcome} {s' : Scripted}
    (h : memScript.Run (fun _ c => c.Fits) ⟨mem, []⟩ cs os s') :
    (∃ m', arenaMachine.Run Free (.ofMemory mem) cs os m' ∧ Shows s' m') ∧
    (∀ a : UInt32, a.toNat < ramStart.toNat ∨ ramEnd.toNat ≤ a.toNat → s'.mem a = mem a) ∧
    memScript.Run (fun _ c => c.Fits) ⟨mem, []⟩ (cs.map MemCall.absolute) os s' := by
  obtain ⟨m', hrun, hs⟩ := simulates_arena.run (shows_ofMemory mem) h
  rw [List.flatMap_singleton', List.flatMap_singleton'] at hrun
  refine ⟨⟨m', hrun, hs⟩, fun a ha => ?_, run_absolute h⟩
  have hrest : m'.rest = mem.nat := hrun.invariant (fun m _ => m.rest = mem.nat) [] rfl
    fun m c m₁ o _ hm _ hst => (Arena.call_rest hst).trans hm
  rw [ramStart_toNat, ramEnd_toNat] at ha
  rw [← s'.mem.nat_toNat, hs.mem, Arena.get, if_neg, hrest, mem.nat_toNat]
  simp only [Region.base, ramBytes]
  omega

/-- A byte is stored through a slice and read through a view that the script got before. -/
theorem script_memory_view : ∃ os s', memScript.Run (fun _ c => c.Fits) ⟨fun _ => 0, []⟩
    [.load (.slice 0 2 none), .store (.int 1) (.int 300), .viewLoad 0 1] os s' ∧
      s'.mem 0x20003000 = 0 := by
  have h : memScript.Run (fun _ c => c.Fits) ⟨fun _ => 0, []⟩
      [.load (.slice 0 2 none), .store (.int 1) (.int 300), .viewLoad 0 1] _ _ :=
    .cons trivial rfl (.cons trivial rfl (.single trivial rfl))
  exact ⟨_, _, h, (script_memory h).2.1 _ (.inr le_rfl)⟩

end Ch32fun
