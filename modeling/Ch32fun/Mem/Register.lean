import Ch32fun.Machine.Basic
import Ch32fun.Mem.Accessor

/-!
# Registers by name

`ch32fun.ch5xx` and `ch32fun.iSLER` are objects whose attributes are registers: a generated table
gives the address and the width of each name.  Several names may stand for overlapping bytes.  The
two objects convert a stored value differently, and the second one also has methods and constants.

* `ch5xxAttr`, `islerAttr` : `ch5xx_attr` and `isler_attr`, both `regAttr`.
* `registerMachine` : loads, stores and deletes of attributes of the two objects, and between them
  whatever the hardware does to the registers.
* `register_runs` : every byte of a register that is loaded is that of the last store that covers
  it, under whatever name, unless the hardware has changed it since; storing what was loaded changes
  nothing.

The tables are generated, and the conversions belong to the interpreter: both are parameters.
-/

namespace Ch32fun

open Machine

/-! ### Words in the address space -/

/-- `W8`, `W16` and `W32`. -/
inductive RegWidth
  | w8
  | w16
  | w32
  deriving DecidableEq

/-- The number of bytes. -/
def RegWidth.bytes : RegWidth → ℕ
  | w8 => 1
  | w16 => 2
  | w32 => 4

/-- `reg_entry_t`. -/
structure RegEntry (ν : Type) where
  name : ν
  addr : UInt32
  width : RegWidth

namespace Memory

variable (mem : Memory) (addr : UInt32)

/-- The bytes from an address on. -/
def from' (i : ℕ) : UInt8 := mem (addr + UInt32.ofNat i)

/-- `n` bytes from an address on are set. -/
def setBytes (n : ℕ) (f : ℕ → UInt8) : Memory :=
  fun a => if (a - addr).toNat < n then f (a - addr).toNat else mem a

end Memory

namespace RegEntry

variable {ν : Type} (reg : RegEntry ν) (mem : Memory)

/-- The value of `*(volatile uintN_t *)reg->addr`. -/
def read : UInt32 :=
  match reg.width with
  | .w32 => le32 (mem.from' reg.addr) 0
  | .w16 => (le16 (mem.from' reg.addr) 0).toUInt32
  | .w8 => (mem reg.addr).toUInt32

/-- `*(volatile uintN_t *)reg->addr = (uintN_t)val`. -/
def write (val : UInt32) : Memory :=
  match reg.width with
  | .w32 => mem.setBytes reg.addr 4 (leByte val)
  | .w16 => mem.setBytes reg.addr 2 (leByte val.toUInt16.toUInt32)
  | .w8 => mem.setBytes reg.addr 1 (leByte val.toUInt8.toUInt32)

/-- The place of an address in the register. -/
def place (a : UInt32) : ℕ := (a - reg.addr).toNat

/-- The address is one of the register's bytes. -/
def Covers (a : UInt32) : Prop := reg.place a < reg.width.bytes

instance (a : UInt32) : Decidable (reg.Covers a) := by
  unfold Covers
  exact inferInstance

end RegEntry

/-! ### The attributes -/

/-- `dest[0]`. -/
inductive Slot (α : Type)
  /-- `MP_OBJ_NULL`. -/
  | null
  /-- `MP_OBJ_SENTINEL`. -/
  | sentinel
  | obj (x : α)

/-- `dest[0]` and `dest[1]`; the latter is `MP_OBJ_NULL` in a load and in a delete. -/
structure Dest (α : Type) where
  slot : Slot α
  value : Option α

/-- What the objects rely on. -/
structure RegisterEnv (ν α ε : Type) where
  ch5xxRegTable : List (RegEntry ν)
  islerRegTable : List (RegEntry ν)
  islerLocalsDict : ν → Option α
  mpObjGetInt : α → Except ε Int32
  mpObjGetIntTruncated : α → Except ε Int32
  mpObjNewIntFromUint : UInt32 → α

section Attr

variable {ν α ε : Type} [DecidableEq ν]

/-- An `attr` handler: the first entry of the table that has the name; for a load of another name, a
method or a constant. -/
def regAttr (table : List (RegEntry ν)) (getInt : α → Except ε Int32) (newInt : UInt32 → α)
    (locals : ν → Option α) (mem : Memory) (attr : ν) (dest : Dest α) :
    Except ε (Dest α × Memory) :=
  match table.find? fun reg => reg.name = attr with
  | some reg =>
    match dest.slot, dest.value with
    | .null, _ => .ok ({ dest with slot := .obj (newInt (reg.read mem)) }, mem)
    | _, some x => do
      let val ← getInt x
      return ({ dest with slot := .null }, reg.write mem val.toUInt32)
    | _, none => .ok (dest, mem)
  | none =>
    match dest.slot, locals attr with
    | .null, some x => .ok ({ dest with slot := .obj x }, mem)
    | _, _ => .ok (dest, mem)

variable (P : RegisterEnv ν α ε)

/-- `ch5xx_attr`, which has no methods. -/
def ch5xxAttr : Memory → ν → Dest α → Except ε (Dest α × Memory) :=
  regAttr P.ch5xxRegTable P.mpObjGetInt P.mpObjNewIntFromUint fun _ => none

/-- `isler_attr`. -/
def islerAttr : Memory → ν → Dest α → Except ε (Dest α × Memory) :=
  regAttr P.islerRegTable P.mpObjGetIntTruncated P.mpObjNewIntFromUint P.islerLocalsDict

end Attr

/-! ### A script at work on the registers -/

/-- The object. -/
inductive RegObject
  | ch5xx
  | isler
  deriving DecidableEq

/-- What is done to the attribute. -/
inductive AttrOp (α : Type)
  | load
  | store (x : α)
  | delete

/-- `object.name`, `object.name = x` or `del object.name`. -/
structure RegCall (ν α : Type) where
  object : RegObject
  name : ν
  op : AttrOp α

/-- What happens to the registers. -/
inductive RegInput (ν α : Type)
  | call (c : RegCall ν α)
  /-- The hardware changes the bytes at some addresses. -/
  | hardware (f : UInt32 → Option UInt8)

/-- What comes of a call. -/
inductive AttrOutcome (α ε : Type)
  | value (x : α)
  | done
  | attributeError
  | raised (e : ε)
  deriving DecidableEq

/-- `dest` as the interpreter hands it over. -/
def AttrOp.dest {α : Type} : AttrOp α → Dest α
  | load => ⟨.null, none⟩
  | store x => ⟨.sentinel, some x⟩
  | delete => ⟨.sentinel, none⟩

/-- What the interpreter makes of `dest`: a load wants an object, a store or a delete `MP_OBJ_NULL`
as the sign of success. -/
def AttrOp.outcome {α ε : Type} : AttrOp α → Slot α → AttrOutcome α ε
  | load, .obj x => .value x
  | store _, .null | delete, .null => .done
  | _, _ => .attributeError

section Calls

variable {ν α ε : Type} [DecidableEq ν] (P : RegisterEnv ν α ε)

/-- The handler of an object. -/
def RegisterEnv.attr : RegObject → Memory → ν → Dest α → Except ε (Dest α × Memory)
  | .ch5xx => ch5xxAttr P
  | .isler => islerAttr P

/-- A call. -/
def RegisterEnv.call (mem : Memory) (c : RegCall ν α) : Memory × AttrOutcome α ε :=
  match P.attr c.object mem c.name c.op.dest with
  | .error e => (mem, .raised e)
  | .ok (dest, mem) => (mem, c.op.outcome dest.slot)

/-- A script at work on the registers. -/
def registerMachine : Machine Memory (RegInput ν α) (AttrOutcome α ε) where
  step mem
    | .call c => some ((P.call mem c).1, [(P.call mem c).2])
    | .hardware f => some (fun a => (f a).getD (mem a), [])

end Calls

/-! ### Words and their bytes -/

section Words

variable {ν : Type} {mem : Memory} {x y : UInt32} {k : ℕ}

theorem leByte_ext (h : ∀ k < 4, leByte x k = leByte y k) : x = y := by
  rw [← le32_leByte x, ← le32_leByte y]
  exact le32_congr fun k hk => h _ (by omega)

theorem leByte_toUInt16 (x : UInt32) (hk : k < 2) :
    leByte x.toUInt16.toUInt32 k = leByte x k := by
  rw [← UInt8.toNat_inj, leByte_toNat _ (by omega), leByte_toNat _ (by omega),
    UInt16.toNat_toUInt32, UInt32.toNat_toUInt16]
  obtain rfl | rfl : k = 0 ∨ k = 1 := by omega
  · omega
  · omega

theorem leByte_toUInt8 (x : UInt32) : leByte x.toUInt8.toUInt32 0 = leByte x 0 := by
  rw [← UInt8.toNat_inj, leByte_toNat _ (by omega), leByte_toNat _ (by omega),
    UInt8.toNat_toUInt32, UInt32.toNat_toUInt8]
  omega

/-- **A store** sets the bytes that the register covers. -/
theorem RegEntry.write_apply (reg : RegEntry ν) (mem : Memory) (x a : UInt32) :
    reg.write mem x a = if reg.Covers a then leByte x (reg.place a) else mem a := by
  obtain ⟨name, addr, width⟩ := reg
  cases width with
  | w32 => rfl
  | w16 =>
    change (if (a - addr).toNat < 2 then leByte x.toUInt16.toUInt32 (a - addr).toNat else mem a) =
      if (a - addr).toNat < 2 then leByte x (a - addr).toNat else mem a
    split_ifs with h
    · exact leByte_toUInt16 x h
    · rfl
  | w8 =>
    change (if (a - addr).toNat < 1 then leByte x.toUInt8.toUInt32 (a - addr).toNat else mem a) =
      if (a - addr).toNat < 1 then leByte x (a - addr).toNat else mem a
    split_ifs with h
    · rw [Nat.lt_one_iff.1 h]
      exact leByte_toUInt8 x
    · rfl

/-- **A load** returns the bytes that the register covers. -/
theorem RegEntry.leByte_read (reg : RegEntry ν) (mem : Memory) (hk : k < reg.width.bytes) :
    leByte (reg.read mem) k = mem (reg.addr + UInt32.ofNat k) := by
  obtain ⟨name, addr, width⟩ := reg
  have hlt := fun i => (mem (addr + UInt32.ofNat i)).toNat_lt
  rw [← UInt8.toNat_inj]
  cases width with
  | w32 =>
    change (leByte (le32 (mem.from' addr) 0) k).toNat = (mem (addr + UInt32.ofNat k)).toNat
    have hk : k < 4 := hk
    rw [leByte_toNat _ hk, le32_toNat]
    have h₀ := hlt 0
    have h₁ := hlt 1
    have h₂ := hlt 2
    have h₃ := hlt 3
    unfold Memory.from'
    obtain rfl | rfl | rfl | rfl : k = 0 ∨ k = 1 ∨ k = 2 ∨ k = 3 := by omega
    all_goals
      simp only [Nat.zero_add]
      omega
  | w16 =>
    change (leByte (le16 (mem.from' addr) 0).toUInt32 k).toNat =
      (mem (addr + UInt32.ofNat k)).toNat
    have hk : k < 2 := hk
    rw [leByte_toNat _ (by omega), UInt16.toNat_toUInt32, le16_toNat]
    have h₀ := hlt 0
    have h₁ := hlt 1
    unfold Memory.from'
    obtain rfl | rfl : k = 0 ∨ k = 1 := by omega
    all_goals
      simp only [Nat.zero_add]
      omega
  | w8 =>
    change (leByte (mem addr).toUInt32 k).toNat = (mem (addr + UInt32.ofNat k)).toNat
    obtain rfl : k = 0 := Nat.lt_one_iff.1 hk
    have h₀ := hlt 0
    rw [leByte_toNat _ (by omega), UInt8.toNat_toUInt32]
    rw [show UInt32.ofNat 0 = 0 from rfl, UInt32.add_zero] at h₀ ⊢
    omega

theorem RegEntry.read_lt (reg : RegEntry ν) (mem : Memory) :
    (reg.read mem).toNat < 2 ^ (8 * reg.width.bytes) := by
  obtain ⟨name, addr, width⟩ := reg
  cases width with
  | w32 => exact UInt32.toNat_lt _
  | w16 =>
    change (le16 (mem.from' addr) 0).toUInt32.toNat < 2 ^ 16
    rw [UInt16.toNat_toUInt32]
    exact UInt16.toNat_lt _
  | w8 =>
    change (mem addr).toUInt32.toNat < 2 ^ 8
    rw [UInt8.toNat_toUInt32]
    exact UInt8.toNat_lt _

theorem RegEntry.add_place (reg : RegEntry ν) (a : UInt32) :
    reg.addr + UInt32.ofNat (reg.place a) = a := by
  rw [place, UInt32.ofNat_toNat, UInt32.add_comm, UInt32.sub_add_cancel]

theorem RegEntry.write_read (reg : RegEntry ν) (mem : Memory) :
    reg.write mem (reg.read mem) = mem := by
  funext a
  rw [write_apply]
  split_ifs with h
  · rw [reg.leByte_read mem h, add_place]
  · rfl

end Words

/-! ### Calls -/

namespace RegisterEnv

variable {ν α ε : Type} (P : RegisterEnv ν α ε)

/-- The table of an object. -/
def table : RegObject → List (RegEntry ν)
  | .ch5xx => P.ch5xxRegTable
  | .isler => P.islerRegTable

/-- The conversion of an object. -/
def getInt : RegObject → α → Except ε Int32
  | .ch5xx => P.mpObjGetInt
  | .isler => P.mpObjGetIntTruncated

/-- The methods and constants of an object. -/
def locals : RegObject → ν → Option α
  | .ch5xx => fun _ => none
  | .isler => P.islerLocalsDict

variable [DecidableEq ν]

theorem attr_eq (o : RegObject) :
    P.attr o = regAttr (P.table o) (P.getInt o) P.mpObjNewIntFromUint (P.locals o) := by
  cases o <;> rfl

/-- The register that a name stands for. -/
def reg (o : RegObject) (name : ν) : Option (RegEntry ν) :=
  (P.table o).find? fun reg => reg.name = name

/-- The register and the value of a store that is carried out. -/
def stored (c : RegCall ν α) : Option (RegEntry ν × UInt32) :=
  match c.op, P.reg c.object c.name with
  | .store x, some reg => (P.getInt c.object x).toOption.map fun val => (reg, val.toUInt32)
  | _, _ => none

variable {P} {o : RegObject} {name : ν} {reg : RegEntry ν} {mem : Memory} {x : α} {v : Int32}

theorem call_load (h : P.reg o name = some reg) :
    P.call mem ⟨o, name, .load⟩ = (mem, .value (P.mpObjNewIntFromUint (reg.read mem))) := by
  unfold RegisterEnv.reg at h
  simp only [call, attr_eq, regAttr, h]
  rfl

theorem call_store (h : P.reg o name = some reg) (hv : P.getInt o x = .ok v) :
    P.call mem ⟨o, name, .store x⟩ = (reg.write mem v.toUInt32, .done) := by
  unfold RegisterEnv.reg at h
  simp only [call, attr_eq, regAttr, h, AttrOp.dest, hv]
  rfl

theorem call_store_error {e : ε} (h : P.reg o name = some reg) (hv : P.getInt o x = .error e) :
    P.call mem ⟨o, name, .store x⟩ = (mem, .raised e) := by
  unfold RegisterEnv.reg at h
  simp only [call, attr_eq, regAttr, h, AttrOp.dest, hv]
  rfl

/-- **What a call does to the memory**: nothing, unless it is a store that is carried out. -/
theorem call_fst (P : RegisterEnv ν α ε) (mem : Memory) (c : RegCall ν α) :
    (P.call mem c).1 = (P.stored c).elim mem fun x => x.1.write mem x.2 := by
  obtain ⟨o, name, op⟩ := c
  cases hreg : P.reg o name with
  | none =>
    have hnone : P.stored ⟨o, name, op⟩ = none := by
      unfold stored
      rw [hreg]
      cases op <;> rfl
    rw [hnone]
    unfold RegisterEnv.reg at hreg
    simp only [call, attr_eq, regAttr, hreg]
    cases op <;> cases P.locals o name <;> rfl
  | some reg =>
    cases op with
    | load =>
      rw [call_load hreg]
      simp only [stored, Option.elim]
    | delete =>
      unfold RegisterEnv.reg at hreg
      simp only [call, attr_eq, regAttr, hreg]
      rfl
    | store x =>
      cases hv : P.getInt o x with
      | ok v =>
        rw [call_store hreg hv]
        simp only [stored, hreg, hv]
        rfl
      | error e =>
        rw [call_store_error hreg hv]
        simp only [stored, hreg, hv]
        rfl

/-- A store that is carried out is one to a register of the table. -/
theorem reg_of_stored {c : RegCall ν α} {y : RegEntry ν × UInt32} (h : P.stored c = some y) :
    P.reg c.object c.name = some y.1 := by
  obtain ⟨o, name, op⟩ := c
  unfold stored at h
  cases op with
  | load | delete => cases h
  | store x =>
    cases hreg : P.reg o name with
    | none =>
      simp only [hreg] at h
      cases h
    | some reg =>
      simp only [hreg] at h
      obtain ⟨v, -, rfl⟩ := Option.map_eq_some_iff.1 h
      rfl

/-- What comes of a call depends on the memory by the value of the register alone. -/
theorem call_snd_congr {c : RegCall ν α} {mem' : Memory}
    (h : ∀ reg, P.reg c.object c.name = some reg → reg.read mem = reg.read mem') :
    (P.call mem c).2 = (P.call mem' c).2 := by
  obtain ⟨o, name, op⟩ := c
  cases hreg : P.reg o name with
  | none =>
    unfold RegisterEnv.reg at hreg
    simp only [call, attr_eq, regAttr, hreg]
    cases op <;> cases P.locals o name <;> rfl
  | some reg =>
    cases op with
    | load => rw [call_load hreg, call_load hreg, h reg hreg]
    | delete =>
      unfold RegisterEnv.reg at hreg
      simp only [call, attr_eq, regAttr, hreg]
      rfl
    | store x =>
      cases hv : P.getInt o x with
      | ok v => rw [call_store hreg hv, call_store hreg hv]
      | error e => rw [call_store_error hreg hv, call_store_error hreg hv]

end RegisterEnv

/-! ### Runs -/

section Runs

variable {ν α ε : Type} [DecidableEq ν] {P : RegisterEnv ν α ε} {mem mem' : Memory}
  {as : List (RegInput ν α)} {os : List (AttrOutcome α ε)} {o : RegObject} {name : ν}
  {reg : RegEntry ν}

variable (P) in
/-- The byte that is put at an address, if there is one. -/
def RegisterEnv.written (a : UInt32) : RegInput ν α → Option UInt8
  | .call c => (P.stored c).bind fun x =>
    if x.1.Covers a then some (leByte x.2 (x.1.place a)) else none
  | .hardware f => f a

variable (P) in
/-- The byte that was put at an address last. -/
def RegisterEnv.lastByte (as : List (RegInput ν α)) (a : UInt32) : Option UInt8 :=
  as.foldl (fun b i => (P.written a i).or b) none

theorem step_of_call {c : RegCall ν α} {out : AttrOutcome α ε} (h : P.call mem c = (mem', out)) :
    (registerMachine P).step mem (.call c) = some (mem', [out]) := by
  change some ((P.call mem c).1, [(P.call mem c).2]) = _
  rw [h]

theorem register_step {i : RegInput ν α} (hst : (registerMachine P).step mem i = some (mem', os))
    (a : UInt32) : mem' a = (P.written a i).getD (mem a) := by
  cases i with
  | hardware f =>
    cases hst
    rfl
  | call c =>
    have hmem : (P.call mem c).1 = mem' := congrArg Prod.fst (Option.some.inj hst)
    rw [← hmem, RegisterEnv.call_fst, RegisterEnv.written]
    cases P.stored c with
    | none => rfl
    | some x =>
      change x.1.write mem x.2 a = _
      rw [RegEntry.write_apply, Option.bind_some]
      split_ifs <;> rfl

/-- **Each byte is the one that was put there last.** -/
theorem registers_byte (h : (registerMachine P).Run Free mem as os mem') (a : UInt32) :
    mem' a = (P.lastByte as a).getD (mem a) := by
  suffices hfold : ∀ (b : Option UInt8) (d : UInt8), mem a = b.getD d →
      mem' a = (as.foldl (fun b i => (P.written a i).or b) b).getD d from hfold none (mem a) rfl
  induction h with
  | nil mem => exact fun b d hb => hb
  | @cons mem mem₁ mem' i as o os _ hst _ ih =>
    intro b d hb
    refine ih _ d ?_
    rw [register_step hst, hb]
    dsimp only
    cases P.written a i <;> rfl

/-- **What a register holds.**  After any sequence of calls on the two objects, with whatever the
hardware does between them, the load of a register gives a number of its width; each byte of it is
the one put there last: by a store that covers it, under whatever name and through whichever object,
or by the hardware.  Storing the number back, under any name of the same place and width, changes
nothing, whether it is refused or not. -/
theorem register_runs
    (hget : ∀ o x v, P.getInt o (P.mpObjNewIntFromUint x) = .ok v → v.toUInt32 = x)
    (h : (registerMachine P).Run Free mem as os mem') (hreg : P.reg o name = some reg) :
    ∃ w, (registerMachine P).step mem' (.call ⟨o, name, .load⟩) =
        some (mem', [.value (P.mpObjNewIntFromUint w)]) ∧
      w.toNat < 2 ^ (8 * reg.width.bytes) ∧
      (∀ k < reg.width.bytes, leByte w k =
        (P.lastByte as (reg.addr + UInt32.ofNat k)).getD (mem (reg.addr + UInt32.ofNat k))) ∧
      ∀ o' name' reg', P.reg o' name' = some reg' → reg'.addr = reg.addr →
        reg'.width = reg.width → ∃ out, (registerMachine P).step mem'
          (.call ⟨o', name', .store (P.mpObjNewIntFromUint w)⟩) = some (mem', [out]) := by
  refine ⟨reg.read mem', ?_, reg.read_lt mem', fun k hk => ?_, fun o' name' reg' hreg' ha hw => ?_⟩
  · exact step_of_call (RegisterEnv.call_load hreg)
  · rw [reg.leByte_read mem' hk]
    exact registers_byte h _
  · have hread : reg.read mem' = reg'.read mem' := by
      unfold RegEntry.read
      rw [ha, hw]
    cases hv : P.getInt o' (P.mpObjNewIntFromUint (reg.read mem')) with
    | error e => exact ⟨.raised e, step_of_call (RegisterEnv.call_store_error hreg' hv)⟩
    | ok v =>
      refine ⟨.done, step_of_call ?_⟩
      rw [RegisterEnv.call_store hreg' hv, hget _ _ _ hv, hread, RegEntry.write_read]

end Runs

/-! ### Two names of one word -/

/-- `mp_obj_get_int` on integers. -/
def getIntOrOverflow (x : ℤ) : Except String Int32 :=
  if -2 ^ 31 ≤ x ∧ x < 2 ^ 31 then .ok (Int32.ofInt x) else .error "OverflowError"

/-- A register of four bytes under a name of each object, and its second byte as a register. -/
def twoNames : RegisterEnv String ℤ String where
  ch5xxRegTable := [⟨"R32_X", 0x40001000, .w32⟩, ⟨"R8_X1", 0x40001001, .w8⟩]
  islerRegTable := [⟨"X", 0x40001000, .w32⟩]
  islerLocalsDict := fun _ => none
  mpObjGetInt := getIntOrOverflow
  mpObjGetIntTruncated x := .ok (Int32.ofInt x)
  mpObjNewIntFromUint x := x.toNat

theorem twoNames_getInt (o : RegObject) (x : UInt32) (v : Int32)
    (h : twoNames.getInt o (twoNames.mpObjNewIntFromUint x) = .ok v) : v.toUInt32 = x := by
  have hback : (Int32.ofInt x.toNat).toUInt32 = x := by simp [Int32.ofInt]
  cases o with
  | ch5xx =>
    rw [show twoNames.getInt .ch5xx = getIntOrOverflow from rfl, getIntOrOverflow] at h
    split_ifs at h
    rw [← Except.ok.inj h]
    exact hback
  | isler =>
    have hconv : Except.ok (Int32.ofInt x.toNat) = Except.ok v := h
    rw [← Except.ok.inj hconv]
    exact hback

/-- A byte that is stored under one name is seen in the word under another. -/
theorem register_runs_byte : ∃ os mem', (registerMachine twoNames).Run Free (fun _ => 0)
    [.call ⟨.isler, "X", .store 0x11223344⟩, .call ⟨.ch5xx, "R8_X1", .store 0x155⟩,
      .call ⟨.ch5xx, "R32_X", .delete⟩] os mem' ∧
    (registerMachine twoNames).step mem' (.call ⟨.ch5xx, "R32_X", .load⟩) =
      some (mem', [.value 0x11225544]) := by
  obtain ⟨⟨mem', os⟩, hp⟩ : ∃ x, (registerMachine twoNames).perform (fun _ => 0)
    [.call ⟨.isler, "X", .store 0x11223344⟩, .call ⟨.ch5xx, "R8_X1", .store 0x155⟩,
      .call ⟨.ch5xx, "R32_X", .delete⟩] = some x := ⟨_, rfl⟩
  have h := run_of_perform _ hp
  have hreg : twoNames.reg .ch5xx "R32_X" = some ⟨"R32_X", 0x40001000, .w32⟩ := rfl
  obtain ⟨w, hload, -, hbytes, -⟩ := register_runs twoNames_getInt h hreg
  have hw : w = 0x11225544 := by
    refine leByte_ext fun k hk => ?_
    rw [hbytes k hk]
    obtain rfl | rfl | rfl | rfl : k = 0 ∨ k = 1 ∨ k = 2 ∨ k = 3 := by omega
    all_goals decide +kernel
  rw [hw] at hload
  exact ⟨os, mem', h, hload⟩

end Ch32fun
