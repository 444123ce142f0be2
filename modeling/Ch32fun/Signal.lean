import Ch32fun.Data.Word
import Ch32fun.Object

/-!
# Signals

A `Signal` wraps an object with a `value` method, a `Pin` or another `Signal`, and may invert it.
It passes values on as small integers, of 31 bits, without normalising them.

* `SignalObj`, `machineSignalValue`, `machineSignalOn`, `machineSignalOff` : the objects and their
  methods; a pin drives its level high for every value but zero.
* `chain` : signals around signals around a pin, with their flags.
* `SignalsCompose` : the flags of a chain act as their parity.
* `signals_compose_iff` : this is so exactly when the value survives its first conversions: it is
  an `mp_int_t`, and not `-2^31` behind a signal that does not invert.

`mp_obj_get_int` is a parameter; of it only this is used, that a value which fits comes back.
-/

namespace Ch32fun

/-- The objects with a `value` method; the pin is the only one with a level. -/
inductive SignalObj
  | pin
  /-- `machine_signal_obj_t`. -/
  | signal (pinObj : SignalObj) (invert : Bool)

/-- `!val`. -/
def cNot (val : Int32) : Int32 := if val = 0 then 1 else 0

/-- The value of the object `MP_OBJ_NEW_SMALL_INT(val)`. -/
def newSmallInt (val : Int32) : ℤ := (mpObjSmallIntValue (mpObjNewSmallInt val.toUInt32)).toInt

section Methods

variable {ε : Type} (mpObjGetInt : Option ℤ → Except ε Int32)

/-- `machine_signal_value`, and `machine_pin_value` at the end of the chain: the getter without an
argument, the setter with one.  The result is an integer or `mp_const_none`, and the new level. -/
def machineSignalValue : SignalObj → Option ℤ → Bool → Except ε (Option ℤ × Bool)
  | .pin, none, level => return (some (if level then 1 else 0), level)
  | .pin, some x, _ => return (none, decide (x ≠ 0))
  | .signal pinObj invert, none, level => do
    let (res, level) ← machineSignalValue pinObj none level
    let val ← mpObjGetInt res
    let val := if invert then cNot val else val
    return (some (newSmallInt val), level)
  | .signal pinObj invert, some x, level => do
    let val ← mpObjGetInt (some x)
    let val := if invert then cNot val else val
    let (_, level) ← machineSignalValue pinObj (some (newSmallInt val)) level
    return (none, level)

/-- `machine_signal_on`; on a pin, `machine_pin_on`. -/
def machineSignalOn : SignalObj → Bool → Except ε (Option ℤ × Bool)
  | .pin, _ => return (none, true)
  | .signal pinObj invert, level => do
    let physVal : Int32 := if invert then 0 else 1
    let (_, level) ← machineSignalValue mpObjGetInt pinObj (some (newSmallInt physVal)) level
    return (none, level)

/-- `machine_signal_off`; on a pin, `machine_pin_off`. -/
def machineSignalOff : SignalObj → Bool → Except ε (Option ℤ × Bool)
  | .pin, _ => return (none, false)
  | .signal pinObj invert, level => do
    let physVal : Int32 := if invert then 1 else 0
    let (_, level) ← machineSignalValue mpObjGetInt pinObj (some (newSmallInt physVal)) level
    return (none, level)

end Methods

/-- Signals with the given flags around a pin, the outermost first. -/
def chain (flags : List Bool) : SignalObj := flags.foldr (fun invert obj => .signal obj invert) .pin

/-- The parity of the flags that are set. -/
def parity (flags : List Bool) : Bool := flags.foldr xor false

/-- The integer that a pin returns for its level. -/
def ofLevel (level : Bool) : ℤ := if level then 1 else 0

/-- Setting the outermost signal to `x` drives the pin to `x ≠ 0`, inverted by the parity, and it is
read back; `on` and `off` set it to 1 and 0; every signal reads the level inverted by the parity
from there inwards. -/
structure SignalsCompose {ε : Type} (mpObjGetInt : Option ℤ → Except ε Int32)
    (flags : List Bool) (x : ℤ) (level : Bool) : Prop where
  set : ∃ level', machineSignalValue mpObjGetInt (chain flags) (some x) level = .ok (none, level') ∧
    level' = xor (decide (x ≠ 0)) (parity flags) ∧
    machineSignalValue mpObjGetInt (chain flags) none level' =
      .ok (some (ofLevel (decide (x ≠ 0))), level')
  on : machineSignalOn mpObjGetInt (chain flags) level =
    machineSignalValue mpObjGetInt (chain flags) (some 1) level
  off : machineSignalOff mpObjGetInt (chain flags) level =
    machineSignalValue mpObjGetInt (chain flags) (some 0) level
  get : ∀ k, machineSignalValue mpObjGetInt (chain (flags.drop k)) none level =
    .ok (some (ofLevel (xor level (parity (flags.drop k)))), level)

variable {ε : Type} {mpObjGetInt : Option ℤ → Except ε Int32} {flags : List Bool} {invert : Bool}
variable {x : ℤ} {v : Int32}

/-! ### Small integers -/

theorem newSmallInt_eq (val : Int32) : newSmallInt val = val.toInt.bmod (2 ^ 31) := by
  rw [newSmallInt, smallIntValue_new, Int32.toInt32_toUInt32]

theorem newSmallInt_bounds (val : Int32) :
    -2 ^ 30 ≤ newSmallInt val ∧ newSmallInt val < 2 ^ 30 := by
  rw [newSmallInt_eq]
  exact ⟨Int.le_bmod (by decide), Int.bmod_lt (by decide)⟩

/-- **Only one value is taken for zero.** -/
theorem newSmallInt_eq_zero_iff (val : Int32) :
    newSmallInt val = 0 ↔ val = 0 ∨ val = Int32.minValue := by
  have hlt := val.toInt_lt
  have hge := val.le_toInt
  rw [newSmallInt_eq, ← Int32.toInt_inj, ← Int32.toInt_inj, Int.bmod_def]
  change _ ↔ val.toInt = 0 ∨ val.toInt = -2 ^ 31
  split_ifs <;> omega

theorem cNot_eq_zero_iff (val : Int32) : cNot val = 0 ↔ val ≠ 0 := by
  unfold cNot
  split_ifs with h
  · simp [h]
  · simp [h]

/-- What a signal passes on for `val`. -/
def passOn (invert : Bool) (val : Int32) : ℤ := newSmallInt (if invert then cNot val else val)

/-- What is passed on is zero or not as the flag says, but for one value. -/
theorem passOn_ne_zero_iff (invert : Bool) (val : Int32) : passOn invert val ≠ 0 ↔
    (val ≠ 0 ↔ invert = false) ∧ ¬ (invert = false ∧ val = Int32.minValue) := by
  have hmin : cNot val ≠ Int32.minValue := by
    unfold cNot
    split_ifs <;> decide
  unfold passOn
  rw [ne_eq, newSmallInt_eq_zero_iff, not_or]
  cases invert with
  | false => simp
  | true => simp [hmin, cNot_eq_zero_iff]

/-- When the value passed on stands for `x`, inverted by the flag. -/
theorem passOn_eq_iff (invert : Bool) (hx : x = 0 → v = 0) :
    decide (passOn invert v ≠ 0) = xor (decide (x ≠ 0)) invert ↔
      (v = 0 ↔ x = 0) ∧ ¬ (invert = false ∧ v = Int32.minValue) := by
  have hmin : v = Int32.minValue → v ≠ 0 := by
    rintro rfl
    decide
  have hpass := passOn_ne_zero_iff invert v
  rw [Bool.eq_iff_iff, decide_eq_true_iff, hpass]
  cases invert with
  | false =>
    simp only [Bool.xor_false, decide_eq_true_iff, iff_true, true_and]
    tauto
  | true =>
    simp only [Bool.xor_true, Bool.not_eq_true', decide_eq_false_iff_not, Bool.true_eq_false,
      iff_false, false_and, not_false_iff, and_true, not_not]

@[simp] theorem parity_cons (invert : Bool) (flags : List Bool) :
    parity (invert :: flags) = xor invert (parity flags) := rfl

/-! ### Chains -/

section Chain

variable (hget : ∀ v : Int32, mpObjGetInt (some v.toInt) = .ok v)

include hget

theorem getInt_of_bounds (h : -2 ^ 31 ≤ x) (h' : x < 2 ^ 31) :
    ∃ v, mpObjGetInt (some x) = .ok v ∧ v.toInt = x := by
  have hx := Int32.toInt_ofInt_of_le h h'
  exact ⟨Int32.ofInt x, by rw [← hget, hx], hx⟩

/-- **Reading a chain** gives the level, inverted by the parity. -/
theorem get_chain (flags : List Bool) (level : Bool) :
    machineSignalValue mpObjGetInt (chain flags) none level =
      .ok (some (ofLevel (xor level (parity flags))), level) := by
  induction flags with
  | nil =>
    rw [show parity [] = false from rfl, Bool.xor_false]
    rfl
  | cons invert flags ih =>
    -- the next signal returns 0 or 1
    have hbit : ∀ b, mpObjGetInt (some (ofLevel b)) = .ok (if b then 1 else 0) := by
      intro b
      cases b
      · exact hget 0
      · exact hget 1
    have hpass : ∀ b, passOn invert (if b then 1 else 0) = ofLevel (xor b invert) := by
      intro b
      cases b <;> cases invert <;> decide
    change (machineSignalValue mpObjGetInt (chain flags) none level >>= fun (res, level) =>
      mpObjGetInt res >>= fun val => pure (some (passOn invert val), level)) = _
    rw [ih]
    change (mpObjGetInt (some (ofLevel (xor level (parity flags)))) >>= fun val =>
      pure (some (passOn invert val), level)) = _
    rw [hbit]
    change Except.ok (some (passOn invert _), level) = _
    rw [hpass, parity_cons, Bool.xor_assoc, Bool.xor_comm invert]

omit hget in
theorem set_cons (invert : Bool) (flags : List Bool) (level : Bool) :
    machineSignalValue mpObjGetInt (chain (invert :: flags)) (some x) level =
      mpObjGetInt (some x) >>= fun v =>
        machineSignalValue mpObjGetInt (chain flags) (some (passOn invert v)) level >>=
          fun (_, level) => pure (none, level) := rfl

/-- **Setting a chain to a small integer** drives the pin as the parity says. -/
theorem set_small (flags : List Bool) (level : Bool) (h : -2 ^ 30 ≤ x) (h' : x < 2 ^ 30) :
    machineSignalValue mpObjGetInt (chain flags) (some x) level =
      .ok (none, xor (decide (x ≠ 0)) (parity flags)) := by
  induction flags generalizing x with
  | nil =>
    rw [show parity [] = false from rfl, Bool.xor_false]
    rfl
  | cons invert flags ih =>
    obtain ⟨v, hv, hx⟩ := getInt_of_bounds hget (show -2 ^ 31 ≤ x by omega) (by omega)
    have hbounds : -2 ^ 30 ≤ passOn invert v ∧ passOn invert v < 2 ^ 30 := newSmallInt_bounds _
    have hzero : v = 0 ↔ x = 0 := by
      rw [← hx, ← Int32.toInt_inj]
      rfl
    have hne : v ≠ Int32.minValue := by
      rintro rfl
      change -2 ^ 31 = x at hx
      omega
    have hpass := (passOn_eq_iff invert hzero.2).2 ⟨hzero, fun hbad => hne hbad.2⟩
    rw [set_cons, hv]
    change machineSignalValue mpObjGetInt (chain flags) (some (passOn invert v)) level >>= _ = _
    rw [ih hbounds.1 hbounds.2, hpass, parity_cons, Bool.xor_assoc]
    rfl

theorem set_chain (invert : Bool) (flags : List Bool) (level : Bool)
    (hv : mpObjGetInt (some x) = .ok v) :
    machineSignalValue mpObjGetInt (chain (invert :: flags)) (some x) level =
      .ok (none, xor (decide (passOn invert v ≠ 0)) (parity flags)) := by
  have hbounds : -2 ^ 30 ≤ passOn invert v ∧ passOn invert v < 2 ^ 30 := newSmallInt_bounds _
  rw [set_cons, hv]
  change machineSignalValue mpObjGetInt (chain flags) (some (passOn invert v)) level >>= _ = _
  rw [set_small hget flags level hbounds.1 hbounds.2]
  rfl

theorem on_off_chain (invert : Bool) (flags : List Bool) (level : Bool) :
    machineSignalOn mpObjGetInt (chain (invert :: flags)) level =
        machineSignalValue mpObjGetInt (chain (invert :: flags)) (some 1) level ∧
      machineSignalOff mpObjGetInt (chain (invert :: flags)) level =
        machineSignalValue mpObjGetInt (chain (invert :: flags)) (some 0) level := by
  have hone : mpObjGetInt (some 1) = .ok 1 := hget 1
  have hzero : mpObjGetInt (some 0) = .ok 0 := hget 0
  rw [set_cons, hone, set_cons, hzero]
  cases invert
  · exact ⟨rfl, rfl⟩
  · exact ⟨rfl, rfl⟩

end Chain

/-- **When signals compose**: when the value is zero only if its conversion to an `mp_int_t` is,
and is not `-2^31` at an outermost signal that does not invert. -/
theorem signals_compose_iff (hget : ∀ v : Int32, mpObjGetInt (some v.toInt) = .ok v)
    (invert : Bool) (flags : List Bool) (x : ℤ) (level : Bool) :
    SignalsCompose mpObjGetInt (invert :: flags) x level ↔
      ∃ v, mpObjGetInt (some x) = .ok v ∧ (v = 0 ↔ x = 0) ∧
        ¬ (invert = false ∧ v = Int32.minValue) := by
  have hx₀ : ∀ v, mpObjGetInt (some x) = .ok v → x = 0 → v = 0 := by
    rintro v hv rfl
    exact Except.ok.inj (hv.symm.trans (hget 0))
  constructor
  · rintro ⟨⟨level', hset, hlevel, -⟩, -⟩
    cases hv : mpObjGetInt (some x) with
    | error e =>
      rw [set_cons, hv] at hset
      cases hset
    | ok v =>
      rw [set_chain hget invert flags level hv] at hset
      cases hset
      rw [parity_cons, ← Bool.xor_assoc, Bool.xor_left_inj] at hlevel
      exact ⟨v, rfl, (passOn_eq_iff invert (hx₀ v hv)).1 hlevel⟩
  · rintro ⟨v, hv, hright⟩
    have hpass := (passOn_eq_iff invert (hx₀ v hv)).2 hright
    obtain ⟨hon, hoff⟩ := on_off_chain hget invert flags level
    refine ⟨⟨_, set_chain hget invert flags level hv, ?_, ?_⟩, hon, hoff, fun k => ?_⟩
    · rw [hpass, parity_cons, Bool.xor_assoc]
    · have hcancel : ∀ a b c : Bool, xor (xor (xor a b) c) (xor b c) = a := by decide
      rw [get_chain hget, parity_cons, hpass, hcancel]
    · exact get_chain hget _ level

/-- `mp_obj_get_int` on the integers that fit, and the exceptions on other objects. -/
def getIntOrRaise : Option ℤ → Except String Int32
  | some x => if -2 ^ 31 ≤ x ∧ x < 2 ^ 31 then .ok (Int32.ofInt x) else .error "OverflowError"
  | none => .error "TypeError"

theorem getIntOrRaise_fits (v : Int32) : getIntOrRaise (some v.toInt) = .ok v := by
  rw [getIntOrRaise, if_pos ⟨v.le_toInt, v.toInt_lt⟩, Int32.ofInt_toInt]

/-- Setting an inverting signal around another one to 7. -/
theorem signals_compose_seven : SignalsCompose getIntOrRaise [true, false] 7 false :=
  (signals_compose_iff getIntOrRaise_fits true [false] 7 false).2 ⟨7, rfl, by decide, by decide⟩

/-- **The lowest `mp_int_t` is passed on as zero.** -/
theorem signal_lowest : ¬ SignalsCompose getIntOrRaise [false] (-2 ^ 31) false := by
  rintro ⟨⟨level', hset, hlevel, -⟩, -⟩
  have hv : getIntOrRaise (some (-2 ^ 31)) = .ok Int32.minValue := getIntOrRaise_fits Int32.minValue
  rw [set_chain getIntOrRaise_fits false [] false hv] at hset
  cases hset
  exact absurd hlevel (by decide)

end Ch32fun
