import Ch32fun.Machine.Basic
import Ch32fun.Signal

/-!
# Pins and signals of a script

A script makes any number of `Pin` and `Signal` objects, several of them on one pin or around one
object, and calls their methods.  A signal holds a reference, so that a call of `value` goes from
object to object until it comes to a pin.

* `Board` : the objects and the pins of the chip; `boardMachine` : the calls of a script.

`funPinMode`, `funDigitalRead`, `funDigitalWrite` and the conversion of an object to a number are
parameters.
-/

namespace Ch32fun

/-- What the objects rely on; `ω` is the state of the pins of the chip. -/
structure PinEnv (ω ε : Type) where
  funPinMode : UInt32 → UInt8 → ω → ω
  funDigitalRead : UInt32 → ω → Int32
  funDigitalWrite : UInt32 → Int32 → ω → ω
  /-- `FUN_HIGH`. -/
  funHigh : Int32
  /-- `FUN_LOW`. -/
  funLow : Int32
  mpObjGetInt : Option ℤ → Except ε Int32
  /-- `mp_arg_check_num` raises it. -/
  typeError : ε
  /-- `mp_load_method` raises it for an object that has no such method. -/
  attributeError : ε

/-! ### The objects -/

/-- A reference to an object. -/
inductive ObjRef
  /-- The `Pin` or `Signal` that was made after `i` others. -/
  | made (i : ℕ)
  /-- An object without a method `value`; `Signal` takes it nevertheless. -/
  | other

/-- `machine_pin_obj_t` and `machine_signal_obj_t`. -/
inductive MachineObj
  | pin (pinId : UInt32)
  | signal (pinObj : ObjRef) (invert : Bool)

/-- The objects made so far, and the pins of the chip. -/
structure Board (ω : Type) where
  heap : List MachineObj
  gpio : ω

section Methods

variable {ω ε : Type} (P : PinEnv ω ε)

namespace PinEnv

/-- The `pin_id` and the `mode` in the arguments of `Pin`. -/
def pinArgs : List (Option ℤ) → Except ε (UInt32 × Option UInt8)
  | [pinId] => do
    let pinId ← P.mpObjGetInt pinId
    return (pinId.toUInt32, none)
  | [pinId, mode] => do
    let pinId ← P.mpObjGetInt pinId
    let mode ← P.mpObjGetInt mode
    return (pinId.toUInt32, some mode.toUInt32.toUInt8)
  | _ => throw P.typeError

/-- `machine_pin_make_new`. -/
def machinePinMakeNew (args : List (Option ℤ)) (s : ω) : Except ε MachineObj × ω :=
  match P.pinArgs args with
  | .ok (pinId, none) => (.ok (.pin pinId), s)
  | .ok (pinId, some mode) => (.ok (.pin pinId), P.funPinMode pinId mode s)
  | .error e => (.error e, s)

/-- `machine_pin_value`. -/
def machinePinValue (pinId : UInt32) (s : ω) : Option (Option ℤ) → Except ε (Option ℤ) × ω
  | none => (.ok (some (newSmallInt (P.funDigitalRead pinId s))), s)
  | some x =>
    match P.mpObjGetInt x with
    | .ok val => (.ok none, P.funDigitalWrite pinId val s)
    | .error e => (.error e, s)

/-- `mp_load_method` of `value`. -/
def mpLoadMethod (heap : List MachineObj) : ObjRef → Except ε MachineObj
  | .made i =>
    match heap[i]? with
    | some obj => .ok obj
    | none => .error P.attributeError
  | .other => .error P.attributeError

/-- `machine_signal_value`, and `machine_pin_value` at the end; at most `n` signals are gone
through.  The result or the exception, and the pins afterwards. -/
def value (heap : List MachineObj) :
    ℕ → MachineObj → Option (Option ℤ) → ω → Option (Except ε (Option ℤ) × ω)
  | _, .pin pinId, x, s => some (P.machinePinValue pinId s x)
  | 0, .signal _ _, _, _ => none
  | n + 1, .signal pinObj invert, x, s =>
    match P.mpLoadMethod heap pinObj with
    | .error e => some (.error e, s)
    | .ok obj =>
      match x with
      | none => do
        let (res, s) ← value heap n obj none s
        let val := res >>= P.mpObjGetInt
        return (val.map fun val => some (newSmallInt (if invert then cNot val else val)), s)
      | some x =>
        match P.mpObjGetInt x with
        | .error e => some (.error e, s)
        | .ok val => do
          let val := if invert then cNot val else val
          let (res, s) ← value heap n obj (some (some (newSmallInt val))) s
          return (res.map fun _ => none, s)

/-- A pin is written with `level`; a signal sets its object to `inverted` if it inverts, and to
`plain` if it does not. -/
def switch (level inverted plain : Int32) (heap : List MachineObj) (n : ℕ) :
    MachineObj → ω → Option (Except ε (Option ℤ) × ω)
  | .pin pinId, s => some (.ok none, P.funDigitalWrite pinId level s)
  | .signal pinObj invert, s =>
    let physVal := if invert then inverted else plain
    match P.mpLoadMethod heap pinObj with
    | .error e => some (.error e, s)
    | .ok obj => do
      let (res, s) ← P.value heap n obj (some (some (newSmallInt physVal))) s
      return (res.map fun _ => none, s)

/-- `machine_pin_on` and `machine_signal_on`. -/
def on : List MachineObj → ℕ → MachineObj → ω → Option (Except ε (Option ℤ) × ω) := 
  P.switch P.funHigh 0 1

/-- `machine_pin_off` and `machine_signal_off`. -/
def off : List MachineObj → ℕ → MachineObj → ω → Option (Except ε (Option ℤ) × ω) :=
  P.switch P.funLow 1 0

end PinEnv

/-! ### The calls of a script -/

/-- What a script calls. -/
inductive PinCall
  /-- `Pin(..)`. -/
  | newPin (args : List (Option ℤ))
  /-- `Signal(pin_obj, invert)`. -/
  | newSignal (pinObj : ObjRef) (invert : Bool)
  /-- `obj.value()` and `obj.value(x)`. -/
  | value (i : ℕ) (x : Option (Option ℤ))
  | on (i : ℕ)
  | off (i : ℕ)

/-- What comes of a call. -/
inductive PinOutcome (ε : Type)
  | made (i : ℕ)
  | returned (res : Option ℤ)
  | raised (e : ε)

/-- A call, and the pins of the chip as it finds them: what is connected to them may have changed
since the last call. -/
structure PinInput (ω : Type) where
  world : ω
  call : PinCall

/-- The result of a method. -/
def PinOutcome.ofExcept : Except ε (Option ℤ) → PinOutcome ε
  | .ok res => returned res
  | .error e => raised e

/-- The script holds the object. -/
def ObjRef.Known (heap : List MachineObj) : ObjRef → Prop
  | made i => i < heap.length
  | other => True

instance (heap : List MachineObj) : (ref : ObjRef) → Decidable (ref.Known heap)
  | .made _ => inferInstanceAs (Decidable (_ < _))
  | .other => inferInstanceAs (Decidable True)

/-- The script holds the objects that the call is about. -/
def PinCall.Known (heap : List MachineObj) : PinCall → Prop
  | newPin _ => True
  | newSignal pinObj _ => pinObj.Known heap
  | value i _ | on i | off i => i < heap.length

namespace Board

variable (b : Board ω)

/-- A method of an object is called. -/
def method (f : List MachineObj → ℕ → MachineObj → ω → Option (Except ε (Option ℤ) × ω)) (i : ℕ) :
    Option (Board ω × PinOutcome ε) := do
  let obj ← b.heap[i]?
  let (res, s) ← f b.heap b.heap.length obj b.gpio
  return ({ b with gpio := s }, .ofExcept res)

/-- A call. -/
def call : PinCall → Option (Board ω × PinOutcome ε)
  | .newPin args =>
    match P.machinePinMakeNew args b.gpio with
    | (.ok obj, s) => some (⟨b.heap ++ [obj], s⟩, .made b.heap.length)
    | (.error e, s) => some ({ b with gpio := s }, .raised e)
  | .newSignal pinObj invert =>
    if pinObj.Known b.heap then
      some ({ b with heap := b.heap ++ [.signal pinObj invert] }, .made b.heap.length)
    else none
  | .value i x => b.method (fun heap n obj => P.value heap n obj x) i
  | .on i => b.method P.on i
  | .off i => b.method P.off i

end Board

/-- A script at work on the pins. -/
def boardMachine : Machine (Board ω) (PinInput ω) (PinOutcome ε) where
  step b a := do
    let (b', o) ← { b with gpio := a.world }.call P a.call
    return (b', [o])

end Methods

end Ch32fun
