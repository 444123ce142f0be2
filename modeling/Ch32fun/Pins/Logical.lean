import Ch32fun.Pins.Basic
import Mathlib.Logic.Function.Basic

/-!
# Logical pins

What the objects of `machine` are for: each of them stands for one pad and a polarity, and a script
could as well work on these.

* `LogicalPins`, `logicalMachine` : the pads, and the calls of a script on them.
* `logical_run_latch` : a pad has the level that it was given last, through whatever object.
-/

namespace Ch32fun

open Machine

variable {κ : Type}

/-- What an object stands for. -/
inductive LogicalObj (κ : Type)
  /-- A pad and its polarity; an object that does not keep the lowest number takes it for zero. -/
  | line (pad : κ) (invert keepsLowest : Bool)
  /-- A signal around an object without a method `value`, or more than one. -/
  | broken (deep : Bool)

/-- The truth value of a number. -/
def truth (keepsLowest : Bool) (v : Int32) : Bool :=
  decide (v ≠ 0 ∧ (keepsLowest = true ∨ v ≠ Int32.minValue))

/-- A signal around an object. -/
def LogicalObj.wrap (invert : Bool) : LogicalObj κ → LogicalObj κ
  | line pad invert' _ => line pad (xor invert invert') invert
  | broken _ => broken true

/-- What the objects stand for, and for each pad the level it has as an output and whether it is
one. -/
structure LogicalPins (κ : Type) where
  objs : List (LogicalObj κ)
  latch : κ → Bool
  driven : κ → Bool

section Logical

variable {ω ε : Type} (P : PinEnv ω ε)

/-- What an object reads, given the levels of the pads. -/
def LogicalObj.get (level : κ → Bool) : LogicalObj κ → Except ε (Option ℤ)
  | line pad invert _ => .ok (some (ofLevel (xor (level pad) invert)))
  | broken _ => .error P.attributeError

/-- The pad and the level that it is given when an object is set. -/
def LogicalObj.set (x : Option ℤ) : LogicalObj κ → Except ε (κ × Bool)
  | line pad invert keepsLowest => do
    let v ← P.mpObjGetInt x
    return (pad, xor (truth keepsLowest v) invert)
  | broken deep => do
    if deep then
      let _ ← P.mpObjGetInt x
    throw P.attributeError

/-- What a new signal stands for. -/
def wrapRef (objs : List (LogicalObj κ)) (invert : Bool) : ObjRef → LogicalObj κ
  | .made i => ((objs[i]?).getD (.broken false)).wrap invert
  | .other => .broken false

variable [DecidableEq κ]

namespace LogicalPins

variable (pad : UInt32 → κ) (isOutput : UInt8 → Bool) (l : LogicalPins κ)

/-- A pad is given a level, or an exception is raised. -/
def put : Except ε (κ × Bool) → LogicalPins κ × PinOutcome ε
  | .ok (w, bit) => ({ l with latch := Function.update l.latch w bit }, .returned none)
  | .error e => (l, .raised e)

/-- The levels of the pads, those of the inputs given. -/
def level (outside : κ → Bool) (w : κ) : Bool := if l.driven w then l.latch w else outside w

/-- A call. -/
def call (outside : κ → Bool) : PinCall → Option (LogicalPins κ × PinOutcome ε)
  | .newPin args =>
    match P.pinArgs args with
    | .ok (pinId, mode) =>
      some ({ l with
        objs := l.objs ++ [.line (pad pinId) false true]
        driven := match mode with
          | none => l.driven
          | some mode => Function.update l.driven (pad pinId) (isOutput mode) },
        .made l.objs.length)
    | .error e => some (l, .raised e)
  | .newSignal pinObj invert =>
    some ({ l with objs := l.objs ++ [wrapRef l.objs invert pinObj] }, .made l.objs.length)
  | .value i none => l.objs[i]?.map fun obj => (l, .ofExcept (obj.get P (l.level outside)))
  | .value i (some x) => l.objs[i]?.map fun obj => l.put (obj.set P x)
  | .on i => l.objs[i]?.map fun obj => l.put (obj.set P (some 1))
  | .off i => l.objs[i]?.map fun obj => l.put (obj.set P (some 0))

end LogicalPins

/-- The same script at work on logical pins; with each call come the levels of the inputs. -/
def logicalMachine (pad : UInt32 → κ) (isOutput : UInt8 → Bool) :
    Machine (LogicalPins κ) (PinCall × (κ → Bool)) (PinOutcome ε) where
  step l a := (l.call P pad isOutput a.2 a.1).map fun (l', o) => (l', [o])

/-! ### The last level that a pad was given -/

/-- The object that a call sets, and the number. -/
def PinCall.setting : PinCall → Option (ℕ × Option ℤ)
  | value i (some x) => some (i, x)
  | on i => some (i, some 1)
  | off i => some (i, some 0)
  | _ => none

/-- The level that a call gives a pad. -/
def drive (objs : List (LogicalObj κ)) (w : κ) (c : PinCall) : Option Bool := do
  let (i, x) ← c.setting
  let obj ← objs[i]?
  let (pad, bit) ← (obj.set P x).toOption
  if pad = w then some bit else none

/-- The level that the last of the calls gives a pad. -/
def lastDrive (objs : List (LogicalObj κ)) (w : κ) (calls : List PinCall) : Option Bool :=
  (calls.filterMap (drive P objs w)).getLast?

variable {P} {pad : UInt32 → κ} {isOutput : UInt8 → Bool} {l l' : LogicalPins κ}
variable {outside : κ → Bool} {c : PinCall} {o : PinOutcome ε}

theorem put_latch (l : LogicalPins κ) (r : Except ε (κ × Bool)) (w : κ) : (l.put r).1.latch w =
    (r.toOption.bind fun (pad, bit) => if pad = w then some bit else none).getD (l.latch w) := by
  cases r with
  | error e => rfl
  | ok p =>
    obtain ⟨pad, bit⟩ := p
    change Function.update l.latch pad bit w = (if pad = w then some bit else none).getD _
    split_ifs with h
    · rw [h, Function.update_self]
      rfl
    · rw [Function.update_of_ne (Ne.symm h)]
      rfl

/-- **One call**: objects are added behind the others, and a pad keeps its level or is given another
one. -/
theorem logical_call_latch (h : l.call P pad isOutput outside c = some (l', o)) (w : κ) :
    l.objs <+: l'.objs ∧ ∀ objs, l.objs <+: objs →
      l'.latch w = (drive P objs w c).getD (l.latch w) := by
  -- a call that sets an object
  have hset {i : ℕ} {x : Option ℤ} (hc : c.setting = some (i, x))
      (h : (l.objs[i]?.map fun obj => l.put (obj.set P x)) = some (l', o)) :
      l.objs <+: l'.objs ∧ ∀ objs, l.objs <+: objs →
        l'.latch w = (drive P objs w c).getD (l.latch w) := by
    obtain ⟨obj, hobj, he⟩ := Option.map_eq_some_iff.1 h
    have hl : (l.put (obj.set P x)).1 = l' := congrArg Prod.fst he
    refine ⟨?_, fun objs hobjs => ?_⟩
    · rw [← hl]
      cases obj.set P x <;> exact List.prefix_rfl
    · obtain ⟨rest, rfl⟩ := hobjs
      have hobj' : (l.objs ++ rest)[i]? = some obj := by
        rw [List.getElem?_append_left (List.getElem?_eq_some_iff.1 hobj).1, hobj]
      rw [← hl, put_latch, drive, hc]
      simp only [Option.bind_eq_bind, Option.bind_some, hobj']
  cases c with
  | newPin args =>
    rw [LogicalPins.call] at h
    cases hargs : P.pinArgs args <;> rw [hargs] at h <;> cases h
    · exact ⟨List.prefix_rfl, fun _ _ => rfl⟩
    · exact ⟨List.prefix_append _ _, fun _ _ => rfl⟩
  | newSignal pinObj invert =>
    cases h
    exact ⟨List.prefix_append _ _, fun _ _ => rfl⟩
  | value i x =>
    cases x with
    | none =>
      obtain ⟨obj, -, he⟩ := Option.map_eq_some_iff.1 h
      cases he
      exact ⟨List.prefix_rfl, fun _ _ => rfl⟩
    | some x => exact hset rfl h
  | on i => exact hset rfl h
  | off i => exact hset rfl h

theorem lastDrive_cons (objs : List (LogicalObj κ)) (w : κ) (c : PinCall) (cs : List PinCall)
    (bit : Bool) : (lastDrive P objs w (c :: cs)).getD bit =
      (lastDrive P objs w cs).getD ((drive P objs w c).getD bit) := by
  unfold lastDrive
  cases hc : drive P objs w c with
  | none =>
    rw [List.filterMap_cons_none hc]
    rfl
  | some bit' =>
    rw [List.filterMap_cons_some hc, List.getLast?_cons]
    rfl

/-- **A run** of the logical pins. -/
theorem logical_run_latch {as : List (PinCall × (κ → Bool))} {os : List (PinOutcome ε)}
    (h : (logicalMachine P pad isOutput).Run Free l as os l') (w : κ) :
    l.objs <+: l'.objs ∧ ∀ objs, l'.objs <+: objs →
      l'.latch w = (lastDrive P objs w (as.map Prod.fst)).getD (l.latch w) := by
  induction h with
  | nil l => exact ⟨List.prefix_rfl, fun _ _ => rfl⟩
  | cons _ hst _ ih =>
    obtain ⟨⟨l₁, o⟩, hcall, he⟩ := Option.map_eq_some_iff.1 hst
    cases he
    obtain ⟨hgrow, hlatch⟩ := logical_call_latch hcall w
    refine ⟨hgrow.trans ih.1, fun objs hobjs => ?_⟩
    rw [List.map_cons, lastDrive_cons, ih.2 objs hobjs,
      hlatch objs (hgrow.trans (ih.1.trans hobjs))]

end Logical

end Ch32fun
