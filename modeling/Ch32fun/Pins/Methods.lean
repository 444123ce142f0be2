import Ch32fun.Pins.Logical
import Mathlib.Data.List.Induction

/-!
# The methods of pins and signals

What `value`, `on` and `off` do by way of the references, given how the pins of the chip behave.

* `Wiring` : all that is used of `funPinMode`, `funDigitalRead`, `funDigitalWrite` and
  `mp_obj_get_int`.
* `value_get`, `value_set`, `on_set`, `off_set` : a method does what the logical pin says.
* `Grown.leads` : from every object the references lead to a pin, or to an object without a method
  `value`.
-/

namespace Ch32fun

variable {ω ε κ : Type} [DecidableEq κ]

/-! ### The pins of the chip -/

/-- How the pins of the chip behave: a pad that is an output has the level of its latch. -/
structure Wiring (P : PinEnv ω ε) (κ : Type) [DecidableEq κ] where
  /-- Where a `pin_id` leads. -/
  pad : UInt32 → κ
  /-- The modes that make a pad an output. -/
  isOutput : UInt8 → Bool
  latch : ω → κ → Bool
  driven : ω → κ → Bool
  level : ω → κ → Bool
  level_of_driven : ∀ s w, driven s w = true → level s w = latch s w
  read : ∀ pinId s, P.funDigitalRead pinId s = if level s (pad pinId) then 1 else 0
  latch_write : ∀ pinId val s, latch (P.funDigitalWrite pinId val s) =
    Function.update (latch s) (pad pinId) (decide (val ≠ 0))
  driven_write : ∀ pinId val s, driven (P.funDigitalWrite pinId val s) = driven s
  latch_mode : ∀ pinId mode s, latch (P.funPinMode pinId mode s) = latch s
  driven_mode : ∀ pinId mode s, driven (P.funPinMode pinId mode s) =
    Function.update (driven s) (pad pinId) (isOutput mode)
  high : P.funHigh ≠ 0
  low : P.funLow = 0
  /-- A number that fits comes back. -/
  getInt : ∀ v : Int32, P.mpObjGetInt (some v.toInt) = .ok v

/-! ### From object to object -/

variable {P : PinEnv ω ε} {W : Wiring P κ}
variable {heap : List MachineObj} {obj : MachineObj} {lo : LogicalObj κ} {n m i : ℕ} {s : ω}
variable {x : Option ℤ} {keepsLowest invert bit : Bool} {v v' : Int32} {e : ε}

/-- `n` references lead from an object to a pin, or to an object without a method `value`. -/
inductive Leads (W : Wiring P κ) (heap : List MachineObj) : ℕ → MachineObj → LogicalObj κ → Prop
  | pin (n : ℕ) (pinId : UInt32) : Leads W heap n (.pin pinId) (.line (W.pad pinId) false true)
  | other (n : ℕ) (invert : Bool) : Leads W heap (n + 1) (.signal .other invert) (.broken false)
  | made {n i : ℕ} {obj : MachineObj} {lo : LogicalObj κ} (invert : Bool) :
      heap[i]? = some obj → Leads W heap n obj lo →
      Leads W heap (n + 1) (.signal (.made i) invert) (lo.wrap invert)

namespace Leads

theorem mono (h : Leads W heap n obj lo) (hnm : n ≤ m) : Leads W heap m obj lo := by
  induction h generalizing m with
  | pin n pinId => exact .pin m pinId
  | other n invert =>
    cases m with
    | zero => omega
    | succ m => exact .other m invert
  | made invert hi _ ih =>
    cases m with
    | zero => omega
    | succ m => exact .made invert hi (ih (Nat.le_of_succ_le_succ hnm))

theorem append (h : Leads W heap n obj lo) (rest : List MachineObj) :
    Leads W (heap ++ rest) n obj lo := by
  induction h with
  | pin n pinId => exact .pin n pinId
  | other n invert => exact .other n invert
  | made invert hi _ ih =>
    refine .made invert ?_ ih
    rw [List.getElem?_append_left (List.getElem?_eq_some_iff.1 hi).1]
    exact hi

end Leads

theorem getInt_passOn (W : Wiring P κ) (invert : Bool) (v : Int32) :
    ∃ v', P.mpObjGetInt (some (passOn invert v)) = .ok v' ∧ v'.toInt = passOn invert v := by
  have hbounds : -2 ^ 30 ≤ passOn invert v ∧ passOn invert v < 2 ^ 30 := newSmallInt_bounds _
  exact getInt_of_bounds W.getInt (by omega) (by omega)

theorem truth_passOn (hv : v'.toInt = passOn invert v) (keepsLowest : Bool) :
    truth keepsLowest v' = xor (truth invert v) invert := by
  have hbounds : -2 ^ 30 ≤ passOn invert v ∧ passOn invert v < 2 ^ 30 := newSmallInt_bounds _
  have hne : v' ≠ Int32.minValue := by
    rintro rfl
    change -2 ^ 31 = _ at hv
    omega
  have hzero : v' ≠ 0 ↔ passOn invert v ≠ 0 := by
    rw [← hv, ne_eq, ← Int32.toInt_inj]
    rfl
  have hpass := hzero.trans (passOn_ne_zero_iff invert v)
  unfold truth
  rw [Bool.eq_iff_iff, decide_eq_true_iff, and_iff_left (.inr hne), hpass]
  cases invert with
  | false => simp
  | true => simp

/-- What a write leaves of the pins of the chip. -/
def Wiring.Written (W : Wiring P κ) (s : ω) : Except ε (κ × Bool) → ω → Prop
  | .ok (w, bit), s' => W.latch s' = Function.update (W.latch s) w bit ∧ W.driven s' = W.driven s
  | .error _, s' => s' = s

theorem written_pin (W : Wiring P κ) (pinId : UInt32) (s : ω) (h : decide (v ≠ 0) = bit) :
    W.Written s (.ok (W.pad pinId, bit)) (P.funDigitalWrite pinId v s) := by
  refine ⟨?_, W.driven_write pinId v s⟩
  rw [W.latch_write, h]

theorem value_made_get (hi : heap[i]? = some obj) (invert : Bool) (s : ω) :
    P.value heap (n + 1) (.signal (.made i) invert) none s =
      (P.value heap n obj none s).bind fun (res, s) =>
        some ((res >>= P.mpObjGetInt).map fun val => some (passOn invert val), s) := by
  simp only [PinEnv.value, PinEnv.mpLoadMethod, hi]
  rfl

theorem value_made_set (hi : heap[i]? = some obj) (hx : P.mpObjGetInt x = .ok v) (invert : Bool)
    (s : ω) : P.value heap (n + 1) (.signal (.made i) invert) (some x) s =
      (P.value heap n obj (some (some (passOn invert v))) s).bind fun (res, s) =>
        some (res.map fun _ => none, s) := by
  simp only [PinEnv.value, PinEnv.mpLoadMethod, hi, hx]
  rfl

theorem value_made_error (hi : heap[i]? = some obj) (hx : P.mpObjGetInt x = .error e)
    (invert : Bool) (s : ω) :
    P.value heap (n + 1) (.signal (.made i) invert) (some x) s = some (.error e, s) := by
  simp only [PinEnv.value, PinEnv.mpLoadMethod, hi, hx]

namespace LogicalObj

theorem get_wrap (W : Wiring P κ) (lo : LogicalObj κ) (invert : Bool) (level : κ → Bool) :
    ((lo.get P level >>= P.mpObjGetInt).map fun val => some (passOn invert val)) =
      (lo.wrap invert).get P level := by
  cases lo with
  | broken deep => rfl
  | line w invert' keepsLowest =>
    have hbit : ∀ b : Bool, P.mpObjGetInt (some (ofLevel b)) = .ok (if b then 1 else 0) := by
      intro b
      cases b
      · exact W.getInt 0
      · exact W.getInt 1
    have hpass : ∀ b : Bool, passOn invert (if b then 1 else 0) = ofLevel (xor b invert) := by
      intro b
      cases b <;> cases invert <;> decide
    change ((P.mpObjGetInt (some (ofLevel (xor (level w) invert')))).map fun val =>
      some (passOn invert val)) = .ok (some (ofLevel (xor (level w) (xor invert invert'))))
    rw [hbit, Except.map, hpass, Bool.xor_assoc, Bool.xor_comm invert']

theorem set_wrap (W : Wiring P κ) (lo : LogicalObj κ) (invert : Bool)
    (hx : P.mpObjGetInt x = .ok v) :
    (lo.wrap invert).set P x = lo.set P (some (passOn invert v)) := by
  obtain ⟨v', hv', hval⟩ := getInt_passOn W invert v
  cases lo with
  | broken deep => cases deep <;> simp only [wrap, set, hx, hv'] <;> rfl
  | line w invert' keepsLowest =>
    simp only [wrap, set, hx, hv']
    change Except.ok _ = Except.ok _
    rw [truth_passOn hval, Bool.xor_assoc]

omit [DecidableEq κ] in
theorem set_wrap_error (lo : LogicalObj κ) (invert : Bool) (hx : P.mpObjGetInt x = .error e) :
    (lo.wrap invert).set P x = .error e := by
  cases lo <;> simp only [wrap, set, hx] <;> rfl

end LogicalObj

/-- **A method `value` that is called without an argument** reads the pad, with its polarity. -/
theorem value_get (h : Leads W heap n obj lo) (s : ω) :
    P.value heap n obj none s = some (lo.get P (W.level s), s) := by
  induction h with
  | pin n pinId =>
    have hbit : ∀ b : Bool, newSmallInt (if b then 1 else 0) = ofLevel b := by decide
    rw [PinEnv.value, PinEnv.machinePinValue, W.read, hbit, LogicalObj.get, Bool.xor_false]
  | other n invert => rfl
  | @made n i obj lo invert hi _ ih =>
    rw [value_made_get hi, ih, Option.bind_some]
    dsimp only
    rw [LogicalObj.get_wrap W]

/-- **A method `value` that is called with an argument** gives the pad a level, or it leaves
everything as it was. -/
theorem value_set (h : Leads W heap n obj lo) (x : Option ℤ) (s : ω) :
    ∃ s', P.value heap n obj (some x) s = some ((lo.set P x).map fun _ => none, s') ∧
      W.Written s (lo.set P x) s' := by
  induction h generalizing x with
  | pin n pinId =>
    rw [PinEnv.value, PinEnv.machinePinValue, LogicalObj.set]
    cases hx : P.mpObjGetInt x with
    | error e => exact ⟨s, rfl, rfl⟩
    | ok v =>
      refine ⟨_, rfl, written_pin W pinId s ?_⟩
      simp [truth]
  | other n invert => exact ⟨s, rfl, rfl⟩
  | @made n i obj lo invert hi _ ih =>
    cases hx : P.mpObjGetInt x with
    | error e =>
      rw [LogicalObj.set_wrap_error lo invert hx, value_made_error hi hx]
      exact ⟨s, rfl, rfl⟩
    | ok v =>
      obtain ⟨s', hs', hw⟩ := ih (some (passOn invert v))
      rw [LogicalObj.set_wrap W lo invert hx, value_made_set hi hx, hs', Option.bind_some]
      refine ⟨s', ?_, hw⟩
      cases lo.set P (some (passOn invert v)) <;> rfl

/-- **`on` and `off`** set the object to a number. -/
theorem switch_set {level inverted plain : Int32} (h : Leads W heap n obj lo)
    (hx : P.mpObjGetInt x = .ok v) (hlevel : level ≠ 0 ↔ v ≠ 0)
    (hpass : ∀ invert, newSmallInt (if invert then inverted else plain) = passOn invert v) (s : ω) :
    ∃ s', P.switch level inverted plain heap n obj s =
      some ((lo.set P x).map fun _ => none, s') ∧ W.Written s (lo.set P x) s' := by
  cases h with
  | pin n pinId =>
    rw [LogicalObj.set, hx]
    refine ⟨_, rfl, written_pin W pinId s ?_⟩
    simp [truth, hlevel]
  | other n invert => exact ⟨s, rfl, rfl⟩
  | @made n i obj lo invert hi hobj =>
    obtain ⟨s', hs', hw⟩ := value_set (hobj.mono n.le_succ) (some (passOn invert v)) s
    rw [LogicalObj.set_wrap W lo invert hx]
    refine ⟨s', ?_, hw⟩
    simp only [PinEnv.switch, PinEnv.mpLoadMethod, hi, hpass, hs']
    cases lo.set P (some (passOn invert v)) <;> rfl

theorem on_set (h : Leads W heap n obj lo) (s : ω) :
    ∃ s', P.on heap n obj s = some ((lo.set P (some 1)).map fun _ => none, s') ∧
      W.Written s (lo.set P (some 1)) s' := by
  refine switch_set h (W.getInt 1) (iff_of_true W.high (by decide)) ?_ s
  decide

theorem off_set (h : Leads W heap n obj lo) (s : ω) :
    ∃ s', P.off heap n obj s = some ((lo.set P (some 0)).map fun _ => none, s') ∧
      W.Written s (lo.set P (some 0)) s' := by
  refine switch_set h (W.getInt 0) (by simp [W.low]) ?_ s
  decide

/-! ### What the objects stand for -/

/-- What an object stands for, given what the ones before it do. -/
def Wiring.standsFor (W : Wiring P κ) (objs : List (LogicalObj κ)) : MachineObj → LogicalObj κ
  | .pin pinId => .line (W.pad pinId) false true
  | .signal pinObj invert => wrapRef objs invert pinObj

/-- What all objects stand for. -/
def Wiring.objs (W : Wiring P κ) (heap : List MachineObj) : List (LogicalObj κ) :=
  heap.foldl (fun objs obj => objs ++ [W.standsFor objs obj]) []

/-- The logical pins of a board. -/
def Board.logical (W : Wiring P κ) (b : Board ω) : LogicalPins κ :=
  ⟨W.objs b.heap, W.latch b.gpio, W.driven b.gpio⟩

/-- What an object refers to is there. -/
def MachineObj.Known (heap : List MachineObj) : MachineObj → Prop
  | pin _ => True
  | signal pinObj _ => pinObj.Known heap

/-- Every signal refers to an object that was there before it. -/
inductive Grown : List MachineObj → Prop
  | nil : Grown []
  | snoc {heap : List MachineObj} {obj : MachineObj} :
      Grown heap → obj.Known heap → Grown (heap ++ [obj])

@[simp] theorem objs_snoc (W : Wiring P κ) (heap : List MachineObj) (obj : MachineObj) :
    W.objs (heap ++ [obj]) = W.objs heap ++ [W.standsFor (W.objs heap) obj] := by
  unfold Wiring.objs
  rw [List.foldl_append]
  rfl

@[simp] theorem length_objs (W : Wiring P κ) (heap : List MachineObj) :
    (W.objs heap).length = heap.length := by
  induction heap using List.reverseRecOn with
  | nil => rfl
  | append_singleton heap obj ih => simp [ih]

/-- **Every call comes to a pin, or to an object without the method**: it does not go in a circle,
and goes through fewer signals than there are objects. -/
theorem Grown.leads (h : Grown heap) (W : Wiring P κ) (hi : heap[i]? = some obj) :
    ∃ lo, (W.objs heap)[i]? = some lo ∧ Leads W heap heap.length obj lo := by
  induction h generalizing i obj with
  | nil => cases hi
  | @snoc heap new _ hknown ih =>
    rw [objs_snoc, List.length_append]
    rcases lt_or_ge i heap.length with hlt | hge
    · rw [List.getElem?_append_left hlt] at hi
      obtain ⟨lo, hlo, hleads⟩ := ih hi
      refine ⟨lo, ?_, (hleads.append [new]).mono (Nat.le_add_right _ _)⟩
      rw [List.getElem?_append_left (by rwa [length_objs]), hlo]
    · -- the new object
      have hi' := (List.getElem?_eq_some_iff.1 hi).1
      rw [List.length_append, List.length_singleton] at hi'
      obtain rfl : i = heap.length := by omega
      rw [List.getElem?_concat_length] at hi
      cases hi
      refine ⟨_, by rw [← length_objs W heap, List.getElem?_concat_length], ?_⟩
      cases new with
      | pin pinId => exact .pin _ pinId
      | signal pinObj invert =>
        cases pinObj with
        | other => exact .other _ invert
        | made j =>
          obtain ⟨obj, hj⟩ : ∃ obj, heap[j]? = some obj := ⟨_, List.getElem?_eq_getElem hknown⟩
          obtain ⟨lo, hlo, hleads⟩ := ih hj
          have hwrap : W.standsFor (W.objs heap) (.signal (.made j) invert) = lo.wrap invert := by
            rw [Wiring.standsFor, wrapRef, hlo, Option.getD_some]
          rw [hwrap]
          refine .made invert ?_ (hleads.append _)
          rw [List.getElem?_append_left hknown, hj]

end Ch32fun
