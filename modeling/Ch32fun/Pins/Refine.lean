import Ch32fun.Machine.Refine
import Ch32fun.Pins.Methods

/-!
# Scripts and logical pins

* `board_refines` : every run of a script is a run of the logical pins, and every call ends.
* `reads_last_drive` : an output is read as it was driven last, through whatever object.
-/

namespace Ch32fun

open Machine

variable {ω ε κ : Type} [DecidableEq κ] {P : PinEnv ω ε} {W : Wiring P κ}
variable {s : ω} {x : Option ℤ} {i : ℕ} {invert keepsLowest : Bool}

/-! ### The runs of a script -/

/-- Between two calls nothing changes but the levels of the inputs. -/
def Wiring.Settled (W : Wiring P κ) (b : Board ω) (a : PinInput ω) : Prop :=
  W.latch a.world = W.latch b.gpio ∧ W.driven a.world = W.driven b.gpio

variable {b b' : Board ω} {c : PinCall} {o : PinOutcome ε}

theorem logical_level (W : Wiring P κ) (b : Board ω) :
    (b.logical W).level (W.level b.gpio) = W.level b.gpio := by
  funext w
  unfold LogicalPins.level Board.logical
  split_ifs with h
  · exact (W.level_of_driven b.gpio w h).symm
  · rfl

theorem logical_put {r : Except ε (κ × Bool)} (hw : W.Written b.gpio r s) :
    (b.logical W).put r = (Board.logical W ⟨b.heap, s⟩, .ofExcept (r.map fun _ => none)) := by
  cases r with
  | error e =>
    rw [hw]
    rfl
  | ok p =>
    obtain ⟨hlatch, hdriven⟩ := hw
    simp only [LogicalPins.put, Board.logical, hlatch, hdriven]
    rfl

theorem method_set {f : List MachineObj → ℕ → MachineObj → ω → Option (Except ε (Option ℤ) × ω)}
    (hgrown : Grown b.heap)
    (hf : ∀ {obj lo}, Leads W b.heap b.heap.length obj lo →
      ∃ s', f b.heap b.heap.length obj b.gpio = some ((lo.set P x).map fun _ => none, s') ∧
        W.Written b.gpio (lo.set P x) s') (hi : i < b.heap.length) :
    ∃ b' o, b.method f i = some (b', o) ∧ b'.heap = b.heap ∧
      ((b.logical W).objs[i]?.map fun obj => (b.logical W).put (obj.set P x)) =
        some (b'.logical W, o) := by
  obtain ⟨obj, hobj⟩ : ∃ obj, b.heap[i]? = some obj := ⟨_, List.getElem?_eq_getElem hi⟩
  obtain ⟨lo, hlo, hleads⟩ := hgrown.leads W hobj
  obtain ⟨s', hs', hw⟩ := hf hleads
  refine ⟨⟨b.heap, s'⟩, .ofExcept ((lo.set P x).map fun _ => none), ?_, rfl, ?_⟩
  · simp only [Board.method, hobj, Option.bind_eq_bind, Option.bind_some, hs']
    rfl
  · rw [Board.logical, hlo, Option.map_some]
    exact congrArg some (logical_put hw)

/-- **One call**: it ends, and is one of the logical pins. -/
theorem call_logical (W : Wiring P κ) (hgrown : Grown b.heap) (hc : c.Known b.heap) :
    ∃ b' o, b.call P c = some (b', o) ∧ Grown b'.heap ∧
      (b.logical W).call P W.pad W.isOutput (W.level b.gpio) c = some (b'.logical W, o) := by
  cases c with
  | newPin args =>
    simp only [Board.call, PinEnv.machinePinMakeNew, LogicalPins.call]
    cases hargs : P.pinArgs args with
    | error e => exact ⟨_, _, rfl, hgrown, rfl⟩
    | ok p =>
      obtain ⟨pinId, mode⟩ := p
      cases mode with
      | none =>
        refine ⟨_, _, rfl, hgrown.snoc trivial, ?_⟩
        simp only [Board.logical, objs_snoc, length_objs]
        rfl
      | some mode =>
        refine ⟨_, _, rfl, hgrown.snoc trivial, ?_⟩
        simp only [Board.logical, objs_snoc, length_objs, W.latch_mode, W.driven_mode]
        rfl
  | newSignal pinObj invert =>
    refine ⟨_, _, if_pos hc, hgrown.snoc hc, ?_⟩
    simp only [LogicalPins.call, Board.logical, objs_snoc, length_objs]
    rfl
  | value i x =>
    cases x with
    | none =>
      obtain ⟨obj, hobj⟩ : ∃ obj, b.heap[i]? = some obj := ⟨_, List.getElem?_eq_getElem hc⟩
      obtain ⟨lo, hlo, hleads⟩ := hgrown.leads W hobj
      refine ⟨b, .ofExcept (lo.get P (W.level b.gpio)), ?_, hgrown, ?_⟩
      · simp only [Board.call, Board.method, hobj, Option.bind_eq_bind, Option.bind_some,
          value_get hleads]
        rfl
      · rw [LogicalPins.call, logical_level]
        simp only [Board.logical, hlo, Option.map_some]
    | some x =>
      obtain ⟨b', o, h, hheap, hl⟩ :=
        method_set (f := fun heap n obj => P.value heap n obj (some x)) hgrown
          (fun h => value_set (W := W) h x b.gpio) hc
      exact ⟨b', o, h, hheap ▸ hgrown, hl⟩
  | on i =>
    obtain ⟨b', o, h, hheap, hl⟩ :=
      method_set hgrown (fun h => on_set (W := W) h b.gpio) hc
    exact ⟨b', o, h, hheap ▸ hgrown, hl⟩
  | off i =>
    obtain ⟨b', o, h, hheap, hl⟩ :=
      method_set hgrown (fun h => off_set (W := W) h b.gpio) hc
    exact ⟨b', o, h, hheap ▸ hgrown, hl⟩

theorem known_of_call (h : b.call P c = some (b', o)) : c.Known b.heap := by
  have hmethod {f : List MachineObj → ℕ → MachineObj → ω → Option (Except ε (Option ℤ) × ω)} {i : ℕ}
      (h : b.method f i = some (b', o)) : i < b.heap.length := by
    obtain ⟨obj, hobj, -⟩ := Option.bind_eq_some_iff.1 h
    exact (List.getElem?_eq_some_iff.1 hobj).1
  cases c with
  | newPin args => trivial
  | newSignal pinObj invert =>
    rw [Board.call] at h
    split_ifs at h with hknown
    exact hknown
  | value i x => exact hmethod (f := fun heap n obj => P.value heap n obj x) h
  | on i => exact hmethod h
  | off i => exact hmethod h

/-- **One step** of a script is one of the logical pins. -/
theorem simulates_logical (W : Wiring P κ) : Simulates (boardMachine P)
    (logicalMachine P W.pad W.isOutput) W.Settled Free
    (fun b l => Grown b.heap ∧ l = b.logical W) (fun a => [(a.call, W.level a.world)])
    fun o => [o] where
  step := by
    rintro b _ a b' os ⟨hgrown, rfl⟩ ⟨hlatch, hdriven⟩ hst
    obtain ⟨⟨b₁, o⟩, hcall, he⟩ := Option.bind_eq_some_iff.1 hst
    cases he
    obtain ⟨b₂, o', hcall', hgrown', hl⟩ :=
      call_logical W (b := { b with gpio := a.world }) hgrown (known_of_call hcall)
    cases hcall.symm.trans hcall'
    have hb : Board.logical W { b with gpio := a.world } = b.logical W := by
      rw [Board.logical, hlatch, hdriven]
      rfl
    rw [hb] at hl
    refine ⟨_, Run.single trivial ?_, hgrown', rfl⟩
    exact congrArg (Option.map _) hl

/-- The runs of a script, as runs of the logical pins. -/
theorem logical_run (W : Wiring P κ) {s₀ : ω} {as : List (PinInput ω)} {os : List (PinOutcome ε)}
    (hrun : (boardMachine P).Run W.Settled ⟨[], s₀⟩ as os b) :
    Grown b.heap ∧ (logicalMachine P W.pad W.isOutput).Run Free ⟨[], W.latch s₀, W.driven s₀⟩
      (as.map fun a => (a.call, W.level a.world)) os (b.logical W) := by
  obtain ⟨_, hl, hgrown, rfl⟩ :=
    (simulates_logical W).run (t := Board.logical W ⟨[], s₀⟩) ⟨.nil, rfl⟩ hrun
  rw [← List.map_eq_flatMap, ← List.map_eq_flatMap, List.map_id'] at hl
  exact ⟨hgrown, hl⟩

/-! ### A chip with one pad for each pin -/

/-- The latches, the outputs, and the levels of the inputs. -/
structure Pads where
  latch : UInt32 → Bool
  driven : UInt32 → Bool
  outside : UInt32 → Bool

/-- The level of a pad. -/
def Pads.level (s : Pads) (pinId : UInt32) : Bool :=
  if s.driven pinId then s.latch pinId else s.outside pinId

/-- Its functions; 3 is the mode `GPIO_CFGLR_OUT_50Mhz_PP`. -/
def padsEnv : PinEnv Pads String where
  funPinMode pinId mode s := { s with driven := Function.update s.driven pinId (mode = 3) }
  funDigitalRead pinId s := if s.level pinId then 1 else 0
  funDigitalWrite pinId val s := { s with latch := Function.update s.latch pinId (val ≠ 0) }
  funHigh := 1
  funLow := 0
  mpObjGetInt := getIntOrRaise
  typeError := "TypeError"
  attributeError := "AttributeError"

/-- They behave as expected. -/
def padsWiring : Wiring padsEnv UInt32 where
  pad := id
  isOutput mode := mode = 3
  latch := Pads.latch
  driven := Pads.driven
  level := Pads.level
  level_of_driven _ _ h := if_pos h
  read _ _ := rfl
  latch_write _ _ _ := rfl
  driven_write _ _ _ := rfl
  latch_mode _ _ _ := rfl
  driven_mode _ _ _ := rfl
  high := by decide
  low := rfl
  getInt := getIntOrRaise_fits

/-- All pads are inputs, and low. -/
def padsInit : Pads := ⟨fun _ => false, fun _ => false, fun _ => false⟩

/-- `Pin(5, Pin.OUT)`, an inverting signal around it, which is switched on, and another one around
that. -/
def padsScript : List (PinInput Pads) :=
  let s := padsEnv.funPinMode 5 3 padsInit
  [⟨padsInit, .newPin [some 5, some 3]⟩, ⟨s, .newSignal (.made 0) true⟩, ⟨s, .on 1⟩,
    ⟨padsEnv.funDigitalWrite 5 0 s, .newSignal (.made 1) false⟩]

/-- The board afterwards. -/
def padsBoard : Board Pads :=
  ⟨[.pin 5, .signal (.made 0) true, .signal (.made 1) false],
    padsEnv.funDigitalWrite 5 0 (padsEnv.funPinMode 5 3 padsInit)⟩

theorem run_padsScript : (boardMachine padsEnv).Run padsWiring.Settled ⟨[], padsInit⟩ padsScript
    [.made 0, .made 1, .returned none, .made 2] padsBoard := by
  unfold padsScript
  refine .cons (o := [PinOutcome.made 0]) ⟨rfl, rfl⟩ rfl ?_
  refine .cons (o := [PinOutcome.made 1]) ⟨rfl, rfl⟩ rfl ?_
  refine .cons (o := [PinOutcome.returned none]) ⟨rfl, rfl⟩ rfl ?_
  exact .cons (o := [PinOutcome.made 2]) ⟨rfl, rfl⟩ rfl (.nil padsBoard)

/-! ### Scripts and logical pins -/

/-- **A script's pins and signals are logical pins.**  Whatever objects it makes and however it
wraps them, every call ends, and its outcome and its effect are those of the pad and the polarity
that the object stands for; a call that raises an exception leaves all pads as they are. -/
theorem board_refines (W : Wiring P κ) {s₀ : ω} {as : List (PinInput ω)} {os : List (PinOutcome ε)}
    (hrun : (boardMachine P).Run W.Settled ⟨[], s₀⟩ as os b) :
    (logicalMachine P W.pad W.isOutput).Run Free ⟨[], W.latch s₀, W.driven s₀⟩
        (as.map fun a => (a.call, W.level a.world)) os (b.logical W) ∧
      ∀ a, ((boardMachine P).step b a).isSome ↔ a.call.Known b.heap := by
  obtain ⟨hgrown, hl⟩ := logical_run W hrun
  refine ⟨hl, fun a => ⟨fun h => ?_, fun h => ?_⟩⟩
  · obtain ⟨⟨b', o⟩, hst⟩ := Option.isSome_iff_exists.1 h
    obtain ⟨p, hcall, -⟩ := Option.bind_eq_some_iff.1 hst
    exact known_of_call (b := { b with gpio := a.world }) hcall
  · obtain ⟨b', o, hcall, -⟩ := call_logical W (b := { b with gpio := a.world }) hgrown h
    simp [boardMachine, hcall]

/-- On that chip the script is one of logical pins, and afterwards the third object can be read. -/
theorem board_refines_pads :
    (logicalMachine padsEnv padsWiring.pad padsWiring.isOutput).Run Free
        ⟨[], fun _ => false, fun _ => false⟩
        (padsScript.map fun a => (a.call, a.world.level))
        [.made 0, .made 1, .returned none, .made 2] (padsBoard.logical padsWiring) ∧
      ((boardMachine padsEnv).step padsBoard ⟨padsBoard.gpio, .value 2 none⟩).isSome :=
  have h := board_refines padsWiring run_padsScript
  ⟨h.1, (h.2 _).2 (show 2 < 3 by decide)⟩

/-- **An output is read as it was driven last**: through whatever objects its pad was set since it
was what it was at the beginning, and whatever other pads were set in between, an object returns the
level that the last completed call gave the pad, with its own polarity. -/
theorem reads_last_drive (W : Wiring P κ) {s₀ s : ω} {as : List (PinInput ω)}
    {os : List (PinOutcome ε)} {w : κ}
    (hrun : (boardMachine P).Run W.Settled ⟨[], s₀⟩ as os b)
    (hobj : (W.objs b.heap)[i]? = some (.line w invert keepsLowest))
    (hdriven : W.driven b.gpio w = true) (hs : W.Settled b ⟨s, .value i none⟩) :
    (boardMachine P).step b ⟨s, .value i none⟩ = some (⟨b.heap, s⟩, [.returned (some (ofLevel (xor
      ((lastDrive P (W.objs b.heap) w (as.map PinInput.call)).getD (W.latch s₀ w)) invert)))]) := by
  obtain ⟨hgrown, hl⟩ := logical_run W hrun
  have hlatch : W.latch b.gpio w = (lastDrive P (W.objs b.heap) w (as.map PinInput.call)).getD
      (W.latch s₀ w) := by
    have h := (logical_run_latch hl w).2 _ List.prefix_rfl
    rw [List.map_map] at h
    exact h
  have hlevel : W.level s w = W.latch b.gpio w := by
    rw [W.level_of_driven s w (by rw [hs.2, hdriven]), hs.1]
  have hi : i < b.heap.length := by
    rw [← length_objs W]
    exact (List.getElem?_eq_some_iff.1 hobj).1
  obtain ⟨obj, hheap⟩ : ∃ obj, b.heap[i]? = some obj := ⟨_, List.getElem?_eq_getElem hi⟩
  obtain ⟨lo, hlo, hleads⟩ := hgrown.leads W hheap
  cases hobj.symm.trans hlo
  rw [← hlatch, ← hlevel]
  simp only [boardMachine, Board.call, Board.method, hheap, Option.bind_eq_bind, Option.bind_some,
    value_get hleads]
  rfl

/-- The outermost of two signals reads 1 after the inner one, which inverts, was switched on. -/
theorem reads_last_drive_pads : (boardMachine padsEnv).step padsBoard
    ⟨padsBoard.gpio, .value 2 none⟩ =
      some (⟨padsBoard.heap, padsBoard.gpio⟩, [.returned (some 1)]) :=
  reads_last_drive (i := 2) (w := 5) padsWiring run_padsScript rfl rfl ⟨rfl, rfl⟩

end Ch32fun
