import Ch32fun.Machine.Routine

/-!
# Calls that interrupts may cut in two

A script calls routines one after the other, in any order, and an interrupt handler may run
between any two of their statements and between the calls.

* `Routine.calls H stmts` : the machine whose turns are the begin of a call, one statement of the
  call under way, or one whole interrupt of the handler `H`.
* `Routine.calls_invariant` : **the rule for interrupted calls.**  The assertion that holds between
  the calls may depend on the calls made so far.  When every call leads from it to the next one, the
  invariant holds at every moment of every guarded run, and the assertion between the calls.
* `Routine.mapObs` : a routine with its observations renamed.
-/

namespace Ch32fun

universe u v w

namespace Routine

variable {S : Type u} {O : Type v} {α β : Type w} {C I : Type*}

/-- Whose turn it is. -/
inductive CallTurn (C I : Type*)
  /-- The script calls. -/
  | call (c : C)
  /-- One statement of the call under way, or its return. -/
  | main
  /-- One interrupt. -/
  | irq (i : I)

/-- The call that a turn begins. -/
def CallTurn.called : CallTurn C I → List C
  | .call c => [c]
  | .main | .irq _ => []

/-- The calls of a script, interrupted by the handler `H`; beside the globals stands what is left
of the call under way. -/
def calls (H : S → I → Option (S × List O)) (stmts : C → Routine S O PUnit) :
    Machine (S × Option (Routine S O PUnit)) (CallTurn C I) O where
  step
    | (s, none), .call c => some ((s, some (stmts c)), [])
    | (_, some _), .call _ => none
    | (_, none), .main => none
    | (s, some (.ret _)), .main => some ((s, none), [])
    | (s, some r), .main =>
      ((interleave H (pure ⟨⟩)).step (s, r) .main).map fun ((s', r'), o) => ((s', some r'), o)
    | (s, r), .irq i => (H s i).map fun (s', o) => ((s', r), o)

/-- A guard on the interrupts alone. -/
def CallTurn.Allowed (G : S → I → Prop) : S × Option (Routine S O PUnit) → CallTurn C I → Prop
  | _, .call _ | _, .main => True
  | (s, _), .irq i => G s i

section Invariant

variable {H : S → I → Option (S × List O)} {stmts : C → Routine S O PUnit} {G : S → I → Prop}
variable {J : S → List O → Prop} {P : List C → S → List O → Prop} {s : S} {o log : List O}
variable {cs : List C}

/-- After the calls `cs` their assertion holds, and during the last of them one from which it leads
to it. -/
def Called (H : S → I → Option (S × List O)) (G : S → I → Prop) (J : S → List O → Prop)
    (P : List C → S → List O → Prop) (cs : List C) :
    S × Option (Routine S O PUnit) → List O → Prop
  | (s, none), log => P cs s log
  | (s, some r), log => Safe H G J (P cs) (s, r) log

@[simp] theorem calls_irq {r : Option (Routine S O PUnit)} {i : I} :
    (calls H stmts).step (s, r) (.irq i) = (H s i).map fun (s', o) => ((s', r), o) := by
  rcases r with _ | (_ | _ | _) <;> rfl

theorem Called.irq (hP : ∀ cs, Admissible H G J (P cs)) {r : Option (Routine S O PUnit)} {s' : S}
    {i : I} (h : Called H G J P cs (s, r) log) (hG : G s i) (hi : H s i = some (s', o)) :
    Called H G J P cs (s', r) (log ++ o) := by
  cases r with
  | none => exact (hP cs).stable h hG hi
  | some r =>
    obtain ⟨P', hP', hs, hr⟩ := h
    exact ⟨P', hP', hP'.stable hs hG hi, hr⟩

theorem Called.step (hP : ∀ cs, Admissible H G J (P cs))
    (hcalls : ∀ cs c, Triple H G J (P cs) (stmts c) fun _ => P (cs ++ [c]))
    {x x' : S × Option (Routine S O PUnit)} {a : CallTurn C I} (h : Called H G J P cs x log)
    (hG : CallTurn.Allowed G x a) (hst : (calls H stmts).step x a = some (x', o)) :
    Called H G J P (cs ++ a.called) x' (log ++ o) := by
  obtain ⟨s, r⟩ := x
  cases a with
  | irq i =>
    rw [calls_irq] at hst
    obtain ⟨⟨s', o'⟩, hi, he⟩ := Option.map_eq_some_iff.1 hst
    cases he
    rw [CallTurn.called, List.append_nil]
    exact h.irq hP hG hi
  | call c =>
    cases r with
    | none =>
      cases hst
      rw [List.append_nil]
      exact ⟨P cs, hP cs, h, hcalls cs c⟩
    | some r => cases hst
  | main =>
    have hidle : Triple H G J (P cs) (pure ⟨⟩ : Routine S O PUnit) fun _ => P cs :=
      .pure fun _ _ h => h
    rw [CallTurn.called, List.append_nil]
    rcases r with _ | (a | ⟨f, k⟩ | ⟨t, k⟩)
    · cases hst
    · -- the call returns
      cases hst
      obtain ⟨P', -, hs, hr⟩ := h
      rw [List.append_nil]
      exact hr s log hs
    · cases hst
      exact Safe.step (a := .main) (hP cs) hidle h trivial rfl
    · change ((interleave H (pure ⟨⟩)).step (s, .await t k) .main).map _ = _ at hst
      obtain ⟨⟨⟨s', r'⟩, o'⟩, hi, he⟩ := Option.map_eq_some_iff.1 hst
      cases he
      exact Safe.step (a := .main) (hP cs) hidle h trivial hi

theorem Called.run (hP : ∀ cs, Admissible H G J (P cs))
    (hcalls : ∀ cs c, Triple H G J (P cs) (stmts c) fun _ => P (cs ++ [c]))
    {x x' : S × Option (Routine S O PUnit)} {as : List (CallTurn C I)}
    (h : Called H G J P cs x log) (hr : (calls H stmts).Run (CallTurn.Allowed G) x as o x') :
    Called H G J P (cs ++ as.flatMap CallTurn.called) x' (log ++ o) := by
  induction hr generalizing cs log with
  | nil x =>
    rw [List.flatMap_nil, List.append_nil, List.append_nil]
    exact h
  | cons hG hst _ ih =>
    rw [List.flatMap_cons, ← List.append_assoc, ← List.append_assoc]
    exact ih (h.step hP hcalls hG hst)

/-- **The rule for interrupted calls.** -/
theorem calls_invariant (hP : ∀ cs, Admissible H G J (P cs))
    (hcalls : ∀ cs c, Triple H G J (P cs) (stmts c) fun _ => P (cs ++ [c]))
    {x : S × Option (Routine S O PUnit)} {as : List (CallTurn C I)} (h₀ : P [] s log)
    (h : (calls H stmts).Run (CallTurn.Allowed G) (s, none) as o x) :
    J x.1 (log ++ o) ∧ (x.2 = none → P (as.flatMap CallTurn.called) x.1 (log ++ o)) := by
  have hs : Called H G J P [] (s, none) log := h₀
  have hx := hs.run hP hcalls h
  obtain ⟨s', _ | r⟩ := x
  · exact ⟨(hP _).inv hx, fun _ => hx⟩
  · obtain ⟨P', hP', hs, -⟩ := hx
    exact ⟨hP'.inv hs, nofun⟩

end Invariant

/-! ### Renaming observations -/

section MapObs

variable {O' : Type v} (g : O → O')

/-- The routine with its observations renamed. -/
def mapObs : Routine S O α → Routine S O' α
  | ret a => ret a
  | stmt f k => stmt (fun s => ((f s).1, (f s).2.map g)) fun s => mapObs (k s)
  | await t k => await (fun s => (t s).map fun (s', o) => (s', o.map g)) (mapObs k)

@[simp] theorem mapObs_pure (a : α) : (pure a : Routine S O α).mapObs g = pure a := rfl

@[simp] theorem mapObs_bind (r : Routine S O α) (f : α → Routine S O β) :
    (r >>= f).mapObs g = r.mapObs g >>= fun a => (f a).mapObs g := by
  change (r.bind f).mapObs g = (r.mapObs g).bind _
  induction r with
  | ret a => rfl
  | stmt h k ih => exact congrArg (stmt _) (funext ih)
  | await t k ih => exact congrArg (await _) ih

@[simp] theorem mapObs_read (f : S → α) :
    (read f : Routine S O α).mapObs g = read f := rfl

@[simp] theorem mapObs_exec (f : S → S × List O) :
    (exec f).mapObs g = exec fun s => ((f s).1, (f s).2.map g) := rfl

@[simp] theorem mapObs_assign (f : S → S) :
    (assign f : Routine S O PUnit).mapObs g = assign f := rfl

theorem perform_mapObs (r : Routine S O α) (s : S) : (r.mapObs g).perform s =
    (r.perform s).map fun (a, s', o) => (a, s', o.map g) := by
  induction r generalizing s with
  | ret a => rfl
  | stmt f k ih =>
    rw [mapObs, perform, perform, ih]
    cases (k s).perform (f s).1 <;> simp
  | await t k ih =>
    rw [mapObs, perform, perform]
    cases t s with
    | none => rfl
    | some x => cases h : k.perform x.1 <;> simp [ih, h]

theorem Straight.mapObs {r : Routine S O α} (h : r.Straight) : (r.mapObs g).Straight := by
  induction r with
  | ret a => trivial
  | stmt f k ih => exact fun s => ih s (h s)
  | await t k ih => exact h.elim

@[simp] theorem mapObs_ite (p : Prop) [Decidable p] (r r' : Routine S O α) :
    (if p then r else r').mapObs g = if p then r.mapObs g else r'.mapObs g :=
  apply_ite (mapObs g) p r r'

end MapObs

end Routine

end Ch32fun
