import Mathlib.Data.List.Basic
import Mathlib.Data.Nat.Init

/-!
# Reactive machines

A driver reacts to inputs (packets, interrupts, polls): in a given state an input either cannot
happen now or leads to one next state and a list of observations.  `Machine S I O` is such a
deterministic partial transition function; everything about whole executions is stated here once
and used by the models of the drivers.

## Main definitions

* `Machine S I O` : the step function `S → I → Option (S × List O)`.
* `Machine.Run G s as os s'` : the inputs `as` lead from `s` to `s'`, the observations are `os`,
  and every step starts in a state and with an input allowed by the guard `G`.
* `Machine.Reachable s₀ s` : `s` is the end of some unguarded run from `s₀`.

## Main results

* `Machine.Run.invariant` : a property of the state and of the observations so far that every
  guarded step preserves holds at the end of every guarded run.
* `Machine.Run.det` : the inputs of a run fix its observations and its final state.
* `Machine.run_append` : runs are composed and cut at any input.
-/

namespace Ch32fun

/-- A deterministic machine: `step s a = none` when input `a` cannot happen (or does not end) in
state `s`. -/
structure Machine (S I O : Type*) where
  /-- `step s a = some (s', os)` : input `a` leads from `s` to `s'` and is observed as `os`. -/
  step : S → I → Option (S × List O)

namespace Machine

variable {S I O : Type*} (M : Machine S I O)

/-- A finite run whose steps all satisfy the guard `G`. -/
inductive Run (G : S → I → Prop) : S → List I → List O → S → Prop
  | nil (s : S) : Run G s [] [] s
  | cons {s s' s'' : S} {a : I} {as : List I} {o os : List O} :
      G s a → M.step s a = some (s', o) → Run G s' as os s'' → Run G s (a :: as) (o ++ os) s''

/-- The guard that allows every step. -/
def Free (_ : S) (_ : I) : Prop := True

/-- `s` is reachable from `s₀`. -/
def Reachable (s₀ s : S) : Prop := ∃ as os, M.Run Free s₀ as os s

variable {M} {G H : S → I → Prop} {s s' s'' : S} {a : I} {as as' : List I} {o os os' : List O}

namespace Run

theorem mono (h : M.Run G s as os s') (hGH : ∀ s a, G s a → H s a) : M.Run H s as os s' := by
  induction h with
  | nil s => exact .nil s
  | cons hg hst _ ih => exact .cons (hGH _ _ hg) hst ih

theorem of_inputs (h : M.Run G s as os s') (hH : ∀ a ∈ as, ∀ s, H s a) : M.Run H s as os s' := by
  induction h with
  | nil s => exact .nil s
  | cons _ hst _ ih =>
    exact .cons (hH _ List.mem_cons_self _) hst (ih fun a ha => hH a (List.mem_cons_of_mem _ ha))

theorem free (h : M.Run G s as os s') : M.Run Free s as os s' := h.mono fun _ _ _ => trivial

theorem single (hg : G s a) (h : M.step s a = some (s', o)) : M.Run G s [a] o s' := by
  simpa using Run.cons hg h (.nil s')

theorem append (h : M.Run G s as os s') (h' : M.Run G s' as' os' s'') :
    M.Run G s (as ++ as') (os ++ os') s'' := by
  induction h with
  | nil => exact h'
  | cons hg hst _ ih =>
    rw [List.append_assoc]
    exact .cons hg hst (ih h')

theorem snoc (h : M.Run G s as os s') (hg : G s' a) (hst : M.step s' a = some (s'', o)) :
    M.Run G s (as ++ [a]) (os ++ o) s'' :=
  h.append (single hg hst)

theorem nil_iff : M.Run G s [] os s' ↔ os = [] ∧ s' = s := by
  constructor
  · rintro ⟨⟩; exact ⟨rfl, rfl⟩
  · rintro ⟨rfl, rfl⟩; exact .nil _

theorem cons_iff : M.Run G s (a :: as) os s'' ↔
    ∃ s' o os', G s a ∧ M.step s a = some (s', o) ∧ M.Run G s' as os' s'' ∧ os = o ++ os' := by
  constructor
  · rintro ⟨⟩
    rename_i s' o os' hg hst hr
    exact ⟨s', o, os', hg, hst, hr, rfl⟩
  · rintro ⟨s', o, os', hg, hst, hr, rfl⟩
    exact .cons hg hst hr

theorem det (h : M.Run G s as os s') (h' : M.Run H s as os' s'') : os = os' ∧ s' = s'' := by
  induction h generalizing os' with
  | nil s => obtain ⟨rfl, rfl⟩ := nil_iff.1 h'; exact ⟨rfl, rfl⟩
  | cons _ hst _ ih =>
    obtain ⟨s₁, o₁, os₁, -, hst', hr, rfl⟩ := cons_iff.1 h'
    rw [hst, Option.some.injEq, Prod.mk.injEq] at hst'
    obtain ⟨rfl, rfl⟩ := hst'
    obtain ⟨rfl, rfl⟩ := ih hr
    exact ⟨rfl, rfl⟩

/-- **Inductive invariants** of guarded runs.  The invariant may speak about the observations made
so far (`log` are those made before the run starts). -/
theorem invariant (Inv : S → List O → Prop) (log : List O) (h : M.Run G s as os s')
    (h₀ : Inv s log)
    (hstep : ∀ s a s' o log, Inv s log → G s a → M.step s a = some (s', o) →
      Inv s' (log ++ o)) :
    Inv s' (log ++ os) := by
  induction h generalizing log with
  | nil => simpa using h₀
  | cons hg hst _ ih =>
    rw [← List.append_assoc]
    exact ih _ (hstep _ _ _ _ _ h₀ hg hst)

/-- A guard may be replaced by one that follows from it in the states of an invariant. -/
theorem mono_of_invariant (Inv : S → Prop) (h : M.Run G s as os s') (h₀ : Inv s)
    (hstep : ∀ s a s' o, Inv s → G s a → M.step s a = some (s', o) → Inv s')
    (hGH : ∀ s a, Inv s → G s a → H s a) : M.Run H s as os s' := by
  induction h with
  | nil s => exact .nil s
  | cons hg hst _ ih => exact .cons (hGH _ _ h₀ hg) hst (ih (hstep _ _ _ _ h₀ hg hst))

/-- A run keeps to the guard, or there is a first step that does not. -/
theorem guarded_or (h : M.Run Free s as os s') : M.Run G s as os s' ∨
    ∃ as₁ a as₂ os₁ o t t', as = as₁ ++ a :: as₂ ∧ M.Run G s as₁ os₁ t ∧ ¬ G t a ∧
      M.step t a = some (t', o) := by
  induction h with
  | nil s => exact .inl (.nil s)
  | @cons s s' s'' a as o os _ hst _ ih =>
    by_cases hg : G s a
    · rcases ih with h | ⟨as₁, b, as₂, os₁, o', t, t', rfl, hr, hb, ht⟩
      · exact .inl (.cons hg hst h)
      · exact .inr ⟨a :: as₁, b, as₂, _, o', t, t', rfl, .cons hg hst hr, hb, ht⟩
    · exact .inr ⟨[], a, as, [], o, s, s', rfl, .nil s, hg, hst⟩

theorem and (h : M.Run G s as os s') (h' : M.Run H s as os' s'') :
    M.Run (fun s a => G s a ∧ H s a) s as os s' := by
  induction h generalizing os' with
  | nil s => exact .nil s
  | cons hg hst _ ih =>
    obtain ⟨t, o, os₁, hh, hst', hr, -⟩ := cons_iff.1 h'
    have he := hst.symm.trans hst'
    cases he
    exact .cons ⟨hg, hh⟩ hst (ih hr)

theorem invariant_state (Inv : S → Prop) (h : M.Run G s as os s') (h₀ : Inv s)
    (hstep : ∀ s a s' o, Inv s → G s a → M.step s a = some (s', o) → Inv s') : Inv s' :=
  h.invariant (fun s _ => Inv s) [] h₀ fun s a s' o _ => hstep s a s' o

end Run

theorem run_append : M.Run G s (as ++ as') os s'' ↔
    ∃ s' o o', M.Run G s as o s' ∧ M.Run G s' as' o' s'' ∧ os = o ++ o' := by
  constructor
  · intro h
    induction as generalizing s os with
    | nil => exact ⟨s, [], os, .nil s, h, rfl⟩
    | cons a as ih =>
      obtain ⟨s₁, o₁, os₁, hg, hst, hr, rfl⟩ := Run.cons_iff.1 h
      obtain ⟨s', o, o', h₁, h₂, rfl⟩ := ih hr
      exact ⟨s', _, o', .cons hg hst h₁, h₂, (List.append_assoc _ _ _).symm⟩
  · rintro ⟨s', o, o', h₁, h₂, rfl⟩
    exact h₁.append h₂

/-! ### Executing inputs -/

variable (M) in
/-- Perform the inputs one after the other, failing when one of them cannot happen. -/
def perform : S → List I → Option (S × List O)
  | s, [] => some (s, [])
  | s, a :: as => do
    let (s', o) ← M.step s a
    let (s'', os) ← perform s' as
    return (s'', o ++ os)

theorem run_of_perform (as : List I) (h : M.perform s as = some (s', os)) :
    M.Run Free s as os s' := by
  induction as generalizing s os with
  | nil => cases h; exact .nil _
  | cons a as ih =>
    simp only [perform, Option.bind_eq_bind, Option.bind_eq_some_iff, Option.pure_def] at h
    obtain ⟨⟨s₁, o⟩, hst, ⟨s₂, os'⟩, hr, he⟩ := h
    cases he
    exact .cons trivial hst (ih hr)

namespace Reachable

@[refl] theorem refl (s : S) : M.Reachable s s := ⟨[], [], .nil s⟩

theorem trans_run {s₀ : S} (h : M.Reachable s₀ s) (h' : M.Run G s as os s') :
    M.Reachable s₀ s' := by
  obtain ⟨as₀, os₀, h₀⟩ := h
  exact ⟨_, _, h₀.append h'.free⟩

theorem step {s₀ : S} (h : M.Reachable s₀ s) (h' : M.step s a = some (s', o)) :
    M.Reachable s₀ s' :=
  h.trans_run (Run.single (G := Free) trivial h')

end Reachable

end Machine

end Ch32fun
