import Ch32fun.Machine.Basic

/-!
# Routines that interrupts may cut in two

A main loop calls a routine again and again, and an interrupt handler may run between any two of
its statements.  A `Routine` is the tree of its atomic statements: what comes next may depend on
the globals at the time of a statement, and on nothing that an interrupt changes later.

## Main definitions

* `Routine S O α` : a routine on globals `S` with observations `O` and result `α`: a result, a
  statement, or a busy-wait.
* `Routine.perform` : the routine run without interruption, `none` when it spins for ever.
* `Routine.performIrq` : one call of the routine, with given interrupts after each statement.
* `Routine.interleave H body` : the machine whose turns are one statement of the main loop, or one
  whole interrupt of the handler `H`.
* `Routine.Triple` : `P` before, `Q` after, and at each statement boundary an assertion that
  interrupts keep and that implies the invariant (`Admissible`).

## Main results

* `Routine.perform_bind` : running two routines one after the other.
* `Routine.run_perform` : a routine that is not interrupted is run by the machine as `perform`
  says.
* `Routine.run_performIrq` : one interrupted call is a run of the machine.
* `Routine.Straight.ends` : a routine without a busy-wait ends, whatever interrupts come.
* `Routine.Triple.performIrq` : a triple holds of one interrupted call.
* `Routine.interleave_invariant` : **the rule for interrupted loops.**  When the body keeps an
  admissible assertion, the invariant holds at every moment of every guarded run.
* `Routine.interleave_spins` : the rule for a body that does not end.
-/

namespace Ch32fun

universe u v w

/-- A routine: the tree of its atomic statements. -/
inductive Routine (S : Type u) (O : Type v) (α : Type w) : Type (max u v w)
  /-- The routine returns. -/
  | ret (a : α)
  /-- One statement; the rest may use what the statement has read. -/
  | stmt (f : S → S × List O) (k : S → Routine S O α)
  /-- `while (! t);` : turns of a loop that has no effect until `t` succeeds. -/
  | await (t : S → Option (S × List O)) (k : Routine S O α)

namespace Routine

variable {S : Type u} {O : Type v} {α β : Type w} {I : Type*}

/-- One routine after the other. -/
def bind : Routine S O α → (α → Routine S O β) → Routine S O β
  | ret a, g => g a
  | stmt f k, g => stmt f fun s => (k s).bind g
  | await t k, g => await t (k.bind g)

instance : Monad (Routine S O) where
  pure := ret
  bind := bind

theorem bind_ret (r : Routine S O α) : r.bind ret = r := by
  induction r with
  | ret a => rfl
  | stmt f k ih => exact congrArg (stmt f) (funext ih)
  | await t k ih => exact congrArg (await t) ih

theorem bind_bind {γ : Type w} (r : Routine S O α) (f : α → Routine S O β)
    (g : β → Routine S O γ) : (r.bind f).bind g = r.bind fun a => (f a).bind g := by
  induction r with
  | ret a => rfl
  | stmt h k ih => exact congrArg (stmt h) (funext ih)
  | await t k ih => exact congrArg (await t) ih

instance : LawfulMonad (Routine S O) := .mk' _ bind_ret (fun _ _ => rfl) bind_bind

/-- A statement that reads globals. -/
def read (g : S → α) : Routine S O α := stmt (fun s => (s, [])) fun s => ret (g s)

/-- A statement that changes globals. -/
def exec (f : S → S × List O) : Routine S O PUnit := stmt f fun _ => ret ⟨⟩

/-- A statement that changes globals unobserved. -/
def assign (f : S → S) : Routine S O PUnit := exec fun s => (f s, [])

/-- A busy-wait. -/
def wait (t : S → Option (S × List O)) : Routine S O PUnit := await t (ret ⟨⟩)

/-! ### Without interruption -/

/-- The routine run without interruption. -/
def perform : Routine S O α → S → Option (α × S × List O)
  | ret a, s => some (a, s, [])
  | stmt f k, s => (perform (k s) (f s).1).map fun (a, s', o) => (a, s', (f s).2 ++ o)
  | await t k, s => (t s).bind fun (s', o) =>
      (perform k s').map fun (a, s'', o') => (a, s'', o ++ o')

section Perform

variable (s : S)

@[simp] theorem perform_pure (a : α) : (pure a : Routine S O α).perform s = some (a, s, []) := rfl

@[simp] theorem perform_read (g : S → α) :
    (read g : Routine S O α).perform s = some (g s, s, []) := rfl

@[simp] theorem perform_exec (f : S → S × List O) :
    (exec f).perform s = some (⟨⟩, (f s).1, (f s).2) := by simp [exec, perform]

@[simp] theorem perform_assign (f : S → S) :
    (assign f : Routine S O PUnit).perform s = some (⟨⟩, f s, []) := rfl

@[simp] theorem perform_wait (t : S → Option (S × List O)) :
    (wait t).perform s = (t s).map fun (s', o) => (⟨⟩, s', o) := by
  cases h : t s <;> simp [wait, perform, h]

@[simp] theorem perform_bind (r : Routine S O α) (g : α → Routine S O β) :
    (r >>= g).perform s = (r.perform s).bind fun (a, s', o) =>
      ((g a).perform s').map fun (b, s'', o') => (b, s'', o ++ o') := by
  change (r.bind g).perform s = _
  induction r generalizing s with
  | ret a => simp [bind, perform]
  | stmt f k ih =>
    simp only [bind, perform, ih]
    cases (k s).perform (f s).1 <;> simp [Function.comp_def]
  | await t k ih =>
    simp only [bind, perform, ih]
    cases t s with
    | none => rfl
    | some r => cases h : k.perform r.1 <;> simp [Function.comp_def, h]

@[simp] theorem perform_map (f : α → β) (r : Routine S O α) :
    (f <$> r).perform s = (r.perform s).map fun (a, s', o) => (f a, s', o) := by
  rw [← bind_pure_comp, perform_bind]
  cases r.perform s <;> simp

theorem perform_read_bind (g : S → α) (k : α → Routine S O β) :
    (read g >>= k).perform s = (k (g s)).perform s := by
  simp

end Perform

/-! ### With interruption -/

/-- Whose turn it is. -/
inductive Turn (I : Type*)
  /-- One statement of the main loop, or one turn of its busy-wait. -/
  | main
  /-- One interrupt. -/
  | irq (i : I)

/-- The interrupts of a turn. -/
def Turn.irqs : Turn I → List I
  | .main => []
  | .irq i => [i]

/-- The main loop `while (1) body;`, interrupted by the handler `H` between its statements. -/
def interleave (H : S → I → Option (S × List O)) (body : Routine S O PUnit) :
    Machine (S × Routine S O PUnit) (Turn I) O where
  step
    | (s, .ret _), .main => some ((s, body), [])
    | (s, .stmt f k), .main => some (((f s).1, k s), (f s).2)
    | (s, .await t k), .main =>
      match t s with
      | none => some ((s, .await t k), [])
      | some (s', o) => some ((s', k), o)
    | (s, r), .irq i => (H s i).map fun (s', o) => ((s', r), o)

/-- A guard on the interrupts alone. -/
def Turn.Allowed (G : S → I → Prop) : S × Routine S O PUnit → Turn I → Prop
  | _, .main => True
  | (s, _), .irq i => G s i

variable {H : S → I → Option (S × List O)} {body r : Routine S O PUnit}
variable {G : S → I → Prop} {s s' : S} {o log : List O} {i : I}

@[simp] theorem interleave_irq : (interleave H body).step (s, r) (.irq i) =
    (H s i).map fun (s', o) => ((s', r), o) := by
  cases r <;> rfl

theorem interleave_await {t : S → Option (S × List O)} {k : Routine S O PUnit} :
    (interleave H body).step (s, .await t k) .main = some
      (((t s).map fun (s', o) => ((s', k), o)).getD ((s, .await t k), [])) := by
  cases h : t s <;> simp [interleave, h]

theorem run_perform {a : PUnit} (h : r.perform s = some (a, s', o)) :
    ∃ n, (interleave H body).Run (Turn.Allowed G) (s, r) (List.replicate n .main) o
      (s', .ret a) := by
  induction r generalizing s o with
  | ret b => cases h; exact ⟨0, .nil _⟩
  | stmt f k ih =>
    obtain ⟨⟨b, s₁, o₁⟩, hk, he⟩ := Option.map_eq_some_iff.1 h
    cases he
    obtain ⟨n, hr⟩ := ih s hk
    exact ⟨n + 1, .cons trivial rfl hr⟩
  | await t k ih =>
    obtain ⟨⟨s₁, o₁⟩, ht, hb⟩ := Option.bind_eq_some_iff.1 h
    obtain ⟨⟨b, s₂, o₂⟩, hk, he⟩ := Option.map_eq_some_iff.1 hb
    cases he
    obtain ⟨n, hr⟩ := ih hk
    refine ⟨n + 1, .cons trivial ?_ hr⟩
    rw [interleave_await, ht]
    rfl

/-! ### One call with given interrupts -/

/-- Turns of a busy-wait, the interrupts of one list of `σ` after each; `none` when `σ` ends before
the wait does. -/
def spin (H : S → I → Option (S × List O)) (t : S → Option (S × List O)) :
    List (List I) → S → Option (S × List O × List (List I))
  | [], s => (t s).map fun (s', o) => (s', o, [])
  | is :: σ, s =>
    match t s with
    | some (s', o) => (Machine.perform ⟨H⟩ s' is).map fun (s'', o') => (s'', o ++ o', σ)
    | none => (Machine.perform ⟨H⟩ s is).bind fun (s', o) =>
        (spin H t σ s').map fun (s'', o', σ') => (s'', o ++ o', σ')

/-- One call of the routine, with the interrupts of the lists of `σ` after its statements, one list
after each; what is left of `σ` is returned. -/
def performIrq (H : S → I → Option (S × List O)) :
    Routine S O α → List (List I) → S → Option (α × S × List O × List (List I))
  | ret a, σ, s => some (a, s, [], σ)
  | stmt f k, σ, s => (Machine.perform ⟨H⟩ (f s).1 (σ.headD [])).bind fun (s', o) =>
      (performIrq H (k s) σ.tail s').map fun (a, s'', o', σ') => (a, s'', (f s).2 ++ o ++ o', σ')
  | await t k, σ, s => (spin H t σ s).bind fun (s', o, σ') =>
      (performIrq H k σ' s').map fun (a, s'', o', σ'') => (a, s'', o ++ o', σ'')

theorem performIrq_bind (r : Routine S O α) (g : α → Routine S O β) (σ : List (List I)) (s : S) :
    (r >>= g).performIrq H σ s = (r.performIrq H σ s).bind fun (a, s', o, σ') =>
      ((g a).performIrq H σ' s').map fun (b, s'', o', σ'') => (b, s'', o ++ o', σ'') := by
  change (r.bind g).performIrq H σ s = _
  induction r generalizing σ s with
  | ret a => simp [bind, performIrq]
  | stmt f k ih =>
    simp only [bind, performIrq, ih]
    cases Machine.perform ⟨H⟩ (f s).1 (σ.headD []) with
    | none => rfl
    | some x => cases h : (k s).performIrq H σ.tail x.1 <;> simp [Function.comp_def, h]
  | await t k ih =>
    simp only [bind, performIrq, ih]
    cases spin H t σ s with
    | none => rfl
    | some x => cases h : k.performIrq H x.2.2 x.1 <;> simp [Function.comp_def, h]

theorem performIrq_read (g : S → α) (σ : List (List I)) (s : S) : (read g).performIrq H σ s =
    (Machine.perform ⟨H⟩ s (σ.headD [])).map fun (s', o) => (g s, s', o, σ.tail) := by
  rw [read, performIrq]
  cases Machine.perform ⟨H⟩ s (σ.headD []) with
  | none => rfl
  | some x => simp [performIrq]

theorem performIrq_exec (f : S → S × List O) (σ : List (List I)) (s : S) :
    (exec f).performIrq H σ s = (Machine.perform ⟨H⟩ (f s).1 (σ.headD [])).map
      fun (s', o) => (⟨⟩, s', (f s).2 ++ o, σ.tail) := by
  rw [exec, performIrq]
  cases Machine.perform ⟨H⟩ (f s).1 (σ.headD []) with
  | none => rfl
  | some x => simp [performIrq]

theorem performIrq_nil (r : Routine S O α) (s : S) : r.performIrq H [] s =
    (r.perform s).map fun (a, s', o) => (a, s', o, []) := by
  induction r generalizing s with
  | ret a => rfl
  | stmt f k ih =>
    simp only [performIrq, perform, List.headD_nil, List.tail_nil, Machine.perform,
      Option.bind_some, ih]
    cases (k s).perform (f s).1 <;> simp
  | await t k ih =>
    simp only [performIrq, perform, spin]
    cases t s with
    | none => rfl
    | some x => cases h : k.perform x.1 <;> simp [ih, h]

variable (H) in
/-- A call of the routine ends, whatever interrupts come. -/
def Ends (r : Routine S O α) : Prop := ∀ σ s, ∃ x, r.performIrq H σ s = some x

theorem perform_isSome (hH : ∀ s i, ∃ x, H s i = some x) (is : List I) (s : S) :
    ∃ x, Machine.perform ⟨H⟩ s is = some x := by
  induction is generalizing s with
  | nil => exact ⟨_, rfl⟩
  | cons i is ih =>
    obtain ⟨⟨s₁, o₁⟩, h₁⟩ := hH s i
    obtain ⟨⟨s₂, o₂⟩, h₂⟩ := ih s₁
    exact ⟨(s₂, o₁ ++ o₂), by simp [Machine.perform, h₁, h₂]⟩

/-- A routine without a busy-wait. -/
def Straight : Routine S O α → Prop
  | ret _ => True
  | stmt _ k => ∀ s, (k s).Straight
  | await _ _ => False

section Straight

variable {r : Routine S O α}

theorem Straight.pure (a : α) : (Pure.pure a : Routine S O α).Straight := trivial

theorem Straight.read (g : S → α) : (Routine.read g : Routine S O α).Straight := fun _ => trivial

theorem Straight.exec (f : S → S × List O) : (Routine.exec f).Straight := fun _ => trivial

theorem Straight.bind {g : α → Routine S O β} (hr : r.Straight) (hg : ∀ a, (g a).Straight) :
    (r >>= g).Straight := by
  change (r.bind g).Straight
  induction r with
  | ret a => exact hg a
  | stmt f k ih => exact fun s => ih s (hr s)
  | await t k ih => exact hr.elim

/-- **A routine without a busy-wait ends.** -/
theorem Straight.ends (hH : ∀ s i, ∃ x, H s i = some x) (h : r.Straight) : Ends H r := by
  intro σ s
  induction r generalizing σ s with
  | ret a => exact ⟨_, rfl⟩
  | stmt f k ih =>
    obtain ⟨⟨s₁, o₁⟩, h₁⟩ := perform_isSome hH (σ.headD []) (f s).1
    obtain ⟨x, h₂⟩ := ih s (h s) σ.tail s₁
    exact ⟨_, by rw [performIrq, h₁, Option.bind_some]; dsimp only; rw [h₂]; rfl⟩
  | await t k ih => exact h.elim

end Straight

theorem run_irqs {is : List I} (h : Machine.perform ⟨H⟩ s is = some (s', o)) :
    (interleave H body).Run Machine.Free (s, r) (is.map .irq) o (s', r) := by
  induction is generalizing s o with
  | nil => cases h; exact .nil _
  | cons i is ih =>
    simp only [Machine.perform, Option.bind_eq_bind, Option.bind_eq_some_iff,
      Option.pure_def] at h
    obtain ⟨⟨s₁, o₁⟩, hi, ⟨s₂, o₂⟩, hr, he⟩ := h
    cases he
    exact .cons trivial (by simp [hi]) (ih hr)

/-- A busy-wait with interrupts is a run of the machine. -/
theorem run_spin {t : S → Option (S × List O)} {k : Routine S O PUnit} {σ σ' : List (List I)}
    (h : spin H t σ s = some (s', o, σ')) :
    ∃ as, (interleave H body).Run Machine.Free (s, .await t k) as o (s', k) := by
  induction σ generalizing s o with
  | nil =>
    obtain ⟨⟨s₁, o₁⟩, ht, he⟩ := Option.map_eq_some_iff.1 h
    cases he
    exact ⟨[.main], .single trivial (by rw [interleave_await, ht]; rfl)⟩
  | cons is σ ih =>
    unfold spin at h
    cases ht : t s with
    | some x =>
      rw [ht] at h
      obtain ⟨⟨s₁, o₁⟩, hi, he⟩ := Option.map_eq_some_iff.1 h
      cases he
      exact ⟨_, .cons trivial (by rw [interleave_await, ht]; rfl) (run_irqs hi)⟩
    | none =>
      -- one more turn of the loop, then the interrupts
      rw [ht] at h
      obtain ⟨⟨s₁, o₁⟩, hi, hs⟩ := Option.bind_eq_some_iff.1 h
      obtain ⟨⟨s₂, o₂, σ₂⟩, hs, he⟩ := Option.map_eq_some_iff.1 hs
      cases he
      obtain ⟨as, hr⟩ := ih hs
      refine ⟨.main :: (is.map .irq ++ as), .cons (o := []) trivial ?_ ((run_irqs hi).append hr)⟩
      rw [interleave_await, ht]
      rfl

/-- **One interrupted call is a run of the machine.** -/
theorem run_performIrq {a : PUnit} {σ σ' : List (List I)}
    (h : r.performIrq H σ s = some (a, s', o, σ')) :
    ∃ as, (interleave H body).Run Machine.Free (s, r) as o (s', .ret a) := by
  induction r generalizing s o σ with
  | ret b => cases h; exact ⟨[], .nil _⟩
  | stmt f k ih =>
    obtain ⟨⟨s₁, o₁⟩, hi, hs⟩ := Option.bind_eq_some_iff.1 h
    obtain ⟨⟨b, s₂, o₂, σ₂⟩, hk, he⟩ := Option.map_eq_some_iff.1 hs
    cases he
    obtain ⟨as, hr⟩ := ih s hk
    rw [List.append_assoc]
    exact ⟨.main :: _, .cons trivial rfl ((run_irqs hi).append hr)⟩
  | await t k ih =>
    obtain ⟨⟨s₁, o₁, σ₁⟩, ht, hs⟩ := Option.bind_eq_some_iff.1 h
    obtain ⟨⟨b, s₂, o₂, σ₂⟩, hk, he⟩ := Option.map_eq_some_iff.1 hs
    cases he
    have hspin : ∃ as, (interleave H body).Run Machine.Free (s, .await t k) as o₁ (s₁, k) :=
      run_spin ht
    obtain ⟨as, hr⟩ := hspin
    obtain ⟨as', hr'⟩ := ih hk
    exact ⟨_, hr.append hr'⟩

/-! ### Assertions at the statement boundaries -/

variable (H G) in
/-- An assertion about the globals and the observations so far that may stand between two
statements: allowed interrupts keep it, and it implies the invariant `J`. -/
structure Admissible (J P : S → List O → Prop) : Prop where
  inv : ∀ {s log}, P s log → J s log
  stable : ∀ {s i s' o log}, P s log → G s i → H s i = some (s', o) → P s' (log ++ o)

variable (H G) in
/-- `P` before the routine, `Q` after it, with admissible assertions in between. -/
def Triple (J P : S → List O → Prop) : Routine S O α → (α → S → List O → Prop) → Prop
  | ret a, Q => ∀ s log, P s log → Q a s log
  | stmt f k, Q => ∃ R : S → S → List O → Prop,
      (∀ s log, P s log → R s (f s).1 (log ++ (f s).2)) ∧
      ∀ s, Admissible H G J (R s) ∧ Triple J (R s) (k s) Q
  | await t k, Q => ∃ R : S → List O → Prop,
      (∀ s s' o log, P s log → t s = some (s', o) → R s' (log ++ o)) ∧
      Admissible H G J R ∧ Triple J R k Q

namespace Triple

variable {J P P' : S → List O → Prop} {Q : α → S → List O → Prop} {R : β → S → List O → Prop}
variable {r : Routine S O α}

theorem pre (h : Triple H G J P r Q) (hP : ∀ s log, P' s log → P s log) :
    Triple H G J P' r Q := by
  cases r with
  | ret a => exact fun s log hp => h s log (hP s log hp)
  | stmt f k =>
    obtain ⟨R, hf, hk⟩ := h
    exact ⟨R, fun s log hp => hf s log (hP s log hp), hk⟩
  | await t k =>
    obtain ⟨R, ht, hk⟩ := h
    exact ⟨R, fun s s' o log hp => ht s s' o log (hP s log hp), hk⟩

theorem post {Q' : α → S → List O → Prop} (h : Triple H G J P r Q)
    (hQ : ∀ a s log, Q a s log → Q' a s log) : Triple H G J P r Q' := by
  induction r generalizing P with
  | ret a => exact fun s log hp => hQ a s log (h s log hp)
  | stmt f k ih =>
    obtain ⟨R, hf, hk⟩ := h
    exact ⟨R, hf, fun s => ⟨(hk s).1, ih s (hk s).2⟩⟩
  | await t k ih =>
    obtain ⟨R, ht, hR, hk⟩ := h
    exact ⟨R, ht, hR, ih hk⟩

theorem of_false (h : ∀ s log, ¬ P s log) : Triple H G J P r Q := by
  induction r generalizing P with
  | ret a => exact fun s log hp => absurd hp (h s log)
  | stmt f k ih =>
    exact ⟨fun _ _ _ => False, fun s log hp => h s log hp,
      fun s => ⟨⟨False.elim, fun hp _ _ => hp⟩, ih s fun _ _ hp => hp⟩⟩
  | await t k ih =>
    exact ⟨fun _ _ => False, fun s _ _ log hp _ => h s log hp, ⟨False.elim, fun hp _ _ => hp⟩,
      ih fun _ _ hp => hp⟩

/-- A fact that no statement changes may be taken out of the assertion. -/
theorem assume {c : Prop} (hc : ∀ s log, P s log → c) (h : c → Triple H G J P r Q) :
    Triple H G J P r Q := by
  by_cases hp : c
  · exact h hp
  · exact of_false fun s log hs => hp (hc s log hs)

theorem pure {a : α} (h : ∀ s log, P s log → Q a s log) :
    Triple H G J P (Pure.pure a) Q := h

theorem bind {g : α → Routine S O β} (h : Triple H G J P r Q)
    (hg : ∀ a, Triple H G J (Q a) (g a) R) : Triple H G J P (r >>= g) R := by
  change Triple H G J P (r.bind g) R
  induction r generalizing P with
  | ret a => exact (hg a).pre h
  | stmt f k ih =>
    obtain ⟨T, hf, hk⟩ := h
    exact ⟨T, hf, fun s => ⟨(hk s).1, ih s (hk s).2⟩⟩
  | await t k ih =>
    obtain ⟨T, ht, hT, hk⟩ := h
    exact ⟨T, ht, hT, ih hk⟩

/-- A statement that reads: what was read may be kept as long as interrupts do not spoil it. -/
theorem read {g : S → α} (hQ : ∀ a, Admissible H G J (Q a))
    (h : ∀ s log, P s log → Q (g s) s log) : Triple H G J P (Routine.read g) Q :=
  ⟨fun s => Q (g s), fun s log hp => by simpa using h s log hp,
    fun s => ⟨hQ (g s), fun _ _ h => h⟩⟩

theorem exec {f : S → S × List O} {Q : PUnit → S → List O → Prop}
    (hQ : Admissible H G J (Q ⟨⟩)) (h : ∀ s log, P s log → Q ⟨⟩ (f s).1 (log ++ (f s).2)) :
    Triple H G J P (Routine.exec f) Q :=
  ⟨fun _ => Q ⟨⟩, h, fun _ => ⟨hQ, fun _ _ h => h⟩⟩

theorem wait {t : S → Option (S × List O)} {Q : PUnit → S → List O → Prop}
    (hQ : Admissible H G J (Q ⟨⟩))
    (h : ∀ s s' o log, P s log → t s = some (s', o) → Q ⟨⟩ s' (log ++ o)) :
    Triple H G J P (Routine.wait t) Q :=
  ⟨Q ⟨⟩, h, hQ, fun _ _ h => h⟩

end Triple

section PerformIrq

variable {J P : S → List O → Prop} {r : Routine S O α} {Q : α → S → List O → Prop} {a : α}
variable {is : List I} {σ σ' : List (List I)}

theorem Admissible.irqs (h : Admissible H Machine.Free J P) (hs : P s log)
    (hi : Machine.perform ⟨H⟩ s is = some (s', o)) : P s' (log ++ o) :=
  (Machine.run_of_perform is hi).invariant P log hs fun _ _ _ _ _ hp _ hst =>
    h.stable hp trivial hst

theorem Admissible.spin {R : S → List O → Prop} {t : S → Option (S × List O)}
    (h : Admissible H Machine.Free J P) (hR : Admissible H Machine.Free J R)
    (ht : ∀ s s' o log, P s log → t s = some (s', o) → R s' (log ++ o)) (hs : P s log)
    (hi : Routine.spin H t σ s = some (s', o, σ')) : R s' (log ++ o) := by
  induction σ generalizing s log o with
  | nil =>
    obtain ⟨⟨s₁, o₁⟩, hts, he⟩ := Option.map_eq_some_iff.1 hi
    cases he
    exact ht _ _ _ _ hs hts
  | cons is σ ih =>
    unfold Routine.spin at hi
    cases hts : t s with
    | some x =>
      rw [hts] at hi
      obtain ⟨⟨s₁, o₁⟩, hirq, he⟩ := Option.map_eq_some_iff.1 hi
      cases he
      rw [← List.append_assoc]
      exact hR.irqs (ht _ _ _ _ hs hts) hirq
    | none =>
      rw [hts] at hi
      obtain ⟨⟨s₁, o₁⟩, hirq, hsp⟩ := Option.bind_eq_some_iff.1 hi
      obtain ⟨⟨s₂, o₂, σ₂⟩, hsp, he⟩ := Option.map_eq_some_iff.1 hsp
      cases he
      rw [← List.append_assoc]
      exact ih (h.irqs hs hirq) hsp

/-- **A triple holds of one interrupted call.** -/
theorem Triple.performIrq (h : Triple H Machine.Free J P r Q) (hP : Admissible H Machine.Free J P)
    (hs : P s log) (hr : r.performIrq H σ s = some (a, s', o, σ')) : Q a s' (log ++ o) := by
  induction r generalizing P s log o σ with
  | ret b =>
    cases hr
    rw [List.append_nil]
    exact h _ _ hs
  | stmt f k ih =>
    obtain ⟨R, hf, hk⟩ := h
    obtain ⟨⟨s₁, o₁⟩, hi, hr⟩ := Option.bind_eq_some_iff.1 hr
    obtain ⟨⟨b, s₂, o₂, σ₂⟩, hr, he⟩ := Option.map_eq_some_iff.1 hr
    cases he
    rw [← List.append_assoc, ← List.append_assoc]
    exact ih _ (hk _).2 (hk _).1 ((hk _).1.irqs (hf _ _ hs) hi) hr
  | await t k ih =>
    obtain ⟨R, ht, hR, hk⟩ := h
    obtain ⟨⟨s₁, o₁, σ₁⟩, hi, hr⟩ := Option.bind_eq_some_iff.1 hr
    obtain ⟨⟨b, s₂, o₂, σ₂⟩, hr, he⟩ := Option.map_eq_some_iff.1 hr
    cases he
    rw [← List.append_assoc]
    exact ih hk hR (hP.spin hR ht hs hi) hr

end PerformIrq

variable {J P : S → List O → Prop}

/-- Some admissible assertion holds now from which the rest of the body leads back to `P`. -/
def Safe (H : S → I → Option (S × List O)) (G : S → I → Prop) (J P : S → List O → Prop)
    (x : S × Routine S O PUnit) (log : List O) : Prop :=
  ∃ P', Admissible H G J P' ∧ P' x.1 log ∧ Triple H G J P' x.2 fun _ => P

/-- Every turn goes from one admissible assertion to the next. -/
theorem Safe.step (hP : Admissible H G J P) (hbody : Triple H G J P body fun _ => P)
    {x x' : S × Routine S O PUnit} {a : Turn I} (h : Safe H G J P x log)
    (hG : Turn.Allowed G x a) (hst : (interleave H body).step x a = some (x', o)) :
    Safe H G J P x' (log ++ o) := by
  obtain ⟨s, r⟩ := x
  obtain ⟨P', hP', hs, hr⟩ := h
  cases a with
  | irq i =>
    rw [interleave_irq] at hst
    obtain ⟨⟨s₁, o₁⟩, hi, he⟩ := Option.map_eq_some_iff.1 hst
    cases he
    exact ⟨P', hP', hP'.stable hs hG hi, hr⟩
  | main =>
    cases r with
    | ret a =>
      cases hst
      rw [List.append_nil]
      exact ⟨P, hP, hr s log hs, hbody⟩
    | stmt f k =>
      cases hst
      obtain ⟨R, hf, hk⟩ := hr
      exact ⟨R s, (hk s).1, hf s log hs, (hk s).2⟩
    | await t k =>
      obtain ⟨R, ht, hR, hk⟩ := hr
      rw [interleave_await] at hst
      cases h : t s with
      | none =>
        -- the loop spins
        rw [h] at hst
        cases hst
        rw [List.append_nil]
        exact ⟨P', hP', hs, R, ht, hR, hk⟩
      | some q =>
        rw [h] at hst
        cases hst
        exact ⟨R, hR, ht s _ _ log hs h, hk⟩

/-- **The rule for interrupted loops.**  When the body keeps an admissible assertion, the invariant
holds at every moment of every guarded run. -/
theorem interleave_invariant (hP : Admissible H G J P) (hbody : Triple H G J P body fun _ => P)
    {x : S × Routine S O PUnit} {as : List (Turn I)} (h₀ : P s log)
    (h : (interleave H body).Run (Turn.Allowed G) (s, body) as o x) : J x.1 (log ++ o) := by
  obtain ⟨P', hP', hs, -⟩ := h.invariant (Safe H G J P) log ⟨P, hP, h₀, hbody⟩
    fun _ _ _ _ _ hi hg hst => hi.step hP hbody hg hst
  exact hP'.inv hs

/-- **The rule for loops that spin.**  When no end of the body can be reached, the invariant holds
at every moment of every guarded run, and the body has not ended. -/
theorem interleave_spins (hP : Admissible H G J P) (hbody : Triple H G J P body fun _ _ _ => False)
    {x : S × Routine S O PUnit} {as : List (Turn I)} (h₀ : P s log)
    (h : (interleave H body).Run (Turn.Allowed G) (s, body) as o x) :
    J x.1 (log ++ o) ∧ ∀ a, x.2 ≠ .ret a := by
  have hnever : Admissible H G J fun _ _ => False := ⟨False.elim, fun h _ _ => h⟩
  have hloop : Triple H G J (fun _ _ => False) body fun _ _ _ => False :=
    .of_false fun _ _ h => h
  obtain ⟨P', hP', hs, hr⟩ := h.invariant (Safe H G J fun _ _ => False) log ⟨P, hP, h₀, hbody⟩
    fun _ _ _ _ _ hi hg hst => hi.step hnever hloop hg hst
  refine ⟨hP'.inv hs, fun a ha => ?_⟩
  rw [ha] at hr
  exact hr _ _ hs

end Routine

end Ch32fun
