import Ch32fun.Machine.Routine

/-!
# When interrupts may be moved out of a routine

A statement that commutes with every interrupt is a *mover*: an interrupt after it might as well
have come before it.  A routine all of whose statements are movers, up to the end of one busy-wait,
may be run as a whole at that moment: the interrupts before it come first, and those after it come
last.

* `atomically H body` : the main loop that runs `body` without interruption.
* `Mover`, `Movers` : a statement, and a routine, that may change places with every interrupt.
* `Closes` : a statement after which no interrupt does anything until a last wait is over.
* `Reducible` : movers, up to the end of a wait, and then movers again.
* `Ahead` : the routine has been begun, and interrupts still go to where it began.
* `Reduced` : the interrupted main loop beside the other one, which has not begun the routine yet or
  has ended it already.
* `reducible_run` : **reduction.**  Every run of the interrupted main loop is, as far as it is seen,
  one of the main loop that is not interrupted, with the same interrupts.
-/

namespace Ch32fun

universe u v w

namespace Routine

variable {S : Type u} {O : Type v} {α β : Type w} {I : Type*}

/-- The main loop that runs its body without interruption. -/
def atomically (H : S → I → Option (S × List O)) (body : Routine S O PUnit) :
    Machine S (Turn I) O where
  step s
    | .main => (body.perform s).map fun x => (x.2.1, x.2.2)
    | .irq i => H s i

section Movers

variable (H : S → I → Option (S × List O)) (G : S → I → Prop) (seen : O → Bool) (P : S → Prop)

/-- Interrupts keep `P`. -/
def Stable : Prop := ∀ ⦃s i s' o⦄, P s → H s i = some (s', o) → P s'

/-- In the state `s` the statement is not seen, and every interrupt may come before it or after it
alike. -/
structure Mover (f : S → S × List O) (k : S → Routine S O α) (s : S) : Prop where
  keeps : P (f s).1
  silent : (f s).2.filter seen = []
  swap : ∀ i, H (f s).1 i = (H s i).map fun x => ((f x.1).1, x.2)
  same : ∀ {i s' o}, H s i = some (s', o) → k s' = k s

/-- All statements are movers in states with `P`, and there is no wait. -/
def Movers : Routine S O α → Prop
  | ret _ => True
  | stmt f k => (∀ s, P s → Mover H seen P f k s) ∧ ∀ s, P s → Movers (k s)
  | await _ _ => False

/-- After the statement no allowed interrupt does anything, nor would it have done anything before,
and nothing but a wait is left. -/
structure Closes (f : S → S × List O) (k : S → Routine S O PUnit) (s : S) : Prop where
  silent : (f s).2.filter seen = []
  still : ∀ {i x}, G (f s).1 i → H (f s).1 i = some x → x = ((f s).1, []) ∧ H s i = some (s, [])
  last : ∃ t, k s = await t (ret ⟨⟩)

/-- Movers, up to the end of a wait, and then movers again. -/
def Reducible : Routine S O PUnit → Prop
  | ret _ => True
  | stmt f k => ((∀ s, P s → Mover H seen P f k s) ∧ ∀ s, P s → Reducible (k s)) ∨
      ∀ s, P s → Closes H G seen f k s
  | await t k => (∀ s s' o, P s → t s = some (s', o) → P s') ∧ Movers H seen P k

/-- Movers lead from the begin `b` of a routine in the state `t` to the rest `r` in the state
`s`. -/
inductive Ahead (t : S) (b : Routine S O α) : S → Routine S O α → Prop
  | start (h : P t) : Ahead t b t b
  | next {s : S} {f : S → S × List O} {k : S → Routine S O α} (h : Ahead t b s (stmt f k))
      (hm : ∀ s, P s → Mover H seen P f k s) : Ahead t b (f s).1 (k s)

end Movers

variable {H : S → I → Option (S × List O)} {G : S → I → Prop} {seen : O → Bool} {P : S → Prop}
variable {s s' t : S} {o : List O} {i : I}

/-! ### Movers -/

namespace Movers

theorem pure (a : α) : Movers H seen P (Pure.pure a : Routine S O α) := trivial

theorem bind {r : Routine S O α} {g : α → Routine S O β} (h : Movers H seen P r)
    (hg : ∀ a, Movers H seen P (g a)) : Movers H seen P (r >>= g) := by
  change Movers H seen P (r.bind g)
  induction r with
  | ret a => exact hg a
  | stmt f k ih =>
    obtain ⟨hm, hk⟩ := h
    exact ⟨fun s hs => ⟨(hm s hs).keeps, (hm s hs).silent, (hm s hs).swap,
      fun hi => congrArg (Routine.bind · g) ((hm s hs).same hi)⟩, fun s hs => ih s (hk s hs)⟩
  | await t k ih => exact h.elim

theorem ite {c : Prop} [Decidable c] {r r' : Routine S O α} (h : Movers H seen P r)
    (h' : Movers H seen P r') : Movers H seen P (if c then r else r') := by
  split_ifs
  · exact h
  · exact h'

theorem perform {r : Routine S O α} (h : Movers H seen P r) (hs : P s) :
    ∃ a s' o, r.perform s = some (a, s', o) ∧ P s' ∧ o.filter seen = [] := by
  induction r generalizing s with
  | ret a => exact ⟨a, s, [], rfl, hs, rfl⟩
  | stmt f k ih =>
    obtain ⟨a, s', o, hr, hs', ho⟩ := ih s (h.2 s hs) (h.1 s hs).keeps
    refine ⟨a, s', (f s).2 ++ o, by rw [Routine.perform, hr]; rfl, hs', ?_⟩
    rw [List.filter_append, (h.1 s hs).silent, ho]
    rfl
  | await t k ih => exact h.elim

/-- An interrupt before the movers is one after them. -/
theorem irq {r : Routine S O α} (h : Movers H seen P r) (hs : P s)
    (hi : H s i = some (s', o)) {a : α} {t : S} {os : List O}
    (hr : r.perform s = some (a, t, os)) :
    ∃ t' os', H t i = some (t', o) ∧ r.perform s' = some (a, t', os') := by
  induction r generalizing s s' t os with
  | ret b =>
    cases hr
    exact ⟨s', [], hi, rfl⟩
  | stmt f k ih =>
    obtain ⟨⟨b, t₁, os₁⟩, hk, he⟩ := Option.map_eq_some_iff.1 hr
    cases he
    have hm := h.1 s hs
    have hafter : H (f s).1 i = some ((f s').1, o) := by rw [hm.swap, hi]; rfl
    obtain ⟨t', os', ht', hr'⟩ := ih s (h.2 s hs) hm.keeps hafter hk
    refine ⟨t', (f s').2 ++ os', ht', ?_⟩
    rw [Routine.perform, hm.same hi, hr']
    rfl
  | await t k ih => exact h.elim

end Movers

/-! ### Putting routines together -/

namespace Reducible

theorem bind {r : Routine S O α} {g : α → Routine S O PUnit} (h : Movers H seen P r)
    (hg : ∀ a, Reducible H G seen P (g a)) : Reducible H G seen P (r >>= g) := by
  change Reducible H G seen P (r.bind g)
  induction r with
  | ret a => exact hg a
  | stmt f k ih =>
    obtain ⟨hm, hk⟩ := h
    exact .inl ⟨fun s hs => ⟨(hm s hs).keeps, (hm s hs).silent, (hm s hs).swap,
      fun hi => congrArg (Routine.bind · g) ((hm s hs).same hi)⟩, fun s hs => ih s (hk s hs)⟩
  | await t k ih => exact h.elim

theorem wait {t : S → Option (S × List O)} {g : PUnit → Routine S O PUnit}
    (ht : ∀ s s' o, P s → t s = some (s', o) → P s') (hg : Movers H seen P (g ⟨⟩)) :
    Reducible H G seen P (Routine.wait t >>= g) := ⟨ht, hg⟩

theorem close {f : S → S × List O} {t : S → Option (S × List O)}
    (hsilent : ∀ s, P s → (f s).2.filter seen = [])
    (hstill : ∀ {s i x}, P s → G (f s).1 i → H (f s).1 i = some x →
      x = ((f s).1, []) ∧ H s i = some (s, [])) :
    Reducible H G seen P (Routine.exec f >>= fun _ => Routine.wait t) :=
  .inr fun s hs => ⟨hsilent s hs, hstill hs, t, rfl⟩

theorem ite {c : Prop} [Decidable c] {r r' : Routine S O PUnit} (h : Reducible H G seen P r)
    (h' : Reducible H G seen P r') : Reducible H G seen P (if c then r else r') := by
  split_ifs
  · exact h
  · exact h'

end Reducible

/-! ### Up to the first wait -/

namespace Ahead

variable {b r : Routine S O α}

theorem holds (h : Ahead H seen P t b s r) : P s := by
  induction h with
  | start h => exact h
  | next h hm ih => exact (hm _ ih).keeps

theorem perform (h : Ahead H seen P t b s r) : ∃ o, o.filter seen = [] ∧
    b.perform t = (r.perform s).map fun x => (x.1, x.2.1, o ++ x.2.2) := by
  induction h with
  | start h => exact ⟨[], rfl, by simp⟩
  | @next s f k h hm ih =>
    obtain ⟨o, ho, hb⟩ := ih
    refine ⟨o ++ (f s).2, by rw [List.filter_append, ho, (hm s h.holds).silent]; rfl, ?_⟩
    rw [hb, Routine.perform, Option.map_map]
    simp [Function.comp_def]

/-- An interrupt goes to where the routine began. -/
theorem irq (hP : Stable H P) (h : Ahead H seen P t b s r) (hi : H s i = some (s', o)) :
    ∃ t', H t i = some (t', o) ∧ Ahead H seen P t' b s' r := by
  induction h generalizing s' with
  | start h => exact ⟨s', hi, .start (hP h hi)⟩
  | @next s f k h hm ih =>
    rw [(hm s h.holds).swap] at hi
    obtain ⟨⟨s₁, o₁⟩, hs₁, he⟩ := Option.map_eq_some_iff.1 hi
    cases he
    obtain ⟨t', ht', hahead⟩ := ih hs₁
    refine ⟨t', ht', ?_⟩
    rw [← (hm s h.holds).same hs₁]
    exact hahead.next hm

end Ahead

/-! ### The two main loops -/

section Reduction

variable {body : Routine S O PUnit}

variable (H G seen P body) in
/-- The interrupted main loop, and the one that is not interrupted in the state `t`. -/
inductive Reduced : S × Routine S O PUnit → S → Prop
  /-- Both are about to begin, or have ended. -/
  | between {r : Routine S O PUnit} (h : r = body ∨ r = ret ⟨⟩) (t : S) : Reduced (t, r) t
  /-- The other one has not begun. -/
  | ahead {t s : S} {r : Routine S O PUnit} (h : Ahead H seen P t body s r)
      (hr : Reducible H G seen P r) (hne : r ≠ ret ⟨⟩) : Reduced (s, r) t
  /-- The other one has not begun, and a last wait is left. -/
  | closing {t s : S} {f : S → S × List O} {k : S → Routine S O PUnit}
      {w : S → Option (S × List O)} (h : Ahead H seen P t body s (stmt f k))
      (hf : ∀ s, P s → Closes H G seen f k s) (hk : k s = await w (ret ⟨⟩)) :
      Reduced ((f s).1, await w (ret ⟨⟩)) t
  /-- The other one has ended. -/
  | behind {t s : S} {r : Routine S O PUnit} {o : List O} (hs : P s) (hr : Movers H seen P r)
      (h : r.perform s = some (⟨⟩, t, o)) : Reduced (s, r) t

/-- When the routine has returned, both are in the same state. -/
theorem Reduced.eq {x : S × Routine S O PUnit} (h : Reduced H G seen P body x t)
    (hx : x.2 = ret ⟨⟩) : x.1 = t := by
  cases h with
  | between _ t => rfl
  | ahead _ _ hne => exact absurd hx hne
  | closing _ _ _ => cases hx
  | behind _ _ h =>
    subst hx
    cases h
    rfl

theorem Ahead.commit {r : Routine S O PUnit} {os : List O} (h : Ahead H seen P t body s r)
    (hr : r.perform s = some (⟨⟩, s', os)) :
    ∃ o, (atomically H body).Run Machine.Free t [.main] o s' ∧ o.filter seen = os.filter seen := by
  obtain ⟨o, ho, hb⟩ := h.perform
  rw [hr] at hb
  refine ⟨o ++ os, .single trivial ?_, by rw [List.filter_append, ho]; rfl⟩
  change (body.perform t).map _ = _
  rw [hb]
  rfl

/-- **An interrupt comes to both.** -/
theorem Reduced.irq (hP : Stable H P) {x : S × Routine S O PUnit}
    (h : Reduced H G seen P body x t) (hG : G x.1 i) (hi : H x.1 i = some (s', o)) :
    ∃ t', H t i = some (t', o) ∧ Reduced H G seen P body (s', x.2) t' := by
  cases h with
  | between hr t => exact ⟨s', hi, .between hr s'⟩
  | ahead h hr hne =>
    obtain ⟨t', ht', h'⟩ := h.irq hP hi
    exact ⟨t', ht', .ahead h' hr hne⟩
  | @closing _ s f k w h hf hk =>
    -- it would have done nothing before the last statement either
    obtain ⟨he, hs⟩ := (hf s h.holds).still hG hi
    cases he
    obtain ⟨t', ht', h'⟩ := h.irq hP hs
    exact ⟨t', ht', .closing h' hf hk⟩
  | behind hs hr h =>
    obtain ⟨t', os', ht', h'⟩ := hr.irq hs hi h
    exact ⟨t', ht', .behind (hP hs hi) hr h'⟩

variable {x' : S × Routine S O PUnit} {r : Routine S O PUnit}

variable (H G seen P body) in
/-- What the other main loop does while the interrupted one takes a turn. -/
def Follows (t : S) (o : List O) (x' : S × Routine S O PUnit) : Prop :=
  ∃ bs o' t', (atomically H body).Run Machine.Free t bs o' t' ∧ bs.flatMap Turn.irqs = [] ∧
    o'.filter seen = o.filter seen ∧ Reduced H G seen P body x' t'

theorem Follows.waits (ho : o.filter seen = []) (h : Reduced H G seen P body x' t) :
    Follows H G seen P body t o x' := ⟨[], [], t, .nil t, rfl, ho.symm, h⟩

theorem Follows.runs (os : List O) (h : Ahead H seen P t body s r)
    (hr : r.perform s = some (⟨⟩, s', os)) (ho : os.filter seen = o.filter seen)
    (hx : Reduced H G seen P body x' s') : Follows H G seen P body t o x' := by
  obtain ⟨o', hrun, ho'⟩ := h.commit hr
  exact ⟨[.main], o', s', hrun, rfl, ho'.trans ho, hx⟩

/-- A turn before the end of the first wait. -/
theorem Ahead.main (h : Ahead H seen P t body s r) (hr : Reducible H G seen P r)
    (hst : (interleave H body).step (s, r) .main = some (x', o)) :
    Follows H G seen P body t o x' := by
  cases r with
  | ret a =>
    cases hst
    exact .runs _ h rfl rfl (.between (.inl rfl) s)
  | stmt f k =>
    cases hst
    rcases hr with ⟨hm, hk⟩ | hf
    · have hnext := h.next hm
      have hsilent := (hm s h.holds).silent
      by_cases hret : k s = ret ⟨⟩
      · rw [hret] at hnext ⊢
        exact .runs _ hnext rfl hsilent.symm (.between (.inr rfl) _)
      · exact .waits hsilent (.ahead hnext (hk s h.holds) hret)
    · obtain ⟨w, hw⟩ := (hf s h.holds).last
      rw [hw]
      exact .waits (hf s h.holds).silent (.closing h hf hw)
  | await w k =>
    rw [interleave_await] at hst
    cases hws : w s with
    | none =>
      -- the loop spins
      rw [hws] at hst
      cases hst
      exact .waits rfl (.ahead h hr (by nofun))
    | some y =>
      rw [hws] at hst
      cases hst
      have hs' := hr.1 s y.1 y.2 h.holds hws
      obtain ⟨⟨⟩, t', os, hk, -, hos⟩ := hr.2.perform hs'
      refine .runs (y.2 ++ os) h ?_ ?_ (.behind hs' hr.2 hk)
      · rw [Routine.perform, hws, Option.bind_some]
        dsimp only
        rw [hk]
        rfl
      · rw [List.filter_append, hos, List.append_nil]

/-- **A turn of the interrupted main loop.** -/
theorem Reduced.main (hbody : Reducible H G seen P body) {x : S × Routine S O PUnit}
    (hskip : ¬ P t → ∃ f k, body = stmt f k ∧ f t = (t, []) ∧ k t = ret ⟨⟩)
    (h : Reduced H G seen P body x t)
    (hst : (interleave H body).step x .main = some (x', o)) : Follows H G seen P body t o x' := by
  cases h with
  | between hr t =>
    rcases hr with rfl | rfl
    · by_cases ht : P t
      · exact (Ahead.start ht).main hbody hst
      · -- the body returns at once
        obtain ⟨f, k, rfl, hf, hk⟩ := hskip ht
        cases hst
        rw [hf, hk]
        refine ⟨[.main], [], t, .single trivial ?_, rfl, rfl, .between (.inr rfl) t⟩
        change ((stmt f k).perform t).map _ = _
        rw [perform, hf, hk]
        rfl
    · cases hst
      exact .waits rfl (.between (.inl rfl) t)
  | ahead h hr hne => exact h.main hr hst
  | @closing _ s f k w h hf hk =>
    rw [interleave_await] at hst
    cases hws : w (f s).1 with
    | none =>
      rw [hws] at hst
      cases hst
      exact .waits rfl (.closing h hf hk)
    | some y =>
      rw [hws] at hst
      cases hst
      refine .runs ((f s).2 ++ (y.2 ++ [])) h ?_ ?_ (.between (.inr rfl) y.1)
      · rw [perform, hk, perform, hws]
        rfl
      · rw [List.filter_append, (hf s h.holds).silent, List.append_nil]
        rfl
  | @behind _ s r os hs hr h =>
    cases r with
    | ret a =>
      cases h
      cases hst
      exact .waits rfl (.between (.inl rfl) _)
    | stmt f k =>
      cases hst
      obtain ⟨⟨a, t', os'⟩, hk, he⟩ := Option.map_eq_some_iff.1 h
      cases he
      exact .waits (hr.1 s hs).silent (.behind (hr.1 s hs).keeps (hr.2 s hs) hk)
    | await w k => exact hr.elim

/-- **Reduction.**  Every run of the interrupted main loop is, as far as it is seen, a run of the
main loop that is not interrupted, with the same interrupts in the same order; and the states agree
whenever the body has returned. -/
theorem reducible_run (hP : Stable H P) (hbody : Reducible H G seen P body) {Inv : S → Prop}
    (hInv : ∀ s a s' o, Inv s → (atomically H body).step s a = some (s', o) → Inv s')
    (hskip : ∀ t, Inv t → ¬ P t → ∃ f k, body = stmt f k ∧ f t = (t, []) ∧ k t = ret ⟨⟩)
    {s₀ : S} (h₀ : Inv s₀) {x : S × Routine S O PUnit} {as : List (Turn I)} {log : List O}
    (h : (interleave H body).Run (Turn.Allowed G) (s₀, body) as log x) :
    ∃ bs log' t, (atomically H body).Run Machine.Free s₀ bs log' t ∧
      bs.flatMap Turn.irqs = as.flatMap Turn.irqs ∧ log'.filter seen = log.filter seen ∧
      Reduced H G seen P body x t := by
  suffices hgen : ∀ {y : S × Routine S O PUnit} {t : S}, Inv t → Reduced H G seen P body y t →
      (interleave H body).Run (Turn.Allowed G) y as log x →
      ∃ bs log' t', (atomically H body).Run Machine.Free t bs log' t' ∧
        bs.flatMap Turn.irqs = as.flatMap Turn.irqs ∧ log'.filter seen = log.filter seen ∧
        Reduced H G seen P body x t' from hgen h₀ (.between (.inl rfl) s₀) h
  clear h
  intro y t ht hy h
  induction h generalizing t with
  | nil y => exact ⟨[], [], t, .nil t, rfl, rfl, hy⟩
  | @cons y y' x a as o os hg hst hrun ih =>
    -- one turn, and what the other main loop does meanwhile
    obtain ⟨bs₁, o₁, t₁, h₁, hirqs₁, ho₁, hy₁⟩ : ∃ bs o' t',
        (atomically H body).Run Machine.Free t bs o' t' ∧ bs.flatMap Turn.irqs = a.irqs ∧
        o'.filter seen = o.filter seen ∧ Reduced H G seen P body y' t' := by
      cases a with
      | main => exact hy.main hbody (hskip t ht) hst
      | irq i =>
        obtain ⟨s, r⟩ := y
        rw [interleave_irq] at hst
        obtain ⟨⟨s', o'⟩, hi, he⟩ := Option.map_eq_some_iff.1 hst
        cases he
        obtain ⟨t', ht', hy'⟩ := hy.irq hP hg hi
        exact ⟨[.irq i], _, t', .single trivial ht', rfl, rfl, hy'⟩
    have ht₁ := h₁.invariant_state Inv ht fun s a s' o hs _ hst => hInv s a s' o hs hst
    obtain ⟨bs₂, o₂, t₂, h₂, hirqs₂, ho₂, hy₂⟩ := ih ht₁ hy₁
    refine ⟨bs₁ ++ bs₂, o₁ ++ o₂, t₂, h₁.append h₂, ?_, ?_, hy₂⟩
    · rw [List.flatMap_append, List.flatMap_cons, hirqs₁, hirqs₂]
    · rw [List.filter_append, List.filter_append, ho₁, ho₂]

end Reduction

end Routine

end Ch32fun
