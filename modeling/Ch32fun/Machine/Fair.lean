import Ch32fun.Machine.Basic

/-!
# Fair schedules

An environment that keeps trying: a *schedule* `σ : ℕ → I` attempts one input after the other for
ever, and an attempt that the machine does not accept at that moment changes nothing.  A schedule
is *fair* to an input it attempts infinitely often.

## Main definitions

* `Machine.attempt`, `Machine.exec` : one attempt, and the first `n` attempts of a schedule.
* `Machine.Fair σ a` : `σ` attempts `a` again and again.

## Main results

* `Machine.exec_run` : the accepted attempts of a schedule form a run.
* `Machine.eventually_of_helpful` : **the rule of helpful inputs.**  If in every state short of the
  goal some fairly attempted input makes a measure smaller, and all other inputs leave the measure
  and the helpful input alone or make the measure smaller, then every fair schedule reaches the
  goal.
-/

namespace Ch32fun

namespace Machine

variable {S I O : Type*} (M : Machine S I O)

/-- Input `a` is attempted: it is performed if the machine accepts it now, and has no effect
otherwise. -/
def attempt (s : S) (a : I) : S × List O := (M.step s a).getD (s, [])

/-- The state and the observations after the first `n` attempts of the schedule `σ`. -/
def exec (σ : ℕ → I) (s : S) : ℕ → S × List O
  | 0 => (s, [])
  | n + 1 =>
    let r := M.attempt (exec σ s n).1 (σ n)
    (r.1, (exec σ s n).2 ++ r.2)

/-- The schedule attempts `a` infinitely often. -/
def Fair (σ : ℕ → I) (a : I) : Prop := ∀ n, ∃ m, n ≤ m ∧ σ m = a

variable {M} {σ : ℕ → I} {s s' : S} {a : I} {o : List O}

theorem attempt_of_step (h : M.step s a = some (s', o)) : M.attempt s a = (s', o) := by
  simp [attempt, h]

theorem attempt_of_none (h : M.step s a = none) : M.attempt s a = (s, []) := by
  simp [attempt, h]

variable (M) in
theorem attempt_cases (s : S) (a : I) :
    M.step s a = some (M.attempt s a) ∨ M.attempt s a = (s, []) := by
  cases h : M.step s a with
  | none => exact .inr (attempt_of_none h)
  | some r => exact .inl (by rw [attempt_of_step h])

@[simp] theorem exec_zero : M.exec σ s 0 = (s, []) := rfl

theorem exec_succ (n : ℕ) : M.exec σ s (n + 1) =
    ((M.attempt (M.exec σ s n).1 (σ n)).1,
      (M.exec σ s n).2 ++ (M.attempt (M.exec σ s n).1 (σ n)).2) := rfl

theorem exec_invariant (Inv : S → List O → Prop) (log : List O) (h₀ : Inv s log)
    (hstep : ∀ n s s' o log, Inv s log → M.step s (σ n) = some (s', o) → Inv s' (log ++ o))
    (n : ℕ) : Inv (M.exec σ s n).1 (log ++ (M.exec σ s n).2) := by
  induction n with
  | zero => simpa using h₀
  | succ n ih =>
    rw [exec_succ, ← List.append_assoc]
    rcases M.attempt_cases (M.exec σ s n).1 (σ n) with h | h
    · exact hstep n _ _ _ _ ih h
    · rw [h]; simpa using ih

/-- The accepted attempts form a run, provided the guard holds whenever a step is taken. -/
theorem exec_run {G : S → I → Prop} (n : ℕ) (hG : ∀ m, m < n → G (M.exec σ s m).1 (σ m)) :
    ∃ as, M.Run G s as (M.exec σ s n).2 (M.exec σ s n).1 := by
  induction n with
  | zero => exact ⟨[], .nil s⟩
  | succ n ih =>
    obtain ⟨as, hr⟩ := ih fun m hm => hG m (by omega)
    rcases M.attempt_cases (M.exec σ s n).1 (σ n) with h | h
    · exact ⟨as ++ [σ n], hr.snoc (hG n (by omega)) h⟩
    · refine ⟨as, ?_⟩
      rw [exec_succ, h]
      simpa using hr

section Helpful

variable (Inv Done : S → Prop) (μ : S → ℕ) (help : S → I) (Ok : I → Prop)

/-- Waiting for the helpful input: when the schedule attempts it `d` attempts from now, the goal is
reached by then, or the measure has become smaller. -/
theorem exists_decrease
    (hother : ∀ s a, Inv s → ¬ Done s → Ok a → Inv (M.attempt s a).1 ∧
      (Done (M.attempt s a).1 ∨ μ (M.attempt s a).1 < μ s ∨
        μ (M.attempt s a).1 = μ s ∧ help (M.attempt s a).1 = help s))
    (hhelp : ∀ s, Inv s → ¬ Done s →
      Done (M.attempt s (help s)).1 ∨ μ (M.attempt s (help s)).1 < μ s)
    (d : ℕ) {n : ℕ} (hOk : ∀ m, n ≤ m → Ok (σ m)) (hn : Inv (M.exec σ s n).1)
    (hd : ¬ Done (M.exec σ s n).1) (hσ : σ (n + d) = help (M.exec σ s n).1) :
    ∃ m, n ≤ m ∧ Inv (M.exec σ s m).1 ∧
      (Done (M.exec σ s m).1 ∨ μ (M.exec σ s m).1 < μ (M.exec σ s n).1) := by
  induction d generalizing n with
  | zero =>
    refine ⟨n + 1, by omega, (hother _ (σ n) hn hd (hOk n (Nat.le_refl n))).1, ?_⟩
    rw [exec_succ, show σ n = help (M.exec σ s n).1 from hσ]
    exact hhelp _ hn hd
  | succ d ih =>
    obtain ⟨hi, hc⟩ := hother _ (σ n) hn hd (hOk n (Nat.le_refl n))
    rcases hc with h | h | ⟨hμ, hh⟩
    · exact ⟨n + 1, by omega, hi, .inl h⟩
    · exact ⟨n + 1, by omega, hi, .inr h⟩
    by_cases hd' : Done (M.exec σ s (n + 1)).1
    · exact ⟨n + 1, by omega, hi, .inl hd'⟩
    have hσ' : σ (n + 1 + d) = help (M.exec σ s (n + 1)).1 := by
      rw [exec_succ, hh, ← hσ]; congr 1; omega
    obtain ⟨m, hm, him, hdone⟩ := ih (n := n + 1) (fun m hm => hOk m (by omega)) hi hd' hσ'
    refine ⟨m, by omega, him, ?_⟩
    rw [exec_succ, hμ] at hdone
    exact hdone

/-- **The rule of helpful inputs**: a fair schedule reaches the goal `Done` from any time on at
which the invariant holds. -/
theorem eventually_of_helpful
    (hfair : ∀ s, Inv s → ¬ Done s → Fair σ (help s))
    (hother : ∀ s a, Inv s → ¬ Done s → Ok a → Inv (M.attempt s a).1 ∧
      (Done (M.attempt s a).1 ∨ μ (M.attempt s a).1 < μ s ∨
        μ (M.attempt s a).1 = μ s ∧ help (M.attempt s a).1 = help s))
    (hhelp : ∀ s, Inv s → ¬ Done s →
      Done (M.attempt s (help s)).1 ∨ μ (M.attempt s (help s)).1 < μ s)
    {n : ℕ} (hOk : ∀ m, n ≤ m → Ok (σ m)) (hn : Inv (M.exec σ s n).1) :
    ∃ m, n ≤ m ∧ Done (M.exec σ s m).1 := by
  induction hk : μ (M.exec σ s n).1 using Nat.strong_induction_on generalizing n with
  | _ k ih =>
    by_cases hd : Done (M.exec σ s n).1
    · exact ⟨n, Nat.le_refl n, hd⟩
    obtain ⟨m₀, hm₀, hσ⟩ := hfair _ hn hd n
    obtain ⟨d, rfl⟩ := Nat.exists_eq_add_of_le hm₀
    obtain ⟨m, hm, him, h | h⟩ := exists_decrease Inv Done μ help Ok hother hhelp d hOk hn hd hσ
    · exact ⟨m, hm, h⟩
    · obtain ⟨m', hm', hdone⟩ := ih _ (hk ▸ h) (n := m) (fun k hk => hOk k (by omega)) him rfl
      exact ⟨m', by omega, hdone⟩

end Helpful

end Machine

end Ch32fun
