import Ch32fun.Machine.Refine

/-!
# What a run costs

Every step of a machine may have a cost, which depends on the state and the input.

* `Machine.tally` : the sum of the costs of the steps.
* `Machine.Run.measure_eq` : a measure of the state and of the log that every step raises by its
  cost is raised by a run by the sum.
* `Machine.Run.tally_eq_zero_iff` : nothing is paid exactly when no step costs anything.
* `Machine.Simulates.tally_eq` : the sum is the same for a machine that stands for this one, when
  it is for every step.
-/

namespace Ch32fun

namespace Machine

variable {S T I J O P : Type*} {M : Machine S I O} {N : Machine T J P}
variable {G : S → I → Prop} {H : T → J → Prop} {f : S → I → ℕ} {g : T → J → ℕ}
variable {s s' : S} {t t' : T} {as : List I} {bs bs' : List J} {os : List O} {ps : List P}

/-- The sum of the costs of the steps; a step that cannot happen ends it. -/
def tally (M : Machine S I O) (f : S → I → ℕ) : S → List I → ℕ
  | _, [] => 0
  | s, a :: as =>
    match M.step s a with
    | none => 0
    | some (s', _) => f s a + M.tally f s' as

theorem tally_nil : M.tally f s [] = 0 := rfl

theorem tally_cons {a : I} {o : List O} (h : M.step s a = some (s', o)) :
    M.tally f s (a :: as) = f s a + M.tally f s' as := by
  rw [tally, h]

theorem tally_single {a : I} {o : List O} (h : M.step s a = some (s', o)) :
    M.tally f s [a] = f s a := by
  rw [tally_cons h, tally_nil, Nat.add_zero]

theorem Run.tally_append (h : N.Run H t bs ps t') :
    N.tally g t (bs ++ bs') = N.tally g t bs + N.tally g t' bs' := by
  induction h with
  | nil t => rw [List.nil_append, tally_nil, Nat.zero_add]
  | cons _ hst _ ih => rw [List.cons_append, tally_cons hst, tally_cons hst, ih, Nat.add_assoc]

/-- **Costs add up.** -/
theorem Run.measure_eq (μ : S → List O → ℤ) (log : List O) (h : M.Run G s as os s')
    (hstep : ∀ s a s' o log, M.step s a = some (s', o) → μ s' (log ++ o) = μ s log + f s a) :
    μ s' (log ++ os) = μ s log + M.tally f s as := by
  induction h generalizing log with
  | nil s => rw [List.append_nil, tally_nil, Int.natCast_zero, Int.add_zero]
  | cons _ hst _ ih =>
    rw [← List.append_assoc, ih, hstep _ _ _ _ log hst, tally_cons hst, Int.natCast_add,
      Int.add_assoc]

/-- **Nothing is paid exactly when no step costs anything.** -/
theorem Run.tally_eq_zero_iff (h : M.Run G s as os s') :
    M.tally f s as = 0 ↔ M.Run (fun s a => f s a = 0) s as os s' := by
  induction h with
  | nil s => exact ⟨fun _ => .nil s, fun _ => rfl⟩
  | cons _ hst _ ih =>
    rw [tally_cons hst, Nat.add_eq_zero_iff, ih]
    constructor
    · rintro ⟨hzero, hr⟩
      exact .cons hzero hst hr
    · intro h'
      obtain ⟨s₁, o, os', hzero, hst', hr, hos⟩ := Run.cons_iff.1 h'
      have he := hst.symm.trans hst'
      cases he
      exact ⟨hzero, by rwa [List.append_cancel_left hos]⟩

variable {R : S → T → Prop} {input : I → List J} {output : O → List P}

/-- **The sum is the same for a machine that stands for this one**, when it is for every step. -/
theorem Simulates.tally_eq (h : Simulates M N G H R input output) (hR : R s t)
    (hrun : M.Run G s as os s')
    (hcost : ∀ s t a, R s t → f s a = N.tally g t (input a)) :
    M.tally f s as = N.tally g t (as.flatMap input) := by
  induction hrun generalizing t with
  | nil s => rfl
  | cons hg hst _ ih =>
    obtain ⟨t₁, h₁, hR₁⟩ := h.step hR hg hst
    rw [tally_cons hst, hcost _ _ _ hR, ih hR₁, List.flatMap_cons, h₁.tally_append]

end Machine

end Ch32fun
