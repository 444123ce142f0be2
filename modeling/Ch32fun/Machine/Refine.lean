import Ch32fun.Machine.Basic

/-!
# One machine as another sees it

`Simulates` : whenever a machine takes a step, a second machine can take the steps that stand for
its input, with the observations that stand for its observations, and the states stay related.  So
every run of the first is a run of the second (`Simulates.run`), and what holds of all runs of the
second holds of the first.
-/

namespace Ch32fun

namespace Machine

variable {S T I J O P : Type*}

/-- Steps of `M` that the guard `G` allows are steps of `N` on related states; an input `a` of `M`
stands for the inputs `input a` of `N`, an observation `o` for `output o`. -/
structure Simulates (M : Machine S I O) (N : Machine T J P) (G : S → I → Prop) (H : T → J → Prop)
    (R : S → T → Prop) (input : I → List J) (output : O → List P) : Prop where
  step : ∀ {s t a s' o}, R s t → G s a → M.step s a = some (s', o) →
    ∃ t', N.Run H t (input a) (o.flatMap output) t' ∧ R s' t'

variable {M : Machine S I O} {N : Machine T J P} {G : S → I → Prop} {H : T → J → Prop}
  {R : S → T → Prop} {input : I → List J} {output : O → List P} {s s' : S} {t : T} {as : List I}
  {os : List O}

/-- **Every run is a run of the other machine.** -/
theorem Simulates.run (h : Simulates M N G H R input output) (hR : R s t)
    (hrun : M.Run G s as os s') :
    ∃ t', N.Run H t (as.flatMap input) (os.flatMap output) t' ∧ R s' t' := by
  induction hrun generalizing t with
  | nil s => exact ⟨t, .nil t, hR⟩
  | cons hg hst _ ih =>
    obtain ⟨t₁, h₁, hR₁⟩ := h.step hR hg hst
    obtain ⟨t', h', hR'⟩ := ih hR₁
    refine ⟨t', ?_, hR'⟩
    rw [List.flatMap_append]
    exact h₁.append h'

end Machine

end Ch32fun
