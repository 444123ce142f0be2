import Ch32fun.Machine.Calls

/-!
# Routines on a part of the globals

A routine that knows only the first part of the globals runs beside whatever uses the second part,
for instance a flag by which an interrupt handler reports that it has changed the first one.

* `Routine.onFst` : the routine, on globals of two parts.
* `Beside` : what a handler does to the first part is what another one does there, or nothing;
  `Routine.Triple.onFst` : the triples that hold beside the other one hold beside it.
* `Routine.Triple.frame` : what the interrupts keep of the second part, the routine keeps.
* `Routine.Triple.perform_or` : **the rule for reported interrupts.**  When every interrupt that
  changes the first part is reported in the second, the routine either does what it does without
  interruption, or the report is there.
* `Routine.Triple.and`, `Routine.Triple.ex` : two triples of one routine, and the triples for every
  value of a parameter, as one.
-/

namespace Ch32fun

universe u v w x

namespace Routine

variable {S : Type u} {T : Type x} {O : Type v} {α : Type w} {I J' : Type*}

/-- The routine on globals of two parts. -/
def onFst (T : Type x) : Routine S O α → Routine (S × T) O α
  | ret a => ret a
  | stmt f k => stmt (fun x => (((f x.1).1, x.2), (f x.1).2)) fun x => onFst T (k x.1)
  | await t k => await (fun x => (t x.1).map fun y => ((y.1, x.2), y.2)) (onFst T k)

/-! ### Several assertions at once -/

section And

variable {H : S → I → Option (S × List O)} {G : S → I → Prop} {r : Routine S O α}
variable {J J' P P' : S → List O → Prop} {Q Q' : α → S → List O → Prop}

theorem Admissible.and (h : Admissible H G J P) (h' : Admissible H G J' P') :
    Admissible H G (fun s log => J s log ∧ J' s log) fun s log => P s log ∧ P' s log where
  inv hp := ⟨h.inv hp.1, h'.inv hp.2⟩
  stable hp hG hi := ⟨h.stable hp.1 hG hi, h'.stable hp.2 hG hi⟩

theorem Admissible.ex {ι : Type*} {P : ι → S → List O → Prop}
    (h : ∀ i, Admissible H G J (P i)) : Admissible H G J fun s log => ∃ i, P i s log where
  inv := by
    rintro s log ⟨i, hp⟩
    exact (h i).inv hp
  stable := by
    rintro s _ s' o log ⟨i, hp⟩ hG hi
    exact ⟨i, (h i).stable hp hG hi⟩

theorem Triple.and (h : Triple H G J P r Q) (h' : Triple H G J' P' r Q') :
    Triple H G (fun s log => J s log ∧ J' s log) (fun s log => P s log ∧ P' s log) r
      fun a s log => Q a s log ∧ Q' a s log := by
  induction r generalizing P P' with
  | ret a => exact fun s log hp => ⟨h s log hp.1, h' s log hp.2⟩
  | stmt f k ih =>
    obtain ⟨R, hf, hk⟩ := h
    obtain ⟨R', hf', hk'⟩ := h'
    exact ⟨fun t s log => R t s log ∧ R' t s log,
      fun s log hp => ⟨hf s log hp.1, hf' s log hp.2⟩,
      fun s => ⟨(hk s).1.and (hk' s).1, ih s (hk s).2 (hk' s).2⟩⟩
  | await t k ih =>
    obtain ⟨R, ht, hR, hk⟩ := h
    obtain ⟨R', ht', hR', hk'⟩ := h'
    exact ⟨fun s log => R s log ∧ R' s log,
      fun s s' o log hp hts => ⟨ht s s' o log hp.1 hts, ht' s s' o log hp.2 hts⟩,
      hR.and hR', ih hk hk'⟩

theorem Triple.ex {ι : Type*} {P : ι → S → List O → Prop}
    (h : ∀ i, Triple H G J (P i) r Q) :
    Triple H G J (fun s log => ∃ i, P i s log) r Q := by
  induction r generalizing P with
  | ret a =>
    rintro s log ⟨i, hp⟩
    exact h i s log hp
  | stmt f k ih =>
    choose R hf hk using h
    refine ⟨fun t s log => ∃ i, R i t s log, ?_, fun s => ⟨.ex fun i => (hk i s).1,
      ih s fun i => (hk i s).2⟩⟩
    rintro s log ⟨i, hp⟩
    exact ⟨i, hf i s log hp⟩
  | await t k ih =>
    choose R ht hR hk using h
    refine ⟨fun s log => ∃ i, R i s log, ?_, .ex hR, ih hk⟩
    rintro s s' o log ⟨i, hp⟩ hts
    exact ⟨i, ht i s s' o log hp hts⟩

/-- Nothing has to be shown of the boundaries when the invariant is trivial and the interrupts keep
the assertion. -/
theorem Admissible.free (h : ∀ {s i s' o log}, P s log → G s i → H s i = some (s', o) →
    P s' (log ++ o)) : Admissible H G (fun _ _ => True) P := ⟨fun _ => trivial, h⟩

end And

/-! ### A handler beside another one -/

section Beside

variable {H₁ : S → J' → Option (S × List O)} {G₁ : S → J' → Prop}
variable {H : S × T → I → Option ((S × T) × List O)} {G : S × T → I → Prop}
variable {J P : S → List O → Prop} {r : Routine S O α} {Q : α → S → List O → Prop}

variable (H₁ G₁ H G) in
/-- What `H` does to the first part is what `H₁` does there, or nothing. -/
def Beside : Prop := ∀ ⦃x i x' o⦄, G x i → H x i = some (x', o) →
  (x'.1 = x.1 ∧ o = []) ∨ ∃ j, G₁ x.1 j ∧ H₁ x.1 j = some (x'.1, o)

theorem Admissible.onFst (hH : Beside H₁ G₁ H G) (h : Admissible H₁ G₁ J P) :
    Admissible H G (fun x => J x.1) fun x => P x.1 where
  inv := h.inv
  stable {x i x' o log} hp hG hi := by
    obtain ⟨hfst, rfl⟩ | ⟨j, hG₁, hj⟩ := hH hG hi
    · rw [hfst, List.append_nil]
      exact hp
    · exact h.stable hp hG₁ hj

/-- The triples that hold beside the one handler hold beside the other. -/
theorem Triple.onFst (hH : Beside H₁ G₁ H G) (h : Triple H₁ G₁ J P r Q) :
    Triple H G (fun x => J x.1) (fun x => P x.1) (r.onFst T) fun a x => Q a x.1 := by
  induction r generalizing P with
  | ret a => exact fun x log hp => h x.1 log hp
  | stmt f k ih =>
    obtain ⟨R, hf, hk⟩ := h
    exact ⟨fun t x => R t.1 x.1, fun x log hp => hf x.1 log hp,
      fun x => ⟨(hk x.1).1.onFst hH, ih x.1 (hk x.1).2⟩⟩
  | await t k ih =>
    obtain ⟨R, ht, hR, hk⟩ := h
    refine ⟨fun x => R x.1, fun x x' o log hp hts => ?_, hR.onFst hH, ih hk⟩
    obtain ⟨y, hy, he⟩ := Option.map_eq_some_iff.1 hts
    cases he
    exact ht _ _ _ _ hp hy

end Beside

/-! ### What is reported in the second part -/

section Reported

variable {H : S × T → I → Option ((S × T) × List O)} {G : S × T → I → Prop} {W : T → Prop}

theorem Triple.frame (hW : ∀ x i x' o, W x.2 → G x i → H x i = some (x', o) → W x'.2)
    (r : Routine S O α) : Triple H G (fun _ _ => True) (fun x _ => W x.2) (r.onFst T)
      fun _ x _ => W x.2 := by
  have hadm : Admissible H G (fun _ _ => True) fun x _ => W x.2 := .free (hW _ _ _ _)
  induction r with
  | ret a => exact fun x log hp => hp
  | stmt f k ih => exact ⟨fun _ x _ => W x.2, fun x log hp => hp, fun x => ⟨hadm, ih x.1⟩⟩
  | await t k ih =>
    refine ⟨fun x _ => W x.2, fun x x' o log hp hts => ?_, hadm, ih⟩
    obtain ⟨y, -, he⟩ := Option.map_eq_some_iff.1 hts
    cases he
    exact hp

/-- **The rule for reported interrupts.** -/
theorem Triple.perform_or (hW : ∀ x i x' o, W x.2 → G x i → H x i = some (x', o) → W x'.2)
    (hH : ∀ x i x' o, G x i → H x i = some (x', o) → x'.1 = x.1 ∨ W x'.2)
    (r : Routine S O α) (s : S) :
    Triple H G (fun _ _ => True) (fun x _ => x.1 = s ∨ W x.2) (r.onFst T)
      fun a x _ => (∃ o, r.perform s = some (a, x.1, o)) ∨ W x.2 := by
  have hadm : ∀ s, Admissible H G (fun _ _ => True) fun x _ => x.1 = s ∨ W x.2 := by
    refine fun s => .free ?_
    rintro x i x' o log (rfl | hw) hG hi
    · exact hH _ _ _ _ hG hi
    · exact .inr (hW _ _ _ _ hw hG hi)
  induction r generalizing s with
  | ret a =>
    rintro x log (rfl | hw)
    · exact .inl ⟨[], rfl⟩
    · exact .inr hw
  | stmt f k ih =>
    -- what follows is what follows in `s`, or the report is there
    refine ⟨fun t x _ => (t.1 = s ∧ x.1 = (f s).1) ∨ W x.2, ?_, fun t => ⟨.free ?_, ?_⟩⟩
    · rintro x log (rfl | hw)
      · exact .inl ⟨rfl, rfl⟩
      · exact .inr hw
    · rintro x i x' o log (⟨ht, hx⟩ | hw) hG hi
      · exact (hH _ _ _ _ hG hi).imp (fun he => ⟨ht, he.trans hx⟩) id
      · exact .inr (hW _ _ _ _ hw hG hi)
    · by_cases ht : t.1 = s
      · subst ht
        refine ((ih t.1 (f t.1).1).pre fun x log h => h.imp And.right id).post
          fun a x log h => h.imp ?_ id
        rintro ⟨o, ho⟩
        exact ⟨_, by rw [perform, ho]; rfl⟩
      · refine ((frame hW (k t.1)).pre fun x log h => ?_).post fun _ _ _ => .inr
        exact h.resolve_left fun he => ht he.1
  | await t k ih =>
    cases hts : t s with
    | none =>
      -- the wait ends only after an interrupt
      refine ⟨fun x _ => W x.2, fun x x' o log hp ht => ?_, .free (hW _ _ _ _),
        (frame hW k).post fun _ _ _ => .inr⟩
      obtain ⟨y, hy, he⟩ := Option.map_eq_some_iff.1 ht
      cases he
      refine hp.resolve_left fun he => ?_
      rw [he, hts] at hy
      cases hy
    | some y =>
      refine ⟨fun x _ => x.1 = y.1 ∨ W x.2, fun x x' o log hp ht => ?_, hadm y.1,
        (ih y.1).post fun a x log h => h.imp ?_ id⟩
      · obtain ⟨z, hz, he⟩ := Option.map_eq_some_iff.1 ht
        cases he
        refine hp.imp (fun he => ?_) id
        rw [he, hts] at hz
        cases hz
        rfl
      · rintro ⟨o, ho⟩
        exact ⟨_, by rw [perform, hts, Option.bind_some]; dsimp only; rw [ho]; rfl⟩

/-- What the routine does without interruption it does, or the report is there. -/
theorem Triple.of_perform (hW : ∀ x i x' o, W x.2 → G x i → H x i = some (x', o) → W x'.2)
    (hH : ∀ x i x' o, G x i → H x i = some (x', o) → x'.1 = x.1 ∨ W x'.2)
    {r : Routine S O α} {p q : S → Prop}
    (h : ∀ s a s' o, p s → r.perform s = some (a, s', o) → q s') :
    Triple H G (fun _ _ => True) (fun x _ => p x.1 ∨ W x.2) (r.onFst T)
      fun _ x _ => q x.1 ∨ W x.2 := by
  refine (Triple.ex (P := fun s x _ => p s ∧ x.1 = s ∨ W x.2) fun s => ?_).pre
    fun x log hp => ⟨x.1, hp.imp (fun hx => ⟨hx, rfl⟩) id⟩
  by_cases hs : p s
  · refine ((perform_or hW hH r s).pre fun x log hp => hp.imp And.right id).post
      fun a x log hq => hq.imp ?_ id
    rintro ⟨o, ho⟩
    exact h s a x.1 o hs ho
  · refine ((frame hW r).pre fun x log hp => ?_).post fun _ _ _ => .inr
    exact hp.resolve_left fun hx => hs hx.1

end Reported

end Routine

end Ch32fun
