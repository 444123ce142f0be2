import Ch32fun.Machine.Tally
import Mathlib.Data.List.DropRight
import Mathlib.Tactic.Ring

/-!
# Two bounded queues, one behind the other

Entries arrive in batches in a first queue of at most `m` entries, which drops the oldest ones when
there is no room.  Now and then all of them are passed on: each becomes an entry of a second queue,
or nothing, and the second queue, of at most `n` entries, drops the newest ones when there is no
room.  From there they are taken one by one.

* `relay` : the machine.
* `Relay.Lossless` : what arrived was passed on or waits, and what came through was taken or waits.
* `Relay.flow` : nothing is ever invented, doubled or reordered, and what is lost is the sum of what
  did not fit at each step; so nothing is lost exactly when everything fitted.
-/

namespace Ch32fun

/-- The two queues, and what becomes of an entry that is passed on. -/
structure Relay (α β : Type*) where
  waiting : List α
  ready : List β
  convert : α → Option β

/-- What happens to the queues. -/
inductive RelayInput (α β : Type*)
  | arrive (xs : List α)
  | pass
  | take
  | change (convert : α → Option β)

/-- What can be observed of the queues. -/
inductive RelayEvent (α β : Type*)
  | arrived (xs : List α)
  /-- An entry left the first queue, and this came through. -/
  | passed (x : α) (y : Option β)
  | taken (y : β)

/-- The queues with room for `m` and `n` entries. -/
def relay (α β : Type*) (m n : ℕ) : Machine (Relay α β) (RelayInput α β) (RelayEvent α β) where
  step r
    | .arrive xs => some ({ r with waiting := (r.waiting ++ xs).rtake m }, [.arrived xs])
    | .pass => some
      ({ r with waiting := [], ready := (r.ready ++ r.waiting.filterMap r.convert).take n },
        r.waiting.map fun x => .passed x (r.convert x))
    | .take => some ({ r with ready := r.ready.tail }, (r.ready.head?.map .taken).toList)
    | .change convert => some ({ r with convert }, [])

namespace RelayEvent

variable {α β : Type*}

/-- The entries that arrive with an event. -/
@[simp] def arrivals : RelayEvent α β → List α
  | arrived xs => xs
  | _ => []

/-- The entry that is passed on. -/
@[simp] def passes : RelayEvent α β → List α
  | passed x _ => [x]
  | _ => []

/-- What comes through. -/
@[simp] def results : RelayEvent α β → List β
  | passed _ y => y.toList
  | _ => []

/-- The entry that is taken. -/
@[simp] def takes : RelayEvent α β → List β
  | taken y => [y]
  | _ => []

end RelayEvent

namespace Relay

open Machine

variable {α β : Type*} {m n : ℕ} {r r' : Relay α β} {a : RelayInput α β}
  {as : List (RelayInput α β)} {o log : List (RelayEvent α β)}

/-- The entries that arrived, in order. -/
def arrivals (log : List (RelayEvent α β)) : List α := log.flatMap RelayEvent.arrivals

/-- The entries that were passed on, in order. -/
def passes (log : List (RelayEvent α β)) : List α := log.flatMap RelayEvent.passes

/-- What came through, in order. -/
def results (log : List (RelayEvent α β)) : List β := log.flatMap RelayEvent.results

/-- The entries that were taken, in order. -/
def takes (log : List (RelayEvent α β)) : List β := log.flatMap RelayEvent.takes

section Log

variable (l l' : List (RelayEvent α β))

@[simp] theorem arrivals_append : arrivals (l ++ l') = arrivals l ++ arrivals l' :=
  List.flatMap_append

@[simp] theorem passes_append : passes (l ++ l') = passes l ++ passes l' := List.flatMap_append

@[simp] theorem results_append : results (l ++ l') = results l ++ results l' :=
  List.flatMap_append

@[simp] theorem takes_append : takes (l ++ l') = takes l ++ takes l' := List.flatMap_append

end Log

/-- What arrived was passed on or waits, and what came through was taken or waits. -/
def Lossless (r : Relay α β) (log : List (RelayEvent α β)) : Prop :=
  passes log ++ r.waiting = arrivals log ∧ takes log ++ r.ready = results log

/-- The same, but for entries that are missing. -/
def Ordered (r : Relay α β) (log : List (RelayEvent α β)) : Prop :=
  (passes log ++ r.waiting).Sublist (arrivals log) ∧
    (takes log ++ r.ready).Sublist (results log)

/-- The entries that an arrival pushes out of the first queue. -/
def pushedOut (m : ℕ) (r : Relay α β) : RelayInput α β → ℕ
  | .arrive xs => r.waiting.length + xs.length - m
  | _ => 0

/-- The entries for which the second queue has no room. -/
def turnedAway (n : ℕ) (r : Relay α β) : RelayInput α β → ℕ
  | .pass => r.ready.length + (r.waiting.filterMap r.convert).length - n
  | _ => 0

/-- How many entries of those that arrived are missing. -/
def missing (r : Relay α β) (log : List (RelayEvent α β)) : ℤ :=
  (arrivals log).length - ((passes log).length + r.waiting.length)

/-- How many entries of those that came through are missing. -/
def missingResults (r : Relay α β) (log : List (RelayEvent α β)) : ℤ :=
  (results log).length - ((takes log).length + r.ready.length)

/-! ### The log of a step -/

section PassLog

variable (xs : List α) (f : α → Option β)

theorem arrivals_pass : arrivals (xs.map fun x => .passed x (f x)) = [] := by
  simp [arrivals, List.flatMap_map]

theorem passes_pass : passes (xs.map fun x => .passed x (f x)) = xs := by
  simp [passes, List.flatMap_map]

theorem results_pass : results (xs.map fun x => .passed x (f x)) = xs.filterMap f := by
  rw [results, List.flatMap_map, List.filterMap_eq_flatMap_toList]
  rfl

theorem takes_pass : takes (xs.map fun x => .passed x (f x)) = [] := by
  simp [takes, List.flatMap_map]

end PassLog

/-! ### Steps -/

theorem Ordered.step (h : r.Ordered log) (hst : (relay α β m n).step r a = some (r', o)) :
    r'.Ordered (log ++ o) := by
  obtain ⟨hfirst, hsecond⟩ := h
  cases a with
  | arrive xs =>
    cases hst
    constructor
    · have hkept : ((r.waiting ++ xs).rtake m).Sublist (r.waiting ++ xs) := List.drop_sublist ..
      simpa [arrivals, passes] using
        (hkept.append_left (passes log)).trans
          ((List.append_assoc ..).symm ▸ hfirst.append_right xs)
    · simpa [takes, results] using hsecond
  | pass =>
    cases hst
    constructor
    · rw [passes_append, passes_pass, arrivals_append, arrivals_pass, List.append_nil,
        List.append_nil]
      exact hfirst
    · rw [takes_append, takes_pass, results_append, results_pass, List.append_nil]
      dsimp only
      refine List.Sublist.trans ((List.take_sublist ..).append_left _) ?_
      rw [← List.append_assoc]
      exact hsecond.append_right _
  | take =>
    cases hst
    constructor
    · cases hr : r.ready <;> simpa [hr, arrivals, passes] using hfirst
    · cases hr : r.ready <;> simpa [hr, takes, results] using hsecond
  | change f =>
    cases hst
    rw [List.append_nil]
    exact ⟨hfirst, hsecond⟩

theorem missing_step (hst : (relay α β m n).step r a = some (r', o)) :
    r'.missing (log ++ o) = r.missing log + pushedOut m r a := by
  unfold missing
  cases a with
  | arrive xs =>
    cases hst
    simp only [arrivals, passes, List.rtake, pushedOut, List.flatMap_append, List.length_append,
      List.length_drop, List.flatMap_singleton, RelayEvent.arrivals, RelayEvent.passes,
      List.length_nil]
    omega
  | pass =>
    cases hst
    rw [arrivals_append, arrivals_pass, passes_append, passes_pass, List.append_nil,
      List.length_append]
    simp [pushedOut]
  | take =>
    cases hst
    cases hr : r.ready <;> simp [arrivals, passes, pushedOut]
  | change f =>
    cases hst
    simp [pushedOut]

theorem missingResults_step (hst : (relay α β m n).step r a = some (r', o)) :
    r'.missingResults (log ++ o) = r.missingResults log + turnedAway n r a := by
  unfold missingResults
  cases a with
  | arrive xs =>
    cases hst
    simp [results, takes, turnedAway]
  | pass =>
    cases hst
    rw [results_append, results_pass, takes_append, takes_pass, List.append_nil,
      List.length_append, turnedAway]
    dsimp only
    rw [List.length_take, List.length_append]
    omega
  | take =>
    cases hst
    cases hr : r.ready with
    | nil => simp [takes, results, turnedAway]
    | cons y ready =>
      simp [takes, results, turnedAway]
      omega
  | change f =>
    cases hst
    simp [turnedAway]

/-! ### Runs -/

theorem lossless_iff (h : r.Ordered log) :
    r.Lossless log ↔ r.missing log = 0 ∧ r.missingResults log = 0 := by
  obtain ⟨hfirst, hsecond⟩ := h
  unfold Lossless missing missingResults
  constructor
  · rintro ⟨hl, hl'⟩
    rw [← hl, ← hl', List.length_append, List.length_append]
    omega
  · rintro ⟨hz, hz'⟩
    refine ⟨hfirst.eq_of_length ?_, hsecond.eq_of_length ?_⟩ <;>
    · rw [List.length_append]
      omega

/-- **The flow through two queues.**  Nothing is invented, doubled or reordered; what is missing is
the sum of what did not fit; so nothing is lost exactly when these sums are zero. -/
theorem flow {f : α → Option β} (h : (relay α β m n).Run Free ⟨[], [], f⟩ as log r) :
    r.Ordered log ∧
      (arrivals log).length = (passes log).length + r.waiting.length +
        (relay α β m n).tally (pushedOut m) ⟨[], [], f⟩ as ∧
      (results log).length = (takes log).length + r.ready.length +
        (relay α β m n).tally (turnedAway n) ⟨[], [], f⟩ as ∧
      (r.Lossless log ↔ (relay α β m n).tally (pushedOut m) ⟨[], [], f⟩ as = 0 ∧
        (relay α β m n).tally (turnedAway n) ⟨[], [], f⟩ as = 0) := by
  have hordered : r.Ordered log := by
    simpa using h.invariant Ordered [] ⟨List.Sublist.refl _, List.Sublist.refl _⟩
      fun _ _ _ _ _ hi _ hst => hi.step hst
  have hfirst := h.measure_eq (f := pushedOut m) missing [] fun _ _ _ _ _ hst => missing_step hst
  have hsecond := h.measure_eq (f := turnedAway n) missingResults [] fun _ _ _ _ _ hst =>
    missingResults_step hst
  have hnone : missing (⟨[], [], f⟩ : Relay α β) [] = 0 := rfl
  have hnone' : missingResults (⟨[], [], f⟩ : Relay α β) [] = 0 := rfl
  rw [List.nil_append, hnone, Int.zero_add] at hfirst
  rw [List.nil_append, hnone', Int.zero_add] at hsecond
  refine ⟨hordered, ?_, ?_, ?_⟩
  · unfold missing at hfirst
    omega
  · unfold missingResults at hsecond
    omega
  · rw [lossless_iff hordered, hfirst, hsecond, Int.natCast_eq_zero, Int.natCast_eq_zero]

end Relay

end Ch32fun
