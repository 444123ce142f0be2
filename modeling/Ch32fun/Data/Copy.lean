import Mathlib.Logic.Function.Basic
import Mathlib.Data.Nat.Init
import Mathlib.Order.Nat

/-!
# Forward copies between overlapping ranges

A loop copies the entries of one range to another, one by one from the first on, in the memory it
is itself changing.  Where the ranges overlap it may read what it has written.

* `copyForward mem a b n` : the `n` entries from `b` on copied to `a`.
* `Simultaneous` : the result of a copy that reads everything before it writes anything.
* `copyForward_of_le`, `copyForward_of_lt` : the entries copied, to the left and to the right.  To
  the right the first entries of the source are repeated.
* `copyForward_simultaneous_iff` : the loop is a simultaneous copy exactly when the source is not
  on the left, or repeats itself with the distance of the ranges as its period.
-/

namespace Ch32fun

variable {α : Type*} {mem mem' : ℕ → α} {a b n i : ℕ}

/-- Copy the `n` entries from `b` on to `a`, one by one from the first on. -/
def copyForward (mem : ℕ → α) (a b : ℕ) : ℕ → ℕ → α
  | 0 => mem
  | n + 1 =>
    let mem' := copyForward mem a b n
    Function.update mem' (a + n) (mem' (b + n))

/-- The entries from `a` on are the old ones from `b` on, and no other entry has changed. -/
structure Simultaneous (mem mem' : ℕ → α) (a b n : ℕ) : Prop where
  copied : ∀ i, i < n → mem' (a + i) = mem (b + i)
  frame : ∀ x, x < a ∨ a + n ≤ x → mem' x = mem x

/-- The entries of the source repeat themselves with period `k`. -/
def Periodic (mem : ℕ → α) (b n k : ℕ) : Prop := ∀ i, i + k < n → mem (b + (i + k)) = mem (b + i)

theorem copyForward_frame (mem : ℕ → α) (b : ℕ) {x : ℕ} (h : x < a ∨ a + n ≤ x) :
    copyForward mem a b n x = mem x := by
  induction n with
  | zero => rfl
  | succ n ih =>
    rw [copyForward, Function.update_of_ne (by omega)]
    exact ih (by omega)

/-- An entry has its value from the turn that copies it. -/
theorem copyForward_turn (mem : ℕ → α) (a b : ℕ) (h : i < n) :
    copyForward mem a b n (a + i) = copyForward mem a b i (b + i) := by
  induction n with
  | zero => cases h
  | succ n ih =>
    rw [copyForward]
    by_cases hi : i = n
    · rw [hi, Function.update_self]
    · rw [Function.update_of_ne (by omega)]
      exact ih (by omega)

/-- **To the left** every entry is read before it is written. -/
theorem copyForward_of_le (mem : ℕ → α) (hab : a ≤ b) (h : i < n) :
    copyForward mem a b n (a + i) = mem (b + i) := by
  rw [copyForward_turn mem a b h]
  exact copyForward_frame mem b (by omega)

/-- **To the right** an entry beyond the distance of the ranges is one that was copied before. -/
theorem copyForward_of_lt (mem : ℕ → α) (hba : b < a) (h : i < n) :
    copyForward mem a b n (a + i) =
      if i < a - b then mem (b + i) else copyForward mem a b n (a + (i - (a - b))) := by
  rw [copyForward_turn mem a b h]
  split_ifs with hi
  · exact copyForward_frame mem b (by omega)
  · rw [show b + i = a + (i - (a - b)) by omega, copyForward_turn mem a b (by omega),
      copyForward_turn mem a b (by omega)]

/-- **When a forward copy is simultaneous.** -/
theorem copyForward_simultaneous_iff (mem : ℕ → α) (a b n : ℕ) :
    Simultaneous mem (copyForward mem a b n) a b n ↔ a ≤ b ∨ Periodic mem b n (a - b) := by
  constructor
  · intro h
    by_cases hab : a ≤ b
    · exact .inl hab
    refine .inr fun i hi => ?_
    have hturn := copyForward_of_lt mem (Nat.lt_of_not_le hab) hi
    rw [if_neg (by omega), Nat.add_sub_cancel] at hturn
    rw [← h.copied _ hi, hturn, h.copied i (by omega)]
  · intro h
    refine ⟨?_, fun x hx => copyForward_frame mem b hx⟩
    rcases h with hab | hper
    · exact fun i hi => copyForward_of_le mem hab hi
    intro i
    -- by strong induction, as an entry may come from one that was copied before
    induction i using Nat.strong_induction_on with
    | _ i ih =>
      intro hi
      rcases Nat.lt_or_ge b a with hba | hab
      · rw [copyForward_of_lt mem hba hi]
        split_ifs with hlt
        · rfl
        · have hback := hper (i - (a - b)) (by omega)
          rw [Nat.sub_add_cancel (by omega)] at hback
          rw [ih _ (by omega) (by omega), hback]
      · exact copyForward_of_le mem hab hi

theorem periodic_of_disjoint (mem : ℕ → α) (h : b + n ≤ a) : Periodic mem b n (a - b) :=
  fun i hi => by omega

end Ch32fun
