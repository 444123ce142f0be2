import Ch32fun.Data.Block

/-!
# Ring buffers with one free slot

The ring buffer of an interrupt handler and a reader: an array of `n` entries, a `head` where the
next entry is stored and a `tail` where the oldest one is read.  The ring is empty when the two
are equal, so that one slot always stays free; an entry that finds no room is dropped.

* `Ring.stored` : the entries of the ring, from the oldest to the newest.
* `Ring.push`, `Ring.pop`, `Ring.count` : the operations, in terms of the two indices.
* `Ring.stored_push_of_lt`, `Ring.push_of_full`, `Ring.stored_eq_cons` : they are those of a queue
  of at most `n - 1` entries.
* `Ring.stored_pushAll` : several entries pushed one after the other; what does not fit is dropped
  from the end.
-/

namespace Ch32fun

/-- A ring of `n` slots. -/
structure Ring (α : Type*) (n : ℕ) where
  buf : Block α n
  /-- The slot of the next entry. -/
  head : ℕ
  /-- The slot of the oldest entry. -/
  tail : ℕ
  head_lt : head < n
  tail_lt : tail < n

namespace Ring

variable {α : Type*} {n : ℕ} (r : Ring α n) (x : α)

theorem pos (r : Ring α n) : 0 < n := Nat.zero_lt_of_lt r.head_lt

/-- `(i + 1) % n`. -/
def next (n i : ℕ) : ℕ := (i + 1) % n

/-- The ring with all entries default and both indices zero. -/
def empty [Inhabited α] (h : 0 < n) : Ring α n := ⟨fun _ => default, 0, 0, h, h⟩

/-- Store an entry, unless there is no room. -/
def push : Ring α n :=
  if next n r.head ≠ r.tail then
    { r with
      buf := Function.update r.buf ⟨r.head, r.head_lt⟩ x
      head := next n r.head
      head_lt := Nat.mod_lt _ r.pos }
  else r

/-- The entry at the tail. -/
def front : α := r.buf ⟨r.tail, r.tail_lt⟩

/-- Move the tail on. -/
def advance : Ring α n := { r with tail := next n r.tail, tail_lt := Nat.mod_lt _ r.pos }

/-- Take the oldest entry. -/
def pop : Option (α × Ring α n) := if r.head = r.tail then none else some (r.front, r.advance)

/-- The number of entries. -/
def count : ℕ := if r.tail ≤ r.head then r.head - r.tail else (n - r.tail) + r.head

/-- The slot of the entry number `k`. -/
def slot (k : ℕ) : Fin n := ⟨(r.tail + k) % n, Nat.mod_lt _ r.pos⟩

/-- The entries, the oldest first. -/
def stored : List α := (List.range r.count).map fun k => r.buf (r.slot k)

/-- Store several entries. -/
def pushAll (xs : List α) : Ring α n := xs.foldl push r

/-! ### The indices -/

theorem next_eq (i : ℕ) (h : i < n) : next n i = if i + 1 = n then 0 else i + 1 := by
  unfold next
  split_ifs with hi
  · rw [hi, Nat.mod_self]
  · exact Nat.mod_eq_of_lt (by omega)

theorem mod_eq (i : ℕ) (h : i < 2 * n) : i % n = if i < n then i else i - n := by
  split_ifs with hi
  · exact Nat.mod_eq_of_lt hi
  · rw [Nat.mod_eq_sub_mod (by omega)]
    exact Nat.mod_eq_of_lt (by omega)

/-- One slot stays free. -/
theorem count_lt : r.count < n := by
  have hh := r.head_lt
  have ht := r.tail_lt
  unfold count
  split_ifs <;> omega

theorem count_eq_zero_iff : r.count = 0 ↔ r.head = r.tail := by
  have hh := r.head_lt
  have ht := r.tail_lt
  unfold count
  split_ifs <;> omega

theorem ne_of_count_pos (h : 0 < r.count) : r.head ≠ r.tail := fun he => by
  have := r.count_eq_zero_iff.2 he
  omega

theorem head_eq : r.head = (r.tail + r.count) % n := by
  have hh := r.head_lt
  have ht := r.tail_lt
  have hc := r.count_lt
  rw [mod_eq _ (by omega)]
  unfold count at hc ⊢
  split_ifs at * <;> omega

/-- There is no room when all slots but one are used. -/
theorem next_head_eq_iff : next n r.head = r.tail ↔ r.count + 1 = n := by
  have hh := r.head_lt
  have ht := r.tail_lt
  rw [next_eq _ hh]
  unfold count
  split_ifs <;> omega

@[simp] theorem length_stored : r.stored.length = r.count := by simp [stored]

/-! ### Push and pop -/

theorem push_of_full (h : r.count + 1 = n) : r.push x = r :=
  if_neg (not_not.2 (r.next_head_eq_iff.2 h))

theorem push_of_lt (h : r.count + 1 < n) : r.push x =
    { r with
      buf := Function.update r.buf ⟨r.head, r.head_lt⟩ x
      head := next n r.head
      head_lt := Nat.mod_lt _ r.pos } :=
  if_pos fun he => by have := r.next_head_eq_iff.1 he; omega

theorem count_push_of_lt (h : r.count + 1 < n) : (r.push x).count = r.count + 1 := by
  have hh := r.head_lt
  have ht := r.tail_lt
  have hnext := next_eq _ hh
  rw [r.push_of_lt x h]
  unfold count at h ⊢
  dsimp only
  split_ifs at * <;> omega

theorem stored_push_of_lt (h : r.count + 1 < n) : (r.push x).stored = r.stored ++ [x] := by
  have hh := r.head_lt
  have ht := r.tail_lt
  rw [stored, count_push_of_lt r x h, List.range_succ, List.map_append, stored]
  -- the slot written is that of the new entry, and of no older one
  have hslot : ∀ k, k ≤ r.count → ((r.push x).slot k = ⟨r.head, hh⟩ ↔ k = r.count) := by
    intro k hk
    have hlt := r.count_lt
    rw [r.push_of_lt x h, slot, Fin.mk.injEq]
    dsimp only
    rw [mod_eq _ (by omega)]
    unfold count at hk hlt ⊢
    split_ifs at * <;> omega
  congr 1
  · refine List.map_congr_left fun k hk => ?_
    have hk := List.mem_range.1 hk
    have hne := mt (hslot k hk.le).1 (by omega)
    rw [r.push_of_lt x h] at hne ⊢
    exact Function.update_of_ne hne _ _
  · have he := (hslot r.count le_rfl).2 rfl
    rw [List.map_singleton]
    rw [r.push_of_lt x h] at he ⊢
    dsimp only
    rw [he, Function.update_self]

/-- **The oldest entry is the one at the tail.** -/
theorem stored_eq_cons (h : r.head ≠ r.tail) : r.stored = r.front :: r.advance.stored := by
  have hh := r.head_lt
  have ht := r.tail_lt
  have hnext := next_eq _ ht
  obtain ⟨m, hm⟩ : ∃ m, r.count = m + 1 :=
    ⟨r.count - 1, by have := mt r.count_eq_zero_iff.1 h; omega⟩
  have hcount : r.advance.count = m := by
    unfold count at hm ⊢
    unfold advance
    dsimp only
    split_ifs at * <;> omega
  rw [stored, stored, hm, hcount, List.range_succ_eq_map, List.map_cons, List.map_map]
  have hfirst : r.slot 0 = ⟨r.tail, ht⟩ := by
    rw [slot, Fin.mk.injEq, Nat.add_zero, Nat.mod_eq_of_lt ht]
  congr 1
  · rw [hfirst]
    rfl
  · -- entry `k + 1` is entry `k` behind the new tail
    refine List.map_congr_left fun k _ => ?_
    refine congrArg r.buf (Fin.ext ?_)
    change (r.tail + (k + 1)) % n = (next n r.tail + k) % n
    rw [next, Nat.mod_add_mod, Nat.add_right_comm, Nat.add_assoc]

theorem count_advance (h : r.head ≠ r.tail) : r.count = r.advance.count + 1 := by
  rw [← r.length_stored, r.stored_eq_cons h, List.length_cons, length_stored]

theorem pop_of_ne (h : r.head ≠ r.tail) : r.pop = some (r.front, r.advance) := if_neg h

/-! ### Several entries -/

@[simp] theorem pushAll_nil : r.pushAll [] = r := rfl

@[simp] theorem pushAll_cons (xs : List α) : r.pushAll (x :: xs) = (r.push x).pushAll xs := rfl

@[simp] theorem push_tail : (r.push x).tail = r.tail := by
  unfold push
  split_ifs <;> rfl

@[simp] theorem pushAll_tail (xs : List α) : (r.pushAll xs).tail = r.tail := by
  induction xs generalizing r with
  | nil => rfl
  | cons x xs ih => rw [pushAll_cons, ih, push_tail]

theorem pushAll_of_full (xs : List α) (h : r.count + 1 = n) : r.pushAll xs = r := by
  induction xs with
  | nil => rfl
  | cons x xs ih => rw [pushAll_cons, r.push_of_full x h, ih]

/-- **What fits is stored, in order; the rest is dropped.** -/
theorem stored_pushAll (xs : List α) :
    (r.pushAll xs).stored = r.stored ++ xs.take (n - 1 - r.count) := by
  induction xs generalizing r with
  | nil => simp
  | cons x xs ih =>
    have hlt := r.count_lt
    rw [pushAll_cons, ih]
    by_cases h : r.count + 1 = n
    · -- a full ring drops this entry, and all that follow
      rw [r.push_of_full x h, show n - 1 - r.count = 0 by omega]
      simp
    · have hroom : r.count + 1 < n := by omega
      rw [r.stored_push_of_lt x hroom, r.count_push_of_lt x hroom, List.append_assoc,
        show n - 1 - r.count = (n - 1 - (r.count + 1)) + 1 by omega, List.take_succ_cons]
      rfl

theorem count_pushAll (xs : List α) : (r.pushAll xs).count = min (r.count + xs.length) (n - 1) := by
  have h := congrArg List.length (r.stored_pushAll xs)
  have hlt := r.count_lt
  simp only [length_stored, List.length_append, List.length_take] at h
  omega

theorem stored_pushAll_of_le (xs : List α) (h : r.count + xs.length ≤ n - 1) :
    (r.pushAll xs).stored = r.stored ++ xs := by
  rw [stored_pushAll, List.take_of_length_le (by omega)]

theorem pushAll_append (xs ys : List α) :
    r.pushAll (xs ++ ys) = (r.pushAll xs).pushAll ys := List.foldl_append

/-- **When the head passes the end of the array.**  Pushing leads it from above the tail to below
exactly when the entries reach the end and the tail is not at its beginning. -/
theorem tail_le_head_pushAll_iff (xs : List α) (h : r.tail ≤ r.head) :
    r.tail ≤ (r.pushAll xs).head ↔ ¬ (1 ≤ r.tail ∧ n ≤ r.head + xs.length) := by
  have hh := r.head_lt
  have ht := r.tail_lt
  have hcount : r.count = r.head - r.tail := if_pos h
  have hlt := (r.pushAll xs).count_lt
  -- the new head is the tail plus the number of entries, and wraps around at most once
  rw [(r.pushAll xs).head_eq, pushAll_tail, mod_eq _ (by omega)]
  rw [count_pushAll] at hlt ⊢
  split_ifs <;> omega

theorem head_lt_tail_pushAll (xs : List α) (h : r.head < r.tail) :
    (r.pushAll xs).head < r.tail := by
  have ht := r.tail_lt
  have hcount : r.count = (n - r.tail) + r.head := if_neg (by omega)
  have hlt := (r.pushAll xs).count_lt
  rw [(r.pushAll xs).head_eq, pushAll_tail, mod_eq _ (by omega)]
  rw [count_pushAll] at hlt ⊢
  split_ifs <;> omega

end Ring

end Ch32fun
