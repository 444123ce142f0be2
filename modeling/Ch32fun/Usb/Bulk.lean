import Mathlib.Data.List.Basic
import Mathlib.Data.Nat.Init

/-!
# Bulk transfers

On a bulk endpoint a sequence travels in packets of at most `m` entries, and the packets are all
that marks its end: the reader asks for a number of entries, and is done when it has them or when a
packet comes that is shorter than `m`.

* `cut m data` : the packets of a sequence, all of length `m` but the last; none is empty.
* `Bulk.receive m n ps` : a reader that asks for `n` entries, with what it got and the packets that
  are left; a packet with more than it asked for is an error.
* `receive_cut` : a reader gets a sequence and nothing else, if it asks for at least its length, and
  the end of a sequence that is shorter can be told by its last packet.
-/

namespace Ch32fun

namespace Bulk

variable {α : Type*} {m n : ℕ} {data p : List α} {ps rest : List (List α)}

/-- The packets of a sequence. -/
def cut (m : ℕ) (data : List α) : List (List α) :=
  if 0 < m ∧ data ≠ [] then data.take m :: cut m (data.drop m) else []
termination_by data.length
decreasing_by
  have := List.length_pos_of_ne_nil (by tauto : data ≠ [])
  rw [List.length_drop]
  omega

/-- A reader that asks for `n` entries. -/
def receive (m : ℕ) : ℕ → List (List α) → Option (List α × List (List α))
  | 0, ps => some ([], ps)
  | _ + 1, [] => none
  | n + 1, p :: ps =>
    if n + 1 < p.length then none
    else if p.length < m then some (p, ps)
    else (receive m (n + 1 - p.length) ps).map fun r => (p ++ r.1, r.2)

theorem cut_nil (m : ℕ) : cut m ([] : List α) = [] := by
  rw [cut, if_neg (by simp)]

theorem cut_of_ne (hm : 0 < m) (h : data ≠ []) :
    cut m data = data.take m :: cut m (data.drop m) := by
  rw [cut, if_pos ⟨hm, h⟩]

theorem cut_of_le (h : data ≠ []) (hle : data.length ≤ m) : cut m data = [data] := by
  have hpos := List.length_pos_of_ne_nil h
  rw [cut_of_ne (by omega) h, List.take_of_length_le hle, List.drop_of_length_le hle, cut_nil]

theorem cut_flatten (hm : 0 < m) (h : ∀ p ∈ ps, p.length = m) : cut m ps.flatten = ps := by
  induction ps with
  | nil => exact cut_nil m
  | cons p ps ih =>
    have hp := h p List.mem_cons_self
    have hne : p ++ ps.flatten ≠ [] := by
      rw [← List.length_pos_iff, List.length_append]
      omega
    rw [List.flatten_cons, cut_of_ne hm hne, List.take_left' hp, List.drop_left' hp,
      ih fun q hq => h q (List.mem_cons_of_mem _ hq)]

theorem receive_zero (m : ℕ) (ps : List (List α)) : receive m 0 ps = some ([], ps) := by
  unfold receive
  rfl

theorem receive_cons (hn : 0 < n) : receive m n (p :: ps) =
    if n < p.length then none
    else if p.length < m then some (p, ps)
    else (receive m (n - p.length) ps).map fun r => (p ++ r.1, r.2) := by
  obtain ⟨n, rfl⟩ : ∃ k, n = k + 1 := ⟨n - 1, by omega⟩
  rw [receive]

/-- A short packet is the end, or too long for the reader. -/
theorem receive_short (hn : 0 < n) (hp : p.length < m) :
    receive m n (p :: ps) = if n < p.length then none else some (p, ps) := by
  rw [receive_cons hn, if_pos hp]

/-- **A reader gets the sequence**, if it asks for enough and can see the end. -/
theorem receive_cut (hm : 0 < m) (hle : data.length ≤ n)
    (hend : data.length = n ∨ ¬ m ∣ data.length) :
    receive m n (cut m data ++ rest) = some (data, rest) := by
  induction data using cut.induct (m := m) generalizing n with
  | case1 data h ih =>
    have hpos := List.length_pos_of_ne_nil h.2
    rw [cut_of_ne hm h.2, List.cons_append, receive_cons (by omega), List.length_take,
      if_neg (by omega)]
    split_ifs with hlt
    · -- the last packet is a short one
      have hlen : data.length ≤ m := by omega
      rw [List.drop_of_length_le hlen, cut_nil, List.take_of_length_le hlen]
      rfl
    · have hfull : m ≤ data.length := by omega
      rw [Nat.min_eq_left hfull, ih (by rw [List.length_drop]; omega)]
      · simp [List.take_append_drop]
      · rw [List.length_drop, Nat.dvd_sub_iff_left hfull (Nat.dvd_refl m)]
        omega
  | case2 data h =>
    have hnil : data = [] := by tauto
    subst hnil
    have hn : n = 0 := by simpa [eq_comm] using hend
    rw [hn, cut_nil, receive_zero]
    rfl

end Bulk

end Ch32fun
