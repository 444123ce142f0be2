import Mathlib.Data.List.Basic
import Mathlib.Tactic.Ring

/-!
# Fixed-size arrays and little-endian words

The arrays of a C program: `Block α n` holds `n` entries, `Block.get` reads at any index (an
index outside the array reads the default value; a model that uses it must show that this does
not happen, or that the value does not matter) and `Block.write` copies a slice into the array,
dropping what lies outside.

## Main results

* `Block.get_write` : reading after a slice has been written.
* `Block.load`, `Block.store` : accesses that fail outside of the array.
* `le32_leByte` : a 32-bit word is read back from its little-endian bytes.
* `flatMap_range_mul` : a sequence cut into pieces of equal length is the concatenation of them.
-/

namespace Ch32fun

/-- An array of `n` entries. -/
abbrev Block (α : Type*) (n : ℕ) := Fin n → α

namespace Block

variable {α : Type*} {n : ℕ}

/-- The entry at index `i`. -/
def get [Inhabited α] (b : Block α n) (i : ℕ) : α := if h : i < n then b ⟨i, h⟩ else default

/-- `memcpy` of the `len` entries `f 0, f 1, …` to index `off`. -/
def write (b : Block α n) (off len : ℕ) (f : ℕ → α) : Block α n :=
  fun i => if off ≤ i.val ∧ i.val < off + len then f (i.val - off) else b i

/-- The array whose first entries are those of a list and whose other entries have the default
value, as an array with a partial initialiser has. -/
def ofList [Inhabited α] (l : List α) : Block α n := fun i => l.getD i default

theorem write_write (b : Block α n) (off len : ℕ) (f g : ℕ → α) :
    (b.write off len f).write off len g = b.write off len g := by
  funext i
  unfold write
  split_ifs <;> rfl

theorem write_zero (b : Block α n) (off : ℕ) (f : ℕ → α) : b.write off 0 f = b := by
  funext i
  exact if_neg (by omega)

theorem write_congr (b : Block α n) (off : ℕ) {len : ℕ} {f g : ℕ → α}
    (h : ∀ i, i < len → f i = g i) : b.write off len f = b.write off len g := by
  funext i
  unfold write
  split_ifs with hc
  · exact h _ (by omega)
  · rfl

theorem write_append (b : Block α n) (off len len' : ℕ) (f : ℕ → α) :
    (b.write off len f).write (off + len) len' (fun i => f (len + i)) =
      b.write off (len + len') f := by
  funext i
  unfold write
  dsimp only
  split_ifs
  · congr 1
    omega
  · omega
  · rfl
  · omega
  · omega
  · rfl

/-- A read at an index of type `int`; `none` outside of the array. -/
def load [Inhabited α] (b : Block α n) (i : Int32) : Option α :=
  if 0 ≤ i.toInt ∧ i.toInt < n then some (b.get i.toInt.toNat) else none

/-- A write at an index of type `int`; `none` outside of the array. -/
def store (b : Block α n) (i : Int32) (x : α) : Option (Block α n) :=
  if 0 ≤ i.toInt ∧ i.toInt < n then some (b.write i.toInt.toNat 1 fun _ => x) else none

theorem store_of_toInt {k : Int32} {i : ℕ} (b : Block α n) (x : α) (hk : k.toInt = i) (h : i < n) :
    b.store k x = some (b.write i 1 fun _ => x) := by
  rw [store, if_pos (by omega), hk, Int.toNat_natCast]

/-- A write of one entry, as an update. -/
theorem write_one (b : Block α n) {i : ℕ} (h : i < n) (x : α) :
    (b.write i 1 fun _ => x) = Function.update b ⟨i, h⟩ x := by
  funext j
  unfold write
  by_cases hj : j.val = i
  · rw [show j = ⟨i, h⟩ from Fin.ext hj, Function.update_self,
      if_pos ⟨le_rfl, Nat.lt_succ_self i⟩]
  · rw [Function.update_of_ne (fun hc => hj (congrArg Fin.val hc)), if_neg (by omega)]

variable [Inhabited α] {b c : Block α n} {off len i : ℕ} {f : ℕ → α}

theorem get_of_lt (h : i < n) : b.get i = b ⟨i, h⟩ := by simp [get, h]

theorem get_of_le (h : n ≤ i) : b.get i = default := by simp [get, Nat.not_lt.2 h]

theorem ext_get (h : ∀ i, i < n → b.get i = c.get i) : b = c := by
  funext ⟨i, hi⟩
  simpa [get, hi] using h i hi

theorem get_write (h : i < n) :
    (b.write off len f).get i = if off ≤ i ∧ i < off + len then f (i - off) else b.get i := by
  simp [get, write, h]

theorem get_write_of_lt (h : i < off) : (b.write off len f).get i = b.get i := by
  by_cases hi : i < n
  · rw [get_write hi, if_neg (by omega)]
  · simp [get, hi]

theorem write_eq_self_iff (h : off + len ≤ n) :
    b.write off len f = b ↔ ∀ k, k < len → b.get (off + k) = f k := by
  constructor
  · intro hw k hk
    rw [← hw, get_write (by omega), if_pos (by omega), Nat.add_sub_cancel_left]
  · intro hf
    refine ext_get fun i hi => ?_
    rw [get_write hi]
    split_ifs with hc
    · rw [← hf (i - off) (by omega)]
      congr 1; omega
    · rfl

theorem get_ofList {l : List α} (h : i < n) : (ofList l : Block α n).get i = l.getD i default := by
  simp [get, ofList, h]

theorem load_of_toInt {k : Int32} (hk : k.toInt = i) (h : i < n) : b.load k = some (b.get i) := by
  rw [load, if_pos (by omega), hk, Int.toNat_natCast]

end Block

/-! ### Little-endian words -/

/-- The 16-bit word at index `i` of a byte sequence. -/
def le16 (f : ℕ → UInt8) (i : ℕ) : UInt16 := (f i).toUInt16 ||| (f (i + 1)).toUInt16 <<< 8

/-- The 32-bit word at index `i` of a byte sequence. -/
def le32 (f : ℕ → UInt8) (i : ℕ) : UInt32 :=
  (f i).toUInt32 ||| (f (i + 1)).toUInt32 <<< 8 ||| (f (i + 2)).toUInt32 <<< 16 |||
    (f (i + 3)).toUInt32 <<< 24

/-- Byte `k` of the little-endian representation of a 32-bit word. -/
def leByte (x : UInt32) (k : ℕ) : UInt8 := (x >>> (8 * k).toUInt32).toUInt8

theorem le16_congr {f g : ℕ → UInt8} {i j : ℕ} (h : ∀ k, k < 2 → f (i + k) = g (j + k)) :
    le16 f i = le16 g j := by
  have h0 := h 0 (by omega)
  have h1 := h 1 (by omega)
  simp only [Nat.add_zero] at h0
  simp only [le16, h0, h1]

theorem le32_congr {f g : ℕ → UInt8} {i j : ℕ} (h : ∀ k, k < 4 → f (i + k) = g (j + k)) :
    le32 f i = le32 g j := by
  have h0 := h 0 (by omega)
  have h1 := h 1 (by omega)
  have h2 := h 2 (by omega)
  have h3 := h 3 (by omega)
  simp only [Nat.add_zero] at h0
  simp only [le32, h0, h1, h2, h3]

theorem or_shiftLeft_toNat {a b : ℕ} (k : ℕ) (ha : a < 2 ^ k) : a ||| b <<< k = a + b * 2 ^ k := by
  rw [Nat.or_comm, ← Nat.shiftLeft_add_eq_or_of_lt ha, Nat.shiftLeft_eq, Nat.add_comm]

theorem le16_toNat (f : ℕ → UInt8) (i : ℕ) :
    (le16 f i).toNat = (f i).toNat + (f (i + 1)).toNat * 2 ^ 8 := by
  have h0 := (f i).toNat_lt
  have h1 := (f (i + 1)).toNat_lt
  have hs : (f (i + 1)).toNat <<< 8 % 2 ^ 16 = (f (i + 1)).toNat <<< 8 := by
    rw [Nat.shiftLeft_eq]
    exact Nat.mod_eq_of_lt (by omega)
  simp only [le16, UInt16.toNat_or, UInt16.toNat_shiftLeft, UInt8.toNat_toUInt16]
  simp only [UInt16.reduceToNat, Nat.reduceMod, hs]
  exact or_shiftLeft_toNat 8 h0

theorem le32_toNat (f : ℕ → UInt8) (i : ℕ) : (le32 f i).toNat =
    (f i).toNat + (f (i + 1)).toNat * 2 ^ 8 + (f (i + 2)).toNat * 2 ^ 16 +
      (f (i + 3)).toNat * 2 ^ 24 := by
  have h0 := (f i).toNat_lt
  have h1 := (f (i + 1)).toNat_lt
  have h2 := (f (i + 2)).toNat_lt
  have h3 := (f (i + 3)).toNat_lt
  have hs : ∀ (b k : ℕ), b < 2 ^ 8 → k ≤ 24 → b <<< k % 2 ^ 32 = b <<< k := by
    intro b k hb hk
    rw [Nat.shiftLeft_eq]
    refine Nat.mod_eq_of_lt ?_
    calc b * 2 ^ k < 2 ^ 8 * 2 ^ k := Nat.mul_lt_mul_of_pos_right hb (Nat.two_pow_pos k)
      _ = 2 ^ (8 + k) := (pow_add 2 8 k).symm
      _ ≤ 2 ^ 32 := Nat.pow_le_pow_right (by omega) (by omega)
  simp only [le32, UInt32.toNat_or, UInt32.toNat_shiftLeft, UInt8.toNat_toUInt32]
  simp only [UInt32.reduceToNat, Nat.reduceMod, hs _ _ h1 (show 8 ≤ 24 by omega),
    hs _ _ h2 (show 16 ≤ 24 by omega), hs _ _ h3 (show 24 ≤ 24 by omega)]
  rw [or_shiftLeft_toNat 8 (by omega), or_shiftLeft_toNat 16 (by omega),
    or_shiftLeft_toNat 24 (by omega)]

theorem leByte_toNat (x : UInt32) {k : ℕ} (hk : k < 4) :
    (leByte x k).toNat = x.toNat / 2 ^ (8 * k) % 2 ^ 8 := by
  have h : (8 * k).toUInt32.toNat % 32 = 8 * k := by
    simp only [Nat.toUInt32_eq, UInt32.toNat_ofNat']; omega
  simp only [leByte, UInt32.toNat_toUInt8, UInt32.toNat_shiftRight, Nat.shiftRight_eq_div_pow, h]

theorem le32_leByte (x : UInt32) : le32 (leByte x) 0 = x := by
  apply UInt32.toNat_inj.1
  have := x.toNat_lt
  simp only [le32_toNat, leByte_toNat x (show 0 < 4 by omega), Nat.zero_add,
    leByte_toNat x (show 1 < 4 by omega), leByte_toNat x (show 2 < 4 by omega),
    leByte_toNat x (show 3 < 4 by omega)]
  omega

/-! ### Cutting a sequence into pieces -/

theorem flatMap_range_mul {α : Type*} (f : ℕ → α) (m n : ℕ) :
    (List.range m).flatMap (fun k => (List.range n).map fun i => f (k * n + i)) =
      (List.range (m * n)).map f := by
  induction m with
  | zero => simp
  | succ m ih =>
    rw [List.range_succ, List.flatMap_append, ih, Nat.succ_mul, List.range_add, List.map_append]
    simp [Function.comp_def]

end Ch32fun
