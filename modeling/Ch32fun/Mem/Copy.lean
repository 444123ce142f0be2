import Ch32fun.Data.Copy
import Ch32fun.Mem.Bounds

/-!
# Copying a slice of RAM to another

`RAM[a:a+n] = RAM[b:b+n]` loads a memoryview, which is no copy, and stores it with `memcpy`: a
forward copy between ranges that may overlap.

* `ramSliceAssign` : the load and the store.
* `memcpy_nat` : the store is a forward copy.
* `SliceCopyRight` : the assignment is a simultaneous copy, and a value of another length is
  refused.
* `slice_copy_iff` : this is so exactly when the destination is not on the right of an overlapping
  source, or the source repeats itself with the distance of the two.
-/

namespace Ch32fun

/-- `RAM[s:e] = RAM[s':e']` : the right side is evaluated first. -/
def ramSliceAssign (mem : Memory) (s e s' e' : Int32) : Except MpException MemResult := do
  let r ← ramSubscr mem (.slice s' e' none) .sentinel
  match r.obj with
  | .memoryview len addr => ramSubscr r.mem (.slice s e none) (.buffer (.view addr len))
  | .none | .smallInt _ => throw (.typeError "object with buffer protocol required")

/-- The memory by natural numbers; behind the address space there is nothing. -/
def Memory.nat (mem : Memory) (x : ℕ) : UInt8 := if x < 2 ^ 32 then mem (UInt32.ofNat x) else 0

variable {mem : Memory} {s e s' e' : Int32} {addr src len : UInt32}

theorem Memory.nat_toNat (mem : Memory) (a : UInt32) : mem.nat a.toNat = mem a := by
  rw [nat, if_pos a.toNat_lt, UInt32.ofNat_toNat]

theorem Buffer.load_view (mem : Memory) (n : UInt32) (i : ℕ) :
    (Buffer.view src n).load mem i = mem.nat (src + UInt32.ofNat i).toNat :=
  (mem.nat_toNat _).symm

theorem Memory.nat_set (mem : Memory) (a : UInt32) (b : UInt8) :
    (mem.set a b).nat = Function.update mem.nat a.toNat b := by
  funext x
  have ha := a.toNat_lt
  by_cases hx : x = a.toNat
  · rw [hx, Function.update_self, nat_toNat]
    exact if_pos rfl
  · rw [Function.update_of_ne hx]
    unfold nat
    split_ifs with hlt
    · refine if_neg fun he => hx ?_
      rw [← he, UInt32.toNat_ofNat', Nat.mod_eq_of_lt hlt]
    · rfl

/-- **The store of a view is a forward copy.** -/
theorem memcpy_nat (mem : Memory) (n : UInt32) (hdst : addr.toNat + len.toNat ≤ 2 ^ 32)
    (hsrc : src.toNat + len.toNat ≤ 2 ^ 32) :
    (memcpy mem addr (.view src n) len).nat =
      copyForward mem.nat addr.toNat src.toNat len.toNat := by
  have hlen := len.toNat_lt
  -- after `k` turns
  have hturns : ∀ k, k ≤ len.toNat → (memcpy mem addr (.view src n) (UInt32.ofNat k)).nat =
      copyForward mem.nat addr.toNat src.toNat k := by
    intro k
    induction k with
    | zero => exact fun _ => rfl
    | succ k ih =>
      intro hk
      have haddr : ∀ a : UInt32, a.toNat + len.toNat ≤ 2 ^ 32 →
          (a + UInt32.ofNat k).toNat = a.toNat + k := by
        intro a ha
        rw [UInt32.toNat_add, UInt32.toNat_ofNat']
        omega
      rw [memcpy_succ _ (by omega), Memory.nat_set, haddr addr hdst, Buffer.load_view,
        haddr src hsrc, ih (by omega)]
      rfl
  have hwhole := hturns len.toNat le_rfl
  rwa [UInt32.ofNat_toNat] at hwhole

/-- `RAM[s:e] = RAM[s':e']` is a simultaneous copy, and a value of another length is refused. -/
structure SliceCopyRight (mem : Memory) (s e s' e' : Int32) : Prop where
  copy : ∃ r, ramSliceAssign mem s e s' e' = .ok r ∧ Simultaneous mem.nat r.mem.nat
    (ramAddress s.toInt) (ramAddress s'.toInt) (e.toInt - s.toInt).toNat
  mismatch : ∀ b : Buffer, b.len.toNat ≠ (e.toInt - s.toInt).toNat →
    ramSubscr mem (.slice s e none) (.buffer b) =
      .error (.valueError "slice assignment size mismatch")

theorem ramSliceAssign_eq (mem : Memory) (hdst : RamSlice s.toInt e.toInt)
    (hsrc : RamSlice s'.toInt e'.toInt) (hlen : e.toInt - s.toInt = e'.toInt - s'.toInt) :
    ∃ r, ramSliceAssign mem s e s' e' = .ok r ∧ r.mem.nat = copyForward mem.nat
      (ramAddress s.toInt) (ramAddress s'.toInt) (e.toInt - s.toInt).toNat := by
  rcases ramSliceRange_cases s e with ⟨-, addr, len, hr, haddr, hn⟩ | ⟨h, -⟩
  swap
  · exact absurd hdst h
  rcases ramSliceRange_cases s' e' with ⟨-, src, len', hr', hsrc', hn'⟩ | ⟨h, -⟩
  swap
  · exact absurd hsrc h
  have hsame : len' = len := UInt32.toNat_inj.1 (by rw [hn', hn, hlen])
  subst hsame
  obtain ⟨-, hdstle⟩ := hdst.region
  obtain ⟨-, hsrcle⟩ := hsrc.region
  rw [ramEnd_toNat] at hdstle hsrcle
  refine ⟨⟨.none, memcpy mem addr (.view src len') len', addrRange addr len'⟩, ?_, ?_⟩
  · unfold ramSliceAssign
    rw [ramSubscr_slice_load mem hr']
    change ramSubscr mem (.slice s e none) (.buffer (.view src len')) = _
    rw [ramSubscr_slice_store mem hr]
    exact if_neg (not_not.2 rfl)
  · dsimp only
    rw [memcpy_nat mem len' (by omega) (by omega), haddr, hsrc', hn]

theorem ramSubscr_mismatch (mem : Memory) (hdst : RamSlice s.toInt e.toInt) {b : Buffer}
    (hb : b.len.toNat ≠ (e.toInt - s.toInt).toNat) : ramSubscr mem (.slice s e none) (.buffer b) =
      .error (.valueError "slice assignment size mismatch") := by
  rcases ramSliceRange_cases s e with ⟨-, addr, len, hr, haddr, hn⟩ | ⟨h, -⟩
  · rw [ramSubscr_slice_store mem hr]
    refine if_pos fun he => hb ?_
    rw [he, hn]
  · exact absurd hdst h

theorem slice_copy_core (mem : Memory) (hdst : RamSlice s.toInt e.toInt)
    (hsrc : RamSlice s'.toInt e'.toInt) (hlen : e.toInt - s.toInt = e'.toInt - s'.toInt) :
    SliceCopyRight mem s e s' e' ↔ ramAddress s.toInt ≤ ramAddress s'.toInt ∨
      Periodic mem.nat (ramAddress s'.toInt) (e.toInt - s.toInt).toNat
        (ramAddress s.toInt - ramAddress s'.toInt) := by
  obtain ⟨r, hr, hmem⟩ := ramSliceAssign_eq mem hdst hsrc hlen
  rw [← copyForward_simultaneous_iff, ← hmem]
  constructor
  · rintro ⟨⟨r', hr', hcopy⟩, -⟩
    cases hr.symm.trans hr'
    exact hcopy
  · exact fun h => ⟨⟨r, hr, h⟩, fun b hb => ramSubscr_mismatch mem hdst hb⟩

/-- **When a slice assignment is a simultaneous copy.**  The destination is not on the right of the
source, or apart from it, or the source repeats itself with the distance of the two. -/
theorem slice_copy_iff (mem : Memory) (hdst : RamSlice s.toInt e.toInt)
    (hsrc : RamSlice s'.toInt e'.toInt) (hlen : e.toInt - s.toInt = e'.toInt - s'.toInt) :
    SliceCopyRight mem s e s' e' ↔ ramAddress s.toInt ≤ ramAddress s'.toInt ∨
      ramAddress s'.toInt + (e.toInt - s.toInt).toNat ≤ ramAddress s.toInt ∨
      Periodic mem.nat (ramAddress s'.toInt) (e.toInt - s.toInt).toNat
        (ramAddress s.toInt - ramAddress s'.toInt) := by
  rw [slice_copy_core mem hdst hsrc hlen]
  have hapart : ramAddress s'.toInt + (e.toInt - s.toInt).toNat ≤ ramAddress s.toInt →
      Periodic mem.nat (ramAddress s'.toInt) (e.toInt - s.toInt).toNat
        (ramAddress s.toInt - ramAddress s'.toInt) := periodic_of_disjoint mem.nat
  tauto

/-- Four bytes moved to the left by one. -/
theorem slice_copy_left : SliceCopyRight (fun a => a.toUInt8) 0 4 1 5 :=
  (slice_copy_iff _ (by decide) (by decide) (by decide)).2 (.inl (by decide))

/-- Two bytes moved to the right by one: the first is copied twice. -/
theorem slice_copy_right : ¬ SliceCopyRight (fun a => a.toUInt8) 1 3 0 2 := by
  rw [slice_copy_core _ (by decide) (by decide) (by decide)]
  rintro (h | h)
  · exact absurd h (by decide)
  · exact absurd (h 0 (by decide)) (by decide)

end Ch32fun
