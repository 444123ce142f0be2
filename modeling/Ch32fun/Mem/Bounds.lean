import Ch32fun.Data.Word
import Ch32fun.Mem.Accessor

/-!
# The memory accessors stay in their regions

The checks in natural numbers and integers, whatever wraps around on the way:

* `ch32funCheckAddr_ok_iff` : the check passes exactly the ranges inside the region.
* `ramSliceRange_eq`, `ramSingle_eq` : what `RAM[s:e]` and `RAM[i]` accept, offsets and absolute
  addresses, and the address they lead to.
* `memcpy_turn`, `memcpy_part` : what the copy of a store has left at its end and on the way.
* `HandsOut`, `Loads`, `Stores` : what a call does with the bytes asked for.
* `accessors_in_region` : all accessors together.
-/

namespace Ch32fun

variable {addr len start end' : UInt32} {s e i a n : Int32} {mem : Memory} {v : RamValue}
  {r : MemResult}

/-! ### Signed and unsigned words -/

/-- The length of a slice is the difference of its ends modulo `2^32`. -/
theorem toNat_sub_toUInt32 (s e : Int32) :
    ((e - s).toUInt32.toNat : ℤ) = (e.toInt - s.toInt) % 2 ^ 32 := by
  rw [toNat_toUInt32, Int32.toInt_sub]
  exact Int.bmod_emod

/-! ### The check -/

/-- **The check passes exactly the ranges inside the region**: a sum that wraps around is caught by
its last comparison. -/
theorem ch32funCheckAddr_ok_iff : ch32funCheckAddr addr len start end' = .ok () ↔
    start.toNat ≤ addr.toNat ∧ addr.toNat + len.toNat ≤ end'.toNat := by
  have ha := addr.toNat_lt
  have hl := len.toNat_lt
  have he := end'.toNat_lt
  unfold ch32funCheckAddr
  simp only [UInt32.lt_iff_toNat_lt, UInt32.toNat_add, gt_iff_lt]
  split_ifs with h
  · simp only [false_iff]
    omega
  · simp only [true_iff]
    omega

theorem ch32funCheckAddr_eq (addr len start end' : UInt32) : ch32funCheckAddr addr len start end' =
    if start.toNat ≤ addr.toNat ∧ addr.toNat + len.toNat ≤ end'.toNat then .ok ()
    else .error addressOutOfBounds := by
  split_ifs with h
  · exact ch32funCheckAddr_ok_iff.2 h
  · have hne := mt ch32funCheckAddr_ok_iff.1 h
    unfold ch32funCheckAddr at hne ⊢
    split_ifs with hc
    · rfl
    · exact absurd (if_neg hc) hne

/-! ### Slices and single addresses -/

theorem ramStart_toNat : ramStart.toNat = 0x20000000 := rfl

theorem ramEnd_toNat : ramEnd.toNat = 0x20003000 := rfl

theorem ramSize_toNat : ramSize.toNat = 0x3000 := rfl

theorem flashEnd_toNat : flashEnd.toNat = 0x20000000 := rfl

/-- The slices of RAM, as offsets or as absolute addresses. -/
def RamSlice (s e : ℤ) : Prop :=
  (0 ≤ s ∧ s ≤ e ∧ e ≤ ramSize.toNat) ∨ (ramStart.toNat ≤ s ∧ s ≤ e ∧ e ≤ ramEnd.toNat)

instance (s e : ℤ) : Decidable (RamSlice s e) := by
  unfold RamSlice
  exact inferInstance

/-- The absolute address of an offset or of an absolute address. -/
def ramAddress (s : ℤ) : ℕ := if s < ramStart.toNat then (s + ramStart.toNat).toNat else s.toNat

theorem toNat_ramRebase (s : Int32) : ((ramRebase s).toUInt32.toNat : ℤ) =
    (if s.toInt < 0x20000000 then s.toInt + 0x20000000 else s.toInt) % 2 ^ 32 := by
  have hlt : s < ramStart.toInt32 ↔ s.toInt < 0x20000000 := Int32.lt_iff_toInt_lt
  unfold ramRebase
  simp only [hlt]
  split_ifs with h
  · rw [toNat_toUInt32, Int32.toInt_add]
    exact Int.bmod_emod
  · exact toNat_toUInt32 s

/-- **`RAM[s:e]` is accepted exactly for the slices of RAM**, and leads to the range asked for. -/
theorem ramSliceRange_cases (s e : Int32) :
    (RamSlice s.toInt e.toInt ∧ ∃ addr len, ramSliceRange s e none = .ok (addr, len) ∧
      addr.toNat = ramAddress s.toInt ∧ len.toNat = (e.toInt - s.toInt).toNat) ∨
    (¬ RamSlice s.toInt e.toInt ∧ ramSliceRange s e none = .error addressOutOfBounds) := by
  have hs := s.toInt_lt
  have hs' := s.le_toInt
  have he := e.toInt_lt
  have he' := e.le_toInt
  have haddr := toNat_ramRebase s
  have hlen := toNat_sub_toUInt32 s e
  -- a start outside of RAM is not rebased into it, and a reversed slice has a huge length
  have hok : RamSlice s.toInt e.toInt ↔ ramStart.toNat ≤ (ramRebase s).toUInt32.toNat ∧
      (ramRebase s).toUInt32.toNat + (e - s).toUInt32.toNat ≤ ramEnd.toNat := by
    unfold RamSlice
    rw [ramStart_toNat, ramEnd_toNat, ramSize_toNat]
    split_ifs at haddr <;> omega
  rw [ramSliceRange, if_neg (by simp)]
  dsimp only
  rw [ch32funCheckAddr_eq]
  by_cases h : RamSlice s.toInt e.toInt
  · refine .inl ⟨h, _, _, by rw [if_pos (hok.1 h)]; rfl, ?_, ?_⟩
    · unfold RamSlice at h
      unfold ramAddress
      rw [ramStart_toNat, ramEnd_toNat, ramSize_toNat] at *
      split_ifs at haddr ⊢ <;> omega
    · unfold RamSlice at h
      omega
  · exact .inr ⟨h, by rw [if_neg (mt hok.2 h)]; rfl⟩

theorem RamSlice.region {s e : ℤ} (h : RamSlice s e) : ramStart.toNat ≤ ramAddress s ∧
    ramAddress s + (e - s).toNat ≤ ramEnd.toNat := by
  unfold RamSlice at h
  unfold ramAddress
  rw [ramStart_toNat, ramEnd_toNat, ramSize_toNat] at *
  split_ifs <;> omega

/-- A single address of RAM, as an offset or as an absolute address. -/
def RamByte (i : ℤ) : Prop := (0 ≤ i ∧ i < ramSize.toNat) ∨ (ramStart.toNat ≤ i ∧ i < ramEnd.toNat)

/-- **`RAM[i]` is accepted exactly for the bytes of RAM.** -/
theorem ramSingle_cases (i : Int32) :
    (RamByte i.toInt ∧ ∃ addr, ramSingle i = .ok addr ∧ addr.toNat = ramAddress i.toInt) ∨
    (¬ RamByte i.toInt ∧ ramSingle i = .error addressOutOfBounds) := by
  have hi := i.toInt_lt
  have hi' := i.le_toInt
  have hu := toNat_toUInt32 i
  -- the offset is compared unsigned, so that a negative index is a large address
  have haddr : (i.toUInt32 + if i.toUInt32 < ramStart then ramStart else 0).toNat =
      if i.toUInt32.toNat < 0x20000000 then i.toUInt32.toNat + 0x20000000
      else i.toUInt32.toNat := by
    have hlt : i.toUInt32 < ramStart ↔ i.toUInt32.toNat < 0x20000000 := UInt32.lt_iff_toNat_lt
    have := i.toUInt32.toNat_lt
    rw [UInt32.toNat_add]
    simp only [hlt]
    split_ifs
    · rw [ramStart_toNat]
      omega
    · rw [UInt32.toNat_zero]
      omega
  have hok : RamByte i.toInt ↔
      ramStart.toNat ≤ (i.toUInt32 + if i.toUInt32 < ramStart then ramStart else 0).toNat ∧
      (i.toUInt32 + if i.toUInt32 < ramStart then ramStart else 0).toNat + (1 : UInt32).toNat ≤
        ramEnd.toNat := by
    unfold RamByte
    rw [haddr, ramStart_toNat, ramEnd_toNat, ramSize_toNat, show (1 : UInt32).toNat = 1 from rfl]
    split_ifs <;> omega
  rw [ramSingle, ch32funCheckAddr_eq]
  by_cases h : RamByte i.toInt
  · refine .inl ⟨h, _, by rw [if_pos (hok.1 h)]; rfl, ?_⟩
    unfold RamByte at h
    unfold ramAddress
    rw [haddr]
    rw [ramStart_toNat, ramEnd_toNat, ramSize_toNat] at *
    split_ifs <;> omega
  · exact .inr ⟨h, by rw [if_neg (mt hok.2 h)]; rfl⟩

theorem RamByte.region {i : ℤ} (h : RamByte i) : ramStart.toNat ≤ ramAddress i ∧
    ramAddress i + 1 ≤ ramEnd.toNat := by
  unfold RamByte at h
  unfold ramAddress
  rw [ramStart_toNat, ramEnd_toNat, ramSize_toNat] at *
  split_ifs <;> omega

/-! ### The bytes touched -/

theorem addrRange_toNat (h : addr.toNat + len.toNat ≤ 2 ^ 32) :
    (addrRange addr len).map UInt32.toNat = List.range' addr.toNat len.toNat := by
  rw [addrRange, List.map_map, List.range'_eq_map_range]
  refine List.map_congr_left fun i hi => ?_
  have hi := List.mem_range.1 hi
  have hlen := len.toNat_lt
  rw [Function.comp_apply, UInt32.toNat_add, UInt32.toNat_ofNat']
  omega

theorem memcpy_of_notMem {src : Buffer} {a : UInt32} (h : a ∉ addrRange addr len) :
    memcpy mem addr src len a = mem a := by
  -- for any list of offsets, as the memory changes from turn to turn
  have hfold : ∀ (l : List ℕ) (m : Memory), (∀ i ∈ l, addr + UInt32.ofNat i ≠ a) →
      l.foldl (fun mem i => mem.set (addr + UInt32.ofNat i) (src.load mem i)) m a = m a := by
    intro l
    induction l with
    | nil => exact fun _ _ => rfl
    | cons i l ih =>
      intro m hl
      rw [List.foldl_cons, ih _ fun j hj => hl j (List.mem_cons_of_mem _ hj)]
      exact if_neg (Ne.symm (hl i List.mem_cons_self))
  exact hfold _ mem fun i hi he => h (List.mem_map.2 ⟨i, hi, he⟩)

theorem memcpy_succ (src : Buffer) {k : ℕ} (hk : k + 1 < 2 ^ 32) :
    memcpy mem addr src (UInt32.ofNat (k + 1)) =
      (memcpy mem addr src (UInt32.ofNat k)).set (addr + UInt32.ofNat k)
        (src.load (memcpy mem addr src (UInt32.ofNat k)) k) := by
  have hto : ∀ n, n < 2 ^ 32 → (UInt32.ofNat n).toNat = n := fun n hn => by
    rw [UInt32.toNat_ofNat', Nat.mod_eq_of_lt hn]
  rw [memcpy, memcpy, hto _ hk, hto _ (by omega), List.range_succ, List.foldl_append]
  rfl

/-- A byte of the destination has its value from the turn that copies it. -/
theorem memcpy_turn (src : Buffer) {i k : ℕ} (hik : i < k) (hk : k < 2 ^ 32) :
    memcpy mem addr src (UInt32.ofNat k) (addr + UInt32.ofNat i) =
      src.load (memcpy mem addr src (UInt32.ofNat i)) i := by
  induction k with
  | zero => cases hik
  | succ k ih =>
    rw [memcpy_succ src hk, Memory.set]
    by_cases hi : i = k
    · rw [hi, if_pos rfl]
    · have hne : addr + UInt32.ofNat i ≠ addr + UInt32.ofNat k := fun he => by
        have he := congrArg UInt32.toNat ((UInt32.add_right_inj addr).1 he)
        rw [UInt32.toNat_ofNat', UInt32.toNat_ofNat'] at he
        omega
      rw [if_neg hne]
      exact ih (by omega) (by omega)

/-- In the middle of a copy the bytes up to there have their last value, the others the first. -/
theorem memcpy_part (src : Buffer) {k : ℕ} (hfit : addr.toNat + len.toNat ≤ 2 ^ 32)
    (hk : k ≤ len.toNat) (a : UInt32) : memcpy mem addr src (UInt32.ofNat k) a =
      if addr.toNat ≤ a.toNat ∧ a.toNat < addr.toNat + k then memcpy mem addr src len a
      else mem a := by
  have hlen := len.toNat_lt
  split_ifs with h
  · obtain ⟨i, hi⟩ := Nat.exists_eq_add_of_le h.1
    have ha : a = addr + UInt32.ofNat i := by
      rw [← UInt32.ofNat_toNat (x := a), hi, UInt32.ofNat_add, UInt32.ofNat_toNat]
    have hwhole : memcpy mem addr src (UInt32.ofNat len.toNat) (addr + UInt32.ofNat i) =
        src.load (memcpy mem addr src (UInt32.ofNat i)) i := memcpy_turn src (by omega) hlen
    rw [UInt32.ofNat_toNat] at hwhole
    rw [ha, memcpy_turn src (by omega) (by omega), hwhole]
  · refine memcpy_of_notMem fun hmem => h ?_
    have hmem := List.mem_map_of_mem (f := UInt32.toNat) hmem
    have hto : (UInt32.ofNat k).toNat = k := by
      rw [UInt32.toNat_ofNat']
      omega
    rw [addrRange_toNat (by omega), List.mem_range'_1, hto] at hmem
    exact hmem

section Slice

variable (mem) (v) (hr : ramSliceRange s e none = .ok (addr, len))

include hr

theorem ramSubscr_slice_load : ramSubscr mem (.slice s e none) .sentinel =
    .ok ⟨.memoryview len addr, mem, addrRange addr len⟩ := by
  simp only [ramSubscr, hr]
  rfl

theorem ramSubscr_slice_store (b : Buffer) : ramSubscr mem (.slice s e none) (.buffer b) =
    if b.len ≠ len then .error (.valueError "slice assignment size mismatch")
    else .ok ⟨.none, memcpy mem addr b len, addrRange addr len⟩ := by
  simp only [ramSubscr, hr, RamValue.mpGetBufferRaise, bind, Except.bind]
  split_ifs <;> rfl

theorem ramSubscr_slice_ne : ramSubscr mem (.slice s e none) v ≠ .error addressOutOfBounds := by
  cases v with
  | sentinel =>
    rw [ramSubscr_slice_load mem hr]
    simp
  | null | int =>
    simp only [ramSubscr, hr, RamValue.mpGetBufferRaise, bind, Except.bind]
    simp [throw, throwThe, MonadExceptOf.throw]
  | buffer b =>
    rw [ramSubscr_slice_store mem hr]
    split_ifs <;> simp

theorem ramSubscr_slice_frame (h : ramSubscr mem (.slice s e none) v = .ok r) :
    r.touched = addrRange addr len ∧ ∀ a, a ∉ r.touched → r.mem a = mem a := by
  cases v with
  | sentinel =>
    rw [ramSubscr_slice_load mem hr] at h
    cases h
    exact ⟨rfl, fun _ _ => rfl⟩
  | null | int =>
    simp only [ramSubscr, hr, RamValue.mpGetBufferRaise, bind, Except.bind] at h
    cases h
  | buffer b =>
    rw [ramSubscr_slice_store mem hr] at h
    split_ifs at h
    cases h
    exact ⟨rfl, fun a ha => memcpy_of_notMem ha⟩

end Slice

section Single

variable (mem) (v) (hr : ramSingle i = .ok addr)

include hr

theorem ramSubscr_int_load : ramSubscr mem (.int i) .sentinel =
    .ok ⟨.smallInt (mem addr), mem, [addr]⟩ := by
  simp only [ramSubscr, hr]
  rfl

theorem ramSubscr_int_store (x : Int32) : ramSubscr mem (.int i) (.int x) =
    .ok ⟨.none, mem.set addr x.toUInt32.toUInt8, [addr]⟩ := by
  simp only [ramSubscr, hr]
  rfl

theorem ramSubscr_int_ne : ramSubscr mem (.int i) v ≠ .error addressOutOfBounds := by
  cases v with
  | sentinel =>
    rw [ramSubscr_int_load mem hr]
    simp
  | null | buffer =>
    simp only [ramSubscr, hr, RamValue.mpObjGetInt, bind, Except.bind]
    simp
  | int x =>
    rw [ramSubscr_int_store mem hr]
    simp

theorem ramSubscr_int_frame (h : ramSubscr mem (.int i) v = .ok r) :
    r.touched = [addr] ∧ ∀ a, a ∉ r.touched → r.mem a = mem a := by
  cases v with
  | sentinel =>
    rw [ramSubscr_int_load mem hr] at h
    cases h
    exact ⟨rfl, fun _ _ => rfl⟩
  | null | buffer =>
    simp only [ramSubscr, hr, RamValue.mpObjGetInt, bind, Except.bind] at h
    cases h
  | int x =>
    rw [ramSubscr_int_store mem hr] at h
    cases h
    exact ⟨rfl, fun a ha => if_neg (by simpa using ha)⟩

end Single

/-! ### The regions -/

/-- A call touches the `n` bytes from `base` on, which lie in the region, and changes no other
byte. -/
structure Touches (mem : Memory) (lo hi : UInt32) (base n : ℕ) (r : MemResult) : Prop where
  touched : r.touched.map UInt32.toNat = List.range' base n
  frame : ∀ a, a ∉ r.touched → r.mem a = mem a
  above : lo.toNat ≤ base
  below : base + n ≤ hi.toNat

theorem touches_slice (h : ramSubscr mem (.slice s e none) v = .ok r) :
    Touches mem ramStart ramEnd (ramAddress s.toInt) (e.toInt - s.toInt).toNat r := by
  rcases ramSliceRange_cases s e with ⟨hs, addr, len, hr, haddr, hlen⟩ | ⟨-, hr⟩
  · obtain ⟨ht, hframe⟩ := ramSubscr_slice_frame mem v hr h
    obtain ⟨habove, hbelow⟩ := hs.region
    refine ⟨?_, hframe, habove, hbelow⟩
    rw [ht, addrRange_toNat (by have := ramEnd.toNat_lt; omega), haddr, hlen]
  · -- the check refused the slice, and the call did not return
    simp only [ramSubscr, hr] at h
    cases h

theorem touches_single (h : ramSubscr mem (.int i) v = .ok r) :
    Touches mem ramStart ramEnd (ramAddress i.toInt) 1 r := by
  rcases ramSingle_cases i with ⟨hi, addr, hr, haddr⟩ | ⟨-, hr⟩
  · obtain ⟨ht, hframe⟩ := ramSubscr_int_frame mem v hr h
    obtain ⟨habove, hbelow⟩ := hi.region
    refine ⟨?_, hframe, habove, hbelow⟩
    rw [ht, List.map_singleton, haddr]
    rfl
  · simp only [ramSubscr, hr] at h
    cases h

/-- A call hands out the `n` bytes from `base` on as a memoryview and stores nothing. -/
structure HandsOut (mem : Memory) (base n : ℕ) (r : MemResult) : Prop where
  view : ∃ len addr, r.obj = .memoryview len addr ∧ addr.toNat = base ∧ len.toNat = n
  mem : r.mem = mem

/-- A call returns the byte at `base` and stores nothing. -/
structure Loads (mem : Memory) (base : ℕ) (r : MemResult) : Prop where
  obj : r.obj = .smallInt (mem (UInt32.ofNat base))
  mem : r.mem = mem

/-- A call stores the `n` bytes of the buffer from `base` on, one by one from the first on.  A view
onto the destination is read as the stores before have left it. -/
structure Stores (mem : Memory) (base n : ℕ) (b : Buffer) (r : MemResult) : Prop where
  obj : r.obj = .none
  len : b.len.toNat = n
  bytes : ∀ l, b = .bytes l → ∀ i, i < n → l[i]? = some (r.mem (UInt32.ofNat (base + i)))
  view : ∀ src m, b = .view src m → ∀ i, i < n → ∀ a, a = src + UInt32.ofNat i →
    r.mem (UInt32.ofNat (base + i)) =
      if base ≤ a.toNat ∧ a.toNat < base + i then r.mem a else mem a

theorem stores_memcpy (mem : Memory) {b : Buffer} (hb : b.len = len)
    (hfit : addr.toNat + len.toNat ≤ 2 ^ 32) (l : List UInt32) :
    Stores mem addr.toNat len.toNat b ⟨.none, memcpy mem addr b len, l⟩ := by
  have hlen := len.toNat_lt
  have hturn : ∀ i, i < len.toNat → memcpy mem addr b len (UInt32.ofNat (addr.toNat + i)) =
      b.load (memcpy mem addr b (UInt32.ofNat i)) i := by
    intro i hi
    have h : memcpy mem addr b (UInt32.ofNat len.toNat) (addr + UInt32.ofNat i) =
        b.load (memcpy mem addr b (UInt32.ofNat i)) i := memcpy_turn b hi hlen
    rwa [UInt32.ofNat_toNat, ← UInt32.ofNat_toNat (x := addr), ← UInt32.ofNat_add,
      UInt32.ofNat_toNat] at h
  refine ⟨rfl, congrArg _ hb, fun l hl i hi => ?_, fun src m hv i hi a ha => ?_⟩
  · subst hl
    have hi' : i < l.length := by
      rw [← hb, Buffer.len, UInt32.toNat_ofNat'] at hi
      exact hi.trans_le (Nat.mod_le _ _)
    dsimp only
    rw [hturn i hi, Buffer.load, List.getD_eq_getElem?_getD, List.getElem?_eq_getElem hi',
      Option.getD_some]
  · subst hv ha
    dsimp only
    rw [hturn i hi, Buffer.load]
    exact memcpy_part _ hfit hi.le _

theorem slice_handsOut (h : ramSubscr mem (.slice s e none) .sentinel = .ok r) :
    HandsOut mem (ramAddress s.toInt) (e.toInt - s.toInt).toNat r := by
  rcases ramSliceRange_cases s e with ⟨-, addr, len, hr, haddr, hlen⟩ | ⟨-, hr⟩
  · rw [ramSubscr_slice_load mem hr] at h
    cases h
    exact ⟨⟨len, addr, rfl, haddr, hlen⟩, rfl⟩
  · simp only [ramSubscr, hr] at h
    cases h

theorem slice_stores {b : Buffer} (h : ramSubscr mem (.slice s e none) (.buffer b) = .ok r) :
    Stores mem (ramAddress s.toInt) (e.toInt - s.toInt).toNat b r := by
  rcases ramSliceRange_cases s e with ⟨hs, addr, len, hr, haddr, hlen⟩ | ⟨-, hr⟩
  · have hbelow := hs.region.2
    have hend := ramEnd.toNat_lt
    rw [ramSubscr_slice_store mem hr] at h
    split_ifs at h with hb
    cases h
    rw [← haddr, ← hlen] at hbelow ⊢
    exact stores_memcpy mem (not_not.1 hb) (by omega) _
  · simp only [ramSubscr, hr] at h
    cases h

theorem single_loads (hi : RamByte i.toInt) : ∃ r, ramSubscr mem (.int i) .sentinel = .ok r ∧
    Loads mem (ramAddress i.toInt) r := by
  rcases ramSingle_cases i with ⟨-, addr, hr, haddr⟩ | ⟨h, -⟩
  · refine ⟨_, ramSubscr_int_load mem hr, ?_, rfl⟩
    rw [← haddr, UInt32.ofNat_toNat]
  · exact absurd hi h

theorem single_stores (hi : RamByte i.toInt) (x : Int32) : ∃ r,
    ramSubscr mem (.int i) (.int x) = .ok r ∧ r.obj = .none ∧
      ((r.mem (UInt32.ofNat (ramAddress i.toInt))).toNat : ℤ) = x.toInt % 256 := by
  rcases ramSingle_cases i with ⟨-, addr, hr, haddr⟩ | ⟨h, -⟩
  · refine ⟨_, ramSubscr_int_store mem hr x, rfl, ?_⟩
    have hx := toNat_toUInt32 x
    rw [← haddr, UInt32.ofNat_toNat]
    dsimp only
    rw [Memory.set, if_pos rfl, UInt32.toNat_toUInt8]
    omega
  · exact absurd hi h

theorem flash_check_iff (a : Int32) (len : UInt32) :
    ch32funCheckAddr a.toUInt32 len flashStart flashEnd = .ok () ↔
      0 ≤ a.toInt ∧ a.toInt + len.toNat ≤ flashEnd.toNat := by
  have ha := a.toInt_lt
  have ha' := a.le_toInt
  have hu := toNat_toUInt32 a
  rw [ch32funCheckAddr_ok_iff, show flashStart.toNat = 0 from rfl,
    flashEnd_toNat]
  omega

theorem check_bind_eq_ok_iff {c : Except MpException Unit} {x : MemResult} :
    (c >>= fun _ => pure x) = .ok r ↔ c = .ok () ∧ r = x := by
  cases c with
  | ok u =>
    constructor
    · intro h
      cases h
      exact ⟨rfl, rfl⟩
    · rintro ⟨-, rfl⟩
      rfl
  | error e =>
    constructor
    · intro h
      cases h
    · rintro ⟨h, -⟩
      cases h

theorem funFlashRead_byte_iff (mem : Memory) (a : Int32) : funFlashRead mem a none = .ok r ↔
    (0 ≤ a.toInt ∧ a.toInt + 1 ≤ flashEnd.toNat) ∧
      r = ⟨.smallInt (mem a.toUInt32), mem, [a.toUInt32]⟩ := by
  rw [funFlashRead]
  exact check_bind_eq_ok_iff.trans (and_congr_left' (flash_check_iff a 1))

theorem funFlashRead_range_iff (mem : Memory) (a n : Int32) :
    funFlashRead mem a (some n) = .ok r ↔
      (0 ≤ a.toInt ∧ 0 ≤ n.toInt ∧ a.toInt + n.toInt ≤ flashEnd.toNat) ∧
        r = ⟨.memoryview n.toUInt32 a.toUInt32, mem, addrRange a.toUInt32 n.toUInt32⟩ := by
  have hn := toNat_toUInt32 n
  have hn' := n.le_toInt
  have hn'' := n.toInt_lt
  rw [funFlashRead]
  refine check_bind_eq_ok_iff.trans (and_congr_left' ((flash_check_iff a n.toUInt32).trans ?_))
  rw [flashEnd_toNat]
  omega

/-- `ch5xx_flash.write` programs four bytes for an integer, else the bytes of the buffer. -/
def FlashData.byteCount : FlashData → UInt32
  | .int _ => 4
  | .buffer b => b.len

theorem funFlashWrite_iff (mem : Memory) (a : Int32) (data : FlashData) :
    funFlashWrite mem a data = .ok r ↔
      (0 ≤ a.toInt ∧ a.toInt + data.byteCount.toNat ≤ flashEnd.toNat) ∧ r = ⟨.none, mem, []⟩ := by
  cases data with
  | int v => exact check_bind_eq_ok_iff.trans (and_congr_left' (flash_check_iff a 4))
  | buffer b => exact check_bind_eq_ok_iff.trans (and_congr_left' (flash_check_iff a b.len))

theorem touches_flashRead {len : Option Int32} (h : funFlashRead mem a len = .ok r) :
    Touches mem flashStart flashEnd a.toInt.toNat (len.elim 1 fun n => n.toInt.toNat) r := by
  have hu := toNat_toUInt32 a
  have ha' := a.toInt_lt
  cases len with
  | none =>
    obtain ⟨⟨h0, hle⟩, rfl⟩ := (funFlashRead_byte_iff mem a).1 h
    have haddr : a.toUInt32.toNat = a.toInt.toNat := by omega
    refine ⟨?_, fun _ _ => rfl, Nat.zero_le _, by simp only [Option.elim_none]; omega⟩
    rw [List.map_singleton, haddr]
    rfl
  | some n =>
    obtain ⟨⟨h0, hn0, hle⟩, rfl⟩ := (funFlashRead_range_iff mem a n).1 h
    have hn := toNat_toUInt32 n
    have hn' := n.toInt_lt
    have haddr : a.toUInt32.toNat = a.toInt.toNat := by omega
    have hlen : n.toUInt32.toNat = n.toInt.toNat := by omega
    refine ⟨?_, fun _ _ => rfl, Nat.zero_le _, by simp only [Option.elim_some]; omega⟩
    rw [addrRange_toNat (by omega), haddr, hlen]
    rfl

theorem flashRead_loads (h : funFlashRead mem a none = .ok r) : Loads mem a.toInt.toNat r := by
  obtain ⟨⟨h0, -⟩, rfl⟩ := (funFlashRead_byte_iff mem a).1 h
  have hu := toNat_toUInt32 a
  have ha' := a.toInt_lt
  have haddr : a.toUInt32.toNat = a.toInt.toNat := by omega
  refine ⟨?_, rfl⟩
  rw [← haddr, UInt32.ofNat_toNat]

theorem flashRead_handsOut (h : funFlashRead mem a (some n) = .ok r) :
    HandsOut mem a.toInt.toNat n.toInt.toNat r := by
  obtain ⟨⟨h0, hn0, -⟩, rfl⟩ := (funFlashRead_range_iff mem a n).1 h
  have hu := toNat_toUInt32 a
  have ha' := a.toInt_lt
  have hn := toNat_toUInt32 n
  have hn' := n.toInt_lt
  exact ⟨⟨_, _, rfl, by omega, by omega⟩, rfl⟩

/-- **The memory accessors never leave their region.**  The check is exact in natural numbers.
`RAM[s:e]` and `RAM[i]` pass it exactly for the slices and bytes of RAM, whatever is loaded or
stored; a call that returns touches exactly the bytes asked for: a load hands out these, a store
puts the bytes of its value there.  The accessors of the flash return exactly for the ranges inside
it, and `read` hands out these. -/
theorem accessors_in_region :
    (∀ addr len start end', start ≤ end' → (ch32funCheckAddr addr len start end' = .ok () ↔
      start.toNat ≤ addr.toNat ∧ addr.toNat + len.toNat ≤ end'.toNat)) ∧
    (∀ mem s e v, ramSubscr mem (.slice s e none) v ≠ .error addressOutOfBounds ↔
      RamSlice s.toInt e.toInt) ∧
    (∀ mem s e, RamSlice s.toInt e.toInt →
      ∃ r, ramSubscr mem (.slice s e none) .sentinel = .ok r) ∧
    (∀ mem s e b, RamSlice s.toInt e.toInt → b.len.toNat = (e.toInt - s.toInt).toNat →
      ∃ r, ramSubscr mem (.slice s e none) (.buffer b) = .ok r) ∧
    (∀ mem s e v r, ramSubscr mem (.slice s e none) v = .ok r →
      Touches mem ramStart ramEnd (ramAddress s.toInt) (e.toInt - s.toInt).toNat r) ∧
    (∀ mem s e r, ramSubscr mem (.slice s e none) .sentinel = .ok r →
      HandsOut mem (ramAddress s.toInt) (e.toInt - s.toInt).toNat r) ∧
    (∀ mem s e b r, ramSubscr mem (.slice s e none) (.buffer b) = .ok r →
      Stores mem (ramAddress s.toInt) (e.toInt - s.toInt).toNat b r) ∧
    (∀ mem i v, ramSubscr mem (.int i) v ≠ .error addressOutOfBounds ↔ RamByte i.toInt) ∧
    (∀ mem i v r, ramSubscr mem (.int i) v = .ok r →
      Touches mem ramStart ramEnd (ramAddress i.toInt) 1 r) ∧
    (∀ mem i, RamByte i.toInt → ∃ r, ramSubscr mem (.int i) .sentinel = .ok r ∧
      Loads mem (ramAddress i.toInt) r) ∧
    (∀ mem i x, RamByte i.toInt → ∃ r, ramSubscr mem (.int i) (.int x) = .ok r ∧ r.obj = .none ∧
      ((r.mem (UInt32.ofNat (ramAddress i.toInt))).toNat : ℤ) = x.toInt % 256) ∧
    (∀ mem a, (∃ r, funFlashRead mem a none = .ok r) ↔
      0 ≤ a.toInt ∧ a.toInt + 1 ≤ flashEnd.toNat) ∧
    (∀ mem a n, (∃ r, funFlashRead mem a (some n) = .ok r) ↔
      0 ≤ a.toInt ∧ 0 ≤ n.toInt ∧ a.toInt + n.toInt ≤ flashEnd.toNat) ∧
    (∀ mem a len r, funFlashRead mem a len = .ok r →
      Touches mem flashStart flashEnd a.toInt.toNat (len.elim 1 fun n => n.toInt.toNat) r) ∧
    (∀ mem a r, funFlashRead mem a none = .ok r → Loads mem a.toInt.toNat r) ∧
    (∀ mem a n r, funFlashRead mem a (some n) = .ok r →
      HandsOut mem a.toInt.toNat n.toInt.toNat r) ∧
    (∀ mem a data, (∃ r, funFlashWrite mem a data = .ok r) ↔
      0 ≤ a.toInt ∧ a.toInt + data.byteCount.toNat ≤ flashEnd.toNat) := by
  refine ⟨fun _ _ _ _ _ => ch32funCheckAddr_ok_iff, fun mem s e v => ?_, fun mem s e hs => ?_,
    fun mem s e b hs hb => ?_, fun _ _ _ _ _ h => touches_slice h, fun _ _ _ _ => slice_handsOut,
    fun _ _ _ _ _ => slice_stores, fun mem i v => ?_, fun _ _ _ _ h => touches_single h,
    fun _ _ => single_loads, fun _ _ x hi => single_stores hi x, fun mem a => ?_,
    fun mem a n => ?_, fun _ _ _ _ h => touches_flashRead h, fun _ _ _ => flashRead_loads,
    fun _ _ _ _ => flashRead_handsOut, fun mem a data => ?_⟩
  · rcases ramSliceRange_cases s e with ⟨h, addr, len, hr, -, -⟩ | ⟨h, hr⟩
    · simp only [h, iff_true]
      exact ramSubscr_slice_ne mem v hr
    · simp only [h, iff_false, not_not, ramSubscr, hr]
      rfl
  · rcases ramSliceRange_cases s e with ⟨-, addr, len, hr, -, -⟩ | ⟨h, -⟩
    · exact ⟨_, ramSubscr_slice_load mem hr⟩
    · exact absurd hs h
  · rcases ramSliceRange_cases s e with ⟨-, addr, len, hr, -, hlen⟩ | ⟨h, -⟩
    · have hb' : b.len = len := UInt32.toNat_inj.1 (hb.trans hlen.symm)
      exact ⟨_, by rw [ramSubscr_slice_store mem hr, if_neg (not_not.2 hb')]⟩
    · exact absurd hs h
  · rcases ramSingle_cases i with ⟨h, addr, hr, -⟩ | ⟨h, hr⟩
    · simp only [h, iff_true]
      exact ramSubscr_int_ne mem v hr
    · simp only [h, iff_false, not_not, ramSubscr, hr]
      rfl
  · simp only [funFlashRead_byte_iff, exists_and_left, exists_eq, and_true]
  · simp only [funFlashRead_range_iff, exists_and_left, exists_eq, and_true]
  · simp only [funFlashWrite_iff, exists_and_left, exists_eq, and_true]

end Ch32fun
