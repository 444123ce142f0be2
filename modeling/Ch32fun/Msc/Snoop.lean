import Ch32fun.Msc.Write
import Mathlib.Algebra.Order.BigOperators.Group.List

/-!
# The directory scan and the end of a packet

The loop over a packet of a directory sector visits the records that begin inside the packet, and
reads each of them whole.  When the packet ends inside a record, the rest of that record is what
an earlier packet left in the endpoint buffer.

* `snoopDirectory_eq` : the loop is a scan of the complete records and of the one that is cut off.
* `Decided` : the bytes received of a cut record decide what the driver makes of it.
* `own_bytes_iff` : a data-out packet acts through its own bytes alone, unless it is aimed at a
  directory sector and ends inside a record that is not decided.
-/

namespace Ch32fun

/-- The packet `q` has the length of `p`, and the same first `n` bytes. -/
structure OutPacket.Agrees (p : OutPacket) (n : ℕ) (q : OutPacket) : Prop where
  len : q.len = p.len
  data : ∀ i, i < n → q.data.get i = p.data.get i

namespace Msc

variable {s t : Msc} {p q : OutPacket} {f g : ℕ → UInt8} {i k n : ℕ}

/-! ### Records cut off by the end of a packet -/

theorem snoopEntry_congr (s : Msc) (h : ∀ x, x < 32 → f (i + x) = g (i + x)) :
    snoopEntry f s i = snoopEntry g s i := by
  have hname : nameAt f i = nameAt g i := nameAt_congr fun x hx => h x (by omega)
  have hcl : le16 f (i + 26) = le16 g (i + 26) :=
    le16_congr fun x hx => by rw [Nat.add_assoc]; exact h _ (by omega)
  have hsize : le32 f (i + 0x1C) = le32 g (i + 0x1C) :=
    le32_congr fun x hx => by rw [Nat.add_assoc]; exact h _ (by omega)
  rw [snoopEntry, snoopEntry, hname, hcl, hsize]

/-- The complete records of a packet of `n` bytes. -/
def snoopComplete (f : ℕ → UInt8) (n : ℕ) (s : Msc) : Msc :=
  (List.range' 0 (n / 32) 32).foldl (snoopEntry f) s

theorem snoopComplete_congr (s : Msc) (h : ∀ x, x < n → f x = g x) :
    snoopComplete f n s = snoopComplete g n s := by
  refine List.foldl_ext _ _ _ fun t i hi => snoopEntry_congr t fun x hx => h _ ?_
  obtain ⟨j, hj, rfl⟩ := List.mem_range'.1 hi
  omega

/-- The loop, cut at the last complete record. -/
theorem snoopDirectory_eq (f : ℕ → UInt8) (n : ℕ) (s : Msc) : snoopDirectory f n s =
    if n % 32 = 0 then snoopComplete f n s
    else snoopEntry f (snoopComplete f n s) (32 * (n / 32)) := by
  unfold snoopDirectory snoopComplete
  split_ifs with h
  · rw [show (n + 31) / 32 = n / 32 by omega]
  · rw [show (n + 31) / 32 = n / 32 + 1 by omega, List.range'_concat, List.foldl_append,
      Nat.zero_add]
    rfl

/-- The size field of a record of which `k` bytes are known, the unknown bytes taken as zero. -/
def knownSize (f : ℕ → UInt8) (i k : ℕ) : ℕ :=
  ((List.range (k - 28)).map fun x => (f (i + 28 + x)).toNat * 2 ^ (8 * x)).sum

/-- The first `k` bytes of the record at `i` decide what the driver makes of it: the name is
another one, or the cluster is zero, or the size exceeds the RAM disk anyway. -/
def Decided (f : ℕ → UInt8) (i k : ℕ) : Prop :=
  (∃ x, x < min k 10 ∧ f (i + x) ≠ snoopName.getD x 0) ∨
  (28 ≤ k ∧ le16 f (i + 26) = 0) ∨
  (30 ≤ k ∧ ramDiskSize ≤ knownSize f i k)

theorem nameAt_iff : nameAt f i = true ↔ ∀ x, x < 10 → f (i + x) = snoopName.getD x 0 := by
  simp [nameAt, List.all_eq_true]

theorem snoopEntry_of_nameAt_eq_false (s : Msc) (h : nameAt f i = false) :
    snoopEntry f s i = s := if_neg (by simp [h])

theorem snoopEntry_of_cluster_eq_zero (s : Msc) (h : le16 f (i + 26) = 0) :
    snoopEntry f s i = s := if_neg (by simp [h])

theorem knownSize_le (hk : k ≤ 32) : knownSize f i k ≤ (le32 f (i + 28)).toNat := by
  have hall : (le32 f (i + 28)).toNat =
      ((List.range 4).map fun x => (f (i + 28 + x)).toNat * 2 ^ (8 * x)).sum := by
    have hsum (g : ℕ → ℕ) : ((List.range 4).map g).sum = g 0 + g 1 + g 2 + g 3 := by
      simp [List.range_succ, Nat.add_assoc]
    rw [le32_toNat, hsum]
    simp only [Nat.add_zero, Nat.mul_zero, pow_zero, Nat.mul_one, Nat.reduceMul]
  have hsub : List.Sublist (List.range (k - 28)) (List.range 4) :=
    List.range_sublist.2 (by omega)
  rw [hall]
  exact (hsub.map _).sum_le_sum fun _ _ => Nat.zero_le _

theorem knownSize_congr (h : ∀ x, x < k → f (i + x) = g (i + x)) :
    knownSize f i k = knownSize g i k := by
  unfold knownSize
  congr 1
  refine List.map_congr_left fun x hx => ?_
  rw [Nat.add_assoc, h _ (by have := List.mem_range.1 hx; omega)]

/-- A decided record is treated alike whatever follows the bytes received. -/
theorem Decided.snoopEntry_eq (hd : Decided f i k) (hk : k ≤ 32) (s : Msc)
    (h : ∀ x, x < k → f (i + x) = g (i + x)) : snoopEntry g s i = snoopEntry f s i := by
  rcases hd with ⟨x, hx, hne⟩ | ⟨hk', hcl⟩ | ⟨hk', hsize⟩
  · have hf : nameAt f i = false := by
      rw [Bool.eq_false_iff, ne_eq, nameAt_iff]
      exact fun hall => hne (hall x (by omega))
    have hg : nameAt g i = false := by
      rw [Bool.eq_false_iff, ne_eq, nameAt_iff]
      exact fun hall => hne (by rw [h x (by omega), hall x (by omega)])
    rw [snoopEntry_of_nameAt_eq_false s hf, snoopEntry_of_nameAt_eq_false s hg]
  · have hcl' : le16 g (i + 26) = 0 := by
      rw [← hcl]
      exact le16_congr fun x hx => by rw [Nat.add_assoc]; exact (h _ (by omega)).symm
    rw [snoopEntry_of_cluster_eq_zero s hcl, snoopEntry_of_cluster_eq_zero s hcl']
  · -- both sizes are cut to the size of the RAM disk
    have hname : nameAt g i = nameAt f i := nameAt_congr fun x hx => (h x (by omega)).symm
    have hcl : le16 g (i + 26) = le16 f (i + 26) :=
      le16_congr fun x hx => by rw [Nat.add_assoc]; exact (h _ (by omega)).symm
    have hf : clampSize (le32 f (i + 0x1C)) = mscRamDiskSize :=
      clampSize_of_le (hsize.trans (knownSize_le hk))
    have hg : clampSize (le32 g (i + 0x1C)) = mscRamDiskSize :=
      clampSize_of_le ((hsize.trans_eq (knownSize_congr h)).trans (knownSize_le hk))
    rw [snoopEntry, snoopEntry, hname, hcl, hf, hg]

/-! ### Two ways to complete a record -/

/-- A record of which the first `k` bytes are those of `f`: the name goes on as the driver expects
it, the bytes of the cluster are `v`, and the first unknown byte of the size is `w`. -/
def completion (f : ℕ → UInt8) (i k : ℕ) (v w : UInt8) (j : ℕ) : UInt8 :=
  if j < i + k then f j
  else if j < i + 10 then snoopName.getD (j - i) 0
  else if j < i + 28 then v
  else if j = i + max k 28 then w
  else 0

section Completion

variable {v w : UInt8}

theorem completion_of_lt {x : ℕ} (hx : x < k) : completion f i k v w (i + x) = f (i + x) :=
  if_pos (by omega)

theorem nameAt_completion (h : ∀ x, x < min k 10 → f (i + x) = snoopName.getD x 0) :
    nameAt (completion f i k v w) i = true := by
  refine nameAt_iff.2 fun x hx => ?_
  by_cases hc : x < k
  · rw [completion_of_lt hc, h x (by omega)]
  · rw [completion, if_neg (by omega), if_pos (by omega), Nat.add_sub_cancel_left]

theorem cluster_completion (hk : k ≤ 27) : ∃ lo < 2 ^ 8,
    (k = 27 → lo = (f (i + 26)).toNat) ∧ (k < 27 → lo = v.toNat) ∧
    (le16 (completion f i k v w) (i + 26)).toNat = lo + v.toNat * 2 ^ 8 := by
  have hhi : completion f i k v w (i + 26 + 1) = v := by
    unfold completion
    rw [if_neg (by omega), if_neg (by omega), if_pos (by omega)]
  refine ⟨(completion f i k v w (i + 26)).toNat, UInt8.toNat_lt _, ?_, ?_, ?_⟩
  · rintro rfl
    rw [completion_of_lt (by omega)]
  · intro hlt
    unfold completion
    rw [if_neg (by omega), if_neg (by omega), if_pos (by omega)]
  · rw [le16_toNat, hhi]

/-- The first unknown byte of the size counts with its weight. -/
theorem size_completion (h28 : 28 ≤ k) (h32 : k < 32) :
    (le32 (completion f i k v w) (i + 28)).toNat =
      knownSize f i k + w.toNat * 2 ^ (8 * (k - 28)) := by
  have hlt : ∀ x, x < k → completion f i k v w (i + x) = f (i + x) :=
    fun x hx => completion_of_lt hx
  have hw : completion f i k v w (i + k) = w := by
    unfold completion
    rw [if_neg (by omega), if_neg (by omega), if_neg (by omega), if_pos (by omega)]
  have hgt : ∀ x, k < x → completion f i k v w (i + x) = 0 := by
    intro x hx
    unfold completion
    rw [if_neg (by omega), if_neg (by omega), if_neg (by omega), if_neg (by omega)]
  rw [le32_toNat]
  unfold knownSize
  obtain rfl | rfl | rfl | rfl : k = 28 ∨ k = 29 ∨ k = 30 ∨ k = 31 := by omega
  · simp only [Nat.add_assoc, Nat.reduceAdd] at *
    rw [hw, hgt 29 (by omega), hgt 30 (by omega), hgt 31 (by omega)]
    simp
  · simp only [Nat.add_assoc, Nat.reduceAdd] at *
    rw [hw, hlt 28 (by omega), hgt 30 (by omega), hgt 31 (by omega)]
    simp
  · simp only [Nat.add_assoc, Nat.reduceAdd] at *
    rw [hw, hlt 28 (by omega), hlt 29 (by omega), hgt 31 (by omega)]
    simp [List.range_succ, Nat.add_assoc]
  · simp only [Nat.add_assoc, Nat.reduceAdd] at *
    rw [hw, hlt 28 (by omega), hlt 29 (by omega), hlt 30 (by omega)]
    simp [List.range_succ, Nat.add_assoc]

end Completion

section NameKnown

variable {v w : UInt8} (hname : ∀ x, x < min k 10 → f (i + x) = snoopName.getD x 0)

include hname

theorem filePair_completion (s : Msc)
    (hne : le16 (completion f i k v w) (i + 26) ≠ 0) :
    (snoopEntry (completion f i k v w) s i).filePair =
      (le16 (completion f i k v w) (i + 26), clampSize (le32 (completion f i k v w) (i + 28))) := by
  rw [snoopEntry, if_pos ⟨nameAt_completion hname, hne⟩]
  rfl

theorem exists_cluster_ne (hk : k ≤ 27) (s : Msc) :
    ∃ v w v' w', snoopEntry (completion f i k v w) s i ≠
      snoopEntry (completion f i k v' w') s i := by
  obtain ⟨lo, hlo, hlo₁, hlo₂, hcl₁⟩ := cluster_completion (f := f) (i := i) (v := 1) (w := 0) hk
  obtain ⟨lo', hlo', hlo₁', hlo₂', hcl₂⟩ :=
    cluster_completion (f := f) (i := i) (v := 2) (w := 0) hk
  refine ⟨1, 0, 2, 0, fun he => ?_⟩
  have h₁ : le16 (completion f i k 1 0) (i + 26) ≠ 0 := by
    rw [ne_eq, ← UInt16.toNat_inj, hcl₁]
    simp
  have h₂ : le16 (completion f i k 2 0) (i + 26) ≠ 0 := by
    rw [ne_eq, ← UInt16.toNat_inj, hcl₂]
    simp
  have hpair := (filePair_completion hname s h₁).symm.trans
    ((congrArg filePair he).trans (filePair_completion hname s h₂))
  have hnat := congrArg UInt16.toNat (congrArg Prod.fst hpair)
  dsimp only at hnat
  rw [hcl₁, hcl₂] at hnat
  simp only [UInt8.reduceToNat] at hnat
  omega

theorem exists_size_ne (h28 : 28 ≤ k) (h32 : k < 32)
    (hcl : le16 f (i + 26) ≠ 0) (hsize : knownSize f i k < ramDiskSize) (s : Msc) :
    ∃ v w v' w', snoopEntry (completion f i k v w) s i ≠
      snoopEntry (completion f i k v' w') s i := by
  have hcluster : ∀ w, le16 (completion f i k 0 w) (i + 26) ≠ 0 := by
    intro w h
    refine hcl (h ▸ le16_congr fun x hx => ?_)
    rw [Nat.add_assoc]
    exact (completion_of_lt (by omega)).symm
  refine ⟨0, 0, 0, 1, fun he => ?_⟩
  have hpair := (filePair_completion hname s (hcluster 0)).symm.trans
    ((congrArg filePair he).trans (filePair_completion hname s (hcluster 1)))
  have hnat := congrArg UInt32.toNat (congrArg Prod.snd hpair)
  have hpos : 0 < 2 ^ (8 * (k - 28)) := Nat.two_pow_pos _
  rw [clampSize_toNat, clampSize_toNat, size_completion h28 h32, size_completion h28 h32] at hnat
  simp only [UInt8.reduceToNat, Nat.zero_mul, Nat.one_mul] at hnat
  omega

end NameKnown

theorem knownSize_lt (h28 : 28 ≤ k) (h30 : k < 30) : knownSize f i k < ramDiskSize := by
  obtain rfl | rfl : k = 28 ∨ k = 29 := by omega
  · exact Nat.zero_lt_succ _
  · have hbyte := (f (i + 28)).toNat_lt
    simp only [knownSize, Nat.reduceSub, List.range_one, List.map_cons, List.map_nil,
      List.sum_cons, List.sum_nil, Nat.add_zero, Nat.mul_zero, Nat.pow_zero, Nat.mul_one]
    exact hbyte.trans (by decide)

/-- A record that is not decided can be completed to records that the driver tells apart. -/
theorem exists_completion_ne (hd : ¬ Decided f i k) (h0 : 0 < k) (h32 : k < 32) (s : Msc) :
    ∃ v w v' w', snoopEntry (completion f i k v w) s i ≠
      snoopEntry (completion f i k v' w') s i := by
  unfold Decided at hd
  push Not at hd
  obtain ⟨hname, hcl, hsize⟩ := hd
  by_cases hk : k ≤ 27
  · exact exists_cluster_ne hname hk s
  · refine exists_size_ne hname (by omega) h32 (hcl (by omega)) ?_ s
    by_cases h30 : 30 ≤ k
    · exact hsize h30
    · exact knownSize_lt (by omega) (by omega)

/-! ### Packets that end inside a record -/

/-- The packet is aimed at a directory sector and ends inside a record whose received bytes do not
decide what the driver makes of it. -/
def ReadsStale (s : Msc) (p : OutPacket) : Prop :=
  (33 ≤ s.mscCurrentOffset.toNat / 512 ∧ s.mscCurrentOffset.toNat / 512 < 65) ∧
    (s.writeLen p).toNat % 32 ≠ 0 ∧
    ¬ Decided p.data.get (32 * ((s.writeLen p).toNat / 32)) ((s.writeLen p).toNat % 32)

/-- The state in which `HandleDataOut` ends depends on the bytes delivered alone. -/
def OwnBytes (s : Msc) (p : OutPacket) : Prop :=
  ∀ q, p.Agrees (s.writeLen p).toNat q →
    (s.handleMscOut q).map Prod.fst = (s.handleMscOut p).map Prod.fst

theorem writeLen_congr (s : Msc) (h : q.len = p.len) : s.writeLen q = s.writeLen p := by
  unfold writeLen
  rw [h]

theorem handleMscOut_fst_eq_iff (hs : s.SlotInv) (hst : s.mscState = .dataOut)
    (h : q.len = p.len) : (s.handleMscOut q).map Prod.fst = (s.handleMscOut p).map Prod.fst ↔
      s.received q = s.received p := by
  have hres : ∀ r : OutPacket, (s.handleMscOut r).map Prod.fst =
      some (if s.mscBytesRemaining - s.writeLen r = 0 then (s.received r).afterStatus
        else s.received r) := by
    intro r
    rw [handleMscOut, hst]
    dsimp only
    rw [receiveData_eq r (hs.dataOut hst)]
    split_ifs <;> rfl
  rw [hres, hres, writeLen_congr s h, Option.some.injEq]
  split_ifs with hr
  · constructor
    · -- what `afterStatus` overwrites is the same in both states
      intro he
      obtain ⟨_, _, _, _, hq⟩ := received_frame s q
      obtain ⟨_, _, _, _, hp⟩ := received_frame s p
      rw [hq, hp, afterStatus, afterStatus, Msc.mk.injEq] at he
      rw [hq, hp, Msc.mk.injEq]
      tauto
    · intro he
      rw [he]
  · rfl

/-- Outside the directory sectors no byte behind the packet is looked at. -/
theorem received_congr_of_not_root (hq : p.Agrees (s.writeLen p).toNat q)
    (h : ¬ (33 ≤ s.mscCurrentOffset.toNat / 512 ∧ s.mscCurrentOffset.toNat / 512 < 65)) :
    s.received q = s.received p := by
  have hw := writeLen_congr s hq.len
  have habsorb : s.absorb q (s.writeLen p) = s.absorb p (s.writeLen p) := by
    unfold absorb
    dsimp only
    rw [if_neg fun h' => h ((root_sector_iff s).1 h'),
      if_neg fun h' => h ((root_sector_iff s).1 h')]
    unfold writeDataArea
    dsimp only
    rw [Block.write_congr _ _ hq.data]
  unfold received
  rw [hw, habsorb]

theorem received_eq_iff_of_root (hq : q.len = p.len)
    (h : 33 ≤ s.mscCurrentOffset.toNat / 512 ∧ s.mscCurrentOffset.toNat / 512 < 65) :
    s.received q = s.received p ↔
      snoopDirectory q.data.get (s.writeLen p).toNat s =
        snoopDirectory p.data.get (s.writeLen p).toNat s := by
  have hscan : ∀ r : OutPacket, s.absorb r (s.writeLen r) =
      (snoopDirectory r.data.get (s.writeLen r).toNat s, []) :=
    fun r => if_pos ((root_sector_iff s).2 h)
  have hw := writeLen_congr s hq
  obtain ⟨_, _, _, hfq⟩ := foldl_snoopEntry_frame q.data.get
    (List.range' 0 (((s.writeLen p).toNat + 31) / 32) 32) s
  obtain ⟨_, _, _, hfp⟩ := foldl_snoopEntry_frame p.data.get
    (List.range' 0 (((s.writeLen p).toNat + 31) / 32) 32) s
  unfold received
  rw [hscan, hscan, hw]
  dsimp only
  unfold snoopDirectory
  rw [hfq, hfp, Msc.mk.injEq, Msc.mk.injEq]
  tauto

/-- **A data-out packet acts only through its own bytes, unless it reads a stale record.** -/
theorem own_bytes_iff (hr : s.Reachable) (hst : s.mscState = .dataOut) (p : OutPacket) :
    s.OwnBytes p ↔ ¬ s.ReadsStale p := by
  have hle : (s.writeLen p).toNat ≤ 64 := by
    rw [writeLen_toNat]
    exact (Nat.min_le_left _ _).trans p.len_le
  constructor
  · rintro h ⟨hroot, hcut, hd⟩
    -- one of two completions of the cut record is told apart from `p`
    obtain ⟨v, w, v', w', hne⟩ := exists_completion_ne hd (by omega) (by omega)
      (snoopComplete p.data.get (s.writeLen p).toNat s)
    let r : UInt8 → UInt8 → OutPacket := fun v w =>
      ⟨fun j => completion p.data.get (32 * ((s.writeLen p).toNat / 32))
        ((s.writeLen p).toNat % 32) v w j, p.len, p.len_le⟩
    have hget : ∀ v w j, j < 64 → (r v w).data.get j =
        completion p.data.get (32 * ((s.writeLen p).toNat / 32)) ((s.writeLen p).toNat % 32)
          v w j :=
      fun v w j hj => Block.get_of_lt hj
    have hagrees : ∀ v w, p.Agrees (s.writeLen p).toNat (r v w) := fun v w =>
      ⟨rfl, fun i hi => by rw [hget _ _ _ (by omega), completion, if_pos (by omega)]⟩
    have hscan : ∀ v w, snoopDirectory (r v w).data.get (s.writeLen p).toNat s =
        snoopEntry (completion p.data.get (32 * ((s.writeLen p).toNat / 32))
          ((s.writeLen p).toNat % 32) v w) (snoopComplete p.data.get (s.writeLen p).toNat s)
          (32 * ((s.writeLen p).toNat / 32)) := by
      intro v w
      rw [snoopDirectory_eq, if_neg hcut, snoopComplete_congr s (hagrees v w).data]
      exact snoopEntry_congr _ fun x hx => hget _ _ _ (by omega)
    have heq : ∀ v w, snoopDirectory (r v w).data.get (s.writeLen p).toNat s =
        snoopDirectory p.data.get (s.writeLen p).toNat s := by
      intro v w
      have hrec : s.received (r v w) = s.received p :=
        (handleMscOut_fst_eq_iff hr.slotInv hst (hagrees v w).len).1 (h _ (hagrees v w))
      exact (received_eq_iff_of_root (hagrees v w).len hroot).1 hrec
    exact hne (by rw [← hscan, ← hscan, heq, heq])
  · intro h q hq
    refine (handleMscOut_fst_eq_iff hr.slotInv hst hq.len).2 ?_
    by_cases hroot : 33 ≤ s.mscCurrentOffset.toNat / 512 ∧ s.mscCurrentOffset.toNat / 512 < 65
    · refine (received_eq_iff_of_root hq.len hroot).2 ?_
      rw [snoopDirectory_eq, snoopDirectory_eq, snoopComplete_congr s hq.data]
      split_ifs with hcut
      · rfl
      · -- the cut record is decided
        have hd := not_not.1 fun hd => h ⟨hroot, hcut, hd⟩
        exact hd.snoopEntry_eq (by omega) _ fun x hx => (hq.data _ (by omega)).symm
    · exact received_congr_of_not_root hq hroot

/-- The state in which a write of the first directory sector, announced at power-up, begins. -/
def dirWriteStart : Msc := usbInit.begin (Cbw.ofBlock 1 512 0 [0x2A, 0, 0, 0, 0, 33, 0, 0, 1])

theorem dirWriteStart_reachable : dirWriteStart.Reachable :=
  (Machine.Reachable.refl usbInit).step (starts_write slotInv_usbInit rfl rfl rfl).2

/-- The endpoint buffer with 43 bytes delivered, the record of the file in cluster 5 and the name in
the next record, which is another file's; the rest is from an earlier packet. -/
def settledTail (l : List UInt8) : OutPacket :=
  ⟨Block.ofList (ascii "main    py " ++ [0x20, 0, 0, 0, 0, 0, 0, 0, 0, 0, 0, 0, 0, 0, 0, 5, 0, 2, 0,
    0, 0] ++ ascii "notes   txt" ++ l), 43, by omega⟩

/-- The name cut off is settled: the file moves to cluster 5 whatever stands behind the 43 bytes. -/
theorem own_bytes_settledTail : dirWriteStart.OwnBytes (settledTail []) ∧
    (dirWriteStart.writeLen (settledTail [])).toNat = 43 ∧
    (dirWriteStart.handleMscOut (settledTail (List.replicate 21 0xFF))).map
      (fun r => r.1.activeFileCluster) = some 5 := by
  have hown : dirWriteStart.OwnBytes (settledTail []) :=
    (own_bytes_iff dirWriteStart_reachable rfl _).2 fun h =>
      h.2.2 (.inl ⟨0, by decide +kernel, by decide +kernel⟩)
  refine ⟨hown, by decide +kernel, ?_⟩
  have h := hown (settledTail (List.replicate 21 0xFF)) ⟨rfl, by decide +kernel⟩
  have hcluster := congrArg (Option.map Msc.activeFileCluster) h
  rw [Option.map_map, Option.map_map] at hcluster
  exact hcluster.trans (by decide +kernel)

/-- The endpoint buffer with the one byte `m` delivered, the rest from an earlier packet. -/
def staleTail (l : List UInt8) : OutPacket := ⟨Block.ofList (0x6D :: l), 1, by omega⟩

/-- One byte, in front of the remains of a directory entry, moves the file to cluster 5. -/
theorem stale_record_moves_file : ∃ (s : Msc) (p q : OutPacket), s.Reachable ∧
    s.mscState = .dataOut ∧ p.Agrees (s.writeLen p).toNat q ∧
    (s.handleMscOut p).map (fun r => r.1.activeFileCluster) = some 2 ∧
    (s.handleMscOut q).map (fun r => r.1.activeFileCluster) = some 5 := by
  refine ⟨dirWriteStart, staleTail [],
    staleTail (ascii "ain    py " ++ [0x20, 0, 0, 0, 0, 0, 0, 0, 0, 0, 0, 0, 0, 0, 0, 5]),
    dirWriteStart_reachable, rfl, ⟨rfl, ?_⟩, by decide +kernel, by decide +kernel⟩
  decide +kernel

end Msc

end Ch32fun
