import Ch32fun.Isler.Stmts

/-!
# Counting while frames arrive

`rx_fifo_count` reads the head once for the comparison and once more for the difference, and the
receive interrupt may come in between.  The count is right unless the head passes the end of the
array there: then it is below the tail, and the difference wraps around.

* `IslerEvent.Right` : the count lies between the numbers of bytes stored at the beginning and at
  the end, no allocation is larger than the FIFO, no byte is popped from the empty FIFO.
* `Overtaken` : the head passes the end of the array between its two reads.
* `count_right_iff` : a call of `any` or `read` goes right exactly when this does not happen.
-/

namespace Ch32fun

/-- What is right of an event of a call that begins with `m` bytes stored. -/
def IslerEvent.Right (m : ℕ) : IslerEvent → Prop
  | .counted count stored => count.toNat ≤ 511 ∧ m ≤ count.toNat ∧ count.toNat ≤ stored
  | .alloc len => len.toNat ≤ 511
  | .emptyPop => False
  | _ => True

namespace Isler

open Machine

variable {s s' : Isler} {σ σ' : List (List LleBuf)} {log o : List IslerEvent} {m n : ℕ}

/-- The radio after the interrupts of some frames. -/
def after (s : Isler) (frames : List LleBuf) : Isler :=
  { s with rxFifo := s.rxFifo.pushAll (frames.flatMap isrBytes) }

/-- What is observed of these interrupts. -/
def isrLog (s : Isler) (frames : List LleBuf) : List IslerEvent :=
  frames.flatMap fun frame => (modIslerRxIsr s frame).2

/-- The radio after the interrupts of the first `k` gaps between statements. -/
def afterGaps (s : Isler) (σ : List (List LleBuf)) (k : ℕ) : Isler := s.after (σ.take k).flatten

/-- The bytes that come in the first `k` gaps. -/
def gapBytes (σ : List (List LleBuf)) (k : ℕ) : ℕ :=
  ((σ.take k).flatten.flatMap isrBytes).length

/-- The frames that come after the first two reads of `rx_fifo_count`, of the head and of the
tail, lead the head past the end of the array. -/
def Overtaken (s : Isler) (σ : List (List LleBuf)) : Prop :=
  s.rxFifo.tail ≤ s.rxFifo.head ∧ 1 ≤ s.rxFifo.tail ∧
    rxFifoSize ≤ s.rxFifo.head + gapBytes σ 2

instance (s : Isler) (σ : List (List LleBuf)) : Decidable (s.Overtaken σ) := by
  unfold Overtaken
  exact inferInstance

/-- The value that `rx_fifo_count` computes. -/
def countedValue (s : Isler) (σ : List (List LleBuf)) : UInt32 :=
  if s.rxFifo.tail ≤ s.rxFifo.head then
    UInt32.ofInt ((s.afterGaps σ 2).rxFifo.head - s.rxFifo.tail)
  else UInt32.ofInt ((rxFifoSize - s.rxFifo.tail) + (s.afterGaps σ 3).rxFifo.head)

/-! ### Interrupts between statements -/

theorem perform_rxIsr (s : Isler) (frames : List LleBuf) :
    Machine.perform ⟨rxIsr⟩ s frames = some (s.after frames, s.isrLog frames) := by
  induction frames generalizing s with
  | nil => rfl
  | cons frame frames ih =>
    -- the callback object is the same for all of them
    have hafter : (s.after (frame :: frames)) = (modIslerRxIsr s frame).1.after frames := by
      simp [after, modIslerRxIsr, Ring.pushAll_append]
    rw [hafter]
    simp [Machine.perform, rxIsr, ih]
    rfl

theorem gapBytes_mono (σ : List (List LleBuf)) {k l : ℕ} (h : k ≤ l) :
    gapBytes σ k ≤ gapBytes σ l := by
  obtain ⟨d, rfl⟩ := Nat.exists_eq_add_of_le h
  simp only [gapBytes, List.take_add, List.flatten_append, List.flatMap_append,
    List.length_append]
  omega

theorem count_afterGaps (s : Isler) (σ : List (List LleBuf)) (k : ℕ) :
    (s.afterGaps σ k).rxFifo.count = min (s.rxFifo.count + gapBytes σ k) 511 :=
  s.rxFifo.count_pushAll _

theorem tail_afterGaps (s : Isler) (σ : List (List LleBuf)) (k : ℕ) :
    (s.afterGaps σ k).rxFifo.tail = s.rxFifo.tail := s.rxFifo.pushAll_tail _

theorem perform_gap (s : Isler) (σ : List (List LleBuf)) (k : ℕ) :
    Machine.perform ⟨rxIsr⟩ (s.afterGaps σ k) ((σ.drop k).headD []) =
      some (s.afterGaps σ (k + 1), s.isrLog (σ.getD k [])) := by
  have hgap : (σ.drop k).headD [] = σ.getD k [] := by
    rw [List.headD_eq_head?_getD, List.head?_drop, List.getD_eq_getElem?_getD]
  have htake : (σ.take (k + 1)).flatten = (σ.take k).flatten ++ σ.getD k [] := by
    rw [List.take_add_one, List.flatten_append, List.getD_eq_getElem?_getD]
    cases σ[k]? <;> simp
  rw [hgap, perform_rxIsr, afterGaps, afterGaps, htake]
  simp [after, Ring.pushAll_append, isrLog, modIslerRxIsr]

theorem performIrq_read_gap {α β : Type} (s : Isler) (σ : List (List LleBuf)) (k : ℕ)
    (g : Isler → α) (f : α → Routine Isler IslerEvent β) :
    (Routine.read g >>= f).performIrq rxIsr (σ.drop k) (s.afterGaps σ k) =
      ((f (g (s.afterGaps σ k))).performIrq rxIsr (σ.drop (k + 1)) (s.afterGaps σ (k + 1))).map
        fun (b, s', o, σ') => (b, s', s.isrLog (σ.getD k []) ++ o, σ') := by
  rw [Routine.performIrq_bind, Routine.performIrq_read, perform_gap, List.tail_drop]
  rfl

/-! ### The events of the call itself -/

/-- The events that are not those of the interrupt. -/
def ownEvents (log : List IslerEvent) : List IslerEvent :=
  log.filter fun
    | .received _ | .scheduled _ => false
    | _ => true

@[simp] theorem ownEvents_append (l l' : List IslerEvent) :
    ownEvents (l ++ l') = ownEvents l ++ ownEvents l' := List.filter_append ..

@[simp] theorem ownEvents_isrLog (s : Isler) (frames : List LleBuf) :
    ownEvents (s.isrLog frames) = [] := by
  refine List.filter_eq_nil_iff.2 fun e he => ?_
  obtain ⟨frame, -, he⟩ := List.mem_flatMap.1 he
  rcases List.mem_cons.1 he with rfl | he
  · simp
  · obtain ⟨obj, -, rfl⟩ := List.mem_map.1 he
    simp

@[simp] theorem ownEvents_counted (count : UInt32) (stored : ℕ) :
    ownEvents [.counted count stored] = [.counted count stored] := rfl

/-- Only the events of the call can go wrong. -/
theorem right_iff_own : (∀ e ∈ log, e.Right m) ↔ ∀ e ∈ ownEvents log, e.Right m := by
  refine ⟨fun h e he => h e (List.mem_of_mem_filter he), fun h e he => ?_⟩
  cases e with
  | received | scheduled => trivial
  | read | any => trivial
  | counted | alloc | emptyPop => exact h _ (List.mem_filter.2 ⟨he, rfl⟩)

/-! ### The count -/

theorem performIrq_rxFifoCountStmts (s : Isler) (σ : List (List LleBuf)) :
    ∃ log, rxFifoCountStmts.performIrq rxIsr σ s =
        some (s.countedValue σ, s.afterGaps σ 5, log, σ.drop 5) ∧
      ownEvents log = [.counted (s.countedValue σ) (s.afterGaps σ 4).rxFifo.count] := by
  have htail : ∀ k, (s.afterGaps σ k).rxFifo.tail = s.rxFifo.tail := s.tail_afterGaps σ
  -- the return, after four reads
  have hret : ∀ count, (do
      let count ← pure count
      Routine.exec fun s => (s, [IslerEvent.counted count s.rxFifo.count])
      pure count : Routine Isler IslerEvent UInt32).performIrq rxIsr (σ.drop 4) (s.afterGaps σ 4) =
        some (count, s.afterGaps σ 5, [.counted count (s.afterGaps σ 4).rxFifo.count] ++
          s.isrLog (σ.getD 4 []) ++ [], σ.drop 5) := by
    intro count
    change (Routine.exec _ >>= fun _ => pure count).performIrq rxIsr _ _ = _
    rw [Routine.performIrq_bind, Routine.performIrq_exec, perform_gap, List.tail_drop]
    rfl
  change ∃ log, rxFifoCountStmts.performIrq rxIsr (σ.drop 0) (s.afterGaps σ 0) = _ ∧ _
  unfold rxFifoCountStmts countedValue
  rw [performIrq_read_gap, performIrq_read_gap, htail]
  dsimp only
  by_cases h : s.rxFifo.tail ≤ s.rxFifo.head
  · rw [if_pos h, if_pos (show _ ≤ (s.afterGaps σ 0).rxFifo.head from h), performIrq_read_gap,
      performIrq_read_gap, htail, hret]
    refine ⟨_, rfl, ?_⟩
    simp only [ownEvents_append, ownEvents_isrLog, ownEvents_counted, List.nil_append,
      List.append_nil]
  · rw [if_neg h, if_neg (show ¬ _ ≤ (s.afterGaps σ 0).rxFifo.head from h), performIrq_read_gap,
      performIrq_read_gap, htail, hret]
    refine ⟨_, rfl, ?_⟩
    simp only [ownEvents_append, ownEvents_isrLog, ownEvents_counted, List.nil_append,
      List.append_nil]

theorem ofInt_toNat {v : ℤ} (h₀ : 0 ≤ v) (h : v < 2 ^ 32) : ((UInt32.ofInt v).toNat : ℤ) = v := by
  rw [UInt32.ofInt, UInt32.toNat_ofNat']
  omega

/-- The head is read at one moment of the call, and the count is that of this moment. -/
theorem countedValue_toNat (h : ¬ s.Overtaken σ) :
    ∃ k, k ≤ 4 ∧ (s.countedValue σ).toNat = (s.afterGaps σ k).rxFifo.count := by
  have htail : s.rxFifo.tail < 512 := s.rxFifo.tail_lt
  unfold countedValue
  -- the head is read again after two gaps when it was above the tail, else after three
  by_cases hle : s.rxFifo.tail ≤ s.rxFifo.head
  · have habove : s.rxFifo.tail ≤ (s.afterGaps σ 2).rxFifo.head :=
      (s.rxFifo.tail_le_head_pushAll_iff _ hle).2 fun hbad => h ⟨hle, hbad⟩
    have hlt : (s.afterGaps σ 2).rxFifo.head < 512 := (s.afterGaps σ 2).rxFifo.head_lt
    have hcount : (s.afterGaps σ 2).rxFifo.count =
        (s.afterGaps σ 2).rxFifo.head - s.rxFifo.tail := by
      rw [Ring.count, tail_afterGaps, if_pos habove]
    refine ⟨2, by omega, ?_⟩
    have := ofInt_toNat (v := (s.afterGaps σ 2).rxFifo.head - s.rxFifo.tail) (by omega) (by omega)
    rw [if_pos hle]
    omega
  · have hbelow : (s.afterGaps σ 3).rxFifo.head < s.rxFifo.tail :=
      s.rxFifo.head_lt_tail_pushAll _ (not_le.1 hle)
    have hcount : (s.afterGaps σ 3).rxFifo.count =
        (512 - s.rxFifo.tail) + (s.afterGaps σ 3).rxFifo.head := by
      rw [Ring.count, tail_afterGaps, if_neg (not_le.2 hbelow)]
    refine ⟨3, by omega, ?_⟩
    have := ofInt_toNat (v := (512 - s.rxFifo.tail) + (s.afterGaps σ 3).rxFifo.head) (by omega)
      (by omega)
    rw [if_neg hle]
    change (UInt32.ofInt ((512 - s.rxFifo.tail) + (s.afterGaps σ 3).rxFifo.head)).toNat = _
    omega

/-- The difference wraps around. -/
theorem countedValue_of_overtaken (h : s.Overtaken σ) : 511 < (s.countedValue σ).toNat := by
  obtain ⟨hle, hpos, hend⟩ := h
  have htail : s.rxFifo.tail < 512 := s.rxFifo.tail_lt
  have hbelow : ¬ s.rxFifo.tail ≤ (s.afterGaps σ 2).rxFifo.head := fun habove =>
    (s.rxFifo.tail_le_head_pushAll_iff _ hle).1 habove ⟨hpos, hend⟩
  rw [countedValue, if_pos hle, UInt32.ofInt, UInt32.toNat_ofNat']
  omega

/-- **The count is right exactly when the head does not pass the end of the array.** -/
theorem counted_right_iff (s : Isler) (σ : List (List LleBuf)) :
    (IslerEvent.counted (s.countedValue σ) (s.afterGaps σ 4).rxFifo.count).Right s.rxFifo.count ↔
      ¬ s.Overtaken σ := by
  constructor
  · rintro ⟨hle, -⟩ hbad
    exact absurd (countedValue_of_overtaken hbad) (not_lt.2 hle)
  · intro h
    obtain ⟨k, hk, he⟩ := countedValue_toNat h
    have hlt : s.rxFifo.count < 512 := s.rxFifo.count_lt
    have hmono := gapBytes_mono σ hk
    have hcount := count_afterGaps s σ k
    have hfinal := count_afterGaps s σ 4
    refine ⟨?_, ?_, ?_⟩ <;> omega

/-! ### The loop of `iSLER.read` -/

/-- At least `n` bytes are stored, the tail satisfies `q`, and nothing has gone wrong. -/
def Popping (n m : ℕ) (q : ℕ → Prop) (s : Isler) (log : List IslerEvent) : Prop :=
  n ≤ s.rxFifo.count ∧ q s.rxFifo.tail ∧ ∀ e ∈ log, e.Right m

variable {q : ℕ → Prop}

/-- Nothing has gone wrong. -/
abbrev AllRight (m : ℕ) (_ : Isler) (log : List IslerEvent) : Prop := ∀ e ∈ log, e.Right m

/-- The interrupt only adds bytes, and leaves the tail alone. -/
theorem popping_admissible (n m : ℕ) (q : ℕ → Prop) :
    Routine.Admissible rxIsr Free (AllRight m) (Popping n m q) where
  inv h := h.2.2
  stable {s frame s' o log} h _ hst := by
    obtain ⟨hcount, htail, hright⟩ := h
    obtain ⟨rfl, rfl⟩ := isr_eq hst
    have hlt : s.rxFifo.count < 512 := s.rxFifo.count_lt
    have hnew : (modIslerRxIsr s frame).1.rxFifo.count =
        min (s.rxFifo.count + (isrBytes frame).length) 511 := s.rxFifo.count_pushAll _
    refine ⟨by omega, (s.rxFifo.pushAll_tail _).symm ▸ htail, fun e he => ?_⟩
    rcases List.mem_append.1 he with he | he
    · exact hright e he
    · have hlog : s.isrLog [frame] = (modIslerRxIsr s frame).2 := List.flatMap_singleton ..
      exact right_iff_own.2 (by simp) e (hlog ▸ he)

theorem triple_rxFifoPopStmts (n m : ℕ) : Routine.Triple rxIsr Free (AllRight m)
    (Popping (n + 1) m fun _ => True) rxFifoPopStmts fun _ => Popping n m fun _ => True := by
  unfold rxFifoPopStmts
  -- the head may move on after it was read, but the tail does not come to meet it
  refine .bind (.read (Q := fun head => Popping (n + 1) m (head ≠ ·))
    (fun _ => popping_admissible ..) ?_) fun head => ?_
  · rintro s log ⟨hcount, -, hright⟩
    exact ⟨hcount, s.rxFifo.ne_of_count_pos (Nat.lt_of_lt_of_le n.succ_pos hcount), hright⟩
  refine .bind (.read (Q := fun tail => Popping (n + 1) m fun _ => head ≠ tail)
    (fun _ => popping_admissible ..) fun _ _ h => h) fun tail => ?_
  by_cases h : head = tail
  · rw [if_pos h]
    refine .bind (.exec (Q := fun _ => Popping n m fun _ => True) (popping_admissible ..)
      fun s log hs => absurd h hs.2.1) fun _ => .pure fun _ _ h => h
  · rw [if_neg h]
    have htail : ∀ q, Routine.Triple rxIsr Free (AllRight m) (Popping (n + 1) m q)
        (Routine.read fun s => s.rxFifo.tail) fun tail => Popping (n + 1) m (tail = ·) := by
      intro q
      refine .read (fun _ => popping_admissible ..) ?_
      rintro s log ⟨hcount, -, hright⟩
      exact ⟨hcount, rfl, hright⟩
    refine .bind (htail _) fun tail => ?_
    refine .bind (.read (Q := fun _ => Popping (n + 1) m (tail = ·))
      (fun _ => popping_admissible ..) fun _ _ h => h) fun val => ?_
    refine .bind (htail _) fun tail => ?_
    refine .bind (.exec (Q := fun _ => Popping n m fun _ => True) (popping_admissible ..) ?_)
      fun _ => .pure fun _ _ h => h
    rintro s log ⟨hcount, rfl, hright⟩
    have hne := s.rxFifo.ne_of_count_pos (Nat.lt_of_lt_of_le n.succ_pos hcount)
    have hadvance := s.rxFifo.count_advance hne
    rw [List.append_nil]
    exact ⟨by change n ≤ s.rxFifo.advance.count; omega, trivial, hright⟩

theorem triple_popLoopStmts (n m : ℕ) : Routine.Triple rxIsr Free (AllRight m)
    (Popping n m fun _ => True) (popLoopStmts n) fun _ _ log => ∀ e ∈ log, e.Right m := by
  induction n with
  | zero => exact .pure fun _ _ h => h.2.2
  | succ n ih =>
    exact .bind (triple_rxFifoPopStmts n m) fun v => .bind ih fun bs => .pure fun _ _ h => h

theorem triple_readBytesStmts (malloc : UInt32 → Bool) (m : ℕ) {count : UInt32}
    (h : count.toNat ≤ 511) : Routine.Triple rxIsr Free (AllRight m)
    (Popping count.toNat m fun _ => True) (readBytesStmts malloc count)
    fun _ _ log => ∀ e ∈ log, e.Right m := by
  have halloc : Routine.Triple rxIsr Free (AllRight m) (Popping count.toNat m fun _ => True)
      (Routine.exec fun s => (s, [.alloc count])) fun _ => Popping count.toNat m fun _ => True := by
    refine .exec (popping_admissible ..) ?_
    rintro s log ⟨hcount, -, hright⟩
    refine ⟨hcount, trivial, fun e he => ?_⟩
    rcases List.mem_append.1 he with he | he
    · exact hright e he
    · rw [List.mem_singleton.1 he]
      exact h
  unfold readBytesStmts
  split_ifs
  · exact .pure fun _ _ h => h.2.2
  · exact .bind halloc fun _ => .bind (triple_popLoopStmts _ m) fun _ => .pure fun _ _ h => h
  · exact .bind halloc fun _ => .pure fun _ _ h => h.2.2

/-! ### The calls -/

theorem rxIsr_isSome (s : Isler) (frame : LleBuf) : ∃ x, rxIsr s frame = some x := ⟨_, rfl⟩

/-- What a call does after it has counted. -/
def rest (malloc : UInt32 → Bool) (call : IslerCall) (count : UInt32) :
    Routine Isler IslerEvent PUnit :=
  match call with
  | .any => pure ⟨⟩
  | .read args => do
    let _ ← readBytesStmts malloc (requested count args)
    pure ⟨⟩

theorem requested_le (count : UInt32) (args : Option Int32) :
    (requested count args).toNat ≤ count.toNat :=
  requested_toNat count args ▸ readCount_le _ _

theorem triple_rest (malloc : UInt32 → Bool) (call : IslerCall) (m : ℕ) {count : UInt32}
    (h : count.toNat ≤ 511) : Routine.Triple rxIsr Free (AllRight m)
    (Popping count.toNat m fun _ => True) (rest malloc call count)
    fun _ _ log => ∀ e ∈ log, e.Right m := by
  cases call with
  | any => exact .pure fun _ _ h => h.2.2
  | read args =>
    have hle := requested_le count args
    refine .bind (.pre (triple_readBytesStmts malloc m (hle.trans h)) ?_) fun _ => .pure ?_
    · rintro s log ⟨hcount, htrue, hright⟩
      exact ⟨hle.trans hcount, htrue, hright⟩
    · exact fun _ _ h => h

theorem straight_rest (malloc : UInt32 → Bool) (call : IslerCall) (count : UInt32) :
    (rest malloc call count).Straight := by
  cases call with
  | any => exact .pure _
  | read args => exact .bind (straight_readBytesStmts malloc _) fun _ => .pure _

theorem stmts_eq (malloc : UInt32 → Bool) (call : IslerCall) :
    call.stmts malloc = rxFifoCountStmts >>= rest malloc call := by
  cases call with
  | any => rw [IslerCall.stmts, funIslerAnyStmts, bind_assoc]; rfl
  | read args => rw [IslerCall.stmts, funIslerReadStmts, bind_assoc]; rfl

theorem performIrq_stmts (malloc : UInt32 → Bool) (call : IslerCall) (s : Isler)
    (σ : List (List LleBuf)) : ∃ s' log₁ log₂ σ',
      (call.stmts malloc).performIrq rxIsr σ s = some (⟨⟩, s', log₁ ++ log₂, σ') ∧
      ownEvents log₁ = [.counted (s.countedValue σ) (s.afterGaps σ 4).rxFifo.count] ∧
      (¬ s.Overtaken σ → ∀ e ∈ log₁ ++ log₂, e.Right s.rxFifo.count) := by
  obtain ⟨log₁, hcount, hown⟩ := performIrq_rxFifoCountStmts s σ
  obtain ⟨⟨⟨⟩, s', log₂, σ'⟩, hrest⟩ :=
    (straight_rest malloc call (s.countedValue σ)).ends rxIsr_isSome (σ.drop 5) (s.afterGaps σ 5)
  refine ⟨s', log₁, log₂, σ', ?_, hown, fun h => ?_⟩
  · rw [stmts_eq, Routine.performIrq_bind, hcount, Option.bind_some]
    dsimp only
    rw [hrest]
    rfl
  · have hright : ∀ e ∈ log₁, e.Right s.rxFifo.count := by
      rw [right_iff_own, hown]
      exact List.forall_mem_singleton.2 ((counted_right_iff s σ).2 h)
    -- at the end of the count at least as many bytes are stored
    obtain ⟨k, hk, he⟩ := countedValue_toNat h
    have hmono := gapBytes_mono σ (show k ≤ 5 by omega)
    have hlater := count_afterGaps s σ k
    have hlast := count_afterGaps s σ 5
    exact (triple_rest malloc call s.rxFifo.count (by omega)).performIrq (popping_admissible ..)
      ⟨by omega, trivial, hright⟩ hrest

theorem wrong_of_overtaken {l l' : List IslerEvent} (h : s.Overtaken σ)
    (hown : ownEvents l = [.counted (s.countedValue σ) (s.afterGaps σ 4).rxFifo.count]) :
    ¬ ∀ e ∈ l ++ l', e.Right s.rxFifo.count := by
  intro hright
  refine (counted_right_iff s σ).1 (hright _ (List.mem_append_left _ ?_)) h
  have hmem := List.mem_singleton_self (IslerEvent.counted (s.countedValue σ)
    (s.afterGaps σ 4).rxFifo.count)
  exact List.mem_of_mem_filter (hown ▸ hmem)

/-- **When the byte count is right.**  Frames may arrive between any two statements of a call of
`any` or `read`.  Its count lies between the numbers of bytes stored at the beginning and at the
end, what it allocates is at most 511 bytes, and it never pops from the empty FIFO, exactly when
the head does not pass the end of the array between its first two reads. -/
theorem count_right_iff (malloc : UInt32 → Bool) (call : IslerCall) (s : Isler)
    (σ : List (List LleBuf)) : ∃ s' log σ',
      (call.stmts malloc).performIrq rxIsr σ s = some (⟨⟩, s', log, σ') ∧
      ((∀ e ∈ log, e.Right s.rxFifo.count) ↔ ¬ s.Overtaken σ) := by
  obtain ⟨s', log₁, log₂, σ', hr, hown, hright⟩ := performIrq_stmts malloc call s σ
  exact ⟨s', log₁ ++ log₂, σ', hr, fun h hbad => wrong_of_overtaken hbad hown h, hright⟩

/-- The longest frame that the handler accepts, of 254 bytes. -/
def fullFrame : LleBuf := fun _ => 252

/-- **The count wraps around.**  Two frames of 254 bytes were received and read; one more comes
after `rx_fifo_count` has read the head for the first time. -/
theorem count_wraps : ∃ as log s σ s' log' σ', islerMachine.Run Free islerInit as log s ∧
    ((IslerCall.read none).stmts fun _ => false).performIrq rxIsr σ s =
      some (⟨⟩, s', log', σ') ∧ ¬ ∀ e ∈ log', e.Right s.rxFifo.count := by
  have hr := run_of_perform (M := islerMachine) (s := islerInit)
    [.rx fullFrame, .rx fullFrame, .read none] rfl
  obtain ⟨s', log₁, log₂, σ', hirq, hown, -⟩ :=
    performIrq_stmts (fun _ => false) (.read none) _ [[fullFrame]]
  exact ⟨_, _, _, _, s', _, σ', hr, hirq, wrong_of_overtaken (by decide +kernel) hown⟩

end Isler

end Ch32fun
