import Ch32fun.Isler.Basic
import Ch32fun.Machine.Routine
import Ch32fun.Object

/-!
# The reader of the radio, statement by statement

`rx_fifo.head` and `rx_fifo.tail` are volatile, and the receive interrupt may come between any two
accesses to them.  This file spells out `rx_fifo_count`, `rx_fifo_pop`, `iSLER.any` and
`iSLER.read` as routines whose statements are these accesses; an expression reads its operands from
left to right.

* `IslerCall.stmts` : the statements of a call of a script.
* `rxIsr` : the interrupt that comes between them.
* `perform_funIslerReadStmts`, `perform_funIslerAnyStmts` : without interruption the statements do
  what `funIslerRead` and `funIslerAny` say.
-/

namespace Ch32fun

/-- The receive interrupt, as a handler between statements. -/
def rxIsr (s : Isler) (frame : LleBuf) : Option (Isler × List IslerEvent) :=
  some (modIslerRxIsr s frame)

/-- `rx_fifo_count`; the return is observed. -/
def rxFifoCountStmts : Routine Isler IslerEvent UInt32 := do
  let head ← Routine.read fun s => s.rxFifo.head
  let tail ← Routine.read fun s => s.rxFifo.tail
  let count ←
    if tail ≤ head then do
      let head ← Routine.read fun s => s.rxFifo.head
      let tail ← Routine.read fun s => s.rxFifo.tail
      pure (UInt32.ofInt (head - tail))
    else do
      let tail ← Routine.read fun s => s.rxFifo.tail
      let head ← Routine.read fun s => s.rxFifo.head
      pure (UInt32.ofInt ((rxFifoSize - tail) + head))
  Routine.exec fun s => (s, [.counted count s.rxFifo.count])
  pure count

/-- `rx_fifo_pop`; that the FIFO is found empty is observed. -/
def rxFifoPopStmts : Routine Isler IslerEvent ℤ := do
  let head ← Routine.read fun s => s.rxFifo.head
  let tail ← Routine.read fun s => s.rxFifo.tail
  if head = tail then do
    Routine.exec fun s => (s, [.emptyPop])
    pure (-1)
  else do
    let tail ← Routine.read fun s => s.rxFifo.tail
    let val ← Routine.read fun s => s.rxFifo.buf.get tail
    let tail ← Routine.read fun s => s.rxFifo.tail
    Routine.assign fun s => { s with
      rxFifo := { s.rxFifo with
        tail := Ring.next rxFifoSize tail
        tail_lt := Nat.mod_lt _ s.rxFifo.pos } }
    pure val.toNat

/-- The loop of `fun_isler_read`. -/
def popLoopStmts : ℕ → Routine Isler IslerEvent (List UInt8)
  | 0 => pure []
  | n + 1 => do
    let v ← rxFifoPopStmts
    let bs ← popLoopStmts n
    pure (toByte v :: bs)

/-- How a call of `read` ends. -/
inductive ReadResult
  /-- `mp_const_none`. -/
  | none
  | bytes (bs : List UInt8)
  /-- `vstr_init_len` raised. -/
  | memoryError

/-- `count` after the argument was looked at; it is converted to `size_t`. -/
def requested (count : UInt32) (args : Option Int32) : UInt32 :=
  match args with
  | none => count
  | some n => if n.toUInt32 < count then n.toUInt32 else count

/-- `fun_isler_read`, once the number of bytes to return is known; `malloc n` says whether the heap
has `n` bytes left. -/
def readBytesStmts (malloc : UInt32 → Bool) (count : UInt32) :
    Routine Isler IslerEvent ReadResult :=
  if count = 0 then pure .none
  else do
    Routine.exec fun s => (s, [.alloc count])
    if malloc count then do
      let bs ← popLoopStmts count.toNat
      pure (.bytes bs)
    else pure .memoryError

/-- `fun_isler_read`. -/
def funIslerReadStmts (malloc : UInt32 → Bool) (args : Option Int32) :
    Routine Isler IslerEvent ReadResult := do
  let count ← rxFifoCountStmts
  readBytesStmts malloc (requested count args)

/-- `fun_isler_any`; the result is an object. -/
def funIslerAnyStmts : Routine Isler IslerEvent UInt32 := do
  let count ← rxFifoCountStmts
  pure (mpObjNewSmallInt count)

/-- The calls of a script that count the bytes. -/
inductive IslerCall
  | any
  | read (args : Option Int32)

/-- The statements of a call. -/
def IslerCall.stmts (malloc : UInt32 → Bool) : IslerCall → Routine Isler IslerEvent PUnit
  | .any => do
    let _ ← funIslerAnyStmts
    pure ⟨⟩
  | .read args => do
    let _ ← funIslerReadStmts malloc args
    pure ⟨⟩

/-! ### No busy-wait -/

theorem straight_popLoopStmts (n : ℕ) : (popLoopStmts n).Straight := by
  have hpop : rxFifoPopStmts.Straight := by
    refine .bind (.read _) fun _ => .bind (.read _) fun _ => ?_
    split_ifs
    · exact .bind (.exec _) fun _ => .pure _
    · exact .bind (.read _) fun _ => .bind (.read _) fun _ => .bind (.read _) fun _ =>
        .bind (.exec _) fun _ => .pure _
  induction n with
  | zero => exact .pure _
  | succ n ih => exact .bind hpop fun _ => .bind ih fun _ => .pure _

theorem straight_readBytesStmts (malloc : UInt32 → Bool) (count : UInt32) :
    (readBytesStmts malloc count).Straight := by
  unfold readBytesStmts
  split_ifs
  · exact .pure _
  · exact .bind (.exec _) fun _ => .bind (straight_popLoopStmts _) fun _ => .pure _
  · exact .bind (.exec _) fun _ => .pure _

/-! ### Without interruption -/

section Perform

variable (s : Isler)

theorem ofInt_natCast (n : ℕ) : UInt32.ofInt n = UInt32.ofNat n := by
  rw [UInt32.ofInt, ← UInt32.toNat_inj, UInt32.toNat_ofNat', UInt32.toNat_ofNat']
  omega

theorem perform_rxFifoCountStmts : rxFifoCountStmts.perform s =
    some (UInt32.ofNat s.rxFifo.count, s,
      [.counted (UInt32.ofNat s.rxFifo.count) s.rxFifo.count]) := by
  have htail : s.rxFifo.tail < 512 := s.rxFifo.tail_lt
  unfold rxFifoCountStmts
  rw [Routine.perform_read_bind, Routine.perform_read_bind]
  have hcount : s.rxFifo.count = if s.rxFifo.tail ≤ s.rxFifo.head then
      s.rxFifo.head - s.rxFifo.tail else (512 - s.rxFifo.tail) + s.rxFifo.head := rfl
  by_cases h : s.rxFifo.tail ≤ s.rxFifo.head
  · rw [if_pos h] at hcount ⊢
    have hint : (s.rxFifo.head : ℤ) - s.rxFifo.tail = s.rxFifo.count := by omega
    simp [hint, ofInt_natCast]
  · rw [if_neg h] at hcount ⊢
    have hint : ((rxFifoSize : ℤ) - s.rxFifo.tail) + s.rxFifo.head = s.rxFifo.count := by
      change ((512 : ℤ) - s.rxFifo.tail) + s.rxFifo.head = s.rxFifo.count
      omega
    simp only [Routine.perform_bind, Routine.perform_read, Option.bind_some, Routine.perform_exec,
      Routine.perform_pure, Option.map_some, hint, ofInt_natCast, List.nil_append, List.append_nil]

theorem perform_rxFifoPopStmts : rxFifoPopStmts.perform s =
    some ((rxFifoPop s.rxFifo).1, { s with rxFifo := (rxFifoPop s.rxFifo).2 },
      if s.rxFifo.head = s.rxFifo.tail then [.emptyPop] else []) := by
  unfold rxFifoPopStmts rxFifoPop Ring.pop
  rw [Routine.perform_read_bind, Routine.perform_read_bind]
  by_cases h : s.rxFifo.head = s.rxFifo.tail
  · simp [h]
  · have hget : s.rxFifo.buf.get s.rxFifo.tail = s.rxFifo.front :=
      Block.get_of_lt s.rxFifo.tail_lt
    simp [h, hget, Ring.advance]

theorem perform_popLoopStmts {n : ℕ} (h : n ≤ s.rxFifo.count) : (popLoopStmts n).perform s =
    some ((popLoop n s.rxFifo).1, { s with rxFifo := (popLoop n s.rxFifo).2 }, []) := by
  induction n generalizing s with
  | zero => rfl
  | succ n ih =>
    have hne := s.rxFifo.ne_of_count_pos (by omega)
    have hpop : rxFifoPop s.rxFifo = ((s.rxFifo.front.toNat : ℤ), s.rxFifo.advance) := by
      rw [rxFifoPop, s.rxFifo.pop_of_ne hne]
    have hcount := s.rxFifo.count_advance hne
    rw [popLoopStmts, popLoop, Routine.perform_bind, perform_rxFifoPopStmts, if_neg hne, hpop]
    have hle : n ≤ s.rxFifo.advance.count := by omega
    have hrest := ih { s with rxFifo := s.rxFifo.advance } hle
    simp only [Option.bind_some, Routine.perform_bind, hrest, Option.map_some,
      Routine.perform_pure, List.append_nil]

theorem requested_toNat (count : UInt32) (args : Option Int32) :
    (requested count args).toNat = readCount count.toNat args := by
  unfold requested readCount
  split
  · rfl
  · simp only [UInt32.lt_iff_toNat_lt]
    split_ifs <;> rfl

/-- The result of `read`, when the allocation succeeds. -/
def ReadResult.ofBytes : Option (List UInt8) → ReadResult
  | Option.none => .none
  | some bs => .bytes bs

theorem perform_funIslerReadStmts {malloc : UInt32 → Bool} (hmalloc : ∀ n, malloc n)
    (args : Option Int32) : ∃ log, (funIslerReadStmts malloc args).perform s =
    some (.ofBytes (funIslerRead s args).2, (funIslerRead s args).1, log) := by
  have hlt : s.rxFifo.count < 512 := s.rxFifo.count_lt
  -- the count fits into `size_t`, so that both levels return as many bytes
  have hcount : (requested (UInt32.ofNat s.rxFifo.count) args).toNat =
      readCount (rxFifoCount s.rxFifo) args := by
    rw [requested_toNat, UInt32.toNat_ofNat', Nat.mod_eq_of_lt (by omega)]
    rfl
  have hzero : requested (UInt32.ofNat s.rxFifo.count) args = 0 ↔
      readCount (rxFifoCount s.rxFifo) args = 0 := by
    rw [← hcount, ← UInt32.toNat_inj]
    rfl
  have hpop := perform_popLoopStmts s (readCount_le (rxFifoCount s.rxFifo) args)
  unfold funIslerReadStmts readBytesStmts funIslerRead
  rw [Routine.perform_bind, perform_rxFifoCountStmts, Option.bind_some]
  dsimp only
  by_cases h : readCount (rxFifoCount s.rxFifo) args = 0
  · rw [if_pos (hzero.2 h), if_pos h]
    exact ⟨_, rfl⟩
  · rw [if_neg (mt hzero.1 h), if_neg h, hmalloc, hcount]
    let n := requested (UInt32.ofNat s.rxFifo.count) args
    refine ⟨[.counted (UInt32.ofNat s.rxFifo.count) s.rxFifo.count, .alloc n], ?_⟩
    simp only [Routine.perform_bind, Routine.perform_exec, Option.bind_some, if_true, hpop,
      Routine.perform_pure, Option.map_some]
    rfl

theorem perform_funIslerAnyStmts : ∃ log, funIslerAnyStmts.perform s =
    some (mpObjNewSmallInt (UInt32.ofNat (funIslerAny s)), s, log) := by
  unfold funIslerAnyStmts
  rw [Routine.perform_bind, perform_rxFifoCountStmts]
  exact ⟨_, rfl⟩

end Perform

end Ch32fun
