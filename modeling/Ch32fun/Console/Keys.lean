import Ch32fun.Console.Basic
import Ch32fun.Data.Word

/-!
# The console ring is a queue of 63 characters

`handle_input` writes the ring and `mp_hal_stdin_rx_chr` reads it, each with its own index of type
`int`.  This file spells both out in the types of C, with array accesses that fail outside of the
array, and compares them with what the ring is for: a history of stored bytes of which the first
ones are read.

* `RxVars.handleInput`, `RxVars.readChar` : the writer and the reader.
* `KeyHistory` : the abstract queue.
* `rx_refines_queue` : every run of the ring is a run of the queue, with the same observations.
-/

namespace Ch32fun

/-- `rx_buf`, `rx_head`, `rx_tail` and `mp_interrupt_char`. -/
structure RxVars where
  rxBuf : Block UInt8 rxBufSize
  rxHead : Int32
  rxTail : Int32
  mpInterruptChar : Int32

namespace RxVars

/-- One turn of the loop of `handle_input`. -/
def handleByte (v : RxVars) (b : UInt8) : Option (RxVars × List ConsoleEvent) :=
  let next := (v.rxHead + 1) % 64
  if b.toUInt32.toInt32 = v.mpInterruptChar ∨ b = 0x4 then
    some (v, [.processed b v.mpInterruptChar.toInt, .keyboardInterrupt])
  else if next ≠ v.rxTail then do
    let buf ← v.rxBuf.store v.rxHead b
    some ({ v with rxBuf := buf, rxHead := next }, [.processed b v.mpInterruptChar.toInt])
  else some (v, [.processed b v.mpInterruptChar.toInt])

/-- `handle_input`. -/
def handleInput : RxVars → List UInt8 → Option (RxVars × List ConsoleEvent)
  | v, [] => some (v, [])
  | v, b :: data => do
    let (v, o) ← v.handleByte b
    let (v, o') ← handleInput v data
    some (v, o ++ o')

/-- The test of `mp_hal_stdin_rx_chr` for a character, and its return. -/
def readChar (v : RxVars) : Option (RxVars × List ConsoleEvent) :=
  if v.rxHead ≠ v.rxTail then do
    let c ← v.rxBuf.load v.rxTail
    some ({ v with rxTail := (v.rxTail + 1) % 64 }, [.returned (Console.crlf c)])
  else some (v, [])

end RxVars

/-- The calls of the writer and of the reader. -/
inductive RxInput
  | handleInput (data : List UInt8)
  | readChar
  | setInterruptChar (ch : Int32)

/-- The ring. -/
def rxMachine : Machine RxVars RxInput ConsoleEvent where
  step v
    | .handleInput data => v.handleInput data
    | .readChar => v.readChar
    | .setInterruptChar ch => some ({ v with mpInterruptChar := ch }, [])

/-! ### The abstract queue -/

/-- The bytes that were ever stored, in order of arrival, how many of them were read, and the
interrupt character. -/
structure KeyHistory where
  stored : List UInt8
  read : ℕ
  interruptChar : ℤ

namespace KeyHistory

variable (q : KeyHistory)

/-- The bytes that wait to be read. -/
def waiting : List UInt8 := q.stored.drop q.read

/-- A control byte interrupts; any other byte is stored while fewer than 63 wait. -/
def arrive (b : UInt8) : KeyHistory × List ConsoleEvent :=
  if (b.toNat : ℤ) = q.interruptChar ∨ b = 0x4 then
    (q, [.processed b q.interruptChar, .keyboardInterrupt])
  else if q.waiting.length < 63 then
    ({ q with stored := q.stored ++ [b] }, [.processed b q.interruptChar])
  else (q, [.processed b q.interruptChar])

/-- The bytes of an array arrive one after the other. -/
def arriveAll : KeyHistory → List UInt8 → KeyHistory × List ConsoleEvent
  | q, [] => (q, [])
  | q, b :: data =>
    let (q, o) := q.arrive b
    let (q, o') := arriveAll q data
    (q, o ++ o')

/-- The next stored byte is read, if there is one; a line feed is read as a carriage return. -/
def readNext : KeyHistory × List ConsoleEvent :=
  match q.stored[q.read]? with
  | some b => ({ q with read := q.read + 1 }, [.returned (if b = 10 then 13 else b)])
  | none => (q, [])

end KeyHistory

/-- The queue. -/
def queueMachine : Machine KeyHistory RxInput ConsoleEvent where
  step q
    | .handleInput data => some (q.arriveAll data)
    | .readChar => some q.readNext
    | .setInterruptChar ch => some ({ q with interruptChar := ch.toInt }, [])

namespace RxVars

variable {v : RxVars} {c : Console}

/-! ### The ring in the integers of C -/

/-- The variables of a console. -/
structure Represents (v : RxVars) (c : Console) : Prop where
  buf : v.rxBuf = c.rxBuf.buf
  head : v.rxHead.toInt = c.rxBuf.head
  tail : v.rxTail.toInt = c.rxBuf.tail
  interruptChar : v.mpInterruptChar.toInt = c.mpInterruptChar

theorem next_toInt {i : Int32} {k : ℕ} (h : i.toInt = k) (hk : k < 64) :
    ((i + 1) % 64).toInt = Ring.next rxBufSize k := by
  have h1 : (1 : Int32).toInt = 1 := rfl
  have hadd : (i + 1).toInt = ((k + 1 : ℕ) : ℤ) := by
    rw [toInt_add_of_bounds (by rw [h1]; omega) (by rw [h1]; omega), h1, h]
    rfl
  rw [Int32.toInt_mod, hadd, show (64 : Int32).toInt = ((64 : ℕ) : ℤ) from rfl, ← Int.ofNat_tmod]
  rfl

theorem eq_interruptChar_iff (b : UInt8) (ch : Int32) :
    b.toUInt32.toInt32 = ch ↔ (b.toNat : ℤ) = ch.toInt := by
  have hlt := b.toNat_lt
  have hb : b.toUInt32 = UInt32.ofNat b.toNat := by
    apply UInt32.toNat_inj.1
    rw [UInt8.toNat_toUInt32, UInt32.toNat_ofNat', Nat.mod_eq_of_lt (by omega)]
  have hint : b.toUInt32.toInt32.toInt = b.toNat := by
    rw [hb, UInt32.toInt32_ofNat']
    exact Int32.toInt_ofNat_of_lt (by omega)
  rw [← hint, Int32.toInt_inj]

theorem handleByte_simulates (h : v.Represents c) (b : UInt8) :
    ∃ v', v.handleByte b = some (v', (c.handleByte b).2) ∧ v'.Represents (c.handleByte b).1 := by
  have hlt : c.rxBuf.head < 64 := c.rxBuf.head_lt
  have hnext := next_toInt h.head hlt
  have hcontrol : (b.toUInt32.toInt32 = v.mpInterruptChar ∨ b = 0x4) ↔
      Console.IsControl c.mpInterruptChar b := by
    rw [eq_interruptChar_iff, h.interruptChar]
    rfl
  have hroom : (v.rxHead + 1) % 64 ≠ v.rxTail ↔
      Ring.next rxBufSize c.rxBuf.head ≠ c.rxBuf.tail := by
    rw [ne_eq, ← Int32.toInt_inj, hnext, h.tail, Nat.cast_inj]
  rw [handleByte, Console.handleByte, h.interruptChar]
  by_cases hctl : Console.IsControl c.mpInterruptChar b
  · rw [if_pos (hcontrol.2 hctl), if_pos hctl]
    exact ⟨v, rfl, h⟩
  rw [if_neg (mt hcontrol.1 hctl), if_neg hctl, Ring.push]
  by_cases hfull : Ring.next rxBufSize c.rxBuf.head ≠ c.rxBuf.tail
  · rw [if_pos (hroom.2 hfull), if_pos hfull, Block.store_of_toInt _ _ h.head c.rxBuf.head_lt]
    refine ⟨_, rfl, ?_, hnext, h.tail, h.interruptChar⟩
    rw [h.buf]
    exact Block.write_one _ c.rxBuf.head_lt b
  · rw [if_neg (mt hroom.1 hfull), if_neg hfull]
    exact ⟨v, rfl, h⟩

/-- **The writer never leaves the ring, and does what `Console.handleInput` says.** -/
theorem handleInput_simulates (data : List UInt8) (h : v.Represents c) :
    ∃ v', v.handleInput data = some (v', (c.handleInput data).2) ∧
      v'.Represents (c.handleInput data).1 := by
  induction data generalizing v c with
  | nil => exact ⟨v, rfl, h⟩
  | cons b data ih =>
    obtain ⟨v₁, hv₁, hrep⟩ := handleByte_simulates h b
    obtain ⟨v₂, hv₂, hrep₂⟩ := ih hrep
    refine ⟨v₂, ?_, hrep₂⟩
    rw [handleInput, hv₁]
    simp only [Option.bind_eq_bind, Option.bind_some, hv₂]
    rfl

theorem readChar_simulates (h : v.Represents c) :
    ∃ v', v.readChar = some (v', c.takeChar.2) ∧ v'.Represents c.takeChar.1 := by
  have hne : v.rxHead ≠ v.rxTail ↔ c.rxBuf.head ≠ c.rxBuf.tail := by
    rw [ne_eq, ← Int32.toInt_inj, h.head, h.tail, Nat.cast_inj]
  obtain ⟨hempty, he⟩ | ⟨hsome, he⟩ := c.takeChar_cases
  · rw [he, readChar, if_neg (mt hne.1 (not_not.2 hempty))]
    exact ⟨v, rfl, h⟩
  · have hfront : c.rxBuf.buf.get c.rxBuf.tail = c.rxBuf.front :=
      Block.get_of_lt c.rxBuf.tail_lt
    rw [he, readChar, if_pos (hne.2 hsome), Block.load_of_toInt h.tail c.rxBuf.tail_lt, h.buf,
      hfront]
    exact ⟨_, rfl, rfl, h.head, next_toInt h.tail c.rxBuf.tail_lt, h.interruptChar⟩

end RxVars

namespace KeyHistory

variable {c : Console} {q : KeyHistory}

/-! ### The ring as a queue -/

/-- The ring holds the bytes that wait. -/
structure Models (q : KeyHistory) (c : Console) : Prop where
  stored : c.rxBuf.stored = q.waiting
  read_le : q.read ≤ q.stored.length
  interruptChar : c.mpInterruptChar = q.interruptChar

theorem Models.length_waiting (h : q.Models c) : q.waiting.length = c.rxBuf.count := by
  rw [← h.stored, Ring.length_stored]

theorem arrive_models (h : q.Models c) (b : UInt8) :
    (q.arrive b).2 = (c.handleByte b).2 ∧ (q.arrive b).1.Models (c.handleByte b).1 := by
  have hcount := h.length_waiting
  have hlt : c.rxBuf.count < 64 := c.rxBuf.count_lt
  rw [arrive, ← h.interruptChar, Console.handleByte]
  by_cases hctl : Console.IsControl c.mpInterruptChar b
  · rw [if_pos hctl, if_pos (show (b.toNat : ℤ) = c.mpInterruptChar ∨ b = 0x4 from hctl)]
    exact ⟨rfl, h⟩
  rw [if_neg hctl, if_neg (show ¬ ((b.toNat : ℤ) = c.mpInterruptChar ∨ b = 0x4) from hctl)]
  by_cases hroom : q.waiting.length < 63
  · rw [if_pos hroom]
    refine ⟨rfl, ?_, ?_, rfl⟩
    · rw [Ring.stored_push_of_lt _ _ (show c.rxBuf.count + 1 < 64 by omega), h.stored, waiting,
        waiting, List.drop_append_of_le_length h.read_le]
    · rw [List.length_append]
      exact h.read_le.trans (Nat.le_add_right _ _)
  · -- 63 bytes wait, and the ring is full
    rw [if_neg hroom, Ring.push_of_full _ _ (show c.rxBuf.count + 1 = 64 by omega)]
    exact ⟨rfl, h⟩

theorem arriveAll_models (data : List UInt8) (h : q.Models c) :
    (q.arriveAll data).2 = (c.handleInput data).2 ∧
      (q.arriveAll data).1.Models (c.handleInput data).1 := by
  induction data generalizing q c with
  | nil => exact ⟨rfl, h⟩
  | cons b data ih =>
    obtain ⟨ho, hm⟩ := arrive_models h b
    obtain ⟨ho', hm'⟩ := ih hm
    exact ⟨congrArg₂ (· ++ ·) ho ho', hm'⟩

theorem readNext_models (h : q.Models c) :
    q.readNext.2 = c.takeChar.2 ∧ q.readNext.1.Models c.takeChar.1 := by
  have hcount := h.length_waiting
  rw [waiting, List.length_drop] at hcount
  obtain ⟨hempty, he⟩ | ⟨hne, he⟩ := c.takeChar_cases
  · have hzero := c.rxBuf.count_eq_zero_iff.2 hempty
    rw [readNext, List.getElem?_eq_none (by omega), he]
    exact ⟨rfl, h⟩
  · have hpos := mt c.rxBuf.count_eq_zero_iff.1 hne
    have hlt : q.read < q.stored.length := by omega
    have hstored := h.stored
    rw [c.rxBuf.stored_eq_cons hne, waiting, List.drop_eq_getElem_cons hlt, List.cons.injEq]
      at hstored
    rw [readNext, List.getElem?_eq_getElem hlt, he]
    exact ⟨by rw [hstored.1]; rfl, hstored.2, hlt, h.interruptChar⟩

/-! ### Observations -/

/-- The control bytes among the bytes processed. -/
def controlBytes (log : List ConsoleEvent) : ℕ :=
  (processedBytes log).countP fun (b, ch) => Console.IsControl ch b

@[simp] theorem controlBytes_append (l l' : List ConsoleEvent) :
    controlBytes (l ++ l') = controlBytes l + controlBytes l' := by
  simp [controlBytes]

/-- What was returned is what was read of the history, and every control byte has interrupted. -/
structure Observed (q : KeyHistory) (log : List ConsoleEvent) : Prop where
  returned : returnedChars log = (q.stored.take q.read).map Console.crlf
  read_le : q.read ≤ q.stored.length
  waiting_le : q.waiting.length ≤ 63
  interrupts : log.count .keyboardInterrupt = controlBytes log

variable {log : List ConsoleEvent}

theorem Observed.arrive (h : q.Observed log) (b : UInt8) :
    (q.arrive b).1.Observed (log ++ (q.arrive b).2) := by
  have hplain : ∀ o, q.arrive b = (q, o) → returnedChars o = [] →
      o.count .keyboardInterrupt = controlBytes o →
      (q.arrive b).1.Observed (log ++ (q.arrive b).2) := by
    intro o he hret hint
    rw [he]
    exact ⟨by rw [returnedChars_append, hret, List.append_nil, h.returned], h.read_le,
      h.waiting_le, by rw [List.count_append, controlBytes_append, h.interrupts, hint]⟩
  by_cases hctl : (b.toNat : ℤ) = q.interruptChar ∨ b = 0x4
  · refine hplain _ (if_pos hctl) rfl ?_
    have hc : Console.IsControl q.interruptChar b := hctl
    simp [controlBytes, processedBytes, hc]
  have hnc : ¬ Console.IsControl q.interruptChar b := hctl
  have hnone : [ConsoleEvent.processed b q.interruptChar].count .keyboardInterrupt =
      controlBytes [.processed b q.interruptChar] := by
    simp [controlBytes, processedBytes, hnc]
  by_cases hroom : q.waiting.length < 63
  · rw [KeyHistory.arrive, if_neg hctl, if_pos hroom]
    refine ⟨?_, ?_, ?_, by rw [List.count_append, controlBytes_append, h.interrupts, hnone]⟩
    · rw [List.take_append_of_le_length h.read_le, ← h.returned]
      simp [returnedChars]
    · rw [List.length_append]
      exact h.read_le.trans (Nat.le_add_right _ _)
    · rw [waiting, List.drop_append_of_le_length h.read_le, List.length_append]
      exact hroom
  · exact hplain _ (by rw [KeyHistory.arrive, if_neg hctl, if_neg hroom]) rfl hnone

theorem Observed.arriveAll (data : List UInt8) (h : q.Observed log) :
    (q.arriveAll data).1.Observed (log ++ (q.arriveAll data).2) := by
  induction data generalizing q log with
  | nil =>
    rw [KeyHistory.arriveAll, List.append_nil]
    exact h
  | cons b data ih =>
    have hrest := ih (h.arrive b)
    rwa [List.append_assoc] at hrest

theorem Observed.readNext (h : q.Observed log) :
    q.readNext.1.Observed (log ++ q.readNext.2) := by
  rw [KeyHistory.readNext]
  by_cases hlt : q.read < q.stored.length
  · rw [List.getElem?_eq_getElem hlt]
    refine ⟨?_, hlt, ?_, ?_⟩
    · rw [List.take_succ_eq_append_getElem hlt, List.map_append, ← h.returned]
      simp [returnedChars, Console.crlf]
    · have hle := h.waiting_le
      rw [waiting, List.length_drop] at hle ⊢
      dsimp only
      omega
    · simpa [controlBytes, processedBytes] using h.interrupts
  · rw [List.getElem?_eq_none (by omega), List.append_nil]
    exact h

end KeyHistory

namespace RxVars

variable {v : RxVars} {q : KeyHistory} {log : List ConsoleEvent}

/-! ### Runs -/

theorem step_simulates (a : RxInput) {c : Console} (hv : v.Represents c) (hq : q.Models c)
    (ho : q.Observed log) : ∃ v' q' c' o, rxMachine.step v a = some (v', o) ∧
      queueMachine.step q a = some (q', o) ∧ v'.Represents c' ∧ q'.Models c' ∧
      q'.Observed (log ++ o) := by
  cases a with
  | handleInput data =>
    obtain ⟨v', hst, hrep⟩ := handleInput_simulates data hv
    obtain ⟨he, hmod⟩ := KeyHistory.arriveAll_models data hq
    have hobs := ho.arriveAll data
    rw [he] at hobs
    exact ⟨v', _, _, _, hst, congrArg some (Prod.ext rfl he), hrep, hmod, hobs⟩
  | readChar =>
    obtain ⟨v', hst, hrep⟩ := readChar_simulates hv
    obtain ⟨he, hmod⟩ := KeyHistory.readNext_models hq
    have hobs := ho.readNext
    rw [he] at hobs
    exact ⟨v', _, _, _, hst, congrArg some (Prod.ext rfl he), hrep, hmod, hobs⟩
  | setInterruptChar ch =>
    refine ⟨_, _, c.setInterruptChar ch.toInt, [], rfl, rfl, ⟨hv.buf, hv.head, hv.tail, rfl⟩,
      ⟨hq.stored, hq.read_le, rfl⟩, ?_⟩
    rw [List.append_nil]
    exact ⟨ho.returned, ho.read_le, ho.waiting_le, ho.interrupts⟩

theorem run_simulates (as : List RxInput) {c : Console} (hv : v.Represents c) (hq : q.Models c)
    (ho : q.Observed log) : ∃ v' q' c' os, rxMachine.Run Machine.Free v as os v' ∧
      queueMachine.Run Machine.Free q as os q' ∧ v'.Represents c' ∧ q'.Observed (log ++ os) := by
  induction as generalizing v q c log with
  | nil => exact ⟨v, q, c, [], .nil v, .nil q, hv, by rwa [List.append_nil]⟩
  | cons a as ih =>
    obtain ⟨v₁, q₁, c₁, o, hst, hqst, hv₁, hq₁, ho₁⟩ := step_simulates a hv hq ho
    obtain ⟨v', q', c', os, hr, hqr, hv', ho'⟩ := ih hv₁ hq₁ ho₁
    exact ⟨v', q', c', o ++ os, .cons trivial hst hr, .cons trivial hqst hqr, hv', by
      rwa [← List.append_assoc]⟩

/-- **The console ring is a queue of at most 63 characters.**  Whatever is written and read, and
however the interrupt character changes, no access leaves the ring, both indices stay in it, and
the ring is observed as the queue: a byte is stored when it is no control byte and fewer than 63
wait, each control byte interrupts once, and what was returned are the first bytes stored. -/
theorem rx_refines_queue (hhead : v.rxHead = 0) (htail : v.rxTail = 0) (as : List RxInput) :
    ∃ log v' q, rxMachine.Run Machine.Free v as log v' ∧
      queueMachine.Run Machine.Free ⟨[], 0, v.mpInterruptChar.toInt⟩ as log q ∧
      (0 ≤ v'.rxHead.toInt ∧ v'.rxHead.toInt < rxBufSize) ∧
      (0 ≤ v'.rxTail.toInt ∧ v'.rxTail.toInt < rxBufSize) ∧ q.Observed log := by
  let c : Console := ⟨fun _ => 0, 0, ⟨v.rxBuf, 0, 0, by decide, by decide⟩,
    v.mpInterruptChar.toInt, Nat.zero_le _⟩
  have hv : v.Represents c := ⟨rfl, by rw [hhead]; rfl, by rw [htail]; rfl, rfl⟩
  have hq : KeyHistory.Models ⟨[], 0, v.mpInterruptChar.toInt⟩ c := ⟨rfl, le_rfl, rfl⟩
  have ho : KeyHistory.Observed ⟨[], 0, v.mpInterruptChar.toInt⟩ [] :=
    ⟨rfl, le_rfl, Nat.zero_le _, rfl⟩
  obtain ⟨v', q', c', log, hr, hqr, hv', ho'⟩ := run_simulates as hv hq ho
  have hh : c'.rxBuf.head < rxBufSize := c'.rxBuf.head_lt
  have ht : c'.rxBuf.tail < rxBufSize := c'.rxBuf.tail_lt
  refine ⟨log, v', q', hr, hqr, ?_, ?_, ho'⟩
  · rw [hv'.head]
    omega
  · rw [hv'.tail]
    omega

/-- A line is written, and read in two steps. -/
theorem rx_refines_queue_line : ∃ log v', rxMachine.Run Machine.Free ⟨fun _ => 0, 0, 0, 3⟩
    [.handleInput [97, 3, 10], .readChar, .readChar] log v' ∧ returnedChars log = [97, 13] ∧
      log.count .keyboardInterrupt = 1 := by
  obtain ⟨log, v', q, hr, hqr, -, -, ho⟩ := rx_refines_queue (v := ⟨fun _ => 0, 0, 0, 3⟩) rfl rfl
    [.handleInput [97, 3, 10], .readChar, .readChar]
  have hq : queueMachine.Run Machine.Free ⟨[], 0, 3⟩
      [.handleInput [97, 3, 10], .readChar, .readChar] _ ⟨[97, 10], 2, 3⟩ :=
    Machine.run_of_perform _ rfl
  obtain ⟨rfl, rfl⟩ := hqr.det hq
  exact ⟨_, v', hr, ho.returned, by rw [ho.interrupts]; rfl⟩

end RxVars

end Ch32fun
