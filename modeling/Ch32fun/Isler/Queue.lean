import Ch32fun.Isler.Stmts
import Ch32fun.Machine.Part
import Ch32fun.Data.Word

/-!
# The FIFO of the radio as a queue

The receive interrupt pushes and a script reads; the interrupt may come between any two statements
of a call, `rx_fifo_count` apart, which is one statement here.

* `fifoIsr` : the receive interrupt, with what becomes of each byte as events.
* `FifoCall.stmts` : the calls of a script, from the model of the statements.
* `Held` : what the loop of `read` knows between its statements.  The bytes it has popped, and the
  bytes that wait, are those that were ever stored.
* `FifoRight` : a queue of at most 511 bytes.
* `FifoCall.answer` : what a call answers when it finds given bytes stored.
* `fifo_right` : every run is a queue, in which every call ends with its answer.
-/

namespace Ch32fun

/-- What can be observed of the FIFO. -/
inductive FifoEvent
  /-- An event of the interrupt or of the statements of a call. -/
  | isler (e : IslerEvent)
  /-- `rx_fifo_push` stored a byte. -/
  | stored (b : UInt8)
  /-- `rx_fifo_push` dropped a byte when `count` bytes were stored. -/
  | dropped (b : UInt8) (count : ℕ)
  /-- `any` returned `obj` when `w` was stored. -/
  | any (obj : UInt32) (w : List UInt8)
  /-- `read` returned or raised; `w` was stored when it counted. -/
  | read (args : Option ℤ) (w : List UInt8) (result : ReadResult)
  /-- `mp_obj_get_int` raised. -/
  | overflowError (n : ℤ)

/-! ### The interrupt -/

/-- What becomes of the bytes of `rx_fifo_push`. -/
def rxFifoPushLog (r : Ring UInt8 rxFifoSize) : List UInt8 → List FifoEvent
  | [] => []
  | b :: bs =>
    (if Ring.next rxFifoSize r.head ≠ r.tail then .stored b else .dropped b r.count) ::
      rxFifoPushLog (r.push b) bs

/-- `mod_isler_rx_isr`, with the events of its pushes. -/
def fifoIsr (s : Isler) (frame : LleBuf) : Option (Isler × List FifoEvent) :=
  some ((modIslerRxIsr s frame).1,
    .isler (.received frame) :: (rxFifoPushLog s.rxFifo (isrBytes frame) ++
      s.islerCallbackObj.toList.map fun obj => .isler (.scheduled obj)))

/-! ### The calls -/

/-- The calls of a script; an argument is any integer. -/
inductive FifoCall
  | any
  | read (args : Option ℤ)
  | irq (handler : Option ℕ)

/-- `mp_obj_get_int(args[0])`, when there is an argument. -/
def getArgs (mpObjGetInt : ℤ → Option Int32) : Option ℤ → Option (Option Int32)
  | none => some none
  | some n => (mpObjGetInt n).map some

/-- The statements of a call, with `rx_fifo_count` as one. -/
def FifoCall.stmts (mpObjGetInt : ℤ → Option Int32) (malloc : UInt32 → Bool) :
    FifoCall → Routine Isler FifoEvent PUnit
  | .any => Routine.exec fun s =>
    (s, [.any (mpObjNewSmallInt (UInt32.ofNat (rxFifoCount s.rxFifo))) s.rxFifo.stored])
  | .read args => do
    let (count, w) ← Routine.read fun s => (UInt32.ofNat (rxFifoCount s.rxFifo), s.rxFifo.stored)
    match getArgs mpObjGetInt args with
    | none => Routine.exec fun s => (s, [.overflowError (args.getD 0)])
    | some req => do
      let result ← (readBytesStmts malloc (requested count req)).mapObs .isler
      Routine.exec fun s => (s, [.read args w result])
  | .irq handler => Routine.assign fun s => funIslerIrq s handler

/-! ### What is right -/

/-- The number of bytes to read when `count` are stored. -/
def wanted (count : ℕ) : Option ℤ → ℕ
  | none => count
  | some n => if n < 0 then count else min n.toNat count

/-- What `read` returns when `w` is stored. -/
def rightResult (malloc : UInt32 → Bool) (args : Option ℤ) (w : List UInt8) : ReadResult :=
  let n := wanted w.length args
  if n = 0 then .none
  else if malloc (UInt32.ofNat n) then .bytes (w.take n) else .memoryError

/-- What is right of an event. -/
def FifoEvent.Right (malloc : UInt32 → Bool) : FifoEvent → Prop
  | .isler e => e ≠ .emptyPop
  | .stored _ => True
  | .dropped _ count => count = 511
  | .any obj w => (mpObjSmallIntValue obj).toInt = w.length
  | .read args w result => result = rightResult malloc args w
  | .overflowError n => ¬ (-2 ^ 31 ≤ n ∧ n < 2 ^ 31)

/-- The bytes of a result. -/
def ReadResult.toBytes : ReadResult → List UInt8
  | .bytes bs => bs
  | _ => []

namespace FifoEvent

/-- The byte that `rx_fifo_push` stored. -/
def storedByte : FifoEvent → List UInt8
  | .stored b => [b]
  | _ => []

/-- The byte that came to `rx_fifo_push`. -/
def arrivedByte : FifoEvent → List UInt8
  | .stored b | .dropped b _ => [b]
  | _ => []

/-- The bytes of the frame that an interrupt found. -/
def frameBytes : FifoEvent → List UInt8
  | .isler (.received frame) => isrBytes frame
  | _ => []

/-- The bytes that `read` returned. -/
def returned : FifoEvent → List UInt8
  | .read _ _ result => result.toBytes
  | _ => []

end FifoEvent

/-- The bytes that were ever stored, in order. -/
def storedBytes (log : List FifoEvent) : List UInt8 := log.flatMap FifoEvent.storedByte

/-- The bytes that `read` ever returned, in order. -/
def returnedBytes (log : List FifoEvent) : List UInt8 := log.flatMap FifoEvent.returned

/-- Nothing has gone wrong so far. -/
structure FifoLog (malloc : UInt32 → Bool) (log : List FifoEvent) : Prop where
  right : ∀ e ∈ log, e.Right malloc
  /-- Every byte of a frame was stored or dropped, in order of arrival. -/
  arrived : log.flatMap FifoEvent.arrivedByte = log.flatMap FifoEvent.frameBytes

namespace FifoEvent

/-- The event is the answer to a call. -/
def isAnswer : FifoEvent → Bool
  | .any _ _ | .read _ _ _ | .overflowError _ => true
  | _ => false

/-- The call that an event answers. -/
def answered : FifoEvent → List FifoCall
  | .any _ _ => [.any]
  | .read args _ _ => [.read args]
  | .overflowError n => [.read (some n)]
  | _ => []

end FifoEvent

namespace FifoCall

/-- `iSLER.irq` answers `None`, which says nothing about the FIFO. -/
def asks : FifoCall → Bool
  | .any | .read _ => true
  | .irq _ => false

/-- What a call answers when it finds `w` stored: an argument that does not fit into `mp_int_t` is
refused, and nothing is read. -/
def answer (malloc : UInt32 → Bool) (w : List UInt8) : FifoCall → List FifoEvent
  | .any => [.any (mpObjNewSmallInt (UInt32.ofNat w.length)) w]
  | .read none => [.read none w (rightResult malloc none w)]
  | .read (some n) =>
    if -2 ^ 31 ≤ n ∧ n < 2 ^ 31 then [.read (some n) w (rightResult malloc (some n) w)]
    else [.overflowError n]
  | .irq _ => []

end FifoCall

/-- The FIFO of the radio is a queue of at most 511 bytes. -/
structure FifoRight (malloc : UInt32 → Bool)
    (x : Isler × Option (Routine Isler FifoEvent Unit)) (log : List FifoEvent) : Prop
    extends FifoLog malloc log where
  head_lt : x.1.rxFifo.head < 512
  tail_lt : x.1.rxFifo.tail < 512
  length_le : x.1.rxFifo.stored.length ≤ 511
  /-- The bytes that were stored were returned, are held by the call under way, or wait, in this
  order. -/
  conserved : ∃ hand, returnedBytes log ++ hand ++ x.1.rxFifo.stored = storedBytes log ∧
    (x.2 = none → hand = [])

variable {malloc : UInt32 → Bool} {mpObjGetInt : ℤ → Option Int32}
variable {s s' : Isler} {log o : List FifoEvent} {hand rest : List UInt8} {q : ℕ → Prop}

@[simp] theorem storedBytes_append (l l' : List FifoEvent) :
    storedBytes (l ++ l') = storedBytes l ++ storedBytes l' := List.flatMap_append

@[simp] theorem returnedBytes_append (l l' : List FifoEvent) :
    returnedBytes (l ++ l') = returnedBytes l ++ returnedBytes l' := List.flatMap_append

theorem FifoLog.append (h : FifoLog malloc log) (h' : FifoLog malloc o) :
    FifoLog malloc (log ++ o) where
  right e he := (List.mem_append.1 he).elim (h.right e) (h'.right e)
  arrived := by rw [List.flatMap_append, List.flatMap_append, h.arrived, h'.arrived]

theorem FifoLog.single {e : FifoEvent} (h : e.Right malloc) (ha : e.arrivedByte = [])
    (hf : e.frameBytes = []) : FifoLog malloc [e] where
  right := List.forall_mem_singleton.2 h
  arrived := by rw [List.flatMap_singleton, List.flatMap_singleton, ha, hf]

/-! ### The pushes -/

theorem storedBytes_pushLog (r : Ring UInt8 rxFifoSize) (bs : List UInt8) :
    storedBytes (rxFifoPushLog r bs) = bs.take (511 - r.count) := by
  induction bs generalizing r with
  | nil => simp [rxFifoPushLog, storedBytes]
  | cons b bs ih =>
    have hlt : r.count < 512 := r.count_lt
    have hfull := r.next_head_eq_iff
    unfold rxFifoPushLog
    change FifoEvent.storedByte _ ++ storedBytes _ = _
    rw [ih]
    by_cases h : r.count + 1 = 512
    · -- a full ring drops this byte, and all that follow
      rw [if_neg (not_not.2 (hfull.2 h)), r.push_of_full b h, show 511 - r.count = 0 by omega]
      rfl
    · have hcount := r.count_push_of_lt b (show r.count + 1 < 512 by omega)
      rw [if_pos (mt hfull.1 h), hcount,
        show 511 - r.count = (511 - (r.count + 1)) + 1 by omega, List.take_succ_cons]
      rfl

/-- What a push reports of its bytes. -/
theorem pushLog_facts (malloc : UInt32 → Bool) (r : Ring UInt8 rxFifoSize)
    (bs : List UInt8) :
    (∀ e ∈ rxFifoPushLog r bs, e.Right malloc) ∧
      (rxFifoPushLog r bs).flatMap FifoEvent.arrivedByte = bs ∧
      (rxFifoPushLog r bs).flatMap FifoEvent.frameBytes = [] ∧
      returnedBytes (rxFifoPushLog r bs) = [] := by
  induction bs generalizing r with
  | nil => simp [rxFifoPushLog, returnedBytes]
  | cons b bs ih =>
    obtain ⟨hright, harrived, hframe, hreturned⟩ := ih (r.push b)
    unfold rxFifoPushLog
    by_cases h : Ring.next rxFifoSize r.head = r.tail
    · have hfull : r.count + 1 = 512 := r.next_head_eq_iff.1 h
      have hcount : (FifoEvent.dropped b r.count).Right malloc := by
        change r.count = 511
        omega
      rw [if_neg (not_not.2 h)]
      exact ⟨List.forall_mem_cons.2 ⟨hcount, hright⟩, congrArg (b :: ·) harrived, hframe, hreturned⟩
    · rw [if_pos h]
      exact ⟨List.forall_mem_cons.2 ⟨trivial, hright⟩, congrArg (b :: ·) harrived, hframe,
        hreturned⟩

/-- What an interrupt does to the FIFO, and what it reports. -/
theorem fifoIsr_facts (malloc : UInt32 → Bool) {frame : LleBuf}
    (h : fifoIsr s frame = some (s', o)) :
    s'.rxFifo = s.rxFifo.pushAll (isrBytes frame) ∧ FifoLog malloc o ∧
      storedBytes o = (isrBytes frame).take (511 - s.rxFifo.count) ∧ returnedBytes o = [] := by
  obtain ⟨hright, harrived, hframe, hreturned⟩ :=
    pushLog_facts malloc s.rxFifo (isrBytes frame)
  have hstored := storedBytes_pushLog s.rxFifo (isrBytes frame)
  -- the callback is scheduled, which says nothing about bytes
  let sched := s.islerCallbackObj.toList.map fun obj => FifoEvent.isler (.scheduled obj)
  have hsched : ∀ {f : FifoEvent → List UInt8}, (∀ obj, f (.isler (.scheduled obj)) = []) →
      sched.flatMap f = [] := by
    intro f hf
    cases h : s.islerCallbackObj <;> simp [sched, h, hf]
  have he := Option.some.inj h
  cases he
  refine ⟨rfl, ⟨?_, ?_⟩, ?_, ?_⟩
  · intro e he
    rcases List.mem_cons.1 he with rfl | he
    · exact nofun
    · rcases List.mem_append.1 he with he | he
      · exact hright e he
      · obtain ⟨obj, -, rfl⟩ := List.mem_map.1 he
        exact nofun
  · rw [List.flatMap_cons, List.flatMap_append, List.flatMap_cons, List.flatMap_append, harrived,
      hframe, hsched fun _ => rfl, hsched fun _ => rfl]
    simp [FifoEvent.arrivedByte, FifoEvent.frameBytes]
  · rw [← hstored, storedBytes, List.flatMap_cons, List.flatMap_append, hsched fun _ => rfl]
    simp [FifoEvent.storedByte, storedBytes]
  · rw [← hreturned, returnedBytes, List.flatMap_cons, List.flatMap_append, hsched fun _ => rfl]
    simp [FifoEvent.returned, returnedBytes]

/-! ### Between the statements -/

/-- The call under way holds the bytes `hand`, the bytes `rest` are the next ones, and the tail
satisfies `q`. -/
structure Held (malloc : UInt32 → Bool) (hand rest : List UInt8) (q : ℕ → Prop) (s : Isler)
    (log : List FifoEvent) : Prop extends FifoLog malloc log where
  conserved : returnedBytes log ++ hand ++ s.rxFifo.stored = storedBytes log
  next : rest <+: s.rxFifo.stored
  tail : q s.rxFifo.tail

/-- Nothing has gone wrong, and some bytes are held. -/
def Kept (malloc : UInt32 → Bool) (s : Isler) (log : List FifoEvent) : Prop :=
  ∃ hand, Held malloc hand [] (fun _ => True) s log

namespace Held

theorem mono {rest' : List UInt8} {q' : ℕ → Prop} (h : Held malloc hand rest q s log)
    (hrest : rest' <+: rest) (hq : q s.rxFifo.tail → q' s.rxFifo.tail) :
    Held malloc hand rest' q' s log :=
  { h with next := hrest.trans h.next, tail := hq h.tail }

/-- **The interrupt only appends**, and leaves the tail alone. -/
theorem admissible (malloc : UInt32 → Bool) (hand rest : List UInt8) (q : ℕ → Prop) :
    Routine.Admissible fifoIsr Machine.Free (Kept malloc) (Held malloc hand rest q) where
  inv h := ⟨_, h.mono List.nil_prefix fun _ => trivial⟩
  stable {s frame s' o log} h _ hst := by
    obtain ⟨hring, hlog, hstored, hreturned⟩ := fifoIsr_facts malloc hst
    have hnew : s'.rxFifo.stored = s.rxFifo.stored ++ storedBytes o := by
      rw [hring, Ring.stored_pushAll, hstored]
      rfl
    refine ⟨h.toFifoLog.append hlog, ?_, ?_, ?_⟩
    · rw [returnedBytes_append, storedBytes_append, hreturned, List.append_nil, hnew,
        ← List.append_assoc, h.conserved]
    · exact hnew ▸ h.next.trans (List.prefix_append _ _)
    · rw [hring, Ring.pushAll_tail]
      exact h.tail

theorem ne {b : UInt8} (h : Held malloc hand (b :: rest) q s log) :
    s.rxFifo.head ≠ s.rxFifo.tail := by
  refine s.rxFifo.ne_of_count_pos ?_
  have hle := h.next.length_le
  rw [Ring.length_stored, List.length_cons] at hle
  omega

theorem front {b : UInt8} (h : Held malloc hand (b :: rest) q s log) :
    s.rxFifo.front = b ∧ rest <+: s.rxFifo.advance.stored := by
  have hnext := h.next
  rw [s.rxFifo.stored_eq_cons h.ne, List.cons_prefix_cons] at hnext
  exact ⟨hnext.1.symm, hnext.2⟩

end Held

/-! ### The calls -/

theorem Held.event {e : FifoEvent} (h : Held malloc hand [] (fun _ => True) s log)
    (hright : e.Right malloc) (ha : e.arrivedByte = []) (hf : e.frameBytes = [])
    (hs : e.storedByte = []) (hr : e.returned = hand) :
    Held malloc [] [] (fun _ => True) s (log ++ [e]) where
  toFifoLog := h.toFifoLog.append (.single hright ha hf)
  conserved := by
    rw [returnedBytes_append, storedBytes_append, ← h.conserved]
    simp [returnedBytes, storedBytes, hs, hr]
  next := List.nil_prefix
  tail := trivial

theorem triple_rxFifoPop (hand rest : List UInt8) (b : UInt8) :
    Routine.Triple fifoIsr Machine.Free (Kept malloc) (Held malloc hand (b :: rest) fun _ => True)
      (rxFifoPopStmts.mapObs .isler)
      fun v => Held malloc (hand ++ [b]) rest fun _ => toByte v = b := by
  have hadm : ∀ q, Routine.Admissible fifoIsr Machine.Free (Kept malloc)
      (Held malloc hand (b :: rest) q) := Held.admissible malloc hand (b :: rest)
  unfold rxFifoPopStmts
  simp only [Routine.mapObs_bind, Routine.mapObs_read, Routine.mapObs_ite, Routine.mapObs_exec,
    Routine.mapObs_assign, Routine.mapObs_pure]
  -- the head may move on after it was read, but the tail does not come to meet it
  refine .bind (.read (Q := fun head => Held malloc hand (b :: rest) (head ≠ ·))
    (fun _ => hadm _) fun s log h => h.mono List.prefix_rfl fun _ => h.ne) fun head => ?_
  refine .bind (.read (Q := fun tail => Held malloc hand (b :: rest) fun _ => head ≠ tail)
    (fun _ => hadm _) fun s log h => h.mono List.prefix_rfl id) fun tail => ?_
  refine .assume (c := head ≠ tail) (fun s log h => h.tail) fun hne => ?_
  rw [if_neg hne]
  refine .bind (.read (Q := fun tail => Held malloc hand (b :: rest) (tail = ·))
    (fun _ => hadm _) fun s log h => h.mono List.prefix_rfl fun _ => rfl) fun tail => ?_
  refine .bind (.read (Q := fun val : UInt8 => Held malloc hand (b :: rest) fun _ => val = b)
    (fun _ => hadm _) fun s log h => h.mono List.prefix_rfl fun ht => ?_) fun val => ?_
  · subst ht
    exact (Block.get_of_lt s.rxFifo.tail_lt).trans h.front.1
  refine .assume (c := val = b) (fun s log h => h.tail) fun hval => ?_
  refine .bind (.read (Q := fun tail => Held malloc hand (b :: rest) (tail = ·))
    (fun _ => hadm _) fun s log h => h.mono List.prefix_rfl fun _ => rfl) fun tail => ?_
  refine .bind (.exec (Q := fun _ => Held malloc (hand ++ [b]) rest fun _ => True)
    (Held.admissible ..) fun s log h => ?_) fun _ => .pure fun s log h =>
      h.mono List.prefix_rfl fun _ => by rw [hval, toByte_toNat]
  -- the byte goes from the FIFO to the hand
  obtain rfl := h.tail
  have hconserved := h.conserved
  rw [s.rxFifo.stored_eq_cons h.ne, h.front.1] at hconserved
  rw [List.append_nil]
  exact ⟨h.toFifoLog, by rw [← hconserved]; simp [Ring.advance], h.front.2, trivial⟩

theorem triple_popLoop (hand w : List UInt8) {n : ℕ} (h : n ≤ w.length) :
    Routine.Triple fifoIsr Machine.Free (Kept malloc) (Held malloc hand w fun _ => True)
      ((popLoopStmts n).mapObs .isler)
      fun bs => Held malloc (hand ++ w.take n) [] fun _ => bs = w.take n := by
  induction n generalizing hand w with
  | zero =>
    refine .pure fun s log hw => ?_
    rw [List.take_zero, List.append_nil]
    exact hw.mono List.nil_prefix fun _ => rfl
  | succ n ih =>
    cases w with
    | nil => cases h
    | cons b w =>
      rw [popLoopStmts, Routine.mapObs_bind]
      refine .bind (triple_rxFifoPop hand w b) fun v => ?_
      refine .assume (c := toByte v = b) (fun s log hs => hs.tail) fun hv => ?_
      rw [Routine.mapObs_bind]
      refine .bind (.pre (ih (hand ++ [b]) w (Nat.le_of_succ_le_succ h)) fun s log hs =>
        hs.mono List.prefix_rfl fun _ => trivial) fun bs => .pure fun s log hs => ?_
      rw [List.take_succ_cons, ← List.append_cons] at *
      exact hs.mono List.nil_prefix fun hbs => by rw [hv, hbs]

theorem requested_wanted (hget : ∀ n v, mpObjGetInt n = some v ↔ v.toInt = n) {args : Option ℤ}
    {req : Option Int32} (h : getArgs mpObjGetInt args = some req) {count : ℕ}
    (hcount : count ≤ 511) :
    requested (UInt32.ofNat count) req = UInt32.ofNat (wanted count args) ∧
      wanted count args ≤ count := by
  cases args with
  | none =>
    cases h
    exact ⟨rfl, le_rfl⟩
  | some n =>
    obtain ⟨v, hv, rfl⟩ := Option.map_eq_some_iff.1 h
    have hn := (hget n v).1 hv
    have hword := toNat_toUInt32 v
    have hlt := v.toInt_lt
    have hge := v.le_toInt
    have hnat : (UInt32.ofNat count).toNat = count := by
      rw [UInt32.toNat_ofNat', Nat.mod_eq_of_lt (by omega)]
    rw [← UInt32.toNat_inj, requested_toNat, hnat]
    unfold readCount wanted
    dsimp only
    by_cases hneg : n < 0
    · -- as a `size_t` it is larger than any count
      rw [if_pos hneg, if_neg (by omega), hnat]
      exact ⟨rfl, le_rfl⟩
    · rw [if_neg hneg]
      refine ⟨?_, min_le_right ..⟩
      rw [UInt32.toNat_ofNat', Nat.mod_eq_of_lt (by omega)]
      split_ifs <;> omega

theorem overflow_of_getArgs (hget : ∀ n v, mpObjGetInt n = some v ↔ v.toInt = n)
    {args : Option ℤ} (h : getArgs mpObjGetInt args = none) :
    (FifoEvent.overflowError (args.getD 0)).Right malloc := by
  cases args with
  | none => cases h
  | some n =>
    rintro ⟨hge, hlt⟩
    have hv := (hget n (Int32.ofInt n)).2 (Int32.toInt_ofInt_of_le hge hlt)
    rw [getArgs, hv] at h
    cases h

theorem triple_readBytes (w : List UInt8) {n : ℕ} (h : n ≤ w.length) (hlen : w.length ≤ 511) :
    Routine.Triple fifoIsr Machine.Free (Kept malloc) (Held malloc [] w fun _ => True)
      ((readBytesStmts malloc (UInt32.ofNat n)).mapObs .isler)
      fun result => Held malloc result.toBytes [] fun _ => result =
        if n = 0 then .none
        else if malloc (UInt32.ofNat n) then .bytes (w.take n) else .memoryError := by
  have hnat : (UInt32.ofNat n).toNat = n := by
    rw [UInt32.toNat_ofNat', Nat.mod_eq_of_lt (by omega)]
  have hzero : UInt32.ofNat n = 0 ↔ n = 0 := by
    rw [← UInt32.toNat_inj, hnat]
    rfl
  have halloc : Routine.Triple fifoIsr Machine.Free (Kept malloc) (Held malloc [] w fun _ => True)
      (Routine.exec fun s => (s, [.isler (.alloc (UInt32.ofNat n))]))
      fun _ => Held malloc [] w fun _ => True := by
    refine .exec (Held.admissible ..) fun s log hs => ?_
    exact { hs with
      toFifoLog := hs.toFifoLog.append (.single nofun rfl rfl)
      conserved := by
        rw [returnedBytes_append, storedBytes_append, ← hs.conserved]
        simp [returnedBytes, storedBytes, FifoEvent.returned, FifoEvent.storedByte] }
  unfold readBytesStmts
  by_cases h₀ : n = 0
  · rw [if_pos (hzero.2 h₀), if_pos h₀]
    exact .pure fun s log hs => hs.mono List.nil_prefix fun _ => rfl
  rw [if_neg (mt hzero.1 h₀), if_neg h₀, Routine.mapObs_bind, Routine.mapObs_exec]
  refine .bind halloc fun _ => ?_
  rw [Routine.mapObs_ite]
  split_ifs with hm
  · rw [hnat, Routine.mapObs_bind]
    refine .bind (triple_popLoop [] w h) fun bs => ?_
    refine .assume (c := bs = w.take n) (fun s log hs => hs.tail) fun hbs => ?_
    subst hbs
    exact .pure fun s log hs => hs.mono List.prefix_rfl fun _ => rfl
  · exact .pure fun s log hs => hs.mono List.nil_prefix fun _ => rfl

theorem triple_read (malloc : UInt32 → Bool)
    (hget : ∀ n v, mpObjGetInt n = some v ↔ v.toInt = n) (args : Option ℤ) :
    Routine.Triple fifoIsr Machine.Free (Kept malloc) (Held malloc [] [] fun _ => True)
      ((FifoCall.read args).stmts mpObjGetInt malloc)
      fun _ => Held malloc [] [] fun _ => True := by
  have hidle := Held.admissible malloc [] [] fun _ => True
  refine .bind (.read (Q := fun (count, w) => Held malloc [] w fun _ =>
    count = UInt32.ofNat w.length ∧ w.length ≤ 511)
    (fun _ => Held.admissible ..) fun s log h => ?_) fun (count, w) => ?_
  · have hlt : s.rxFifo.count < 512 := s.rxFifo.count_lt
    refine { h with next := List.prefix_rfl, tail := ?_ }
    rw [Ring.length_stored]
    exact ⟨rfl, by omega⟩
  refine .assume (fun s log h => h.tail) fun ⟨hcount, hlen⟩ => ?_
  subst hcount
  cases hargs : getArgs mpObjGetInt args with
  | none =>
    refine .exec hidle fun s log h =>
      .event (h.mono List.nil_prefix fun _ => trivial) ?_ rfl rfl rfl rfl
    exact overflow_of_getArgs hget hargs
  | some req =>
    obtain ⟨hreq, hle⟩ := requested_wanted hget hargs hlen
    dsimp only
    rw [hreq]
    refine .bind (.pre (triple_readBytes w hle hlen) fun s log h =>
      h.mono List.prefix_rfl fun _ => trivial) fun result => ?_
    refine .exec hidle fun s log h =>
      .event (h.mono List.prefix_rfl fun _ => trivial) ?_ rfl rfl rfl rfl
    exact h.tail

theorem triple_stmts (malloc : UInt32 → Bool)
    (hget : ∀ n v, mpObjGetInt n = some v ↔ v.toInt = n) (call : FifoCall) :
    Routine.Triple fifoIsr Machine.Free (Kept malloc) (Held malloc [] [] fun _ => True)
      (call.stmts mpObjGetInt malloc) fun _ => Held malloc [] [] fun _ => True := by
  have hidle := Held.admissible malloc [] [] fun _ => True
  cases call with
  | any =>
    refine .exec hidle fun s log h => h.event ?_ rfl rfl rfl rfl
    have hlt : s.rxFifo.count < 512 := s.rxFifo.count_lt
    change (mpObjSmallIntValue _).toInt = _
    rw [smallIntValue_ofNat (by change s.rxFifo.count < _; omega), Ring.length_stored]
    rfl
  | read args => exact triple_read malloc hget args
  | irq handler =>
    refine .exec hidle fun s log h => ?_
    rw [List.append_nil]
    exact ⟨h.toFifoLog, h.conserved, h.next, h.tail⟩

theorem Held.fifoRight (h : Held malloc [] [] (fun _ => True) s log) :
    FifoRight malloc (s, none) log where
  toFifoLog := h.toFifoLog
  head_lt := s.rxFifo.head_lt
  tail_lt := s.rxFifo.tail_lt
  length_le := by
    have hlt : s.rxFifo.count < 512 := s.rxFifo.count_lt
    have hlen : s.rxFifo.stored.length = s.rxFifo.count := Ring.length_stored _
    change s.rxFifo.stored.length ≤ 511
    omega
  conserved := ⟨[], h.conserved, fun _ => rfl⟩

/-! ### Every call is answered -/

/-- No event is an answer. -/
def NoAnswer (log : List FifoEvent) : Prop := ∀ e ∈ log, e.isAnswer = false

theorem NoAnswer.append (h : NoAnswer log) (h' : NoAnswer o) : NoAnswer (log ++ o) :=
  List.forall_mem_append.2 ⟨h, h'⟩

theorem NoAnswer.filter (h : NoAnswer log) : log.filter FifoEvent.isAnswer = [] :=
  List.filter_eq_nil_iff.2 fun e he => by simp [h e he]

theorem NoAnswer.answered (h : NoAnswer log) : log.flatMap FifoEvent.answered = [] := by
  refine List.flatMap_eq_nil_iff.2 fun e he => ?_
  have hno := h e he
  cases e with
  | any | read | overflowError => cases hno
  | isler | stored | dropped => rfl

theorem noAnswer_pushLog (r : Ring UInt8 rxFifoSize) (bs : List UInt8) :
    NoAnswer (rxFifoPushLog r bs) := by
  induction bs generalizing r with
  | nil => exact nofun
  | cons b bs ih =>
    refine List.forall_mem_cons.2 ⟨?_, ih _⟩
    split_ifs <;> rfl

theorem noAnswer_fifoIsr {frame : LleBuf} (h : fifoIsr s frame = some (s', o)) : NoAnswer o := by
  cases h
  refine List.forall_mem_cons.2 ⟨rfl, (noAnswer_pushLog _ _).append fun e he => ?_⟩
  obtain ⟨obj, -, rfl⟩ := List.mem_map.1 he
  rfl

/-- Events that are no answers keep the assertion. -/
def Ignores (A : Isler → List FifoEvent → Prop) : Prop :=
  ∀ ⦃s s' log o⦄, A s log → NoAnswer o → A s' (log ++ o)

theorem Ignores.admissible {A : Isler → List FifoEvent → Prop} (hA : Ignores A) :
    Routine.Admissible fifoIsr Machine.Free (fun _ _ => True) A :=
  .free fun h _ hi => hA h (noAnswer_fifoIsr hi)

/-- What the statements of a call report before its end is no answer. -/
theorem Ignores.triple {A : Isler → List FifoEvent → Prop} (hA : Ignores A) {α : Type}
    (r : Routine Isler IslerEvent α) : Routine.Triple fifoIsr Machine.Free (fun _ _ => True) A
      (r.mapObs .isler) fun _ => A := by
  have hno : ∀ l : List IslerEvent, NoAnswer (l.map FifoEvent.isler) := by
    intro l e he
    obtain ⟨_, -, rfl⟩ := List.mem_map.1 he
    rfl
  induction r with
  | ret a => exact fun _ _ h => h
  | stmt f k ih => exact ⟨fun _ => A, fun s log h => hA h (hno _), fun s => ⟨hA.admissible, ih s⟩⟩
  | await t k ih =>
    refine ⟨A, fun s s' o log h ht => ?_, hA.admissible, ih⟩
    obtain ⟨⟨s₁, o₁⟩, -, he⟩ := Option.map_eq_some_iff.1 ht
    cases he
    exact hA h (hno _)

theorem ignores_noAnswer : Ignores fun _ log => NoAnswer log := fun _ _ _ _ h ho => h.append ho

/-- The calls `cs` are those that were answered. -/
def Answered (cs : List FifoCall) (_ : Isler) (log : List FifoEvent) : Prop :=
  log.flatMap FifoEvent.answered = cs

theorem ignores_answered (cs : List FifoCall) : Ignores (Answered cs) := by
  intro s s' log o h ho
  rw [Answered, List.flatMap_append, ho.answered, List.append_nil]
  exact h

/-- **Every call gives one answer.** -/
theorem triple_answered (cs : List FifoCall) (c : FifoCall) :
    Routine.Triple fifoIsr Machine.Free (fun _ _ => True) (Answered cs)
      (c.stmts mpObjGetInt malloc) fun _ => Answered (cs ++ [c].filter FifoCall.asks) := by
  have hend : ∀ {c : FifoCall} (e : Isler → FifoEvent), c.asks = true →
      (∀ s, (e s).answered = [c]) → Routine.Triple fifoIsr Machine.Free (fun _ _ => True)
        (Answered cs) (Routine.exec fun s => (s, [e s]))
        fun _ => Answered (cs ++ [c].filter FifoCall.asks) := by
    intro c e hc he
    refine .exec (ignores_answered _).admissible fun s log h => ?_
    have h : log.flatMap FifoEvent.answered = cs := h
    simp [Answered, h, he, hc]
  cases c with
  | any => exact hend _ rfl fun _ => rfl
  | irq handler =>
    refine .exec (ignores_answered _).admissible fun s log h => ?_
    rw [List.append_nil, show [FifoCall.irq handler].filter FifoCall.asks = [] from rfl,
      List.append_nil]
    exact h
  | read args =>
    refine .bind (.read (fun _ => (ignores_answered cs).admissible) fun s log h => h)
      fun (count, w) => ?_
    cases hargs : getArgs mpObjGetInt args with
    | none =>
      cases args with
      | none => cases hargs
      | some n => exact hend _ rfl fun _ => rfl
    | some req =>
      exact .bind ((ignores_answered cs).triple _) fun result => hend _ rfl fun _ => rfl

theorem fifoIsr_isSome (s : Isler) (frame : LleBuf) : ∃ x, fifoIsr s frame = some x := ⟨_, rfl⟩

theorem straight_stmts (c : FifoCall) : (c.stmts mpObjGetInt malloc).Straight := by
  cases c with
  | any => exact .exec _
  | irq handler => exact .exec _
  | read args =>
    refine .bind (.read _) fun (count, w) => ?_
    dsimp only
    split
    · exact .exec _
    · exact .bind ((straight_readBytesStmts malloc _).mapObs _) fun _ => .exec _

section Call

variable {σ σ' : List (List LleBuf)} {a : PUnit}

theorem noAnswer_nil : NoAnswer [] := nofun

theorem noAnswer_irqs {is : List LleBuf} (h : Machine.perform ⟨fifoIsr⟩ s is = some (s', o)) :
    NoAnswer o :=
  ignores_noAnswer.admissible.irqs noAnswer_nil h

theorem noAnswer_mapObs {α : Type} {r : Routine Isler IslerEvent α} {b : α}
    (h : (r.mapObs FifoEvent.isler).performIrq fifoIsr σ s = some (b, s', o, σ')) : NoAnswer o :=
  (ignores_noAnswer.triple r).performIrq ignores_noAnswer.admissible noAnswer_nil h

theorem filter_of_exec (f : Isler → Isler × List FifoEvent)
    (h : (Routine.exec f).performIrq fifoIsr σ s = some (a, s', o, σ')) :
    o.filter FifoEvent.isAnswer = (f s).2.filter FifoEvent.isAnswer := by
  rw [Routine.performIrq_exec] at h
  obtain ⟨⟨s₁, o₁⟩, hi, hx⟩ := Option.map_eq_some_iff.1 h
  cases hx
  rw [List.filter_append, (noAnswer_irqs hi).filter, List.append_nil]

theorem answer_of_getArgs (hget : ∀ n v, mpObjGetInt n = some v ↔ v.toInt = n) {args : Option ℤ}
    {req : Option Int32} (h : getArgs mpObjGetInt args = some req) (w : List UInt8) :
    (FifoCall.read args).answer malloc w = [.read args w (rightResult malloc args w)] := by
  cases args with
  | none => rfl
  | some n =>
    obtain ⟨v, hv, -⟩ := Option.map_eq_some_iff.1 h
    have hn := (hget n v).1 hv
    have hlt := v.toInt_lt
    have hge := v.le_toInt
    exact if_pos ⟨by omega, by omega⟩

/-- **What a call answers**, whatever comes between its statements, is the answer for what is stored
when it begins. -/
theorem filter_of_stmts (hget : ∀ n v, mpObjGetInt n = some v ↔ v.toInt = n)
    (hs : Held malloc [] [] (fun _ => True) s log) (c : FifoCall)
    (h : (c.stmts mpObjGetInt malloc).performIrq fifoIsr σ s = some (a, s', o, σ')) :
    o.filter FifoEvent.isAnswer = c.answer malloc s.rxFifo.stored := by
  have hlt : s.rxFifo.count < 512 := s.rxFifo.count_lt
  have hlen : s.rxFifo.stored.length = s.rxFifo.count := Ring.length_stored _
  cases c with
  | any =>
    rw [filter_of_exec _ h, FifoCall.answer, hlen]
    rfl
  | irq handler => exact filter_of_exec _ h
  | read args =>
    rw [FifoCall.stmts, Routine.performIrq_bind, Routine.performIrq_read] at h
    obtain ⟨⟨x, s₁, o₁, σ₁⟩, hcount, h⟩ := Option.bind_eq_some_iff.1 h
    obtain ⟨⟨_, _⟩, hi, he⟩ := Option.map_eq_some_iff.1 hcount
    cases he
    obtain ⟨⟨_, s₂, o₂, σ₂⟩, h, he⟩ := Option.map_eq_some_iff.1 h
    cases he
    rw [List.filter_append, (noAnswer_irqs hi).filter, List.nil_append]
    dsimp only at h
    cases hargs : getArgs mpObjGetInt args with
    | none =>
      rw [hargs] at h
      rw [filter_of_exec _ h]
      have hover : (FifoEvent.overflowError (args.getD 0)).Right malloc :=
        overflow_of_getArgs hget hargs
      cases args with
      | none => cases hargs
      | some n => exact (if_neg hover).symm
    | some req =>
      rw [hargs] at h
      dsimp only at h
      -- the count is right, and the interrupts behind it only append
      obtain ⟨hreq, hle⟩ := requested_wanted hget hargs (show s.rxFifo.stored.length ≤ 511 by omega)
      rw [rxFifoCount, ← hlen, hreq, Routine.performIrq_bind] at h
      obtain ⟨⟨result, s₃, o₃, σ₃⟩, hread, h⟩ := Option.bind_eq_some_iff.1 h
      obtain ⟨⟨_, s₄, o₄, σ₄⟩, hend, he⟩ := Option.map_eq_some_iff.1 h
      cases he
      have hheld : Held malloc [] s.rxFifo.stored (fun _ => True) s₁ (log ++ o₁) :=
        (Held.admissible ..).irqs { hs with next := List.prefix_rfl } hi
      have hresult := ((triple_readBytes s.rxFifo.stored hle (by omega)).performIrq
        (Held.admissible ..) hheld hread).tail
      rw [List.filter_append, (noAnswer_mapObs hread).filter, List.nil_append,
        filter_of_exec _ hend, hresult]
      exact (answer_of_getArgs hget hargs _).symm

end Call

/-- **The FIFO of the radio is a queue.**  Frames of any bytes may arrive between any two
statements of the calls of a script.  At most 511 bytes are stored, and a byte is dropped only when
as many are; `any` returns the number of bytes stored, and `read` as many of the oldest ones as it
is asked for; no byte is lost, returned twice, or out of order.  Every call ends, whatever comes
between its statements, with its answer and no other one: between the calls those that were answered
are those that were made. -/
theorem fifo_right (malloc : UInt32 → Bool)
    (hget : ∀ n v, mpObjGetInt n = some v ↔ v.toInt = n)
    {x : Isler × Option (Routine Isler FifoEvent Unit)}
    {as : List (Routine.CallTurn FifoCall LleBuf)}
    (h : (Routine.calls fifoIsr (FifoCall.stmts mpObjGetInt malloc)).Run Machine.Free
      (islerInit, none) as log x) :
    FifoRight malloc x log ∧ (x.2 = none →
      log.flatMap FifoEvent.answered =
        (as.flatMap Routine.CallTurn.called).filter FifoCall.asks ∧
      ∀ (c : FifoCall) (σ : List (List LleBuf)), ∃ s' o σ',
        (c.stmts mpObjGetInt malloc).performIrq fifoIsr σ x.1 = some (⟨⟩, s', o, σ') ∧
          o.filter FifoEvent.isAnswer = c.answer malloc x.1.rxFifo.stored ∧
          FifoRight malloc (s', none) (log ++ o)) := by
  have h₀ : Held malloc [] [] (fun _ => True) islerInit [] ∧ Answered [] islerInit [] :=
    ⟨⟨⟨nofun, rfl⟩, rfl, List.nil_prefix, trivial⟩, rfl⟩
  have hadm := Held.admissible malloc [] [] fun _ => True
  obtain ⟨⟨⟨hand, hkept⟩, -⟩, hidle⟩ := Routine.calls_invariant
    (P := fun cs s log => Held malloc [] [] (fun _ => True) s log ∧
      Answered (cs.filter FifoCall.asks) s log)
    (fun cs => hadm.and (ignores_answered _).admissible)
    (fun cs c => by
      rw [List.filter_append]
      exact (triple_stmts malloc hget c).and (triple_answered _ c))
    h₀ (h.mono fun _ a _ => by cases a <;> trivial)
  have hlt : x.1.rxFifo.count < 512 := x.1.rxFifo.count_lt
  refine ⟨⟨hkept.toFifoLog, x.1.rxFifo.head_lt, x.1.rxFifo.tail_lt, ?_, ?_⟩, fun hx => ?_⟩
  · rw [Ring.length_stored]
    omega
  · cases hx : x.2 with
    | none => exact ⟨[], (hidle hx).1.conserved, fun _ => rfl⟩
    | some r => exact ⟨hand, hkept.conserved, nofun⟩
  · obtain ⟨hheld, hanswered⟩ := hidle hx
    refine ⟨hanswered, fun c σ => ?_⟩
    obtain ⟨⟨⟨⟩, s', o, σ'⟩, hc⟩ := (straight_stmts c).ends fifoIsr_isSome σ x.1
    exact ⟨s', o, σ', hc, filter_of_stmts hget hheld c hc,
      ((triple_stmts malloc hget c).performIrq hadm hheld hc).fifoRight⟩

/-- `mp_obj_get_int` of an integer that fits. -/
def fittingInt (n : ℤ) : Option Int32 :=
  if -2 ^ 31 ≤ n ∧ n < 2 ^ 31 then some (Int32.ofInt n) else none

theorem fittingInt_eq_iff (n : ℤ) (v : Int32) : fittingInt n = some v ↔ v.toInt = n := by
  have hlt := v.toInt_lt
  have hge := v.le_toInt
  unfold fittingInt
  constructor
  · intro h
    split_ifs at h with hn
    cases h
    exact Int32.toInt_ofInt_of_le hn.1 hn.2
  · rintro rfl
    rw [if_pos ⟨hge, hlt⟩, Int32.ofInt_toInt]

/-- A script reads two bytes of a frame while the next frame arrives. -/
theorem fifo_right_interrupted : ∃ s log,
    (Routine.calls fifoIsr (FifoCall.stmts fittingInt fun _ => true)).Run Machine.Free
      (islerInit, none) (.irq (fun _ => 1) :: .call (.read (some 2)) :: List.replicate 9 .main ++
        .irq (fun _ => 2) :: List.replicate 7 .main) log (s, none) ∧
    log.flatMap FifoEvent.answered = [.read (some 2)] ∧ returnedBytes log = [1, 1] ∧
    ∀ σ, ∃ s' o σ', ((FifoCall.read none).stmts fittingInt fun _ => true).performIrq
        fifoIsr σ s = some (⟨⟩, s', o, σ') ∧
      returnedBytes (o.filter FifoEvent.isAnswer) = [1, 2, 2, 2, 2] := by
  have hr := Machine.run_of_perform (M := Routine.calls fifoIsr (FifoCall.stmts fittingInt
    fun _ => true)) (s := (islerInit, none)) (.irq (fun _ => 1) :: .call (.read (some 2)) ::
      List.replicate 9 .main ++ .irq (fun _ => 2) :: List.replicate 7 .main) rfl
  obtain ⟨-, hidle⟩ := fifo_right _ fittingInt_eq_iff hr
  obtain ⟨hanswered, hcalls⟩ := hidle rfl
  refine ⟨_, _, hr, hanswered, rfl, fun σ => ?_⟩
  obtain ⟨s', o, σ', hc, ho, -⟩ := hcalls (.read none) σ
  exact ⟨s', o, σ', hc, by rw [ho]; rfl⟩

/-- Three bytes are stored, and a script asks for `2^31` of them: it gets an exception, and no
byte. -/
theorem fifo_read_overflows : ∃ s log,
    (Routine.calls fifoIsr (FifoCall.stmts fittingInt fun _ => true)).Run Machine.Free
      (islerInit, none)
      (.irq (fun _ => 1) :: .call (.read (some (2 ^ 31))) :: List.replicate 3 .main) log (s, none) ∧
    s.rxFifo.stored = [1, 1, 1] ∧ wanted 3 (some (2 ^ 31)) = 3 ∧
    log.filter FifoEvent.isAnswer = [.overflowError (2 ^ 31)] ∧ returnedBytes log = [] := by
  have hr := Machine.run_of_perform (M := Routine.calls fifoIsr (FifoCall.stmts fittingInt
    fun _ => true)) (s := (islerInit, none))
    (.irq (fun _ => 1) :: .call (.read (some (2 ^ 31))) :: List.replicate 3 .main) rfl
  exact ⟨_, _, hr, rfl, rfl, rfl, rfl⟩

end Ch32fun
