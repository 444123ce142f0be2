import Ch32fun.Isler.Frames
import Ch32fun.Isler.Queue
import Ch32fun.Machine.Part

/-!
# A script that is driven by the radio

`iSLER.irq` installs a function that `mod_isler_rx_isr` schedules after every frame; MicroPython
calls it between two opcodes.  A script that waits for frames is one whose function calls
`iSLER.read`, and nothing calls that function again before the next frame.

* `Scheduler` : what MicroPython documents of `mp_sched_schedule` and of the call of what is
  scheduled; the depth is that of `mpconfigport.h`.
* `radioIsr` : the receive interrupt with the scheduler, and anything else that schedules.
* `RadioCall.stmts` : the calls of the script, and the call of a scheduled function.
* `Awake` : nothing waits in the FIFO, or a function that reads it is scheduled.
* `Heard` : an interrupt that finds the scheduler able to take its function.
* `no_lost_wakeup` : **every frame reaches the script.**  As long as every interrupt is heard, the
  radio is awake whenever no call is under way, whatever statements the interrupts come between.
-/

namespace Ch32fun

/-- `MICROPY_SCHEDULER_DEPTH`. -/
abbrev schedulerDepth : ℕ := 4

/-- The scheduler of MicroPython: a queue of functions that are to be called. -/
structure Scheduler (σ : Type) where
  /-- The functions, by their addresses. -/
  queued : σ → List ℕ
  /-- `mp_sched_schedule(obj, mp_const_none)`. -/
  mpSchedSchedule : σ → ℕ → σ
  /-- The function that `mp_handle_pending` calls next. -/
  mpHandlePending : σ → Option (ℕ × σ)
  /-- A full queue takes nothing. -/
  queued_schedule : ∀ u obj, queued (mpSchedSchedule u obj) =
    if (queued u).length < schedulerDepth then queued u ++ [obj] else queued u
  queued_of_none : ∀ {u}, mpHandlePending u = none → queued u = []
  queued_of_some : ∀ {u obj u'}, mpHandlePending u = some (obj, u') → queued u = obj :: queued u'

/-- Interrupts: a frame, or some other handler that schedules a function. -/
inductive RadioIrq
  | frame (frame : LleBuf)
  | schedule (obj : ℕ)

/-- The calls of a script, and the call of a scheduled function. -/
inductive RadioCall
  | fifo (c : FifoCall)
  | pending

section Radio

variable {σ : Type} (S : Scheduler σ)

/-- `mod_isler_rx_isr` with its call of `mp_sched_schedule`, and that of another handler. -/
def radioIsr (x : Isler × σ) : RadioIrq → Option ((Isler × σ) × List FifoEvent)
  | .frame frame => (fifoIsr x.1 frame).map fun (s, o) =>
      ((s, x.1.islerCallbackObj.elim x.2 (S.mpSchedSchedule x.2)), o)
  | .schedule obj => some ((x.1, S.mpSchedSchedule x.2 obj), [])

variable (mpObjGetInt : ℤ → Option Int32) (malloc : UInt32 → Bool) (drains : ℕ → Bool)

/-- The function that is to be called next leaves the queue. -/
def takePending : Routine (Isler × σ) FifoEvent (Option ℕ) :=
  .stmt (fun x => ((x.1, ((S.mpHandlePending x.2).map Prod.snd).getD x.2), []))
    fun x => .ret ((S.mpHandlePending x.2).map Prod.fst)

/-- The statements of a call; `drains` tells which functions call `iSLER.read()`. -/
def RadioCall.stmts : RadioCall → Routine (Isler × σ) FifoEvent PUnit
  | .fifo c => (c.stmts mpObjGetInt malloc).onFst σ
  | .pending => do
    match ← takePending S with
    | some obj =>
      if drains obj then ((FifoCall.read none).stmts mpObjGetInt malloc).onFst σ else pure ⟨⟩
    | none => pure ⟨⟩

/-- A script at work, and the interrupts. -/
abbrev radioMachine : Machine ((Isler × σ) × Option (Routine (Isler × σ) FifoEvent PUnit))
    (Routine.CallTurn RadioCall RadioIrq) FifoEvent :=
  Routine.calls (radioIsr S) (RadioCall.stmts S mpObjGetInt malloc drains)

/-- A function that reads the FIFO is scheduled. -/
def Waiting (u : σ) : Prop := ∃ obj ∈ S.queued u, drains obj

/-- Nothing waits in the FIFO, or a function that reads it is scheduled. -/
def Awake (x : Isler × σ) : Prop := x.1.rxFifo.stored = [] ∨ Waiting S drains x.2

/-- The interrupt stores nothing, or a function that reads the FIFO is scheduled already, or the
one that the interrupt schedules is such a function and finds room. -/
def Heard (x : Isler × σ) : RadioIrq → Prop
  | .frame frame => isrBytes frame = [] ∨ x.1.rxFifo.count = 511 ∨ Waiting S drains x.2 ∨
      ((S.queued x.2).length < schedulerDepth ∧ ∃ obj, x.1.islerCallbackObj = some obj ∧ drains obj)
  | .schedule _ => True

end Radio

/-! ### The interrupts -/

section Interrupts

variable {σ : Type} {S : Scheduler σ} {drains : ℕ → Bool} {x x' : Isler × σ} {u : σ} {i : RadioIrq}
variable {o : List FifoEvent}

theorem Waiting.schedule (h : Waiting S drains u) (obj : ℕ) :
    Waiting S drains (S.mpSchedSchedule u obj) := by
  obtain ⟨obj', hmem, hd⟩ := h
  refine ⟨obj', ?_, hd⟩
  rw [S.queued_schedule]
  split_ifs
  · exact List.mem_append_left _ hmem
  · exact hmem

theorem waiting_schedule_iff (obj : ℕ) : Waiting S drains (S.mpSchedSchedule u obj) ↔
    Waiting S drains u ∨ ((S.queued u).length < schedulerDepth ∧ drains obj) := by
  unfold Waiting
  rw [S.queued_schedule]
  split_ifs with h
  · simp [h, or_and_right, exists_or]
  · simp [h]

theorem radioIsr_frame {frame : LleBuf} (h : radioIsr S x (.frame frame) = some (x', o)) :
    fifoIsr x.1 frame = some (x'.1, o) ∧
      x'.2 = x.1.islerCallbackObj.elim x.2 (S.mpSchedSchedule x.2) := by
  rw [radioIsr] at h
  obtain ⟨⟨s, o'⟩, hs, he⟩ := Option.map_eq_some_iff.1 h
  cases he
  exact ⟨hs, rfl⟩

theorem rxFifo_frame {frame : LleBuf} (h : radioIsr S x (.frame frame) = some (x', o)) :
    x'.1 = { x.1 with rxFifo := x.1.rxFifo.pushAll (isrBytes frame) } := by
  have hs := Option.some.inj (radioIsr_frame h).1
  exact (congrArg Prod.fst hs).symm

theorem waiting_frame_iff {frame : LleBuf} (h : radioIsr S x (.frame frame) = some (x', o)) :
    Waiting S drains x'.2 ↔ Waiting S drains x.2 ∨ ((S.queued x.2).length < schedulerDepth ∧
      ∃ obj, x.1.islerCallbackObj = some obj ∧ drains obj) := by
  rw [(radioIsr_frame h).2]
  cases x.1.islerCallbackObj with
  | none => simp
  | some obj => simp [waiting_schedule_iff]

theorem Waiting.irq (h : Waiting S drains x.2) (hi : radioIsr S x i = some (x', o)) :
    Waiting S drains x'.2 := by
  cases i with
  | frame frame => exact (waiting_frame_iff hi).2 (.inl h)
  | schedule obj =>
    cases hi
    exact h.schedule obj

/-- **An interrupt that is heard** changes nothing, or a function is scheduled that reads the
FIFO. -/
theorem Heard.irq (h : Heard S drains x i) (hi : radioIsr S x i = some (x', o)) :
    x'.1 = x.1 ∨ Waiting S drains x'.2 := by
  cases i with
  | schedule obj =>
    cases hi
    exact .inl rfl
  | frame frame =>
    rw [waiting_frame_iff hi, rxFifo_frame hi]
    rcases h with h | h | h
    · rw [h]
      exact .inl rfl
    · rw [Ring.pushAll_of_full _ _ (congrArg (· + 1) h)]
      exact .inl rfl
    · exact .inr h

/-- Beside the scheduler, the interrupts are those of the FIFO. -/
theorem beside_radioIsr (G : Isler × σ → RadioIrq → Prop) :
    Routine.Beside fifoIsr Machine.Free (radioIsr S) G := by
  intro x i x' o _ hi
  cases i with
  | frame frame => exact .inr ⟨frame, trivial, (radioIsr_frame hi).1⟩
  | schedule obj =>
    cases hi
    exact .inl ⟨rfl, rfl⟩

/-- **When the radio is awake, an interrupt leaves it so exactly if it is heard.** -/
theorem awake_irq_iff (h : Awake S drains x) (hi : radioIsr S x i = some (x', o)) :
    Awake S drains x' ↔ Heard S drains x i := by
  cases i with
  | schedule obj =>
    cases hi
    exact iff_of_true (h.imp id fun hw => hw.schedule obj) trivial
  | frame frame =>
    by_cases hw : Waiting S drains x.2
    · exact iff_of_true (.inr (hw.irq hi)) (.inr (.inr (.inl hw)))
    · have hempty : x.1.rxFifo.stored = [] := h.resolve_right hw
      have hcount : x.1.rxFifo.count = 0 := by rw [← Ring.length_stored, hempty]; rfl
      have hstored : (x.1.rxFifo.pushAll (isrBytes frame)).stored = [] ↔ isrBytes frame = [] := by
        rw [Ring.stored_pushAll, hempty, hcount]
        simp
      rw [Awake, Heard, rxFifo_frame hi, waiting_frame_iff hi, hstored, hcount]
      simp [hw]

end Interrupts

/-! ### The calls -/

section Calls

variable {mpObjGetInt : ℤ → Option Int32} {malloc : UInt32 → Bool} {s s' : Isler} {a : PUnit}
variable {o : List FifoEvent}

theorem perform_readBytes {n : ℕ} {result : ReadResult} {o : List IslerEvent}
    (h : n ≤ s.rxFifo.count)
    (hp : (readBytesStmts malloc (UInt32.ofNat n)).perform s = some (result, s', o)) :
    s'.rxFifo.stored =
      if malloc (UInt32.ofNat n) then s.rxFifo.stored.drop n else s.rxFifo.stored := by
  have hlt : s.rxFifo.count < 512 := s.rxFifo.count_lt
  have hnat : (UInt32.ofNat n).toNat = n := by
    rw [UInt32.toNat_ofNat', Nat.mod_eq_of_lt (by omega)]
  have hzero : UInt32.ofNat n = 0 ↔ n = 0 := by
    rw [← UInt32.toNat_inj, hnat]
    rfl
  unfold readBytesStmts at hp
  by_cases h₀ : n = 0
  · rw [if_pos (hzero.2 h₀)] at hp
    cases hp
    rw [h₀, List.drop_zero, ite_self]
  · rw [if_neg (mt hzero.1 h₀), Routine.perform_bind, Routine.perform_exec, Option.bind_some] at hp
    by_cases hm : malloc (UInt32.ofNat n)
    · have hpop := perform_popLoopStmts s h
      simp only [hm, if_true, hnat, Routine.perform_bind, hpop, Option.bind_some,
        Routine.perform_pure, Option.map_some] at hp ⊢
      cases hp
      exact (popLoop_of_le h).2
    · simp only [hm, Bool.false_eq_true, if_false, Routine.perform_pure, Option.map_some] at hp ⊢
      cases hp
      rfl

theorem perform_read {args : Option ℤ} {req : Option Int32} {n : ℕ}
    (hargs : getArgs mpObjGetInt args = some req)
    (hn : requested (UInt32.ofNat s.rxFifo.count) req = UInt32.ofNat n) (h : n ≤ s.rxFifo.count)
    (hp : ((FifoCall.read args).stmts mpObjGetInt malloc).perform s = some (a, s', o)) :
    s'.rxFifo.stored =
      if malloc (UInt32.ofNat n) then s.rxFifo.stored.drop n else s.rxFifo.stored := by
  rw [FifoCall.stmts, Routine.perform_read_bind] at hp
  dsimp only at hp
  rw [hargs] at hp
  dsimp only at hp
  rw [rxFifoCount, hn, Routine.perform_bind, Routine.perform_mapObs] at hp
  obtain ⟨⟨result, s₁, o₁⟩, h₁, hp⟩ := Option.bind_eq_some_iff.1 hp
  obtain ⟨⟨result', s₁', o₁'⟩, h₁', he⟩ := Option.map_eq_some_iff.1 h₁
  cases he
  rw [← perform_readBytes h h₁']
  cases hp
  rfl

theorem perform_empty {c : FifoCall} (h : s.rxFifo.stored = [])
    (hp : (c.stmts mpObjGetInt malloc).perform s = some (a, s', o)) : s'.rxFifo.stored = [] := by
  cases c with
  | any =>
    cases hp
    exact h
  | irq handler =>
    cases hp
    exact h
  | read args =>
    cases hargs : getArgs mpObjGetInt args with
    | none =>
      rw [FifoCall.stmts, Routine.perform_read_bind] at hp
      dsimp only at hp
      rw [hargs] at hp
      cases hp
      exact h
    | some req =>
      have hcount : s.rxFifo.count = 0 := by rw [← Ring.length_stored, h]; rfl
      have hreq : requested (UInt32.ofNat s.rxFifo.count) req = UInt32.ofNat 0 := by
        rw [← UInt32.toNat_inj, requested_toNat, hcount]
        exact Nat.le_zero.1 (readCount_le 0 req)
      rw [perform_read hargs hreq (Nat.zero_le _) hp, h, List.drop_nil, ite_self]

theorem perform_read_all (hmalloc : ∀ n : UInt32, n.toNat ≤ 511 → malloc n)
    (hp : ((FifoCall.read none).stmts mpObjGetInt malloc).perform s = some (a, s', o)) :
    s'.rxFifo.stored = [] := by
  have hlt : s.rxFifo.count < 512 := s.rxFifo.count_lt
  have hm : malloc (UInt32.ofNat s.rxFifo.count) := by
    refine hmalloc _ ?_
    rw [UInt32.toNat_ofNat', Nat.mod_eq_of_lt (by omega)]
    omega
  rw [perform_read rfl rfl le_rfl hp, if_pos hm, ← Ring.length_stored, List.drop_length]

variable {σ : Type} {S : Scheduler σ} {drains : ℕ → Bool}

theorem admissible_awake : Routine.Admissible (radioIsr S) (Heard S drains) (fun _ _ => True)
    fun x _ => Awake S drains x := .free fun h hG hi => (awake_irq_iff h hi).2 hG

/-- Taking a function from the queue leaves the radio awake, or it is one that reads the FIFO. -/
theorem triple_takePending : Routine.Triple (radioIsr S) (Heard S drains) (fun _ _ => True)
    (fun x _ => Awake S drains x) (takePending S)
    fun obj x _ => (∃ f, obj = some f ∧ drains f) ∨ Awake S drains x := by
  refine ⟨fun y x _ => (∃ f, (S.mpHandlePending y.2).map Prod.fst = some f ∧ drains f) ∨
    Awake S drains x, fun x log h => ?_, fun y => ⟨.free ?_, fun x log h => h⟩⟩
  · dsimp only
    cases hn : S.mpHandlePending x.2 with
    | none => exact .inr h
    | some y =>
      by_cases hd : drains y.1
      · exact .inl ⟨y.1, rfl, hd⟩
      · refine .inr (h.imp id ?_)
        rintro ⟨f, hf, hdf⟩
        rw [S.queued_of_some hn] at hf
        obtain rfl | hf := List.mem_cons.1 hf
        · exact absurd hdf hd
        · exact ⟨f, hf, hdf⟩
  · rintro x i x' o log (h | h) hG hi
    · exact .inl h
    · exact .inr ((awake_irq_iff h hi).2 hG)

/-- **Every call leaves the radio awake.** -/
theorem triple_awake (hmalloc : ∀ n : UInt32, n.toNat ≤ 511 → malloc n) (c : RadioCall) :
    Routine.Triple (radioIsr S) (Heard S drains) (fun _ _ => True) (fun x _ => Awake S drains x)
      (c.stmts S mpObjGetInt malloc drains) fun _ x _ => Awake S drains x := by
  have hW : ∀ (x : Isler × σ) i x' o, Waiting S drains x.2 → Heard S drains x i →
      radioIsr S x i = some (x', o) → Waiting S drains x'.2 := fun _ _ _ _ h _ hi => h.irq hi
  have hH : ∀ (x : Isler × σ) i x' o, Heard S drains x i → radioIsr S x i = some (x', o) →
      x'.1 = x.1 ∨ Waiting S drains x'.2 := fun _ _ _ _ h hi => h.irq hi
  cases c with
  | fifo c => exact .of_perform hW hH fun s a s' o h hp => perform_empty h hp
  | pending =>
    refine .bind triple_takePending fun obj => ?_
    cases obj with
    | none => exact .pure fun x log h => h.resolve_left (by rintro ⟨f, hf, -⟩; cases hf)
    | some f =>
      by_cases hd : drains f
      · dsimp only
        rw [if_pos hd]
        exact (Routine.Triple.of_perform hW hH (p := fun _ => True) fun s a s' o _ hp =>
          perform_read_all hmalloc hp).pre fun _ _ _ => .inl trivial
      · dsimp only
        rw [if_neg hd]
        refine .pure fun x log h => h.resolve_left ?_
        rintro ⟨f', hf', hd'⟩
        cases hf'
        exact hd hd'

theorem triple_radio (hget : ∀ n v, mpObjGetInt n = some v ↔ v.toInt = n) (c : RadioCall) :
    Routine.Triple (radioIsr S) (Heard S drains) (fun x => Kept malloc x.1)
      (fun x => Held malloc [] [] (fun _ => True) x.1) (c.stmts S mpObjGetInt malloc drains)
      fun _ x => Held malloc [] [] (fun _ => True) x.1 := by
  have hbeside := beside_radioIsr (S := S) (Heard S drains)
  have hcall (c : FifoCall) := (triple_stmts malloc hget c).onFst hbeside
  cases c with
  | fifo c => exact hcall c
  | pending =>
    have hadm := (Held.admissible malloc [] [] fun _ => True).onFst hbeside
    refine .bind (Q := fun _ x => Held malloc [] [] (fun _ => True) x.1)
      ⟨fun _ x => Held malloc [] [] (fun _ => True) x.1, fun x log h => ?_,
        fun _ => ⟨hadm, fun x log h => h⟩⟩ fun obj => ?_
    · rw [List.append_nil]
      exact h
    · cases obj with
      | none => exact .pure fun x log h => h
      | some f =>
        dsimp only
        split_ifs
        · exact hcall _
        · exact .pure fun x log h => h

end Calls

/-! ### Frames -/

/-- The frame that an interrupt found. -/
def FifoEvent.frame : FifoEvent → List LleBuf
  | .isler (.received frame) => [frame]
  | _ => []

/-- The frames that the interrupts found, in order. -/
def framesFound (log : List FifoEvent) : List LleBuf := log.flatMap FifoEvent.frame

theorem storedBytes_frames {malloc : UInt32 → Bool} {log : List FifoEvent}
    (h : FifoLog malloc log) (hdrop : ∀ b n, .dropped b n ∉ log)
    (hlen : ∀ frame ∈ framesFound log, (frame 1).toNat ≤ 252) :
    storedBytes log = (framesFound log).flatMap complete := by
  calc storedBytes log = log.flatMap FifoEvent.arrivedByte := by
        refine List.flatMap_congr fun e he => ?_
        cases e with
        | dropped b n => exact absurd he (hdrop b n)
        | _ => rfl
    _ = log.flatMap FifoEvent.frameBytes := h.arrived
    _ = log.flatMap fun e => e.frame.flatMap isrBytes := by
        refine List.flatMap_congr fun e _ => ?_
        cases e with
        | isler e => cases e <;> simp [FifoEvent.frameBytes, FifoEvent.frame]
        | _ => rfl
    _ = (framesFound log).flatMap isrBytes := by rw [framesFound, List.flatMap_assoc]
    _ = (framesFound log).flatMap complete :=
        List.flatMap_congr fun frame hmem => Isler.isrBytes_of_le (hlen frame hmem)

variable {σ : Type} {mpObjGetInt : ℤ → Option Int32} {malloc : UInt32 → Bool}

/-- **No lost wakeup.**  A script installs functions with `iSLER.irq`, some of which call
`iSLER.read()`, and makes any other calls; frames and other handlers that schedule functions may
come between any two statements.  As long as every interrupt is heard, the FIFO is empty whenever no
call is under way, or a function that reads it is scheduled; and the next interrupt changes this
exactly if it is not heard.  When no such function is scheduled any more, every byte that was stored
has been returned; and if none was dropped, the script cuts the stream into the frames received. -/
theorem no_lost_wakeup (S : Scheduler σ) (drains : ℕ → Bool)
    (hget : ∀ n v, mpObjGetInt n = some v ↔ v.toInt = n)
    (hmalloc : ∀ n : UInt32, n.toNat ≤ 511 → malloc n) {u : σ} {x : Isler × σ}
    {as : List (Routine.CallTurn RadioCall RadioIrq)} {log : List FifoEvent}
    (h : (radioMachine S mpObjGetInt malloc drains).Run
      (Routine.CallTurn.Allowed (Heard S drains)) ((islerInit, u), none) as log (x, none)) :
    Awake S drains x ∧
    (∀ i x' o, radioIsr S x i = some (x', o) → (Awake S drains x' ↔ Heard S drains x i)) ∧
    (¬ Waiting S drains x.2 → returnedBytes log = storedBytes log ∧
      ((∀ b n, .dropped b n ∉ log) → (∀ frame ∈ framesFound log, (frame 1).toNat ≤ 252) →
        cutFrames (returnedBytes log) = (framesFound log).map complete)) := by
  have h₀ : Held malloc [] [] (fun _ => True) islerInit [] ∧ Awake S drains (islerInit, u) :=
    ⟨⟨⟨nofun, rfl⟩, rfl, List.nil_prefix, trivial⟩, .inl rfl⟩
  have hadm := ((Held.admissible malloc [] [] fun _ => True).onFst
    (beside_radioIsr (S := S) (Heard S drains))).and admissible_awake
  obtain ⟨hheld, hawake⟩ := (Routine.calls_invariant (fun _ => hadm)
    (fun _ c => (triple_radio hget c).and (triple_awake hmalloc c)) h₀ h).2 rfl
  refine ⟨hawake, fun i x' o hi => awake_irq_iff hawake hi, fun hw => ?_⟩
  have hempty : x.1.rxFifo.stored = [] := hawake.resolve_right hw
  have hreturned : returnedBytes log = storedBytes log := by
    have hconserved := hheld.conserved
    rw [hempty, List.append_nil, List.append_nil] at hconserved
    exact hconserved
  have hlog : FifoLog malloc log := hheld.toFifoLog
  refine ⟨hreturned, fun hdrop hlen => ?_⟩
  rw [hreturned, storedBytes_frames hlog hdrop hlen]
  simpa [cutFrames] using cutFrames_flatMap (framesFound log) []

/-- A scheduler whose state is its queue. -/
def listScheduler : Scheduler (List ℕ) where
  queued q := q
  mpSchedSchedule q obj := if q.length < schedulerDepth then q ++ [obj] else q
  mpHandlePending
    | [] => none
    | obj :: q => some (obj, q)
  queued_schedule _ _ := rfl
  queued_of_none {u} h := by
    cases u with
    | nil => rfl
    | cons obj q => cases h
  queued_of_some {u obj u'} h := by
    cases u with
    | nil => cases h
    | cons obj' q => cases h; rfl

/-- The function at address 7 reads the frames. -/
abbrev sevenReads : Machine ((Isler × List ℕ) × Option (Routine (Isler × List ℕ) FifoEvent PUnit))
    (Routine.CallTurn RadioCall RadioIrq) FifoEvent :=
  radioMachine listScheduler fittingInt (fun _ => true) fun obj => obj == 7

/-- A frame of two bytes arrives, and another one while the first is read. -/
theorem no_lost_wakeup_twice : ∃ as log x,
    sevenReads.Run (Routine.CallTurn.Allowed (Heard listScheduler fun obj => obj == 7))
      ((islerInit, []), none) as log (x, none) ∧
    x.2 = [] ∧ returnedBytes log = storedBytes log ∧ returnedBytes log = [0, 0, 0, 0] := by
  have allowed {y y' o} (as : List (Routine.CallTurn RadioCall RadioIrq))
      (h : sevenReads.perform y as = some (y', o)) (has : ∀ a ∈ as, ∀ i, a ≠ .irq i) :
      sevenReads.Run (Routine.CallTurn.Allowed (Heard listScheduler fun obj => obj == 7)) y as o
        y' := by
    refine (Machine.run_of_perform as h).of_inputs fun a ha y => ?_
    cases a with
    | irq i => exact absurd rfl (has _ ha i)
    | _ => trivial
  have heard {y} {r : Option (Routine (Isler × List ℕ) FifoEvent PUnit)} {frame}
      (hroom : y.2.length < 4) (hobj : y.1.islerCallbackObj = some 7) :
      Routine.CallTurn.Allowed (Heard listScheduler fun obj => obj == 7) (y, r)
        (.irq (.frame frame) : Routine.CallTurn RadioCall RadioIrq) :=
    Or.inr (.inr (.inr ⟨hroom, 7, hobj, rfl⟩))
  have hr₁ := allowed (y := ((islerInit, []), none))
    [.call (.fifo (.irq (some 7))), .main, .main] rfl (by simp)
  have hr₂ := hr₁.snoc (a := .irq (.frame fun _ => 0))
    (heard (by decide) rfl) rfl
  have hr₃ := hr₂.append (allowed (.call .pending :: List.replicate 6 .main) rfl (by simp))
  have hr₄ := hr₃.snoc (a := .irq (.frame fun _ => 0))
    (heard (by decide) rfl) rfl
  have hr₅ := hr₄.append (allowed (List.replicate 11 .main ++
    .call .pending :: List.replicate 17 .main) rfl (by simp))
  obtain ⟨-, -, hall⟩ := no_lost_wakeup listScheduler _ fittingInt_eq_iff (fun _ _ => rfl) hr₅
  exact ⟨_, _, _, hr₅, rfl, (hall (by rintro ⟨_, h, -⟩; cases h)).1, rfl⟩

end Ch32fun
