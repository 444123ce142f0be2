import Ch32fun.Data.Ring
import Ch32fun.Machine.Basic

/-!
# The radio: receive FIFO and receive interrupt

`ch32fun_isler.c` hands received frames to Python through a ring of 512 bytes, filled by the
receive interrupt and emptied by `iSLER.read`.  This file declares its data and its handlers, each
run without interruption, and the machine `islerMachine` they form.

* `modIslerRxIsr` : `mod_isler_rx_isr`; the frame is the content of `LLE_BUF` at the time.
* `funIslerRead`, `funIslerAny`, `funIslerIrq` : the methods of `iSLER`; the allocation of the
  returned bytes is taken to succeed.
* `complete` : the bytes of a frame, as its length byte counts them.
* `cutFrames` : what a reader gets who splits the stream by the length byte.
-/

namespace Ch32fun

/-- `RX_BUF_SIZE` of the radio. -/
abbrev rxFifoSize : ℕ := 512

/-- The content of `LLE_BUF`. -/
abbrev LleBuf := ℕ → UInt8

/-- The globals of the radio. -/
structure Isler where
  /-- `rx_fifo`. -/
  rxFifo : Ring UInt8 rxFifoSize
  /-- `isler_callback_obj`, a Python object by its address, `none` for `mp_const_none`. -/
  islerCallbackObj : Option ℕ

/-- The globals at power-up. -/
def islerInit : Isler := ⟨Ring.empty (by decide), none⟩

/-- What can be observed of the radio. -/
inductive IslerEvent
  /-- A frame was in `LLE_BUF` when the interrupt came. -/
  | received (frame : LleBuf)
  /-- `mp_sched_schedule(obj, mp_const_none)`. -/
  | scheduled (obj : ℕ)
  /-- A call of `read` returned. -/
  | read (bytes : Option (List UInt8))
  /-- A call of `any` returned. -/
  | any (count : ℕ)
  /-- `rx_fifo_count` returned `count` when `stored` bytes were stored. -/
  | counted (count : UInt32) (stored : ℕ)
  /-- `vstr_init_len(&vstr, len)`. -/
  | alloc (len : UInt32)
  /-- `rx_fifo_pop` found the FIFO empty. -/
  | emptyPop

/-! ### The receive interrupt -/

/-- `uint8_t len = frame[1] + 2;`, in 8-bit arithmetic. -/
def isrLen (frame : LleBuf) : UInt8 := frame 1 + 2

/-- The bytes that `mod_isler_rx_isr` pushes. -/
def isrBytes (frame : LleBuf) : List UInt8 :=
  let len := isrLen frame
  if len > 0 ∧ len < 255 then (List.range len.toNat).map frame else []

/-- `mod_isler_rx_isr`. -/
def modIslerRxIsr (s : Isler) (frame : LleBuf) : Isler × List IslerEvent :=
  ({ s with rxFifo := s.rxFifo.pushAll (isrBytes frame) },
    .received frame :: s.islerCallbackObj.toList.map .scheduled)

/-! ### The methods -/

/-- `rx_fifo_count`. -/
def rxFifoCount (r : Ring UInt8 rxFifoSize) : ℕ := r.count

/-- `rx_fifo_pop` : `-1` when the FIFO is empty. -/
def rxFifoPop (r : Ring UInt8 rxFifoSize) : ℤ × Ring UInt8 rxFifoSize :=
  match r.pop with
  | none => (-1, r)
  | some (b, r) => (b.toNat, r)

/-- The cast `(byte)` of an `int`. -/
def toByte (v : ℤ) : UInt8 := UInt8.ofNat (v % 2 ^ 8).toNat

/-- The loop of `fun_isler_read`. -/
def popLoop : ℕ → Ring UInt8 rxFifoSize → List UInt8 × Ring UInt8 rxFifoSize
  | 0, r => ([], r)
  | n + 1, r =>
    let (v, r) := rxFifoPop r
    let (bs, r) := popLoop n r
    (toByte v :: bs, r)

/-- The number of bytes that `read` returns when `count` are stored; the argument is converted to
`size_t`. -/
def readCount (count : ℕ) (req : Option Int32) : ℕ :=
  match req with
  | none => count
  | some n => if n.toUInt32.toNat < count then n.toUInt32.toNat else count

/-- `fun_isler_read`, `none` for `mp_const_none`. -/
def funIslerRead (s : Isler) (req : Option Int32) : Isler × Option (List UInt8) :=
  let count := readCount (rxFifoCount s.rxFifo) req
  if count = 0 then (s, none)
  else
    let (bs, r) := popLoop count s.rxFifo
    ({ s with rxFifo := r }, some bs)

/-- `fun_isler_any`. -/
def funIslerAny (s : Isler) : ℕ := rxFifoCount s.rxFifo

/-- `fun_isler_irq`. -/
def funIslerIrq (s : Isler) (handler : Option ℕ) : Isler := { s with islerCallbackObj := handler }

/-- The receive interrupt and the calls of a script. -/
inductive IslerInput
  | rx (frame : LleBuf)
  | read (req : Option Int32)
  | any
  | irq (handler : Option ℕ)

/-- The radio, each handler and each call run without interruption. -/
def islerMachine : Machine Isler IslerInput IslerEvent where
  step s
    | .rx frame => some (modIslerRxIsr s frame)
    | .read req => some ((funIslerRead s req).1, [.read (funIslerRead s req).2])
    | .any => some (s, [.any (funIslerAny s)])
    | .irq handler => some (funIslerIrq s handler, [])

theorem isr_eq {s s' : Isler} {frame : LleBuf} {o : List IslerEvent}
    (h : some (modIslerRxIsr s frame) = some (s', o)) :
    s' = (modIslerRxIsr s frame).1 ∧ o = (modIslerRxIsr s frame).2 := by
  rw [Option.some.inj h]
  exact ⟨rfl, rfl⟩

/-! ### What a read returns -/

theorem toByte_toNat (b : UInt8) : toByte b.toNat = b := by
  have h := b.toNat_lt
  apply UInt8.toNat_inj.1
  rw [toByte, UInt8.toNat_ofNat']
  omega

theorem popLoop_of_le {n : ℕ} {r : Ring UInt8 rxFifoSize} (h : n ≤ r.count) :
    (popLoop n r).1 = r.stored.take n ∧ (popLoop n r).2.stored = r.stored.drop n := by
  induction n generalizing r with
  | zero => exact ⟨rfl, rfl⟩
  | succ n ih =>
    have hne := r.ne_of_count_pos (by omega)
    have hstored := r.stored_eq_cons hne
    have hcount := r.count_advance hne
    obtain ⟨h₁, h₂⟩ := ih (r := r.advance) (by omega)
    rw [popLoop, rxFifoPop, r.pop_of_ne hne, hstored]
    dsimp only
    rw [h₁, h₂, toByte_toNat]
    exact ⟨rfl, rfl⟩

theorem readCount_le (count : ℕ) (req : Option Int32) : readCount count req ≤ count := by
  unfold readCount
  split
  · exact le_rfl
  · split_ifs with h
    · exact h.le
    · exact le_rfl

/-- **A read moves the oldest bytes from the FIFO to its result.** -/
theorem funIslerRead_stored (s : Isler) (req : Option Int32) :
    (funIslerRead s req).2.getD [] ++ (funIslerRead s req).1.rxFifo.stored = s.rxFifo.stored := by
  unfold funIslerRead
  dsimp only
  split_ifs with h
  · rfl
  · obtain ⟨h₁, h₂⟩ := popLoop_of_le (r := s.rxFifo) (readCount_le s.rxFifo.count req)
    change (popLoop (readCount s.rxFifo.count req) s.rxFifo).1 ++
      (popLoop (readCount s.rxFifo.count req) s.rxFifo).2.stored = s.rxFifo.stored
    rw [h₁, h₂, List.take_append_drop]

/-! ### Reading a log -/

namespace IslerEvent

/-- The frame an interrupt finds. -/
@[simp] def frames : IslerEvent → List LleBuf
  | .received frame => [frame]
  | _ => []

/-- The bytes a call of `read` returns. -/
@[simp] def readBytes : IslerEvent → List UInt8
  | .read bytes => bytes.getD []
  | _ => []

end IslerEvent

/-- The frames that were received, in order. -/
def receivedFrames (log : List IslerEvent) : List LleBuf := log.flatMap IslerEvent.frames

/-- The bytes that were ever read, in order. -/
def bytesRead (log : List IslerEvent) : List UInt8 := log.flatMap IslerEvent.readBytes

section Log

variable (l l' : List IslerEvent)

@[simp] theorem receivedFrames_append :
    receivedFrames (l ++ l') = receivedFrames l ++ receivedFrames l' := List.flatMap_append

@[simp] theorem bytesRead_append : bytesRead (l ++ l') = bytesRead l ++ bytesRead l' :=
  List.flatMap_append

@[simp] theorem receivedFrames_isr (s : Isler) (frame : LleBuf) :
    receivedFrames (modIslerRxIsr s frame).2 = [frame] := by simp [modIslerRxIsr, receivedFrames]

@[simp] theorem bytesRead_isr (s : Isler) (frame : LleBuf) :
    bytesRead (modIslerRxIsr s frame).2 = [] := by simp [modIslerRxIsr, bytesRead]

end Log

/-! ### Frames -/

/-- The bytes of a frame: two of header, and as many as the length byte says. -/
def complete (frame : LleBuf) : List UInt8 := (List.range ((frame 1).toNat + 2)).map frame

/-- The frames of a stream, each cut off by its length byte; an incomplete rest is left out. -/
def cutFrames : List UInt8 → List (List UInt8)
  | [] | [_] => []
  | t :: l :: rest =>
    if l.toNat ≤ rest.length then
      (t :: l :: rest.take l.toNat) :: cutFrames (rest.drop l.toNat)
    else []
  termination_by stream => stream.length
  decreasing_by
    simp only [List.length_drop, List.length_cons]
    omega

theorem complete_eq (frame : LleBuf) : complete frame =
    frame 0 :: frame 1 :: (List.range (frame 1).toNat).map fun i => frame (i + 2) := by
  rw [complete, List.range_succ_eq_map, List.range_succ_eq_map]
  simp [Function.comp_def]

theorem cutFrames_complete (frame : LleBuf) (rest : List UInt8) :
    cutFrames (complete frame ++ rest) = complete frame :: cutFrames rest := by
  have hlen : ((List.range (frame 1).toNat).map fun i => frame (i + 2)).length =
      (frame 1).toNat := by simp
  rw [complete_eq, List.cons_append, List.cons_append, cutFrames, if_pos (by simp),
    List.take_left' hlen, List.drop_left' hlen]

theorem cutFrames_flatMap (frames : List LleBuf) (rest : List UInt8) :
    cutFrames (frames.flatMap complete ++ rest) = frames.map complete ++ cutFrames rest := by
  induction frames with
  | nil => rfl
  | cons frame frames ih =>
    rw [List.flatMap_cons, List.append_assoc, cutFrames_complete, ih]
    rfl

end Ch32fun
