import Ch32fun.Data.Ring
import Ch32fun.Machine.Basic
import Mathlib.Data.List.DropRight
import Mathlib.Data.List.GetD

/-!
# The console: from the CDC endpoint to the characters of the REPL

Console input goes through two buffers.  The interrupt of the CDC OUT endpoint appends packets to
`usb_inputbuffer` and drops the oldest bytes when there is no room; the poll hands its bytes to
`handle_input`, which stores them in the ring `rx_buf` and drops the newest bytes when there is no
room; `mp_hal_stdin_rx_chr` takes them from there.  This file declares the data and the handlers,
each run without interruption, and the machine `consoleMachine` they form.

* `Console.handleCdcOut` : `HandleDataOut` for `EP_CDC_OUT`.
* `Console.handleInput`, `Console.pollUsbInput` : `handle_input`, and the console half of
  `poll_usb_input`.
* `Console.background` : `mp_hal_background_processing`, whose outcome depends on the time and on
  what is pending.
* `Console.stdinRxChr` : one turn of the loop of `mp_hal_stdin_rx_chr`.
* `Console.buffered_handleCdcOut` : the buffer keeps the newest bytes.
-/

namespace Ch32fun

/-- `USBFS_PACKET_SIZE`, the size of `usb_inputbuffer`. -/
abbrev usbfsPacketSize : ℕ := 64

/-- `RX_BUF_SIZE` of the console. -/
abbrev rxBufSize : ℕ := 64

/-- A packet of the CDC OUT endpoint. -/
structure CdcPacket where
  data : List UInt8
  length_le : data.length ≤ usbfsPacketSize

/-- The globals of the console. -/
structure Console where
  usbInputbuffer : Block UInt8 usbfsPacketSize
  usbInbufIdx : ℕ
  /-- `rx_buf`, `rx_head` and `rx_tail`. -/
  rxBuf : Ring UInt8 rxBufSize
  mpInterruptChar : ℤ
  idx_le : usbInbufIdx ≤ usbfsPacketSize

/-- The globals at power-up, when no character interrupts. -/
def consoleInit : Console := ⟨fun _ => 0, 0, Ring.empty (by decide), -1, Nat.zero_le _⟩

/-- What can be observed of the console. -/
inductive ConsoleEvent
  /-- A packet arrived. -/
  | received (data : List UInt8)
  /-- `handle_input` was at this byte, and `mp_interrupt_char` had this value. -/
  | processed (b : UInt8) (interruptChar : ℤ)
  /-- `mp_sched_keyboard_interrupt()`. -/
  | keyboardInterrupt
  /-- `mp_hal_stdin_rx_chr` returned. -/
  | returned (c : UInt8)
  deriving DecidableEq

namespace Console

variable (c : Console)

/-- The bytes of `usb_inputbuffer` that wait for the poll. -/
def buffered : List UInt8 := (List.range c.usbInbufIdx).map c.usbInputbuffer.get

/-! ### The interrupt -/

/-- `headroom`. -/
def headroom (p : CdcPacket) : ℤ := (usbfsPacketSize - c.usbInbufIdx) - p.data.length

/-- The loop that moves the bytes from `offset` on to the beginning. -/
def freeUp (buf : Block UInt8 usbfsPacketSize) (offset : ℕ) : Block UInt8 usbfsPacketSize :=
  (List.range' offset (usbfsPacketSize - offset)).foldl
    (fun buf i => buf.write (i - offset) 1 fun _ => buf.get i) buf

/-- `if (headroom < 0)` : the oldest bytes are discarded. -/
def makeRoom (p : CdcPacket) : Console :=
  if c.headroom p < 0 then
    let offset := (-c.headroom p).toNat
    { c with
      usbInputbuffer := freeUp c.usbInputbuffer offset
      usbInbufIdx := c.usbInbufIdx - offset
      idx_le := (Nat.sub_le _ _).trans c.idx_le }
  else c

theorem packetSize_eq : usbfsPacketSize = 64 := rfl

theorem makeRoom_idx (p : CdcPacket) : (c.makeRoom p).usbInbufIdx =
    c.usbInbufIdx - (c.usbInbufIdx + p.data.length - usbfsPacketSize) := by
  have hlen := p.length_le
  have hroom : c.headroom p = (usbfsPacketSize - c.usbInbufIdx) - p.data.length := rfl
  unfold makeRoom
  split_ifs with h
  · dsimp only
    omega
  · omega

theorem makeRoom_le (p : CdcPacket) :
    (c.makeRoom p).usbInbufIdx + p.data.length ≤ usbfsPacketSize := by
  have hlen := p.length_le
  have hidx := c.idx_le
  rw [makeRoom_idx]
  omega

/-- `HandleDataOut` for `EP_CDC_OUT`. -/
def handleCdcOut (p : CdcPacket) : Console :=
  let c' := c.makeRoom p
  { c' with
    usbInputbuffer := c'.usbInputbuffer.write c'.usbInbufIdx p.data.length fun i => p.data.getD i 0
    usbInbufIdx := c'.usbInbufIdx + p.data.length
    idx_le := c.makeRoom_le p }

/-! ### The poll -/

/-- A byte that is not stored: `data[i] == mp_interrupt_char || data[i] == 0x4`. -/
def IsControl (interruptChar : ℤ) (b : UInt8) : Prop := (b.toNat : ℤ) = interruptChar ∨ b = 0x4

instance (interruptChar : ℤ) : DecidablePred (IsControl interruptChar) := fun b => by
  unfold IsControl
  exact inferInstance

/-- One turn of the loop of `handle_input`. -/
def handleByte (b : UInt8) : Console × List ConsoleEvent :=
  if IsControl c.mpInterruptChar b then
    (c, [.processed b c.mpInterruptChar, .keyboardInterrupt])
  else ({ c with rxBuf := c.rxBuf.push b }, [.processed b c.mpInterruptChar])

/-- `handle_input`. -/
def handleInput : Console → List UInt8 → Console × List ConsoleEvent
  | c, [] => (c, [])
  | c, b :: data =>
    let (c, o) := c.handleByte b
    let (c, o') := handleInput c data
    (c, o ++ o')

/-- `usb_inbuf_idx = 0;`. -/
def clear : Console := { c with usbInbufIdx := 0, idx_le := Nat.zero_le _ }

/-- The console half of `poll_usb_input`. -/
def pollUsbInput : Console × List ConsoleEvent :=
  if c.usbInbufIdx ≠ 0 then
    let (c', o) := c.handleInput c.buffered
    (c'.clear, o)
  else (c, [])

/-! ### The reader -/

/-- What `mp_hal_background_processing` does. -/
inductive Background
  /-- Less than a millisecond has passed since the last time. -/
  | idle
  /-- `mp_handle_pending` raises. -/
  | raises
  /-- The console is polled. -/
  | polls

/-- `mp_hal_background_processing`. -/
def background : Background → Console × List ConsoleEvent
  | .idle | .raises => (c, [])
  | .polls => c.pollUsbInput

/-- `(c == '\n') ? '\r' : c`. -/
def crlf (b : UInt8) : UInt8 := if b = 10 then 13 else b

/-- The test for a character, and its return. -/
def takeChar : Console × List ConsoleEvent :=
  match c.rxBuf.pop with
  | none => (c, [])
  | some (b, rxBuf) => ({ c with rxBuf }, [.returned (crlf b)])

/-- One turn of the loop of `mp_hal_stdin_rx_chr`; an exception leaves it at once. -/
def stdinRxChr : Background → Console × List ConsoleEvent
  | .raises => (c, [])
  | b =>
    let (c, o) := c.background b
    let (c, o') := c.takeChar
    (c, o ++ o')

/-- `mp_hal_set_interrupt_char`. -/
def setInterruptChar (ch : ℤ) : Console := { c with mpInterruptChar := ch }

end Console

/-- The interrupt, and what the main loop does with the console. -/
inductive ConsoleInput
  | cdcOut (p : CdcPacket)
  | background (b : Console.Background)
  | stdinRxChr (b : Console.Background)
  | setInterruptChar (ch : ℤ)

/-- The console, each handler run without interruption. -/
def consoleMachine : Machine Console ConsoleInput ConsoleEvent where
  step c
    | .cdcOut p => some (c.handleCdcOut p, [.received p.data])
    | .background b => some (c.background b)
    | .stdinRxChr b => some (c.stdinRxChr b)
    | .setInterruptChar ch => some (c.setInterruptChar ch, [])

namespace Console

variable (c : Console)

/-! ### The buffer keeps the newest bytes -/

@[simp] theorem length_buffered : c.buffered.length = c.usbInbufIdx := by simp [buffered]

/-- The loop moves the bytes down; every byte is read before it is overwritten. -/
theorem freeUp_get (buf : Block UInt8 usbfsPacketSize) {offset i : ℕ}
    (h : i + offset < usbfsPacketSize) : (freeUp buf offset).get i = buf.get (i + offset) := by
  have hloop : ∀ k, offset + k ≤ 64 → ∀ j, j < 64 →
      ((List.range' offset k).foldl
        (fun buf i => buf.write (i - offset) 1 fun _ => buf.get i) buf).get j =
      if j < k then buf.get (j + offset) else buf.get j := by
    intro k
    induction k with
    | zero => exact fun _ _ _ => rfl
    | succ k ih =>
      intro hk j hj
      -- this turn reads index `offset + k`, which no turn before has written to
      rw [List.range'_1_concat, List.foldl_append, List.foldl_cons, List.foldl_nil,
        Block.get_write hj, ih (by omega) j hj, ih (by omega) (offset + k) (by omega)]
      by_cases hjk : j = k
      · rw [if_pos (by omega), if_neg (by omega), if_pos (by omega), hjk, Nat.add_comm]
      · rw [if_neg (by omega)]
        split_ifs <;> first | rfl | omega
  rw [packetSize_eq] at h
  have hk := hloop (64 - offset) (by omega) i (by omega)
  rwa [if_pos (by omega)] at hk

theorem makeRoom_get (p : CdcPacket) {i : ℕ} (h : i < (c.makeRoom p).usbInbufIdx) :
    (c.makeRoom p).usbInputbuffer.get i =
      c.usbInputbuffer.get (i + (c.usbInbufIdx + p.data.length - usbfsPacketSize)) := by
  have hroom : c.headroom p = (usbfsPacketSize - c.usbInbufIdx) - p.data.length := rfl
  have hidx := c.idx_le
  rw [makeRoom_idx] at h
  unfold makeRoom
  split_ifs with hneg
  · dsimp only
    have hoff : (-c.headroom p).toNat = c.usbInbufIdx + p.data.length - usbfsPacketSize := by omega
    rw [hoff, freeUp_get _ (by omega)]
  · rw [show c.usbInbufIdx + p.data.length - usbfsPacketSize = 0 by omega, Nat.add_zero]

/-- **The buffer keeps the newest bytes.** -/
theorem buffered_handleCdcOut (p : CdcPacket) :
    (c.handleCdcOut p).buffered = (c.buffered ++ p.data).rtake usbfsPacketSize := by
  have hle := c.makeRoom_le p
  have hidx := c.makeRoom_idx p
  have hlen := p.length_le
  have hnew : (c.handleCdcOut p).usbInbufIdx = (c.makeRoom p).usbInbufIdx + p.data.length := rfl
  have hbuf : (c.handleCdcOut p).usbInputbuffer = (c.makeRoom p).usbInputbuffer.write
      (c.makeRoom p).usbInbufIdx p.data.length fun i => p.data.getD i 0 := rfl
  rw [List.rtake, List.length_append, length_buffered]
  refine List.ext_getElem ?_ fun i hi hi' => ?_
  · rw [length_buffered, hnew, List.length_drop, List.length_append, length_buffered]
    have := c.idx_le
    omega
  rw [length_buffered, hnew] at hi
  rw [List.getElem_drop]
  simp only [buffered, List.getElem_map, List.getElem_range, hbuf]
  rw [Block.get_write (by omega)]
  by_cases h : i < (c.makeRoom p).usbInbufIdx
  · -- a byte that was kept
    rw [if_neg (by omega), makeRoom_get c p h, List.getElem_append_left (by simp; omega),
      List.getElem_map, List.getElem_range, Nat.add_comm]
  · -- a byte of the packet
    rw [if_pos (by omega), List.getElem_append_right (by simp; omega),
      List.getD_eq_getElem _ _ (by omega)]
    congr 1
    rw [List.length_map, List.length_range]
    omega

theorem handleCdcOut_idx (p : CdcPacket) : (c.handleCdcOut p).usbInbufIdx =
    c.usbInbufIdx + p.data.length - (c.usbInbufIdx + p.data.length - usbfsPacketSize) := by
  rw [← length_buffered, buffered_handleCdcOut, List.rtake, List.length_drop, List.length_append,
    length_buffered]

@[simp] theorem handleCdcOut_rxBuf (p : CdcPacket) : (c.handleCdcOut p).rxBuf = c.rxBuf := by
  change (c.makeRoom p).rxBuf = c.rxBuf
  unfold makeRoom
  split_ifs <;> rfl

/-! ### What the poll does -/

/-- The bytes of some data that `handle_input` stores, as far as there is room. -/
def plain (interruptChar : ℤ) (data : List UInt8) : List UInt8 :=
  data.filter fun b => ¬ IsControl interruptChar b

theorem handleInput_fst (data : List UInt8) : (c.handleInput data).1 =
    { c with rxBuf := c.rxBuf.pushAll (plain c.mpInterruptChar data) } := by
  induction data generalizing c with
  | nil => rfl
  | cons b data ih =>
    rw [handleInput]
    dsimp only
    rw [ih]
    unfold handleByte plain
    by_cases h : IsControl c.mpInterruptChar b
    · rw [if_pos h, List.filter_cons_of_neg (by simpa using h)]
    · rw [if_neg h, List.filter_cons_of_pos (by simpa using h)]
      rfl

theorem pollUsbInput_fst : c.pollUsbInput.1 =
    { c with
      rxBuf := c.rxBuf.pushAll (plain c.mpInterruptChar c.buffered)
      usbInbufIdx := 0
      idx_le := Nat.zero_le _ } := by
  unfold pollUsbInput
  split_ifs with h
  · dsimp only
    rw [handleInput_fst]
    rfl
  · obtain ⟨buf, idx, ring, ch, hle⟩ := c
    obtain rfl : idx = 0 := not_not.1 h
    rfl

end Console

/-! ### Reading a log -/

namespace ConsoleEvent

/-- The bytes that arrive with an event. -/
@[simp] def receivedBytes : ConsoleEvent → List UInt8
  | .received data => data
  | _ => []

/-- The byte that `handle_input` is at, with the value of `mp_interrupt_char`. -/
@[simp] def processedBytes : ConsoleEvent → List (UInt8 × ℤ)
  | .processed b ch => [(b, ch)]
  | _ => []

/-- The character that is returned. -/
@[simp] def returnedChars : ConsoleEvent → List UInt8
  | .returned c => [c]
  | _ => []

end ConsoleEvent

/-- The bytes received, in order. -/
def receivedBytes (log : List ConsoleEvent) : List UInt8 := log.flatMap ConsoleEvent.receivedBytes

/-- The bytes that `handle_input` was at, in order. -/
def processedBytes (log : List ConsoleEvent) : List (UInt8 × ℤ) :=
  log.flatMap ConsoleEvent.processedBytes

/-- The characters returned, in order. -/
def returnedChars (log : List ConsoleEvent) : List UInt8 := log.flatMap ConsoleEvent.returnedChars

section Log

variable (l l' : List ConsoleEvent) (data : List UInt8)

@[simp] theorem receivedBytes_append :
    receivedBytes (l ++ l') = receivedBytes l ++ receivedBytes l' := List.flatMap_append

@[simp] theorem processedBytes_append :
    processedBytes (l ++ l') = processedBytes l ++ processedBytes l' := List.flatMap_append

@[simp] theorem returnedChars_append :
    returnedChars (l ++ l') = returnedChars l ++ returnedChars l' := List.flatMap_append

end Log

namespace Console

variable (c : Console) (data : List UInt8)

theorem handleInput_snd : receivedBytes (c.handleInput data).2 = [] ∧
    processedBytes (c.handleInput data).2 = data.map (·, c.mpInterruptChar) ∧
    returnedChars (c.handleInput data).2 = [] := by
  induction data generalizing c with
  | nil => exact ⟨rfl, rfl, rfl⟩
  | cons b data ih =>
    obtain ⟨h₁, h₂, h₃⟩ := ih (c.handleByte b).1
    rw [handleInput]
    dsimp only
    rw [receivedBytes_append, processedBytes_append, returnedChars_append, h₁, h₂, h₃]
    unfold handleByte
    split_ifs <;> exact ⟨rfl, rfl, rfl⟩

theorem pollUsbInput_snd : receivedBytes c.pollUsbInput.2 = [] ∧
    processedBytes c.pollUsbInput.2 = c.buffered.map (·, c.mpInterruptChar) ∧
    returnedChars c.pollUsbInput.2 = [] := by
  unfold pollUsbInput
  split_ifs with h
  · exact c.handleInput_snd c.buffered
  · rw [buffered, not_not.1 h]
    exact ⟨rfl, rfl, rfl⟩

/-- The oldest character of the ring is returned, if there is one. -/
theorem takeChar_cases : (c.rxBuf.head = c.rxBuf.tail ∧ c.takeChar = (c, [])) ∨
    (c.rxBuf.head ≠ c.rxBuf.tail ∧
      c.takeChar = ({ c with rxBuf := c.rxBuf.advance }, [.returned (crlf c.rxBuf.front)])) := by
  unfold takeChar
  by_cases hne : c.rxBuf.head = c.rxBuf.tail
  · rw [Ring.pop, if_pos hne]
    exact .inl ⟨hne, rfl⟩
  · rw [c.rxBuf.pop_of_ne hne]
    exact .inr ⟨hne, rfl⟩

end Console

end Ch32fun
