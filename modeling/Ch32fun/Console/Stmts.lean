import Ch32fun.Console.Basic

/-!
# The console poll, statement by statement

The CDC OUT interrupt appends to the buffer that `poll_usb_input` and the loop of `handle_input`
read, and may come between any two of their statements.  `Pc` says which statement comes next, and
holds the local variables `numbytes`, `i` and `next`.

* `racedMachine` : one statement of the main loop, or one whole interrupt.
* `run_poll` : without an interrupt the statements do what `Console.pollUsbInput` says.
-/

namespace Ch32fun

/-- The next statement of the main loop. -/
inductive Pc
  /-- `if(usb_inbuf_idx)`, and before it all that does not touch `usb_inputbuffer`. -/
  | main
  /-- `handle_usb_input(usb_inbuf_idx, usb_inputbuffer);` -/
  | call
  /-- `i < numbytes;` -/
  | test (numbytes i : ℕ)
  /-- `int next = (rx_head + 1) % RX_BUF_SIZE;` -/
  | next (numbytes i : ℕ)
  /-- `if(data[i] == mp_interrupt_char || data[i] == 0x4)` -/
  | compare (numbytes i : ℕ) (next : Fin rxBufSize)
  /-- `mp_sched_keyboard_interrupt();` -/
  | interrupt (numbytes i : ℕ)
  /-- `if (next != rx_tail)` -/
  | full (numbytes i : ℕ) (next : Fin rxBufSize)
  /-- `rx_buf[rx_head] = data[i];` -/
  | store (numbytes i : ℕ) (next : Fin rxBufSize)
  /-- `rx_head = next;` -/
  | advance (numbytes i : ℕ) (next : Fin rxBufSize)
  /-- `usb_inbuf_idx = 0;` -/
  | clear (numbytes : ℕ)

/-- The globals, and the next statement. -/
structure Raced where
  console : Console
  pc : Pc

/-- One statement of the main loop, one interrupt, or what else the main loop does outside of the
poll. -/
inductive RacedInput
  | stmt
  | cdcOut (p : CdcPacket)
  | takeChar
  | setInterruptChar (ch : ℤ)

namespace Console

variable (c : Console)

/-- `(rx_head + 1) % RX_BUF_SIZE`. -/
def nextHead : Fin rxBufSize := ⟨Ring.next rxBufSize c.rxBuf.head, Nat.mod_lt _ c.rxBuf.pos⟩

/-- `rx_buf[rx_head] = b;`. -/
def storeByte (b : UInt8) : Console := { c with
  rxBuf := { c.rxBuf with buf := Function.update c.rxBuf.buf ⟨c.rxBuf.head, c.rxBuf.head_lt⟩ b } }

/-- `rx_head = next;`. -/
def advanceHead (next : Fin rxBufSize) : Console := { c with
  rxBuf := { c.rxBuf with head := next, head_lt := next.isLt } }

end Console

/-- The next statement.  A byte is processed when it is found to be a control byte, when it is
dropped, or when it is stored. -/
def stmtStep (c : Console) : Pc → Raced × List ConsoleEvent
  | .main => (⟨c, if c.usbInbufIdx ≠ 0 then .call else .main⟩, [])
  | .call => (⟨c, .test c.usbInbufIdx 0⟩, [])
  | .test n i => (⟨c, if i < n then .next n i else .clear n⟩, [])
  | .next n i => (⟨c, .compare n i c.nextHead⟩, [])
  | .compare n i next =>
    let b := c.usbInputbuffer.get i
    if Console.IsControl c.mpInterruptChar b then
      (⟨c, .interrupt n i⟩, [.processed b c.mpInterruptChar])
    else (⟨c, .full n i next⟩, [])
  | .interrupt n i => (⟨c, .test n (i + 1)⟩, [.keyboardInterrupt])
  | .full n i next =>
    if next.val ≠ c.rxBuf.tail then (⟨c, .store n i next⟩, [])
    else (⟨c, .test n (i + 1)⟩, [.processed (c.usbInputbuffer.get i) c.mpInterruptChar])
  | .store n i next =>
    let b := c.usbInputbuffer.get i
    (⟨c.storeByte b, .advance n i next⟩, [.processed b c.mpInterruptChar])
  | .advance n i next => (⟨c.advanceHead next, .test n (i + 1)⟩, [])
  | .clear _ => (⟨c.clear, .main⟩, [])

/-- The main loop and the interrupt. -/
def racedMachine : Machine Raced RacedInput ConsoleEvent where
  step s
    | .stmt => some (stmtStep s.console s.pc)
    | .cdcOut p => some (⟨s.console.handleCdcOut p, s.pc⟩, [.received p.data])
    | .takeChar =>
      match s.pc with
      | .main => some (⟨s.console.takeChar.1, .main⟩, s.console.takeChar.2)
      | _ => none
    | .setInterruptChar ch =>
      match s.pc with
      | .main => some (⟨s.console.setInterruptChar ch, .main⟩, [])
      | _ => none

/-- Power-up. -/
def racedInit : Raced := ⟨consoleInit, .main⟩

/-! ### Without an interrupt -/

section Poll

open Machine

variable {c : Console} {n i : ℕ}

/-- Some statements of the main loop lead from one state to another. -/
def Stmts (s s' : Raced) (log : List ConsoleEvent) : Prop :=
  ∃ k, racedMachine.Run Free s (List.replicate k .stmt) log s'

theorem Stmts.refl (s : Raced) : Stmts s s [] := ⟨0, .nil s⟩

theorem Stmts.step {s s' s'' : Raced} {o log : List ConsoleEvent}
    (h : stmtStep s.console s.pc = (s', o)) (h' : Stmts s' s'' log) : Stmts s s'' (o ++ log) := by
  obtain ⟨k, hr⟩ := h'
  exact ⟨k + 1, .cons trivial (congrArg some h) hr⟩

theorem Stmts.trans {s s' s'' : Raced} {log log' : List ConsoleEvent} (h : Stmts s s' log)
    (h' : Stmts s' s'' log') : Stmts s s'' (log ++ log') := by
  obtain ⟨k, hr⟩ := h
  obtain ⟨k', hr'⟩ := h'
  exact ⟨k + k', List.replicate_add k k' _ ▸ hr.append hr'⟩

theorem stmts_handleByte (hi : i < n) : Stmts ⟨c, .test n i⟩
    ⟨(c.handleByte (c.usbInputbuffer.get i)).1, .test n (i + 1)⟩
    (c.handleByte (c.usbInputbuffer.get i)).2 := by
  have htest : stmtStep c (.test n i) = (⟨c, .next n i⟩, []) := by simp [stmtStep, hi]
  -- the first two statements log nothing
  refine .step (o := []) htest (.step (o := []) rfl ?_)
  unfold Console.handleByte
  by_cases hctl : Console.IsControl c.mpInterruptChar (c.usbInputbuffer.get i)
  · rw [if_pos hctl]
    exact .step (o := [_]) (if_pos hctl) (.step (o := [_]) rfl (.refl _))
  rw [if_neg hctl]
  refine .step (o := []) (if_neg hctl) ?_
  unfold Ring.push
  by_cases hfull : Ring.next rxBufSize c.rxBuf.head ≠ c.rxBuf.tail
  · rw [if_pos hfull]
    exact .step (o := []) (if_pos hfull) (.step (o := [_]) rfl (.step (o := []) rfl (.refl _)))
  · rw [if_neg hfull]
    exact .step (o := [_]) (if_neg hfull) (.refl _)

theorem stmts_handleInput (c : Console) {n i : ℕ} (hi : i ≤ n) : Stmts ⟨c, .test n i⟩
    ⟨(c.handleInput ((List.range' i (n - i)).map c.usbInputbuffer.get)).1, .clear n⟩
    (c.handleInput ((List.range' i (n - i)).map c.usbInputbuffer.get)).2 := by
  obtain ⟨d, rfl⟩ := Nat.exists_eq_add_of_le hi
  rw [Nat.add_sub_cancel_left]
  induction d generalizing c i with
  | zero =>
    have htest : stmtStep c (.test (i + 0) i) = (⟨c, .clear (i + 0)⟩, []) := by simp [stmtStep]
    exact .step (o := []) htest (.refl _)
  | succ d ih =>
    have hbuf : (c.handleByte (c.usbInputbuffer.get i)).1.usbInputbuffer = c.usbInputbuffer := by
      unfold Console.handleByte
      split_ifs <;> rfl
    have hrest := ih (c.handleByte (c.usbInputbuffer.get i)).1 (i := i + 1) (Nat.le_add_right _ _)
    rw [hbuf, Nat.add_right_comm, Nat.add_assoc] at hrest
    rw [List.range'_succ, List.map_cons, Console.handleInput]
    exact (stmts_handleByte (by omega)).trans hrest

/-- **A poll that is not interrupted** does what `pollUsbInput` says. -/
theorem run_poll (c : Console) : Stmts ⟨c, .main⟩ ⟨c.pollUsbInput.1, .main⟩ c.pollUsbInput.2 := by
  unfold Console.pollUsbInput
  by_cases h : c.usbInbufIdx ≠ 0
  · rw [if_pos h]
    have hmain : stmtStep c .main = (⟨c, .call⟩, []) := by simp [stmtStep, h]
    have hloop := stmts_handleInput c (Nat.zero_le c.usbInbufIdx)
    rw [Nat.sub_zero, ← List.range_eq_range'] at hloop
    have hclear : Stmts ⟨c, .test c.usbInbufIdx 0⟩ ⟨(c.handleInput c.buffered).1.clear, .main⟩
        (c.handleInput c.buffered).2 := by
      rw [← List.append_nil (c.handleInput c.buffered).2]
      exact hloop.trans (.step (o := []) rfl (.refl _))
    exact .step (o := []) hmain (.step (o := []) rfl hclear)
  · rw [if_neg h]
    exact .refl _

end Poll

end Ch32fun
