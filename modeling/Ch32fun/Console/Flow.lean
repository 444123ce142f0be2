import Ch32fun.Console.Idle
import Ch32fun.Machine.Relay

/-!
# From the endpoint to the reader

`usb_inputbuffer` and the ring are two bounded queues, one behind the other: the first drops the
oldest bytes when a packet finds no room, the second the newest ones when a poll does.  With this
the way of every byte is known in every run, however packets, polls and reads come.

* `simulates_relay` : the console is such a pair of queues.
* `Roomy` : the condition under which a step loses nothing.
* `console_flow` : nothing is invented, doubled or reordered; what is lost is the sum of what found
  no room; nothing is lost exactly when every step meets the condition.
-/

namespace Ch32fun

/-- The character for a byte that is polled, if there is one. -/
def Console.convert (interruptChar : ℤ) (b : UInt8) : Option UInt8 :=
  if IsControl interruptChar b then none else some (crlf b)

/-- A step, as one of the two queues. -/
def ConsoleInput.toRelay : ConsoleInput → List (RelayInput UInt8 UInt8)
  | cdcOut p => [.arrive p.data]
  | background .polls => [.pass]
  | background .idle | background .raises | stdinRxChr .raises => []
  | stdinRxChr .polls => [.pass, .take]
  | stdinRxChr .idle => [.take]
  | setInterruptChar ch => [.change (Console.convert ch)]

/-- An observation, as one of the two queues. -/
def ConsoleEvent.toRelay : ConsoleEvent → List (RelayEvent UInt8 UInt8)
  | received data => [.arrived data]
  | processed b ch => [.passed b (Console.convert ch b)]
  | keyboardInterrupt => []
  | returned c => [.taken c]

namespace Console

open Machine

variable {c c' : Console} {r : Relay UInt8 UInt8} {a : ConsoleInput} {as : List ConsoleInput}
  {log : List ConsoleEvent}

/-- The queues hold what the buffers hold. -/
structure Relays (c : Console) (r : Relay UInt8 UInt8) : Prop where
  waiting : r.waiting = c.buffered
  ready : r.ready = c.rxBuf.stored.map crlf
  convert : r.convert = convert c.mpInterruptChar

/-- The bytes that a packet pushes out of `usb_inputbuffer`. -/
def pushedOut (c : Console) : ConsoleInput → ℕ
  | .cdcOut p => c.usbInbufIdx + p.data.length - usbfsPacketSize
  | _ => 0

/-- The plain bytes of a poll for which the ring has no room. -/
def turnedAway (c : Console) : ConsoleInput → ℕ
  | .background .polls | .stdinRxChr .polls =>
    c.rxBuf.count + (plain c.mpInterruptChar c.buffered).length - (rxBufSize - 1)
  | _ => 0

/-- The packet fits into `usb_inputbuffer`, and the plain bytes of the poll into the ring. -/
def Roomy (c : Console) (a : ConsoleInput) : Prop :=
  (∀ p, a = .cdcOut p → c.usbInbufIdx + p.data.length ≤ usbfsPacketSize) ∧
    (Polls a → c.rxBuf.count + (plain c.mpInterruptChar c.buffered).length ≤ rxBufSize - 1)

theorem roomy_iff : c.Roomy a ↔ c.pushedOut a = 0 ∧ c.turnedAway a = 0 := by
  have hsub : ∀ m n : ℕ, m - n = 0 ↔ m ≤ n := fun m n => Nat.sub_eq_zero_iff_le
  cases a with
  | cdcOut p => simp [Roomy, Polls, pushedOut, turnedAway, hsub]
  | background b => cases b <;> simp [Roomy, Polls, pushedOut, turnedAway, hsub]
  | stdinRxChr b => cases b <;> simp [Roomy, Polls, pushedOut, turnedAway, hsub]
  | setInterruptChar ch => simp [Roomy, Polls, pushedOut, turnedAway]

/-! ### The console as two queues -/

theorem filterMap_convert (ch : ℤ) (data : List UInt8) :
    data.filterMap (convert ch) = (plain ch data).map crlf := by
  rw [plain, ← List.filterMap_eq_map, List.filterMap_filter]
  refine List.filterMap_congr fun b _ => ?_
  unfold convert
  by_cases h : IsControl ch b <;> simp [h]

theorem flatMap_handleInput (c : Console) (data : List UInt8) :
    (c.handleInput data).2.flatMap ConsoleEvent.toRelay =
      data.map fun b => .passed b (convert c.mpInterruptChar b) := by
  induction data generalizing c with
  | nil => rfl
  | cons b data ih =>
    have hch : (c.handleByte b).1.mpInterruptChar = c.mpInterruptChar := by
      unfold handleByte
      split_ifs <;> rfl
    rw [handleInput]
    dsimp only
    rw [List.flatMap_append, ih, hch]
    unfold handleByte
    split_ifs <;> rfl

theorem flatMap_pollUsbInput (c : Console) : c.pollUsbInput.2.flatMap ConsoleEvent.toRelay =
    c.buffered.map fun b => .passed b (convert c.mpInterruptChar b) := by
  unfold pollUsbInput
  split_ifs with h
  · exact c.flatMap_handleInput c.buffered
  · rw [buffered, not_not.1 h]
    rfl

/-- The console with room for 64 and 63 bytes. -/
abbrev queues : Machine (Relay UInt8 UInt8) (RelayInput UInt8 UInt8) (RelayEvent UInt8 UInt8) :=
  relay UInt8 UInt8 usbfsPacketSize (rxBufSize - 1)

theorem handleCdcOut_interruptChar (c : Console) (p : CdcPacket) :
    (c.handleCdcOut p).mpInterruptChar = c.mpInterruptChar := by
  change (c.makeRoom p).mpInterruptChar = c.mpInterruptChar
  unfold makeRoom
  split_ifs <;> rfl

theorem Relays.cdcOut (h : c.Relays r) (p : CdcPacket) :
    ∃ r', queues.step r (.arrive p.data) = some (r', [.arrived p.data]) ∧
      (c.handleCdcOut p).Relays r' := by
  refine ⟨_, rfl, ?_, ?_, ?_⟩
  · rw [buffered_handleCdcOut, ← h.waiting]
  · rw [handleCdcOut_rxBuf]
    exact h.ready
  · rw [handleCdcOut_interruptChar]
    exact h.convert

theorem Relays.poll (h : c.Relays r) :
    ∃ r', queues.step r .pass = some (r', c.pollUsbInput.2.flatMap ConsoleEvent.toRelay) ∧
      c.pollUsbInput.1.Relays r' := by
  have hlt := c.rxBuf.count_lt
  refine ⟨{ r with
    waiting := []
    ready := (r.ready ++ r.waiting.filterMap r.convert).take (rxBufSize - 1) }, ?_, ?_, ?_, ?_⟩
  · rw [flatMap_pollUsbInput, ← h.convert, ← h.waiting]
    rfl
  · rw [pollUsbInput_fst]
    rfl
  · rw [pollUsbInput_fst]
    dsimp only
    -- the ring is full, or stores all of them
    rw [h.ready, h.waiting, h.convert, filterMap_convert, Ring.stored_pushAll, ← List.map_append,
      ← List.map_take, List.take_append, Ring.length_stored, List.take_of_length_le]
    rw [Ring.length_stored]
    exact Nat.le_sub_one_of_lt hlt
  · rw [pollUsbInput_fst]
    exact h.convert

theorem Relays.takeChar (h : c.Relays r) :
    ∃ r', queues.step r .take = some (r', c.takeChar.2.flatMap ConsoleEvent.toRelay) ∧
      c.takeChar.1.Relays r' := by
  obtain ⟨he, ht⟩ | ⟨hne, ht⟩ := c.takeChar_cases
  · have hnone : r.ready = [] := by
      rw [h.ready, ← List.length_eq_zero_iff, List.length_map, Ring.length_stored,
        Ring.count_eq_zero_iff]
      exact he
    rw [ht]
    refine ⟨{ r with ready := [] }, ?_, h.waiting, ?_, h.convert⟩
    · change some (_, _) = _
      rw [hnone]
      rfl
    · rw [← hnone]
      exact h.ready
  · have hcons : r.ready = crlf c.rxBuf.front :: c.rxBuf.advance.stored.map crlf := by
      rw [h.ready, c.rxBuf.stored_eq_cons hne, List.map_cons]
    rw [ht]
    refine ⟨{ r with ready := c.rxBuf.advance.stored.map crlf }, ?_, h.waiting, rfl, h.convert⟩
    change some (_, _) = _
    rw [hcons]
    rfl

theorem Relays.setInterruptChar (h : c.Relays r) (ch : ℤ) :
    ∃ r', queues.step r (.change (Console.convert ch)) = some (r', []) ∧
      (c.setInterruptChar ch).Relays r' :=
  ⟨_, rfl, h.waiting, h.ready, rfl⟩

/-- **The console is two bounded queues, one behind the other.** -/
theorem simulates_relay : Simulates consoleMachine queues Free Free Relays ConsoleInput.toRelay
    ConsoleEvent.toRelay where
  step := by
    intro c r a c' o h _ hst
    cases a with
    | cdcOut p =>
      cases hst
      obtain ⟨r', hr, h'⟩ := h.cdcOut p
      exact ⟨r', .single trivial hr, h'⟩
    | background b =>
      cases b with
      | idle | raises =>
        cases hst
        exact ⟨r, .nil r, h⟩
      | polls =>
        have he : c.pollUsbInput = (c', o) := Option.some.inj hst
        obtain ⟨r', hr, h'⟩ := h.poll
        rw [he] at hr h'
        exact ⟨r', .single trivial hr, h'⟩
    | stdinRxChr b =>
      cases b with
      | raises =>
        cases hst
        exact ⟨r, .nil r, h⟩
      | idle =>
        have he : c.takeChar = (c', o) := Option.some.inj hst
        obtain ⟨r', hr, h'⟩ := h.takeChar
        rw [he] at hr h'
        exact ⟨r', .single trivial hr, h'⟩
      | polls =>
        -- first the poll, then the test for a character
        cases hst
        obtain ⟨r₁, hr₁, h₁⟩ := h.poll
        obtain ⟨r₂, hr₂, h₂⟩ := h₁.takeChar
        refine ⟨r₂, ?_, h₂⟩
        rw [List.flatMap_append]
        exact .cons trivial hr₁ (.single trivial hr₂)
    | setInterruptChar ch =>
      cases hst
      obtain ⟨r', hr, h'⟩ := h.setInterruptChar ch
      exact ⟨r', .single trivial hr, h'⟩

theorem relays_init : consoleInit.Relays ⟨[], [], convert (-1)⟩ := ⟨rfl, rfl, rfl⟩

/-! ### What is lost -/

theorem pushedOut_eq (h : c.Relays r) (a : ConsoleInput) :
    c.pushedOut a = queues.tally (Relay.pushedOut usbfsPacketSize) r a.toRelay := by
  cases a with
  | cdcOut p =>
    obtain ⟨r', hr, -⟩ := h.cdcOut p
    rw [ConsoleInput.toRelay, tally_single hr, Relay.pushedOut, h.waiting, length_buffered]
    rfl
  | background b => cases b <;> rfl
  | stdinRxChr b => cases b <;> rfl
  | setInterruptChar ch => rfl

theorem turnedAway_eq (h : c.Relays r) (a : ConsoleInput) :
    c.turnedAway a = queues.tally (Relay.turnedAway (rxBufSize - 1)) r a.toRelay := by
  have hpass : Relay.turnedAway (rxBufSize - 1) r .pass =
      c.rxBuf.count + (plain c.mpInterruptChar c.buffered).length - (rxBufSize - 1) := by
    rw [Relay.turnedAway, h.ready, h.waiting, h.convert, filterMap_convert, List.length_map,
      List.length_map, Ring.length_stored]
  cases a with
  | cdcOut p => rfl
  | background b =>
    cases b with
    | idle | raises => rfl
    | polls => exact hpass.symm
  | stdinRxChr b =>
    cases b with
    | idle | raises => rfl
    | polls =>
      obtain ⟨r₁, hr₁, h₁⟩ := h.poll
      obtain ⟨r₂, hr₂, -⟩ := h₁.takeChar
      rw [ConsoleInput.toRelay, tally_cons hr₁, tally_single hr₂, hpass]
      rfl
  | setInterruptChar ch => rfl

section Log

variable (log : List ConsoleEvent)

theorem arrivals_toRelay : Relay.arrivals (log.flatMap ConsoleEvent.toRelay) =
    receivedBytes log := by
  rw [Relay.arrivals, List.flatMap_assoc, receivedBytes]
  refine List.flatMap_congr fun e _ => ?_
  cases e <;> simp [ConsoleEvent.toRelay]

theorem passes_toRelay : Relay.passes (log.flatMap ConsoleEvent.toRelay) =
    (processedBytes log).map Prod.fst := by
  rw [Relay.passes, List.flatMap_assoc, processedBytes, List.map_flatMap]
  refine List.flatMap_congr fun e _ => ?_
  cases e <;> simp [ConsoleEvent.toRelay]

theorem results_toRelay : Relay.results (log.flatMap ConsoleEvent.toRelay) =
    expectedChars log := by
  rw [Relay.results, List.flatMap_assoc, expectedChars, processedBytes, List.filterMap_flatMap]
  refine List.flatMap_congr fun e _ => ?_
  cases e with
  | processed b ch =>
    by_cases h : IsControl ch b <;> simp [ConsoleEvent.toRelay, convert, h]
  | received | keyboardInterrupt | returned => simp [ConsoleEvent.toRelay]

theorem takes_toRelay : Relay.takes (log.flatMap ConsoleEvent.toRelay) = returnedChars log := by
  rw [Relay.takes, List.flatMap_assoc, returnedChars]
  refine List.flatMap_congr fun e _ => ?_
  cases e <;> simp [ConsoleEvent.toRelay]

end Log

/-- **The flow from the endpoint to the reader**, in every run from power-up.  The bytes processed
and those that wait are some of those received, in order, and the characters returned and those
that wait are some of those of the plain bytes processed; what is missing is the sum of what found
no room; and nothing is lost exactly when every packet and every poll finds room. -/
theorem console_flow (h : consoleMachine.Run Free consoleInit as log c) :
    ((processedBytes log).map Prod.fst ++ c.buffered).Sublist (receivedBytes log) ∧
      (returnedChars log ++ c.rxBuf.stored.map crlf).Sublist (expectedChars log) ∧
      (receivedBytes log).length = (processedBytes log).length + c.usbInbufIdx +
        consoleMachine.tally pushedOut consoleInit as ∧
      (expectedChars log).length = (returnedChars log).length + c.rxBuf.count +
        consoleMachine.tally turnedAway consoleInit as ∧
      (c.Lossless log ↔ consoleMachine.Run Roomy consoleInit as log c) := by
  obtain ⟨r, hrun, hr⟩ := simulates_relay.run relays_init h
  obtain ⟨⟨hfirst, hsecond⟩, harrived, hcame, hlossless⟩ := Relay.flow hrun
  -- the sums are those of the console, and so are the logs
  have hpushed := simulates_relay.tally_eq relays_init h fun _ _ a hR => pushedOut_eq hR a
  have hturned := simulates_relay.tally_eq relays_init h fun _ _ a hR => turnedAway_eq hR a
  rw [← hpushed] at harrived hlossless
  rw [← hturned] at hcame hlossless
  rw [Relay.Lossless] at hlossless
  rw [arrivals_toRelay, passes_toRelay, hr.waiting] at hfirst harrived hlossless
  rw [results_toRelay, takes_toRelay, hr.ready] at hsecond hcame hlossless
  rw [List.length_map, length_buffered] at harrived
  rw [List.length_map, Ring.length_stored] at hcame
  refine ⟨hfirst, hsecond, harrived, hcame, hlossless.trans ?_⟩
  rw [h.tally_eq_zero_iff, h.tally_eq_zero_iff]
  constructor
  · rintro ⟨h₁, h₂⟩
    exact (h₁.and h₂).mono fun _ _ hg => roomy_iff.2 hg
  · intro hroomy
    exact ⟨hroomy.mono fun _ _ hg => (roomy_iff.1 hg).1,
      hroomy.mono fun _ _ hg => (roomy_iff.1 hg).2⟩

/-- Two packets of 64 bytes before a poll: the first one is lost in `usb_inputbuffer`, and the last
byte of the second one in the ring. -/
theorem console_flow_overrun : ∃ log c, consoleMachine.Run Free consoleInit
    [.cdcOut longPacket, .cdcOut longPacket, .stdinRxChr .polls] log c ∧
    (receivedBytes log).length = (processedBytes log).length + c.usbInbufIdx + 64 ∧
    (expectedChars log).length = (returnedChars log).length + c.rxBuf.count + 1 ∧
    ¬ c.Lossless log := by
  obtain ⟨⟨c, log⟩, hp⟩ : ∃ x, consoleMachine.perform consoleInit
    [.cdcOut longPacket, .cdcOut longPacket, .stdinRxChr .polls] = some x :=
    Option.isSome_iff_exists.1 (by decide +kernel)
  have hpushed : consoleMachine.tally pushedOut consoleInit
      [.cdcOut longPacket, .cdcOut longPacket, .stdinRxChr .polls] = 64 := by decide +kernel
  have hturned : consoleMachine.tally turnedAway consoleInit
      [.cdcOut longPacket, .cdcOut longPacket, .stdinRxChr .polls] = 1 := by decide +kernel
  have hrun := run_of_perform _ hp
  obtain ⟨-, -, hreceived, hexpected, hlossless⟩ := console_flow hrun
  rw [hpushed] at hreceived
  rw [hturned] at hexpected
  refine ⟨log, c, hrun, hreceived, hexpected, fun hl => ?_⟩
  have hzero := hrun.tally_eq_zero_iff.2 ((hlossless.1 hl).mono fun _ _ hg => (roomy_iff.1 hg).1)
  rw [hpushed] at hzero
  exact absurd hzero (by decide)

end Console

end Ch32fun
