import Ch32fun.Console.Basic

/-!
# An idle console

When packets arrive only while both buffers are empty, nothing is pushed out of `usb_inputbuffer`.
The ring keeps one slot free, so that it holds 63 bytes and a packet may have 64.

* `Idle` : a packet arrives only when both buffers are empty.
* `Lossless` : what was received is what was processed and what waits, and the characters returned
  and those that wait in the ring are the plain bytes that were processed.
* `idle_lossless_iff` : an idle run is lossless exactly when no poll finds 64 plain bytes.
-/

namespace Ch32fun

namespace Console

open Machine

variable {c c' : Console} {a : ConsoleInput} {as : List ConsoleInput} {o log : List ConsoleEvent}

/-- A packet arrives only when both buffers are empty. -/
def Idle (c : Console) (a : ConsoleInput) : Prop :=
  ∀ p, a = .cdcOut p → c.usbInbufIdx = 0 ∧ c.rxBuf.head = c.rxBuf.tail

/-- The step polls the console. -/
def Polls (a : ConsoleInput) : Prop := a = .background .polls ∨ a = .stdinRxChr .polls

/-- A poll finds at most 63 bytes that are neither `0x04` nor `mp_interrupt_char`. -/
def Fits (c : Console) (a : ConsoleInput) : Prop :=
  Polls a → (plain c.mpInterruptChar c.buffered).length ≤ rxBufSize - 1

/-- The characters for the bytes that were processed. -/
def expectedChars (log : List ConsoleEvent) : List UInt8 :=
  (processedBytes log).filterMap fun (b, ch) => if IsControl ch b then none else some (crlf b)

/-- Every byte received was processed or waits for the poll, and the characters returned and those
that wait in the ring are those of the bytes processed. -/
def Lossless (c : Console) (log : List ConsoleEvent) : Prop :=
  (processedBytes log).map Prod.fst ++ c.buffered = receivedBytes log ∧
    returnedChars log ++ c.rxBuf.stored.map crlf = expectedChars log

/-- Some character is lost for ever. -/
def Lossy (c : Console) (log : List ConsoleEvent) : Prop :=
  (returnedChars log).length + c.rxBuf.count < (expectedChars log).length

theorem Lossy.not_lossless (h : c.Lossy log) : ¬ c.Lossless log := fun hl => by
  have hlen := congrArg List.length hl.2
  rw [List.length_append, List.length_map, Ring.length_stored] at hlen
  exact absurd hlen h.ne

/-! ### The operations -/

@[simp] theorem expectedChars_append (l l' : List ConsoleEvent) :
    expectedChars (l ++ l') = expectedChars l ++ expectedChars l' := by
  simp [expectedChars]

theorem expectedChars_poll (c : Console) : expectedChars c.pollUsbInput.2 =
    (plain c.mpInterruptChar c.buffered).map crlf := by
  rw [expectedChars, (c.pollUsbInput_snd).2.1, List.filterMap_map, plain, ← List.filterMap_eq_map,
    List.filterMap_filter]
  refine List.filterMap_congr fun b _ => ?_
  by_cases h : IsControl c.mpInterruptChar b <;> simp [h]

theorem lossy_poll_iff : c.pollUsbInput.1.Lossy (log ++ c.pollUsbInput.2) ↔
    (returnedChars log).length +
        min (c.rxBuf.count + (plain c.mpInterruptChar c.buffered).length) (rxBufSize - 1) <
      (expectedChars log).length + (plain c.mpInterruptChar c.buffered).length := by
  have hcount := c.rxBuf.count_pushAll (plain c.mpInterruptChar c.buffered)
  rw [Lossy, pollUsbInput_fst, returnedChars_append, expectedChars_append, expectedChars_poll,
    (c.pollUsbInput_snd).2.2, List.append_nil, List.length_append, List.length_map]
  dsimp only
  rw [hcount]

theorem Lossy.poll (h : c.Lossy log) : c.pollUsbInput.1.Lossy (log ++ c.pollUsbInput.2) := by
  unfold Lossy at h
  rw [lossy_poll_iff]
  omega

theorem Lossy.takeChar (h : c.Lossy log) : c.takeChar.1.Lossy (log ++ c.takeChar.2) := by
  obtain ⟨-, he⟩ | ⟨hne, he⟩ := c.takeChar_cases
  · rw [he]
    simpa using h
  · rw [he]
    have hcount := c.rxBuf.count_advance hne
    unfold Lossy at h ⊢
    rw [returnedChars_append, expectedChars_append, List.length_append, List.length_append]
    change _ + 1 + c.rxBuf.advance.count < _ + 0
    omega

/-- Nothing is lost so far, and while bytes wait for the poll the ring is empty. -/
def Quiet (c : Console) (log : List ConsoleEvent) : Prop :=
  c.Lossless log ∧ (c.usbInbufIdx ≠ 0 → c.rxBuf.count = 0)

theorem Quiet.cdcOut {p : CdcPacket} (h : c.Quiet log) (hidle : Idle c (.cdcOut p)) :
    (c.handleCdcOut p).Quiet (log ++ [.received p.data]) := by
  obtain ⟨⟨hprocessed, hreturned⟩, -⟩ := h
  obtain ⟨hidx, hempty⟩ := hidle p rfl
  have hnone : c.buffered = [] := by rw [buffered, hidx]; rfl
  have hall : p.data.rtake usbfsPacketSize = p.data := by
    rw [List.rtake, Nat.sub_eq_zero_of_le p.length_le, List.drop_zero]
  rw [hnone, List.append_nil] at hprocessed
  refine ⟨⟨?_, ?_⟩, fun _ => by simp [c.rxBuf.count_eq_zero_iff, hempty]⟩
  · rw [buffered_handleCdcOut, hnone, List.nil_append, hall, processedBytes_append,
      receivedBytes_append, ← hprocessed]
    simp [processedBytes, receivedBytes]
  · rw [handleCdcOut_rxBuf]
    simpa [returnedChars, expectedChars, processedBytes] using hreturned

/-- While bytes wait, the ring has room for 63 of them. -/
theorem Quiet.poll (h : c.Quiet log)
    (hfit : (plain c.mpInterruptChar c.buffered).length ≤ rxBufSize - 1) :
    c.pollUsbInput.1.Quiet (log ++ c.pollUsbInput.2) := by
  obtain ⟨⟨hprocessed, hreturned⟩, hempty⟩ := h
  obtain ⟨hrec, hproc, hret⟩ := c.pollUsbInput_snd
  -- either nothing waits for the poll, or the ring is empty
  have hroom : c.rxBuf.count + (plain c.mpInterruptChar c.buffered).length ≤ rxBufSize - 1 := by
    by_cases hidx : c.usbInbufIdx = 0
    · have hlt := c.rxBuf.count_lt
      rw [buffered, hidx]
      exact Nat.le_sub_one_of_lt hlt
    · rwa [hempty hidx, Nat.zero_add]
  refine ⟨⟨?_, ?_⟩, fun hidx => absurd (by rw [pollUsbInput_fst]) hidx⟩
  · rw [receivedBytes_append, processedBytes_append, hrec, hproc, ← hprocessed, pollUsbInput_fst]
    simp [buffered]
  · rw [returnedChars_append, expectedChars_append, hret, expectedChars_poll, ← hreturned,
      pollUsbInput_fst]
    dsimp only
    rw [Ring.stored_pushAll_of_le _ _ hroom]
    simp

theorem Quiet.lossy_poll (h : c.Quiet log)
    (hbad : ¬ (plain c.mpInterruptChar c.buffered).length ≤ rxBufSize - 1) :
    c.pollUsbInput.1.Lossy (log ++ c.pollUsbInput.2) := by
  obtain ⟨⟨-, hreturned⟩, -⟩ := h
  have hlen := congrArg List.length hreturned
  rw [List.length_append, List.length_map, Ring.length_stored] at hlen
  rw [lossy_poll_iff]
  omega

theorem Quiet.takeChar (h : c.Quiet log) : c.takeChar.1.Quiet (log ++ c.takeChar.2) := by
  obtain ⟨-, he⟩ | ⟨hne, he⟩ := c.takeChar_cases
  · rw [he]
    simpa using h
  · obtain ⟨⟨hprocessed, hreturned⟩, hempty⟩ := h
    have hcount := c.rxBuf.count_advance hne
    rw [he]
    refine ⟨⟨?_, ?_⟩, fun hidx => ?_⟩
    · rw [processedBytes_append, receivedBytes_append, ← hprocessed]
      simp [processedBytes, receivedBytes, buffered]
    · rw [c.rxBuf.stored_eq_cons hne] at hreturned
      simpa [returnedChars, expectedChars, processedBytes] using hreturned
    · have := hempty hidx
      omega

/-! ### Runs -/

/-- **The rule for steps of the console.**  A property of the console and of the log survives a
step when the interrupt and the poll keep it, as far as the step has them, and taking a character
always does. -/
theorem step_keeps {P : Console → List ConsoleEvent → Prop}
    (hst : consoleMachine.step c a = some (c', o))
    (hcdc : ∀ p, a = .cdcOut p → P (c.handleCdcOut p) (log ++ [.received p.data]))
    (hpoll : Polls a → P c.pollUsbInput.1 (log ++ c.pollUsbInput.2))
    (hset : ¬ Polls a → ∀ ch, P (c.setInterruptChar ch) log)
    (htake : ∀ c log, P c log → P c.takeChar.1 (log ++ c.takeChar.2)) : P c' (log ++ o) := by
  cases a with
  | cdcOut p =>
    cases hst
    exact hcdc p rfl
  | background b =>
    cases b with
    | idle | raises =>
      cases hst
      rw [List.append_nil]
      exact hset (by simp [Polls]) c.mpInterruptChar
    | polls =>
      have he : c.pollUsbInput = (c', o) := Option.some.inj hst
      have hp := hpoll (.inl rfl)
      rwa [he] at hp
  | stdinRxChr b =>
    cases b with
    | raises =>
      cases hst
      rw [List.append_nil]
      exact hset (by simp [Polls]) c.mpInterruptChar
    | idle =>
      have he : c.takeChar = (c', o) := Option.some.inj hst
      have ht := htake _ _ (hset (by simp [Polls]) c.mpInterruptChar)
      change P c.takeChar.1 (log ++ c.takeChar.2) at ht
      rwa [he] at ht
    | polls =>
      -- first the poll, then the test for a character
      cases hst
      have ht := htake _ _ (hpoll (.inr rfl))
      rwa [List.append_assoc] at ht
  | setInterruptChar ch =>
    cases hst
    rw [List.append_nil]
    exact hset (by simp [Polls]) ch

theorem Quiet.step (h : c.Quiet log) (hg : Idle c a ∧ Fits c a)
    (hst : consoleMachine.step c a = some (c', o)) : c'.Quiet (log ++ o) := by
  refine step_keeps hst ?_ ?_ ?_ ?_
  · rintro p rfl
    exact h.cdcOut hg.1
  · intro hpolls
    exact h.poll (hg.2 hpolls)
  · intro _ ch
    exact h
  · intro c log hq
    exact hq.takeChar

theorem Lossy.step (h : c.Lossy log) (hst : consoleMachine.step c a = some (c', o)) :
    c'.Lossy (log ++ o) := by
  refine step_keeps hst ?_ ?_ ?_ ?_
  · intro p _
    unfold Lossy at h ⊢
    rw [handleCdcOut_rxBuf]
    simpa [returnedChars, expectedChars, processedBytes] using h
  · intro _
    exact h.poll
  · intro _ ch
    exact h
  · intro c log hl
    exact hl.takeChar

theorem Quiet.lossy_step (h : c.Quiet log) (hbad : ¬ Fits c a)
    (hst : consoleMachine.step c a = some (c', o)) : c'.Lossy (log ++ o) := by
  obtain ⟨hpolls, hlong⟩ := Classical.not_imp.1 hbad
  refine step_keeps hst ?_ ?_ ?_ ?_
  · rintro p rfl
    simp [Polls] at hpolls
  · intro _
    exact h.lossy_poll hlong
  · intro hnot ch
    exact absurd hpolls hnot
  · intro c log hl
    exact hl.takeChar

/-- **What an idle console loses.**  In a run in which packets arrive only while both buffers are
empty, all bytes received are processed, and the characters returned are those of all plain bytes,
exactly when no poll finds more than 63 plain bytes. -/
theorem idle_lossless_iff (h : consoleMachine.Run Idle consoleInit as log c) :
    c.Lossless log ↔ consoleMachine.Run Fits consoleInit as log c := by
  have h₀ : consoleInit.Quiet [] := ⟨⟨rfl, rfl⟩, fun hidx => absurd rfl hidx⟩
  constructor
  · intro hl
    rcases h.free.guarded_or (G := Fits) with hf |
      ⟨as₁, a, as₂, os₁, o, t, t', rfl, hr, hbad, hst⟩
    · exact hf
    · -- what the first step that does not fit loses stays lost
      obtain ⟨t₁, o₁, o₂, h₁, h₂, rfl⟩ := run_append.1 h
      obtain ⟨rfl, rfl⟩ := hr.det h₁
      obtain ⟨t₂, o₃, o₄, hidle, hst', h₃, rfl⟩ := Run.cons_iff.1 h₂
      have hq : t.Quiet os₁ := by
        simpa using (h₁.and hr).invariant Quiet [] h₀ fun _ _ _ _ _ hi hg hst => hi.step hg hst
      have hlossy := h₃.invariant Lossy _ (hq.lossy_step hbad hst')
        fun _ _ _ _ _ hi _ hst => hi.step hst
      rw [List.append_assoc] at hlossy
      exact absurd hl hlossy.not_lossless
  · intro hf
    have hq : c.Quiet log := by
      simpa using (h.and hf).invariant Quiet [] h₀ fun _ _ _ _ _ hi hg hst => hi.step hg hst
    exact hq.1

/-- A packet with a newline and a `0x04`. -/
def shortPacket : CdcPacket := ⟨[97, 10, 4], by decide⟩

/-- A short packet gets through. -/
theorem idle_lossless_short : ∃ log c, consoleMachine.Run Idle consoleInit
    [.cdcOut shortPacket, .stdinRxChr .polls, .stdinRxChr .idle] log c ∧ c.Lossless log := by
  obtain ⟨⟨c₂, o₂⟩, h₂⟩ : ∃ x, consoleMachine.step (consoleInit.handleCdcOut shortPacket)
    (.stdinRxChr .polls) = some x := ⟨_, rfl⟩
  obtain ⟨⟨c₃, o₃⟩, h₃⟩ : ∃ x, consoleMachine.step c₂ (.stdinRxChr .idle) = some x := ⟨_, rfl⟩
  have h₁ : consoleMachine.step consoleInit (.cdcOut shortPacket) =
      some (consoleInit.handleCdcOut shortPacket, [.received shortPacket.data]) := rfl
  have hempty : Idle consoleInit (.cdcOut shortPacket) := fun _ _ => ⟨rfl, rfl⟩
  have hi : consoleMachine.Run Idle consoleInit _ _ c₃ :=
    .cons hempty h₁ (.cons (by simp [Idle]) h₂ (.single (by simp [Idle]) h₃))
  refine ⟨_, _, hi, (idle_lossless_iff hi).2 (.cons ?_ h₁ (.cons ?_ h₂ (.single ?_ h₃)))⟩
  · simp [Fits, Polls]
  · intro _
    decide +kernel
  · simp [Fits, Polls]

/-- A packet of 64 bytes `a`. -/
def longPacket : CdcPacket := ⟨List.replicate 64 97, by simp⟩

/-- **The 64th byte is lost.**  A packet of 64 bytes arrives while both buffers are empty; 63
characters are returned, and both buffers are empty again. -/
theorem idle_loses_char : ∃ as log c, consoleMachine.Run Idle consoleInit (.cdcOut longPacket :: as)
    log c ∧ c.usbInbufIdx = 0 ∧ c.rxBuf.count = 0 ∧
    receivedBytes log = List.replicate 64 97 ∧ returnedChars log = List.replicate 63 97 := by
  let as : List ConsoleInput := .stdinRxChr .polls :: List.replicate 62 (.stdinRxChr .idle)
  have hrun : (consoleMachine.perform consoleInit (.cdcOut longPacket :: as)).map
      (fun x => (x.1.usbInbufIdx, x.1.rxBuf.count, receivedBytes x.2, returnedChars x.2)) =
      some (0, 0, List.replicate 64 97, List.replicate 63 97) := by
    decide +kernel
  obtain ⟨⟨c, log⟩, hp, he⟩ := Option.map_eq_some_iff.1 hrun
  obtain ⟨hidx, hcount, hrec, hret⟩ : c.usbInbufIdx = 0 ∧ c.rxBuf.count = 0 ∧
      receivedBytes log = List.replicate 64 97 ∧ returnedChars log = List.replicate 63 97 := by
    simpa using he
  refine ⟨as, log, c, ?_, hidx, hcount, hrec, hret⟩
  obtain ⟨c₁, o₁, log₁, -, hst, hr, rfl⟩ := Run.cons_iff.1 (run_of_perform _ hp)
  refine .cons (fun _ _ => ⟨rfl, rfl⟩) hst (hr.of_inputs fun a ha => ?_)
  have ha : a = .stdinRxChr .polls ∨ a = .stdinRxChr .idle := by
    simpa [as] using ha
  rcases ha with rfl | rfl <;> simp [Idle]

end Console

end Ch32fun
