import Ch32fun.Console.Stmts

/-!
# Console bytes and the race with the poll

While `handle_input` works through `usb_inputbuffer`, the interrupt may append to the buffer, or
shift it to make room; afterwards the poll resets the index.  No byte is ever processed twice or
out of order, but bytes get lost that were not pushed out by newer ones: those that arrive during
the pass and are cleared with the rest, and those that a shift moves over the position of the pass.

* `Raced.pending` : the bytes of the buffer that the pass has not dealt with.
* `unprocessed` : what should wait, as a queue of at most 64 bytes that drops the oldest ones.
* `Kept` : the two agree.
* `Meets` : the condition on the steps.
* `race_kept_iff` : what is processed is always a subsequence of what was received; the bytes that
  are not processed were pushed out, in all states of a run, exactly when its steps meet the
  condition.
-/

namespace Ch32fun

/-- The number of bytes that the pass has dealt with. -/
def Pc.done : Pc → ℕ
  | .main | .call => 0
  | .test _ i | .next _ i | .compare _ i _ | .full _ i _ | .store _ i _ => i
  | .interrupt _ i | .advance _ i _ => i + 1
  | .clear numbytes => numbytes

/-- The local variables fit the index of the buffer. -/
def Pc.Inside (idx : ℕ) : Pc → Prop
  | .main | .call => True
  | .test numbytes i => i ≤ numbytes ∧ numbytes ≤ idx
  | .next numbytes i | .compare numbytes i _ | .interrupt numbytes i | .full numbytes i _
  | .store numbytes i _ | .advance numbytes i _ => i < numbytes ∧ numbytes ≤ idx
  | .clear numbytes => numbytes ≤ idx

/-- `handle_input` was called for all the bytes of the buffer. -/
def Pc.Current (idx : ℕ) : Pc → Prop
  | .main | .call => True
  | .test numbytes _ | .next numbytes _ | .compare numbytes _ _ | .interrupt numbytes _
  | .full numbytes _ _ | .store numbytes _ _ | .advance numbytes _ _ | .clear numbytes =>
    idx = numbytes

/-- One event, as seen by a queue of at most 64 bytes that drops the oldest ones; `none` when
another byte than the oldest one is processed. -/
def queueStep : Option (List UInt8) → ConsoleEvent → Option (List UInt8)
  | some q, .received data => some ((q ++ data).rtake usbfsPacketSize)
  | some (b :: q), .processed b' _ => if b' = b then some q else none
  | some [], .processed _ _ => none
  | q, _ => q

/-- The bytes that should wait to be processed. -/
def unprocessed (log : List ConsoleEvent) : Option (List UInt8) := log.foldl queueStep (some [])

namespace Raced

open Machine

variable {s s' : Raced} {a : RacedInput} {as : List RacedInput} {o log : List ConsoleEvent}

/-- The bytes of the buffer that the pass has not dealt with. -/
def pending (s : Raced) : List UInt8 := s.console.buffered.drop s.pc.done

/-- The local variables fit the buffer. -/
def Inside (s : Raced) : Prop := s.pc.Inside s.console.usbInbufIdx

/-- The bytes that wait are those that should. -/
def Kept (s : Raced) (log : List ConsoleEvent) : Prop := unprocessed log = some s.pending

/-- The bytes processed are some of those that were there, in order, and the others that were
received wait. -/
def Ordered (s : Raced) (log : List ConsoleEvent) : Prop :=
  ∃ pre, List.Sublist ((processedBytes log).map Prod.fst) pre ∧
    pre ++ s.pending = receivedBytes log

/-- The condition on a step: the index is reset only when it is still the number of bytes passed to
`handle_input`, and a packet for which there is no room does not arrive after the pass has dealt
with a byte. -/
def Meets (s : Raced) (a : RacedInput) : Prop :=
  (∀ n, a = .stmt → s.pc = .clear n → s.console.usbInbufIdx = n) ∧
    ∀ p, a = .cdcOut p →
      s.pc.done = 0 ∨ s.console.usbInbufIdx + p.data.length ≤ usbfsPacketSize

/-! ### What a step can do -/

theorem Inside.done_le (h : s.Inside) : s.pc.done ≤ s.console.usbInbufIdx := by
  obtain ⟨c, pc⟩ := s
  unfold Inside at h
  cases pc <;> simp only [Pc.Inside, Pc.done] at h ⊢ <;> omega

theorem drop_buffered (c : Console) {i : ℕ} (h : i < c.usbInbufIdx) :
    c.buffered.drop i = c.usbInputbuffer.get i :: c.buffered.drop (i + 1) := by
  rw [List.drop_eq_getElem_cons (by simpa using h)]
  simp [Console.buffered]

/-- An event that is neither a packet nor a byte that is processed. -/
def Silent (o : List ConsoleEvent) : Prop :=
  o = [] ∨ o = [.keyboardInterrupt] ∨ ∃ ch, o = [.returned ch]

/-- **What a statement can do** to the bytes that wait: nothing; or the first one is processed; or
the index is reset. -/
theorem stmt_cases (h : s.Inside) :
    (¬ (∃ n, s.pc = .clear n) ∧ (stmtStep s.console s.pc).1.pending = s.pending ∧
      Silent (stmtStep s.console s.pc).2) ∨
    (¬ (∃ n, s.pc = .clear n) ∧ ∃ b ch, (stmtStep s.console s.pc).2 = [.processed b ch] ∧
      s.pending = b :: (stmtStep s.console s.pc).1.pending) ∨
    ∃ n, s.pc = .clear n ∧ (stmtStep s.console s.pc).2 = [] ∧
      (stmtStep s.console s.pc).1.pending = [] := by
  obtain ⟨c, pc⟩ := s
  cases pc with
  | main =>
    refine .inl ⟨nofun, ?_, .inl rfl⟩
    unfold stmtStep
    dsimp only
    split_ifs <;> rfl
  | call => exact .inl ⟨nofun, rfl, .inl rfl⟩
  | test n i =>
    -- the loop is left only when all bytes it was called for are dealt with
    refine .inl ⟨nofun, ?_, .inl rfl⟩
    obtain ⟨hle, -⟩ := h
    unfold stmtStep
    dsimp only
    split_ifs with hlt
    · rfl
    · obtain rfl : i = n := le_antisymm hle (not_lt.1 hlt)
      rfl
  | next n i => exact .inl ⟨nofun, rfl, .inl rfl⟩
  | compare n i next =>
    have hbyte := drop_buffered c (h.1.trans_le h.2)
    unfold stmtStep
    dsimp only
    split_ifs
    · exact .inr (.inl ⟨nofun, _, _, rfl, hbyte⟩)
    · exact .inl ⟨nofun, rfl, .inl rfl⟩
  | interrupt n i => exact .inl ⟨nofun, rfl, .inr (.inl rfl)⟩
  | full n i next =>
    -- a full ring drops the byte, which counts as processed
    have hbyte := drop_buffered c (h.1.trans_le h.2)
    unfold stmtStep
    dsimp only
    split_ifs
    · exact .inl ⟨nofun, rfl, .inl rfl⟩
    · exact .inr (.inl ⟨nofun, _, _, rfl, hbyte⟩)
  | store n i next =>
    exact .inr (.inl ⟨nofun, _, _, rfl, drop_buffered c (h.1.trans_le h.2)⟩)
  | advance n i next => exact .inl ⟨nofun, rfl, .inl rfl⟩
  | clear n => exact .inr (.inr ⟨n, rfl, rfl, rfl⟩)

theorem Inside.mono {pc : Pc} {idx idx' : ℕ} (h : pc.Inside idx) (hle : idx ≤ idx') :
    pc.Inside idx' := by
  cases pc <;> simp only [Pc.Inside] at h ⊢ <;> omega

theorem Inside.stmt (h : s.Inside) : (stmtStep s.console s.pc).1.Inside := by
  obtain ⟨c, pc⟩ := s
  cases pc with
  | main =>
    unfold stmtStep
    dsimp only
    split_ifs <;> trivial
  | call => exact ⟨Nat.zero_le _, le_rfl⟩
  | test n i =>
    obtain ⟨hle, hidx⟩ := h
    unfold stmtStep
    dsimp only
    split_ifs with hlt
    · exact ⟨hlt, hidx⟩
    · exact hidx
  | next n i => exact h
  | compare n i next =>
    unfold stmtStep
    dsimp only
    split_ifs <;> exact h
  | interrupt n i => exact h
  | full n i next =>
    unfold stmtStep
    dsimp only
    split_ifs <;> exact h
  | store n i next => exact h
  | advance n i next => exact h
  | clear n => trivial

theorem call_cases (hst : racedMachine.step s a = some (s', o))
    (ha : a = .takeChar ∨ ∃ ch, a = .setInterruptChar ch) :
    s.pc = .main ∧ s'.pc = .main ∧ s'.console.buffered = s.console.buffered ∧ Silent o := by
  obtain ⟨c, pc⟩ := s
  obtain rfl | ⟨ch, rfl⟩ := ha
  · cases pc <;> simp only [racedMachine, reduceCtorEq] at hst
    cases hst
    obtain ⟨-, he⟩ | ⟨-, he⟩ := c.takeChar_cases
    · rw [he]
      exact ⟨rfl, rfl, rfl, .inl rfl⟩
    · rw [he]
      exact ⟨rfl, rfl, rfl, .inr (.inr ⟨_, rfl⟩)⟩
  · cases pc <;> simp only [racedMachine, reduceCtorEq] at hst
    cases hst
    exact ⟨rfl, rfl, rfl, .inl rfl⟩

theorem pending_call (hst : racedMachine.step s a = some (s', o))
    (ha : a = .takeChar ∨ ∃ ch, a = .setInterruptChar ch) :
    s'.pending = s.pending ∧ Silent o := by
  obtain ⟨hpc, hpc', hbuffered, hsilent⟩ := call_cases hst ha
  rw [pending, pending, hpc, hpc', hbuffered]
  exact ⟨rfl, hsilent⟩

theorem step_cases (h : s.Inside) (hst : racedMachine.step s a = some (s', o)) :
    (∃ p, a = .cdcOut p ∧ s' = ⟨s.console.handleCdcOut p, s.pc⟩ ∧ o = [.received p.data]) ∨
    (Meets s a ∧ s'.pending = s.pending ∧ Silent o) ∨
    (Meets s a ∧ ∃ b ch, o = [.processed b ch] ∧ s.pending = b :: s'.pending) ∨
    ∃ n, a = .stmt ∧ s.pc = .clear n ∧ o = [] ∧ s'.pending = [] := by
  cases a with
  | cdcOut p =>
    cases hst
    exact .inl ⟨p, rfl, rfl, rfl⟩
  | stmt =>
    have hst : stmtStep s.console s.pc = (s', o) := Option.some.inj hst
    have hmeets : ¬ (∃ n, s.pc = .clear n) → Meets s .stmt := fun hno =>
      ⟨fun n _ hpc => absurd ⟨n, hpc⟩ hno, nofun⟩
    have hcases := stmt_cases h
    rw [hst] at hcases
    obtain ⟨hno, hpending, hsilent⟩ | ⟨hno, hbyte⟩ | ⟨n, hpc, ho, hpending⟩ := hcases
    · exact .inr (.inl ⟨hmeets hno, hpending, hsilent⟩)
    · exact .inr (.inr (.inl ⟨hmeets hno, hbyte⟩))
    · exact .inr (.inr (.inr ⟨n, rfl, hpc, ho, hpending⟩))
  | takeChar => exact .inr (.inl ⟨⟨nofun, nofun⟩, pending_call hst (.inl rfl)⟩)
  | setInterruptChar ch => exact .inr (.inl ⟨⟨nofun, nofun⟩, pending_call hst (.inr ⟨ch, rfl⟩)⟩)

theorem Inside.step (h : s.Inside) (hst : racedMachine.step s a = some (s', o)) : s'.Inside := by
  cases a with
  | cdcOut p =>
    cases hst
    have hidx := s.console.handleCdcOut_idx p
    have hle := s.console.idx_le
    exact Inside.mono h (show _ ≤ (s.console.handleCdcOut p).usbInbufIdx by omega)
  | stmt =>
    have hst : stmtStep s.console s.pc = (s', o) := Option.some.inj hst
    have := h.stmt
    rwa [hst] at this
  | takeChar | setInterruptChar =>
    rw [Raced.Inside, (call_cases hst (by simp)).2.1]
    trivial

/-- A packet is appended, and the oldest bytes of the buffer are dropped, dealt with or not. -/
theorem pending_cdcOut (h : s.Inside) (p : CdcPacket) :
    pending ⟨s.console.handleCdcOut p, s.pc⟩ = (s.pending ++ p.data).drop
      (s.console.usbInbufIdx + p.data.length - usbfsPacketSize) := by
  have hdone := h.done_le
  rw [pending, Console.buffered_handleCdcOut, List.rtake, List.length_append,
    Console.length_buffered, List.drop_drop, Nat.add_comm, ← List.drop_drop,
    List.drop_append_of_le_length (by simpa using hdone), pending]

/-! ### Runs -/

theorem Silent.bytes (h : Silent o) : processedBytes o = [] ∧ receivedBytes o = [] := by
  obtain rfl | rfl | ⟨ch, rfl⟩ := h <;> exact ⟨rfl, rfl⟩

theorem Silent.queue (h : Silent o) (q : Option (List UInt8)) : o.foldl queueStep q = q := by
  obtain rfl | rfl | ⟨ch, rfl⟩ := h <;> rcases q with _ | _ | _ <;> rfl

theorem unprocessed_append (l l' : List ConsoleEvent) :
    unprocessed (l ++ l') = l'.foldl queueStep (unprocessed l) := List.foldl_append

theorem Ordered.step (h : s.Ordered log) (hin : s.Inside)
    (hst : racedMachine.step s a = some (s', o)) : s'.Ordered (log ++ o) := by
  obtain ⟨pre, hsub, hpre⟩ := h
  obtain ⟨p, rfl, rfl, rfl⟩ | ⟨-, hpending, hsilent⟩ | ⟨-, b, ch, rfl, hpending⟩ |
    ⟨n, -, -, rfl, hpending⟩ := step_cases hin hst
  · -- the dropped bytes join those that are not waiting any more
    refine ⟨pre ++ (s.pending ++ p.data).take
      (s.console.usbInbufIdx + p.data.length - usbfsPacketSize), ?_, ?_⟩
    · rw [processedBytes_append]
      simpa [processedBytes] using hsub.trans (List.sublist_append_left _ _)
    · rw [pending_cdcOut hin, List.append_assoc, List.take_append_drop, receivedBytes_append,
        ← hpre]
      simp [receivedBytes]
  · obtain ⟨hproc, hrec⟩ := hsilent.bytes
    refine ⟨pre, ?_, ?_⟩
    · rwa [processedBytes_append, hproc, List.append_nil]
    · rw [hpending, receivedBytes_append, hrec, List.append_nil, hpre]
  · refine ⟨pre ++ [b], ?_, ?_⟩
    · rw [processedBytes_append, List.map_append]
      exact hsub.append (List.Sublist.refl _)
    · rw [hpending] at hpre
      rw [receivedBytes_append, ← hpre]
      simp [receivedBytes]
  · refine ⟨pre ++ s.pending, ?_, ?_⟩
    · rw [List.append_nil]
      exact hsub.trans (List.sublist_append_left _ _)
    · rw [hpending, List.append_nil, List.append_nil, hpre]

/-- **A step keeps the bytes that should wait exactly when it meets the condition.** -/
theorem kept_step_iff (h : s.Kept log) (hin : s.Inside)
    (hst : racedMachine.step s a = some (s', o)) : s'.Kept (log ++ o) ↔ Meets s a := by
  have hdone := hin.done_le
  have hlen : s.pending.length = s.console.usbInbufIdx - s.pc.done := by simp [pending]
  unfold Kept at h ⊢
  rw [unprocessed_append, h]
  obtain ⟨p, rfl, rfl, rfl⟩ | ⟨hmeets, hpending, hsilent⟩ | ⟨hmeets, b, ch, rfl, hpending⟩ |
    ⟨n, rfl, hpc, rfl, hpending⟩ := step_cases hin hst
  · -- both drop bytes from the beginning, as many if the condition is met
    have hqueue : [ConsoleEvent.received p.data].foldl queueStep (some s.pending) =
        some ((s.pending ++ p.data).drop (s.pending.length + p.data.length - usbfsPacketSize)) := by
      rw [List.foldl_cons, List.foldl_nil, queueStep, List.rtake, List.length_append]
    have hp := p.length_le
    have hmax := s.console.idx_le
    rw [hqueue, pending_cdcOut hin, Option.some_inj]
    constructor
    · intro he
      have hlens := congrArg List.length he
      rw [List.length_drop, List.length_drop, List.length_append] at hlens
      refine ⟨nofun, fun p' hp' => ?_⟩
      cases hp'
      omega
    · rintro ⟨-, hroom⟩
      have hroom := hroom p rfl
      congr 1
      omega
  · rw [hsilent.queue, hpending]
    exact iff_of_true rfl hmeets
  · rw [hpending]
    exact iff_of_true (if_pos rfl) hmeets
  · -- the reset: nothing must be waiting
    have hn : s.pc.done = n := by rw [hpc]; rfl
    rw [hpending, List.foldl_nil, Option.some_inj, ← List.length_eq_zero_iff]
    constructor
    · intro hzero
      refine ⟨fun m _ hm => ?_, nofun⟩
      cases hpc.symm.trans hm
      omega
    · rintro ⟨hreset, -⟩
      have := hreset n rfl hpc
      omega

theorem inside_of_run {G : Raced → RacedInput → Prop} (h : racedMachine.Run G racedInit as log s) :
    s.Inside :=
  h.invariant_state Inside trivial fun _ _ _ _ hi _ hst => hi.step hst

theorem ordered_of_run (h : racedMachine.Run Free racedInit as log s) : s.Ordered log := by
  have h₀ : racedInit.Inside ∧ racedInit.Ordered [] := ⟨trivial, [], .refl _, rfl⟩
  have hinv := h.invariant (fun s log => s.Inside ∧ s.Ordered log) [] h₀
    fun _ _ _ _ _ ⟨hin, hord⟩ _ hst => ⟨hin.step hst, hord.step hin hst⟩
  simpa using hinv.2

theorem kept_of_run (h : racedMachine.Run Meets racedInit as log s) : s.Kept log := by
  have h₀ : racedInit.Inside ∧ racedInit.Kept [] := ⟨trivial, rfl⟩
  have hinv := h.invariant (fun s log => s.Inside ∧ s.Kept log) [] h₀
    fun _ _ _ _ _ ⟨hin, hkept⟩ hg hst => ⟨hin.step hst, (kept_step_iff hkept hin hst).2 hg⟩
  simpa using hinv.2

/-- **The race of the poll with the interrupt.**  In every run, the bytes processed are a
subsequence of the bytes received.  In all states of the run the bytes that wait are those that a
queue of 64 bytes which drops its oldest ones would hold, exactly when all steps of the run meet the
condition. -/
theorem race_kept_iff (h : racedMachine.Run Free racedInit as log s) :
    List.Sublist ((processedBytes log).map Prod.fst) (receivedBytes log) ∧
      ((∀ as₁ log₁ t, as₁ <+: as → racedMachine.Run Free racedInit as₁ log₁ t → t.Kept log₁) ↔
        racedMachine.Run Meets racedInit as log s) := by
  obtain ⟨pre, hsub, hpre⟩ := ordered_of_run h
  refine ⟨hpre ▸ hsub.trans (List.sublist_append_left _ _), fun hall => ?_, fun hm => ?_⟩
  · rcases h.guarded_or (G := Meets) with hm | ⟨as₁, a, as₂, log₁, o, t, t', rfl, hr, hbad, hst⟩
    · exact hm
    · -- the first step that does not meet the condition leads to a state that loses a byte
      have hkept := hall as₁ log₁ t (List.prefix_append _ _) hr.free
      have hkept' := hall (as₁ ++ [a]) (log₁ ++ o) t' ⟨as₂, by simp⟩ (hr.free.snoc trivial hst)
      exact absurd ((kept_step_iff hkept (inside_of_run hr) hst).1 hkept') hbad
  · rintro as₁ log₁ t ⟨as₂, rfl⟩ hr
    obtain ⟨t', log', log'', hm, -, -⟩ := run_append.1 hm
    obtain ⟨rfl, rfl⟩ := hm.det hr
    exact kept_of_run hm

/-! ### Passes that are not interrupted -/

theorem current_stmt (h : s.pc.Current s.console.usbInbufIdx) :
    (stmtStep s.console s.pc).1.pc.Current (stmtStep s.console s.pc).1.console.usbInbufIdx := by
  obtain ⟨c, pc⟩ := s
  cases pc with
  | main =>
    unfold stmtStep
    dsimp only
    split_ifs <;> trivial
  | call => rfl
  | test n i | compare n i next | full n i next =>
    unfold stmtStep
    dsimp only
    split_ifs <;> exact h
  | next n i | interrupt n i | store n i next | advance n i next => exact h
  | clear n => trivial

theorem meets_stmt (h : s.pc.Current s.console.usbInbufIdx) : Meets s .stmt :=
  ⟨fun n _ hpc => by rw [hpc] at h; exact h, nofun⟩

/-- While no packet arrives, the rest of a pass over the whole buffer meets the condition. -/
theorem meets_stmts {k : ℕ} (h : s.pc.Current s.console.usbInbufIdx)
    (hr : racedMachine.Run Free s (List.replicate k .stmt) log s') :
    racedMachine.Run Meets s (List.replicate k .stmt) log s' := by
  induction k generalizing s log with
  | zero => cases hr; exact .nil _
  | succ k ih =>
    rw [List.replicate_succ] at hr ⊢
    obtain _ | ⟨-, hst, hr⟩ := hr
    have hnext := current_stmt h
    rw [Option.some.inj hst] at hnext
    exact .cons (meets_stmt h) hst (ih hnext hr)

/-- The byte `b` as a packet. -/
def onePacket (b : UInt8) : CdcPacket := ⟨[b], by simp⟩

/-- A second packet arrives before the poll has called `handle_input`; both are processed before the
reset. -/
theorem race_kept_to_reset : ∃ as log s, racedMachine.Run Free racedInit as log s ∧ s.pc = .main ∧
    receivedBytes log = [97, 98] ∧ (processedBytes log).map Prod.fst = [97, 98] ∧
    s.console.usbInbufIdx = 0 ∧ s.Kept log := by
  let c₁ := consoleInit.handleCdcOut (onePacket 97)
  let c₂ := c₁.handleCdcOut (onePacket 98)
  have hpoll : racedMachine.step ⟨c₁, .main⟩ .stmt = some (⟨c₁, .call⟩, []) := rfl
  -- the call, two turns of the loop, and the reset
  have hpass : (racedMachine.perform ⟨c₂, .call⟩ (List.replicate 15 .stmt)).map
      (fun x => ((processedBytes x.2).map Prod.fst, receivedBytes x.2, x.1.console.usbInbufIdx)) =
        some ([97, 98], [], 0) := by
    decide +kernel
  have hmain : (racedMachine.perform ⟨c₂, .call⟩ (List.replicate 15 .stmt)).map
      (fun x => x.1.pc) = some .main := rfl
  obtain ⟨⟨s, log⟩, hp, he⟩ := Option.map_eq_some_iff.1 hpass
  rw [hp] at hmain
  obtain ⟨hproc, hrec, hidx⟩ : (processedBytes log).map Prod.fst = [97, 98] ∧
    receivedBytes log = [] ∧ s.console.usbInbufIdx = 0 := by simpa using he
  have hr : racedMachine.Run Meets racedInit
      ([.cdcOut (onePacket 97), .stmt, .cdcOut (onePacket 98)] ++ List.replicate 15 .stmt) _ s :=
    .cons ⟨nofun, fun _ _ => .inl rfl⟩ rfl (.cons ⟨nofun, nofun⟩ hpoll
      (.cons ⟨nofun, fun _ _ => .inl rfl⟩ rfl (meets_stmts trivial (run_of_perform _ hp))))
  refine ⟨_, _, s, hr.free, Option.some.inj hmain, ?_, ?_, hidx,
    (race_kept_iff hr.free).2.2 hr _ _ _ (List.prefix_refl _) hr.free⟩
  · exact congrArg ([97, 98] ++ ·) hrec
  · exact hproc

/-- **A byte is lost.**  The poll has called `handle_input` for one byte when another one arrives;
the reset drops it, although the buffer never held more than two bytes. -/
theorem race_loses_byte : ∃ as log s, racedMachine.Run Free racedInit as log s ∧ s.pending = [] ∧
    receivedBytes log = [97, 98] ∧ (processedBytes log).map Prod.fst = [97] ∧
    unprocessed log = some [98] := by
  let as : List RacedInput := [.cdcOut (onePacket 97), .stmt, .stmt, .cdcOut (onePacket 98)] ++
    List.replicate 8 .stmt
  have hrun : (racedMachine.perform racedInit as).map
      (fun x => (x.1.pending, receivedBytes x.2, (processedBytes x.2).map Prod.fst,
        unprocessed x.2)) = some ([], [97, 98], [97], some [98]) := by
    decide +kernel
  obtain ⟨⟨s, log⟩, hp, he⟩ := Option.map_eq_some_iff.1 hrun
  exact ⟨as, log, s, run_of_perform _ hp, by simpa using he⟩

end Raced

end Ch32fun
