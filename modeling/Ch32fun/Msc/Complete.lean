import Ch32fun.Machine.Fair
import Ch32fun.Msc.Reply

/-!
# Every command completes, but for an empty write

Completion is a liveness property: it needs a host that does its part, which is a fair schedule.
`pending` counts what is left of an answer and whether a packet waits in the slot; while a command
is not waiting for data, some fairly attempted input makes it smaller, and no input makes it
larger (`exec_idle`).  The data-out phase is counted by the bytes the host has sent (`OutInv`).

A `WRITE(10)` of no blocks enters `MSC_DATA_OUT` with nothing to receive.  The test for zero is
made after a packet only, so that this command is never answered (`completes_iff`).

## Main definitions

* `pending`, `help` : the measure, and the input that decreases it.
* `HostPart c σ` : the schedule `σ` does what a host has to do for the command `c`.
* `Completes` : what such a schedule must lead to.
-/

namespace Ch32fun

namespace Msc

open Machine

variable {s s' s₁ : Msc} {a : Input} {o e₁ : List Event} {p : OutPacket} {σ : ℕ → Input} {n : ℕ}

/-! ### Answers are sent -/

/-- What is left to output, with the packet that waits in the slot. -/
def pending (s : Msc) : ℕ := 2 * (todo s).length + if s.epMscIn.isSome then 1 else 0

/-- The input that an unfinished answer waits for. -/
def help (s : Msc) : Input := if s.epMscIn.isSome then .take else .poll

theorem Prepare.pending_lt (h : s.Prepare o s') (hst : s.mscState = .dataIn)
    (ho : s.cbw.opcode.isDataIn = true) (he : s.epMscIn = none) : pending s' < pending s := by
  have ht := congrArg List.length (h.outputs_todo hst ho)
  have hout : 1 ≤ (outputs o).length := by
    cases h with
    | data _ => simp
    | status _ => simp
  rw [List.length_append] at ht
  simp only [pending, he, Option.isSome_none, Bool.false_eq_true, ↓reduceIte]
  split_ifs <;> omega

/-- Outside the data-out phase a command in progress only comes closer to its end. -/
theorem Move.pending_lt (h : s.Move a o s') (hs : s.SlotInv)
    (hst : s.mscState = .dataIn ∨ s.mscState = .sendCsw) :
    s'.mscState ≠ .dataOut ∧ (s' = s ∨ s'.mscState = .idle ∨ pending s' < pending s) := by
  have hbusy : s.mscState ≠ .idle ∧ s.mscState ≠ .dataOut := by
    rcases hst with h | h <;> rw [h] <;> decide
  cases h with
  | ignored _ => exact ⟨hbusy.2, .inl rfl⟩
  | rejected h _ _ => exact absurd h hbusy.1
  | accept h _ => exact absurd h.1 hbusy.1
  | receive h _ => exact absurd h hbusy.2
  | receiveLast h _ => exact absurd h hbusy.2
  | takeData h he =>
    refine ⟨hbusy.2, .inr (.inr ?_)⟩
    have htodo : todo { s with epMscIn := none } = todo s := by
      rw [todo_dataIn h, todo_dataIn (s := { s with epMscIn := none }) h, todoIn_setSlot]
    simp [pending, htodo, he]
  | takeStatus _ => exact ⟨fun h => MscState.noConfusion h, .inr (.inl rfl)⟩
  | pollNothing _ => exact ⟨hbusy.2, .inl rfl⟩
  | pollDataIn h he hp =>
    refine ⟨?_, .inr (.inr (hp.pending_lt h (hs.dataIn h).1 he))⟩
    cases hp with
    | data _ => rw [afterPacket_mscState]; exact hbusy.2
    | status _ => exact (by decide : MscState.sendCsw ≠ .dataOut)

theorem Move.ne_dataOut (h : s.Move a o s') (hs : s.SlotInv) (hb : Busy s a)
    (hst : s.mscState ≠ .dataOut) : s'.mscState ≠ .dataOut :=
  (h.pending_lt hs (MscState.dataIn_or_sendCsw hb hst)).1

theorem exists_help (hs : s.SlotInv) (hst : s.mscState = .dataIn ∨ s.mscState = .sendCsw) :
    ∃ s' o, s.Move s.help o s' ∧ (s'.mscState = .idle ∨ pending s' < pending s) := by
  rcases hst with hst | hst
  · obtain ⟨ho, hcsw⟩ := hs.dataIn hst
    cases he : s.epMscIn with
    | some q =>
      cases q with
      | csw w => exact absurd he (hcsw w)
      | data bs =>
        have hm : s.Move s.help [.taken (.data bs)] { s with epMscIn := none } := by
          rw [help, he]; exact .takeData hst he
        obtain ⟨-, h | h⟩ := hm.pending_lt hs (.inl hst)
        · have := congrArg Msc.epMscIn h
          rw [he] at this
          cases this
        · exact ⟨_, _, hm, h⟩
    | none =>
      obtain ⟨o, s', hp⟩ : ∃ o s', s.Prepare o s' := by
        by_cases hr : s.mscBytesRemaining = 0
        · exact ⟨_, _, .status hr⟩
        · exact ⟨_, _, .data hr⟩
      refine ⟨s', o, ?_, .inr (hp.pending_lt hst ho he)⟩
      rw [help, he]
      exact .pollDataIn hst he hp
  · have hhelp : s.help = .take := by rw [help, hs.sendCsw hst]; rfl
    rw [hhelp]
    exact ⟨_, _, .takeStatus hst, .inl rfl⟩

/-- **Answers are sent**: under a schedule fair to the host's takes and to the polls, a command
outside the data-out phase comes to its end, whatever packets arrive meanwhile. -/
theorem exec_idle (htake : Fair σ .take) (hpoll : Fair σ .poll)
    (hs : (mscMachine.exec σ s n).1.SlotInv)
    (hst : (mscMachine.exec σ s n).1.mscState ≠ .dataOut) :
    ∃ m, n ≤ m ∧ (mscMachine.exec σ s m).1.mscState = .idle := by
  refine eventually_of_helpful (fun t => t.SlotInv ∧ t.mscState ≠ .dataOut)
    (fun t => t.mscState = .idle) pending help (fun _ => True)
    ?_ ?_ ?_ (fun _ _ => trivial) ⟨hs, hst⟩
  · intro t _ _
    unfold help
    split_ifs
    · exact htake
    · exact hpoll
  · rintro t a ⟨ht, ho⟩ hd -
    rcases mscMachine.attempt_cases t a with h | h
    · have hm : t.Move a (mscMachine.attempt t a).2 (mscMachine.attempt t a).1 :=
        (step_iff_move ht).1 h
      obtain ⟨hne, heq | hidle | hlt⟩ := hm.pending_lt ht (MscState.dataIn_or_sendCsw hd ho)
      · exact ⟨⟨hm.slotInv ht, hne⟩, .inr (.inr (by rw [heq]; exact ⟨rfl, rfl⟩))⟩
      · exact ⟨⟨hm.slotInv ht, hne⟩, .inl hidle⟩
      · exact ⟨⟨hm.slotInv ht, hne⟩, .inr (.inl hlt)⟩
    · rw [h]; exact ⟨⟨ht, ho⟩, .inr (.inr ⟨rfl, rfl⟩)⟩
  · rintro t ⟨ht, ho⟩ hd
    obtain ⟨t', o, hm, h⟩ := exists_help ht (MscState.dataIn_or_sendCsw hd ho)
    rw [attempt_of_step ((step_iff_move ht).2 hm)]
    exact h

theorem SlotInv.exec (hs : s.SlotInv) (n : ℕ) : (mscMachine.exec σ s n).1.SlotInv :=
  exec_invariant (fun t _ => t.SlotInv) [] hs
    (fun _ _ _ _ _ hi h => ((step_iff_move hi).1 h).slotInv hi) n

/-- The first time a schedule comes back to `MSC_IDLE` ends a run of the command. -/
theorem exists_first_idle (h : ∃ m, (mscMachine.exec σ s m).1.mscState = .idle) :
    ∃ m as, (mscMachine.exec σ s m).1.mscState = .idle ∧
      mscMachine.Run Busy s as (mscMachine.exec σ s m).2 (mscMachine.exec σ s m).1 := by
  classical
  obtain ⟨as, hr⟩ := exec_run (M := mscMachine) (s := s) (G := Busy) (Nat.find h)
    fun k hk => Nat.find_min h hk
  exact ⟨_, as, Nat.find_spec h, hr⟩

end Msc

/-! ### The host's part -/

/-- The bytes an input carries to the device. -/
def Input.outLen : Input → ℕ
  | .out p => p.len
  | .take | .poll => 0

/-- The bytes sent by the host in the first `n` attempts. -/
def outBytes (σ : ℕ → Input) : ℕ → ℕ
  | 0 => 0
  | n + 1 => outBytes σ n + (σ n).outLen

/-- The bytes a command asks from the host. -/
def hostBytes (c : Cbw) : ℕ := if c.opcode = .write10 then c.dataTransferLength.toNat else 0

/-- What a host does for the command `c`: it keeps taking packets, the main loop keeps polling, no
OUT packet is empty, and in the end the OUT packets carry just the bytes of the command. -/
structure HostPart (c : Cbw) (σ : ℕ → Input) : Prop where
  take : Machine.Fair σ .take
  poll : Machine.Fair σ .poll
  nonempty : ∀ n p, σ n = .out p → 1 ≤ p.len
  bytes : ∃ N, ∀ n, N ≤ n → outBytes σ n = hostBytes c

theorem outBytes_mono (σ : ℕ → Input) {m n : ℕ} (h : m ≤ n) : outBytes σ m ≤ outBytes σ n := by
  induction n, h using Nat.le_induction with
  | base => exact le_rfl
  | succ n _ ih => exact ih.trans (Nat.le_add_right _ _)

namespace HostPart

variable {c : Cbw} {σ : ℕ → Input} {n : ℕ}

theorem outBytes_le (h : HostPart c σ) (n : ℕ) : outBytes σ n ≤ hostBytes c := by
  obtain ⟨N, hN⟩ := h.bytes
  rw [← hN (max N n) (le_max_left _ _)]
  exact outBytes_mono σ (le_max_right _ _)

theorem not_out (h : HostPart c σ) {m : ℕ} (hn : outBytes σ n = hostBytes c) (hm : n ≤ m)
    (p : OutPacket) : σ m ≠ .out p := by
  intro hp
  have h₁ := h.outBytes_le (m + 1)
  have h₂ := outBytes_mono σ hm
  have h₃ := h.nonempty m p hp
  rw [outBytes, hp, Input.outLen] at h₁
  omega

end HostPart

namespace Msc

open Machine

variable {s s' s₁ : Msc} {a : Input} {o e₁ : List Event} {p : OutPacket} {c : Cbw}
  {σ : ℕ → Input} {n D k : ℕ}

/-- The data-out phase against the number `k` of bytes the host has sent, of `D`. -/
def OutInv (D k : ℕ) (s : Msc) : Prop :=
  (k < D ∧ s.mscState = .dataOut ∧ s.mscBytesRemaining.toNat = D - k) ∨
    (k = D ∧ s.mscState ≠ .dataOut)

theorem OutInv.receive (hk : k < D) (hst : s.mscState = .dataOut)
    (hrem : s.mscBytesRemaining.toNat = D - k) (hlen : k + p.len ≤ D)
    (h : s.Move (.out p) o s') : OutInv D (k + p.len) s' := by
  have hw : (s.writeLen p).toNat = p.len := by rw [writeLen_toNat, hrem]; omega
  have hsub : (s.mscBytesRemaining - s.writeLen p).toNat = D - (k + p.len) := by
    rw [UInt32.toNat_sub_of_le _ _ (UInt32.le_iff_toNat_le.2 (by omega)), hrem, hw]
    omega
  obtain ⟨hne, -, rfl⟩ | ⟨hz, -, rfl⟩ := h.of_dataOut hst
  · have hpos : (s.mscBytesRemaining - s.writeLen p).toNat ≠ 0 := by
      rwa [ne_eq, ← UInt32.toNat_inj, UInt32.toNat_zero] at hne
    refine .inl ⟨by omega, by simpa using hst, ?_⟩
    rw [received_mscBytesRemaining, hsub]
  · rw [hz, UInt32.toNat_zero] at hsub
    exact .inr ⟨by omega, fun h => MscState.noConfusion h⟩

theorem attempt_dataOut (hs : s.SlotInv) (hst : s.mscState = .dataOut) (ha : ∀ p, a ≠ .out p) :
    mscMachine.attempt s a = (s, []) := by
  cases a with
  | out p => exact absurd rfl (ha p)
  | take => exact attempt_of_none (by simp [mscMachine, hostTake, hs.dataOut hst])
  | poll => exact attempt_of_step (by simp [mscMachine, pollUsbInput, hst])

theorem attempt_idle (hs : s.SlotInv) (hst : s.mscState = .idle) (ha : ∀ p, a ≠ .out p) :
    mscMachine.attempt s a = (s, []) := by
  cases a with
  | out p => exact absurd rfl (ha p)
  | take => exact attempt_of_none (by simp [mscMachine, hostTake, hs.idle hst])
  | poll => exact attempt_of_step (by simp [mscMachine, pollUsbInput, hst])

/-- The bytes of the data-out phase are counted along a schedule that does the host's part. -/
theorem OutInv.exec (hs : s.SlotInv) (hσ : HostPart c σ) (h : OutInv (hostBytes c) 0 s) (n : ℕ) :
    OutInv (hostBytes c) (outBytes σ n) (mscMachine.exec σ s n).1 := by
  induction n with
  | zero => exact h
  | succ n ih =>
    have hn : (mscMachine.exec σ s n).1.SlotInv := hs.exec n
    have hle := hσ.outBytes_le (n + 1)
    rw [exec_succ, outBytes]
    rw [outBytes] at hle
    rcases ih with ⟨hk, hst, hrem⟩ | ⟨hk, hst⟩
    · cases ha : σ n with
      | out p =>
        rw [ha] at hle
        have hstep := handleMscOut_ne_none hn p
        obtain ⟨⟨t, o⟩, ht⟩ := Option.ne_none_iff_exists'.1 hstep
        rw [attempt_of_step (M := mscMachine) (a := .out p) ht]
        exact OutInv.receive hk hst hrem hle ((step_iff_move hn).1 ht)
      | take =>
        rw [attempt_dataOut hn hst (by simp)]
        exact .inl ⟨hk, hst, hrem⟩
      | poll =>
        rw [attempt_dataOut hn hst (by simp)]
        exact .inl ⟨hk, hst, hrem⟩
    · have hno := hσ.not_out hk (le_refl n)
      have hlen : (σ n).outLen = 0 := by
        cases ha : σ n with
        | out p => exact absurd ha (hno p)
        | take | poll => rfl
      refine .inr ⟨by omega, ?_⟩
      rcases mscMachine.attempt_cases (mscMachine.exec σ s n).1 (σ n) with h' | h'
      · have hm : Move _ (σ n) (mscMachine.attempt (mscMachine.exec σ s n).1 (σ n)).2
          (mscMachine.attempt (mscMachine.exec σ s n).1 (σ n)).1 := (step_iff_move hn).1 h'
        -- only an OUT packet leads into the data-out phase
        by_cases hidle : (mscMachine.exec σ s n).1.mscState = .idle
        · rw [attempt_idle hn hidle hno]
          exact hst
        · exact hm.ne_dataOut hn hidle hst
      · rw [h']; exact hst

theorem exec_stable (hσ : HostPart c σ) (hs : (mscMachine.exec σ s n).1.SlotInv)
    (hst : (mscMachine.exec σ s n).1.mscState = .idle) (hn : outBytes σ n = hostBytes c) {m : ℕ}
    (hm : n ≤ m) : mscMachine.exec σ s m = mscMachine.exec σ s n := by
  induction m, hm using Nat.le_induction with
  | base => rfl
  | succ m hm ih =>
    rw [exec_succ, ih, attempt_idle hs hst (hσ.not_out hn hm)]
    simp

/-! ### Completion -/

/-- Under every schedule that does the host's part, the command `c` with the log `e₁` so far is in
the end answered by one status wrapper, which carries its tag, and the driver stays in
`MSC_IDLE`. -/
def Completes (c : Cbw) (e₁ : List Event) (s₁ : Msc) : Prop :=
  ∀ σ, HostPart c σ → ∃ N, ∀ n, N ≤ n → (mscMachine.exec σ s₁ n).1.mscState = .idle ∧
    ∃ w, sentCsws (e₁ ++ (mscMachine.exec σ s₁ n).2) = [w] ∧ w.tag = c.tag

theorem sentCsws_of_sentPackets {log : List Event} {ds : List (List UInt8)} {w : Csw}
    (h : sentPackets log = ds.map .data ++ [.csw w]) : sentCsws log = [w] := by
  have key : sentCsws log = (sentPackets log).flatMap fun q => (Event.sent q).sentCsws := by
    clear h
    induction log with
    | nil => rfl
    | cons e log ih => cases e <;> simp [ih]
  rw [key, h]
  simp [List.flatMap_append, List.flatMap_map]

theorem Begin.ne_dataOut (h : s.Begin c o s') (hw : c.opcode ≠ .write10) :
    s'.mscState ≠ .dataOut := by
  cases h with
  | dataIn ho hp =>
    cases hp with
    | data _ => rw [afterPacket_mscState, (begin_dataIn s ho).1]; decide
    | status _ => exact fun h => MscState.noConfusion h
  | write10 ho => exact absurd ho hw
  | noData _ _ => exact fun h => MscState.noConfusion h

theorem Begin.outInv (h : s.Begin c o s') (hD : c.opcode = .write10 →
      c.dataTransferLength.toNat = c.blocks.toNat * 512)
    (hz : ¬ (c.opcode = .write10 ∧ c.blocks = 0)) : OutInv (hostBytes c) 0 s' := by
  by_cases hw : c.opcode = .write10
  · have hb : c.blocks.toNat ≠ 0 := fun h0 => hz ⟨hw, UInt32.toNat_inj.1 h0⟩
    rw [hostBytes, if_pos hw, hD hw]
    cases h with
    | dataIn ho _ => rw [hw] at ho; cases ho
    | write10 _ =>
      obtain ⟨hst, -, hrem, -⟩ := begin_write10 s hw
      refine .inl ⟨by omega, hst, ?_⟩
      rw [hrem, Cbw.blocks_mul_toNat]
      rfl
    | noData _ hn => exact absurd hw hn
  · rw [hostBytes, if_neg hw]
    exact .inr ⟨rfl, h.ne_dataOut hw⟩

theorem completes_of_ne (hs : s.SlotInv) (h : s.Starts p e₁ s₁)
    (hD : p.cbw.opcode = .write10 →
      p.cbw.dataTransferLength.toNat = p.cbw.blocks.toNat * 512)
    (hz : ¬ (p.cbw.opcode = .write10 ∧ p.cbw.blocks = 0)) : Completes p.cbw e₁ s₁ := by
  intro σ hσ
  have hs₁ : s₁.SlotInv := h.slotInv hs
  have hout : ∀ n, OutInv _ _ _ := OutInv.exec hs₁ hσ ((h.begin hs).outInv hD hz)
  -- the data-out phase ends when all bytes are sent, and then the answer is sent
  obtain ⟨N, hN⟩ := hσ.bytes
  have hNst : (mscMachine.exec σ s₁ N).1.mscState ≠ .dataOut := by
    rcases hout N with ⟨hlt, -⟩ | ⟨-, hst⟩
    · exact absurd (hN N le_rfl) (by omega)
    · exact hst
  obtain ⟨m₀, -, hm₀⟩ := exec_idle hσ.take hσ.poll (hs₁.exec N) hNst
  obtain ⟨m, as, hm, hrun⟩ := exists_first_idle ⟨m₀, hm₀⟩
  have hmD : outBytes σ m = hostBytes p.cbw := by
    rcases hout m with ⟨-, hst, -⟩ | ⟨heq, -⟩
    · exact absurd (hm.symm.trans hst) (by decide)
    · exact heq
  refine ⟨m, fun n hn => ?_⟩
  rw [exec_stable hσ (hs₁.exec m) hm hmD hn]
  obtain ⟨ds, w, hshape, htag, -⟩ := replies_shape s p.cbw
  rw [← command_outputs_of_done hs h hrun (.inr hm), sentPackets_outputs] at hshape
  exact ⟨hm, w, sentCsws_of_sentPackets hshape, htag⟩

/-- Taking and polling in turn. -/
def turns (n : ℕ) : Input := if n % 2 = 0 then .take else .poll

theorem fair_turns : Fair turns .take ∧ Fair turns .poll := by
  constructor
  · intro n
    exact ⟨2 * n, by omega, if_pos (by omega)⟩
  · intro n
    exact ⟨2 * n + 1, by omega, if_neg (by omega)⟩

theorem turns_outLen (n : ℕ) : (turns n).outLen = 0 := by
  unfold turns
  split_ifs <;> rfl

theorem outBytes_turns (n : ℕ) : outBytes turns n = 0 := by
  induction n with
  | zero => rfl
  | succ n ih => rw [outBytes, ih, turns_outLen]

theorem hostPart_turns (h : hostBytes c = 0) : HostPart c turns where
  take := fair_turns.1
  poll := fair_turns.2
  nonempty n p hn := by
    unfold turns at hn
    split_ifs at hn
  bytes := ⟨0, fun n _ => by rw [outBytes_turns, h]⟩

theorem exists_play (hs : s.SlotInv) (h : s.Starts p e₁ s₁) (hw : p.cbw.opcode ≠ .write10) :
    ∃ as e₂ s₂, mscMachine.Run Busy s₁ as e₂ s₂ ∧ s₂.mscState = .idle := by
  obtain ⟨m, -, hm⟩ := exec_idle (n := 0) fair_turns.1 fair_turns.2 (h.slotInv hs)
    ((h.begin hs).ne_dataOut hw)
  obtain ⟨N, as, hidle, hrun⟩ := exists_first_idle ⟨m, hm⟩
  exact ⟨as, _, _, hrun, hidle⟩

theorem not_completes_of_zero (hs : s.SlotInv) (h : s.Starts p e₁ s₁)
    (hw : p.cbw.opcode = .write10) (hD : p.cbw.dataTransferLength = 0) :
    ¬ Completes p.cbw e₁ s₁ := by
  intro hc
  have hst : s₁.mscState = .dataOut := by
    cases h.begin hs with
    | dataIn ho _ => rw [hw] at ho; cases ho
    | write10 ho => exact (begin_write10 s ho).1
    | noData _ hn => exact absurd hw hn
  have hstuck : ∀ n, mscMachine.exec turns s₁ n = (s₁, []) := by
    intro n
    induction n with
    | zero => rfl
    | succ n ih =>
      rw [exec_succ, ih, attempt_dataOut (h.slotInv hs) hst]
      · rfl
      · intro p hp
        unfold turns at hp
        split_ifs at hp
  obtain ⟨N, hN⟩ := hc turns (hostPart_turns (by rw [hostBytes, if_pos hw, hD]; rfl))
  have := (hN N le_rfl).1
  rw [hstuck] at this
  exact absurd (hst.symm.trans this) (by decide)

/-- **Which commands complete.**  Let a command be accepted in a reachable state, with the length
of its data phase announced rightly if it reads or writes blocks.  It completes under every
schedule that does the host's part if and only if it is not a `WRITE(10)` of no blocks. -/
theorem completes_iff (hr : s.Reachable) (h : s.Starts p e₁ s₁)
    (hD : p.cbw.opcode = .read10 ∨ p.cbw.opcode = .write10 →
      p.cbw.dataTransferLength.toNat = p.cbw.blocks.toNat * 512) :
    Completes p.cbw e₁ s₁ ↔ ¬ (p.cbw.opcode = .write10 ∧ p.cbw.blocks = 0) := by
  constructor
  · rintro hc ⟨hw, hz⟩
    have hzero : p.cbw.dataTransferLength = 0 := by
      apply UInt32.toNat_inj.1
      rw [hD (.inr hw), hz]
      rfl
    exact not_completes_of_zero hr.slotInv h hw hzero hc
  · exact completes_of_ne hr.slotInv h fun hw => hD (.inr hw)

/-- The packet `p` sent `k` times, and then taking and polling in turn. -/
def feed (k : ℕ) (p : OutPacket) (n : ℕ) : Input := if n < k then .out p else turns n

theorem outBytes_feed (n : ℕ) : outBytes (feed k p) n = min n k * p.len := by
  induction n with
  | zero => rw [outBytes, Nat.zero_min, Nat.zero_mul]
  | succ n ih =>
    rw [outBytes, ih, feed]
    split_ifs with hn
    · rw [Nat.min_eq_left hn, Nat.min_eq_left hn.le, Nat.succ_mul]
      rfl
    · rw [turns_outLen, Nat.add_zero, Nat.min_eq_right (by omega), Nat.min_eq_right (by omega)]

theorem fair_feed (h : Fair turns a) : Fair (feed k p) a := by
  intro n
  obtain ⟨m, hm, hma⟩ := h (max n k)
  exact ⟨m, (le_max_left _ _).trans hm, by
    rw [feed, if_neg (Nat.not_lt.2 ((le_max_right _ _).trans hm)), hma]⟩

theorem hostPart_feed (hp : 1 ≤ p.len) (h : k * p.len = hostBytes c) :
    HostPart c (feed k p) where
  take := fair_feed fair_turns.1
  poll := fair_feed fair_turns.2
  nonempty n q hn := by
    unfold feed turns at hn
    split_ifs at hn
    cases hn
    exact hp
  bytes := ⟨k, fun n hn => by rw [outBytes_feed, Nat.min_eq_right hn, h]⟩

/-- A `WRITE(10)` of one block at power-up, sent by the host in eight packets of 64 bytes: the
driver comes back to `MSC_IDLE` with one status wrapper sent, under the tag of the command. -/
theorem completes_write10_block : ∃ e₁ s₁,
    usbInit.Starts (Cbw.ofBlock 1 512 0 [0x2A, 0, 0, 0, 0, 65, 0, 0, 1]).toPacket e₁ s₁ ∧
      HostPart (Cbw.ofBlock 1 512 0 [0x2A, 0, 0, 0, 0, 65, 0, 0, 1])
        (feed 8 ⟨fun _ => 0x61, 64, le_rfl⟩) ∧
      ∃ N, ∀ n, N ≤ n →
        (mscMachine.exec (feed 8 ⟨fun _ => 0x61, 64, le_rfl⟩) s₁ n).1.mscState = .idle ∧
        ∃ w, sentCsws (e₁ ++ (mscMachine.exec (feed 8 ⟨fun _ => 0x61, 64, le_rfl⟩) s₁ n).2) = [w] ∧
          w.tag = 1 := by
  have h : usbInit.Starts (Cbw.ofBlock 1 512 0 [0x2A, 0, 0, 0, 0, 65, 0, 0, 1]).toPacket _ _ :=
    ⟨⟨rfl, rfl, rfl⟩, rfl⟩
  have hfeed : HostPart (Cbw.ofBlock 1 512 0 [0x2A, 0, 0, 0, 0, 65, 0, 0, 1])
      (feed 8 ⟨fun _ => 0x61, 64, le_rfl⟩) := hostPart_feed (by decide) (by decide)
  refine ⟨_, _, h, hfeed, ?_⟩
  exact (completes_iff (Machine.Reachable.refl _) h (by decide)).2 (by decide) _
    (by rw [Cbw.cbw_toPacket]; exact hfeed)

/-- A `WRITE(10)` of no blocks, at power-up. -/
theorem not_completes_write10 : ∃ e₁ s₁,
    usbInit.Starts (Cbw.ofBlock 1 0 0 [0x2A]).toPacket e₁ s₁ ∧
      ¬ Completes (Cbw.ofBlock 1 0 0 [0x2A]).toPacket.cbw e₁ s₁ := by
  have h : usbInit.Starts (Cbw.ofBlock 1 0 0 [0x2A]).toPacket _ _ := ⟨⟨rfl, rfl, rfl⟩, rfl⟩
  exact ⟨_, _, h, not_completes_of_zero slotInv_usbInit h (by decide) (by decide)⟩

end Msc

end Ch32fun
