import Ch32fun.Msc.Protocol
import Mathlib.Tactic.Ring

/-!
# What a command is answered with

Once a command has been accepted, the packets it will be answered with are fixed: nothing the host
sends in a data-in phase changes them, and in a data-out phase only the status wrapper is left to
send.  `todo s` is what is left of the answer in state `s`, obtained by iterating the driver's own
code, as a log of the bytes still to be copied and the packets still to be queued; every step of a
run outputs a prefix of it (`busy_run_outputs`).

## Main definitions

* `outputs` : the part of a log that belongs to the answer of a command.
* `Busy` : the guard "a command is in progress".
* `todo`, `replies` : what is left to output, and the whole answer of an accepted command.
-/

namespace Ch32fun

/-! ### The output part of a log -/

/-- The event itself, if it belongs to an answer. -/
@[simp] def Event.output : Event → List Event
  | .copied src => [.copied src]
  | .sent p => [.sent p]
  | _ => []

/-- The bytes copied and the packets queued, in order. -/
def outputs (log : List Event) : List Event := log.flatMap Event.output

section Outputs

variable (e : Event) (l l' : List Event)

@[simp] theorem outputs_nil : outputs [] = [] := rfl

@[simp] theorem outputs_cons : outputs (e :: l) = e.output ++ outputs l := rfl

@[simp] theorem outputs_append : outputs (l ++ l') = outputs l ++ outputs l' :=
  List.flatMap_append

@[simp] theorem outputs_map_copied (l : List Src) :
    outputs (l.map .copied) = l.map .copied := by
  induction l with
  | nil => rfl
  | cons src l ih => rw [List.map_cons, outputs_cons, ih]; rfl

@[simp] theorem outputs_map_stored (l : List ℕ) : outputs (l.map .stored) = [] := by
  induction l with
  | nil => rfl
  | cons i l ih => rw [List.map_cons, outputs_cons, ih]; rfl

@[simp] theorem sentPackets_outputs : sentPackets (outputs l) = sentPackets l := by
  induction l with
  | nil => rfl
  | cons e l ih => rw [outputs_cons, sentPackets_append, ih]; cases e <;> rfl

@[simp] theorem copies_outputs : copies (outputs l) = copies l := by
  induction l with
  | nil => rfl
  | cons e l ih => rw [outputs_cons, copies_append, ih]; cases e <;> rfl

end Outputs

namespace Msc

variable {s s' s₁ s₂ : Msc} {a : Input} {as : List Input} {o log e₁ e₂ : List Event}
  {p : OutPacket} {c : Cbw}

/-- A command is in progress: steps are taken outside `MSC_IDLE` only. -/
def Busy (s : Msc) (_ : Input) : Prop := s.mscState ≠ .idle

/-- What queueing the next data packet outputs. -/
def packetLog (s : Msc) : List Event :=
  s.dataSource.2.copied.map .copied ++ [.sent (.data s.packet)]

/-- What a data-in phase has still to output, for at most `n` packets. -/
def todoIn : ℕ → Msc → List Event
  | 0, _ => []
  | n + 1, s =>
    if s.mscBytesRemaining = 0 then [.sent (.csw s.csw)]
    else s.packetLog ++ todoIn n s.afterPacket

/-- What the command in progress has still to output. -/
def todo (s : Msc) : List Event :=
  match s.mscState with
  | .idle | .sendCsw => []
  | .dataOut => [.sent (.csw s.csw)]
  | .dataIn => todoIn (s.mscBytesRemaining.toNat + 1) s

/-- The whole answer of a command accepted in state `s`. -/
def replies (s : Msc) (c : Cbw) : List Event :=
  if c.opcode.isDataIn ∨ c.opcode = .write10 then todo (s.begin c)
  else [.sent (.csw (s.begin c).csw)]

theorem afterPacket_lt (ho : s.cbw.opcode.isDataIn = true) (hr : s.mscBytesRemaining ≠ 0) :
    s.afterPacket.mscBytesRemaining.toNat < s.mscBytesRemaining.toNat := by
  have hpos : 0 < s.mscBytesRemaining.toNat := by
    have := UInt32.toNat_inj.ne.2 hr
    exact Nat.pos_of_ne_zero this
  by_cases h : s.cbw.opcode = .read10
  · have hl : 0 < s.readLen.toNat ∧ s.readLen.toNat ≤ s.mscBytesRemaining.toNat := by
      unfold readLen
      split_ifs with h64
      · have : (64 : UInt32).toNat < s.mscBytesRemaining.toNat := UInt32.lt_iff_toNat_lt.1 h64
        exact ⟨by decide, this.le⟩
      · exact ⟨hpos, le_rfl⟩
    rw [(afterPacket_of_read10 h).1, UInt32.toNat_sub_of_le _ _ (UInt32.le_iff_toNat_le.2 hl.2)]
    omega
  · rw [(afterPacket_of_oneShot ho h).1]
    exact hpos

/-- The bound of `todoIn` does not matter once it exceeds the number of bytes left. -/
theorem todoIn_eq {n m : ℕ} (ho : s.cbw.opcode.isDataIn = true)
    (hn : s.mscBytesRemaining.toNat < n) (hm : s.mscBytesRemaining.toNat < m) :
    todoIn n s = todoIn m s := by
  induction n generalizing s m with
  | zero => omega
  | succ n ih =>
    obtain ⟨m, rfl⟩ : ∃ k, m = k + 1 := ⟨m - 1, by omega⟩
    unfold todoIn
    split_ifs with hr
    · rfl
    · -- both bounds still exceed what the packet leaves
      have hlt := afterPacket_lt ho hr
      rw [ih (m := m) (by simpa using ho) (by omega) (by omega)]

theorem packetLog_setSlot (s : Msc) (q : Option InPacket) :
    ({ s with epMscIn := q } : Msc).packetLog = s.packetLog := by
  rw [packetLog, packetLog, packet_setSlot, dataSource_setSlot]

theorem todoIn_setSlot (n : ℕ) (s : Msc) (q : Option InPacket) :
    todoIn n { s with epMscIn := q } = todoIn n s := by
  cases n with
  | zero => rfl
  | succ n =>
    unfold todoIn
    rw [packetLog_setSlot, afterPacket_setSlot]

theorem todo_dataIn (hst : s.mscState = .dataIn) :
    todo s = todoIn (s.mscBytesRemaining.toNat + 1) s := by
  unfold todo; rw [hst]

theorem todo_setSlot (hst : s.mscState = .dataIn) (q : Option InPacket) :
    todo { s with epMscIn := q } = todo s := by
  rw [todo_dataIn hst, todo_dataIn (s := { s with epMscIn := q }) hst, todoIn_setSlot]

theorem todo_of_ne (hst : s.mscState = .dataIn) (ho : s.cbw.opcode.isDataIn = true)
    (hr : s.mscBytesRemaining ≠ 0) : todo s = s.packetLog ++ todo s.afterPacket := by
  have hlt := afterPacket_lt ho hr
  rw [todo_dataIn hst, todo_dataIn (s := s.afterPacket) (by simpa using hst), todoIn, if_neg hr,
    todoIn_eq (by simpa using ho) hlt (Nat.lt_succ_self _)]

theorem todo_of_eq (hst : s.mscState = .dataIn) (hr : s.mscBytesRemaining = 0) :
    todo s = [.sent (.csw s.csw)] := by
  rw [todo_dataIn hst, todoIn, if_pos hr]

theorem todo_afterStatus (s : Msc) : todo s.afterStatus = [] := rfl

theorem todo_dataOut (hst : s.mscState = .dataOut) : todo s = [.sent (.csw s.csw)] := by
  unfold todo; rw [hst]

theorem outputs_absorb (s : Msc) (p : OutPacket) (n : UInt32) :
    outputs (s.absorb p n).2 = [] := by
  obtain ⟨l, hl⟩ := absorb_stored s p n
  rw [hl, outputs_map_stored]

theorem Prepare.outputs_todo (h : s.Prepare o s') (hst : s.mscState = .dataIn)
    (ho : s.cbw.opcode.isDataIn = true) : outputs o ++ todo s' = todo s := by
  cases h with
  | data hr =>
    rw [todo_of_ne hst ho hr, packetLog, outputs_append, outputs_map_copied]
    rfl
  | status hr =>
    rw [todo_afterStatus, todo_of_eq hst hr]
    rfl

/-- A step of a command in progress outputs the next events of `todo`. -/
theorem Move.outputs_todo (h : s.Move a o s') (hs : s.SlotInv) (hb : Busy s a) :
    outputs o ++ todo s' = todo s := by
  cases h with
  | ignored _ => rfl
  | rejected h _ _ => exact absurd h hb
  | accept h _ => exact absurd h.1 hb
  | receive h _ =>
    -- stores are not outputs, and the status wrapper is still to come
    simp [outputs_absorb, todo_dataOut h, todo_dataOut (s := s.received _) (by simpa using h)]
  | receiveLast h _ => simp [outputs_absorb, todo_dataOut h, todo_afterStatus]
  | takeData h _ =>
    rw [todo_setSlot h]
    rfl
  | takeStatus h => simp [todo, h]
  | pollNothing _ => rfl
  | pollDataIn h _ hp => exact hp.outputs_todo h (hs.dataIn h).1

/-- **What is output during a command is what was fixed when it began.** -/
theorem busy_run_outputs (hs : s.SlotInv) (h : mscMachine.Run Busy s as o s') :
    outputs o ++ todo s' = todo s := by
  refine run_invariant (fun t log => outputs log ++ todo t = todo s) [] h hs rfl ?_
  intro t a t' o log ht hi hb hm
  rw [outputs_append, List.append_assoc, hm.outputs_todo ht hb, hi]

theorem Begin.outputs_replies (h : s.Begin c o s') : outputs o ++ todo s' = s.replies c := by
  cases h with
  | dataIn ho hp =>
    rw [replies, if_pos (.inl ho)]
    simpa using hp.outputs_todo (begin_dataIn s ho).1 (by simpa using ho)
  | write10 ho =>
    rw [replies, if_pos (.inr ho)]
    rfl
  | noData ho hw =>
    rw [replies, if_neg (by simp [ho, hw])]
    rfl

/-- The start of a command: the packet `p` is accepted in state `s`, with the log `o`. -/
def Starts (s : Msc) (p : OutPacket) (o : List Event) (s' : Msc) : Prop :=
  s.Accepts p ∧ mscMachine.step s (.out p) = some (s', o)

theorem Starts.begin (h : s.Starts p o s') (hs : s.SlotInv) : s.Begin p.cbw o s' :=
  ((step_iff_move hs).1 h.2).begin_of_accepts h.1

theorem Starts.slotInv (h : s.Starts p o s') (hs : s.SlotInv) : s'.SlotInv :=
  ((step_iff_move hs).1 h.2).slotInv hs

/-- **Everything a command is answered with**: from the acceptance on, what has been output and
what is left are together the replies. -/
theorem command_outputs (hs : s.SlotInv) (h₁ : s.Starts p e₁ s₁)
    (h₂ : mscMachine.Run Busy s₁ as e₂ s₂) :
    outputs (e₁ ++ e₂) ++ todo s₂ = s.replies p.cbw := by
  rw [outputs_append, List.append_assoc, busy_run_outputs (h₁.slotInv hs) h₂,
    (h₁.begin hs).outputs_replies]

theorem command_outputs_of_done (hs : s.SlotInv) (h₁ : s.Starts p e₁ s₁)
    (h₂ : mscMachine.Run Busy s₁ as e₂ s₂)
    (hend : s₂.mscState = .sendCsw ∨ s₂.mscState = .idle) :
    outputs (e₁ ++ e₂) = s.replies p.cbw := by
  have htodo : todo s₂ = [] := by
    unfold todo
    rcases hend with h | h <;> rw [h]
  simpa [htodo] using command_outputs hs h₁ h₂

/-! ### The shape of the replies -/

theorem sentPackets_packetLog (s : Msc) : sentPackets s.packetLog = [.data s.packet] := by
  simp [packetLog, (Quiet.map_copied _).sentPackets]

/-- The packets a data-in phase has still to queue are data packets and then one status wrapper
with the tag and the status latched at the beginning. -/
theorem todoIn_shape {n : ℕ} (ho : s.cbw.opcode.isDataIn = true)
    (hn : s.mscBytesRemaining.toNat < n) : ∃ (ds : List (List UInt8)) (w : Csw),
      sentPackets (todoIn n s) = ds.map .data ++ [.csw w] ∧ w.tag = s.csw.tag ∧
        w.status = s.csw.status := by
  induction n generalizing s with
  | zero => omega
  | succ n ih =>
    unfold todoIn
    split_ifs with hr
    · exact ⟨[], s.csw, rfl, rfl, rfl⟩
    · have hlt := afterPacket_lt ho hr
      obtain ⟨ds, w, hd, ht, hst⟩ := ih (s := s.afterPacket) (by simpa using ho) (by omega)
      refine ⟨s.packet :: ds, w, ?_, by simpa using ht, by simpa using hst⟩
      rw [sentPackets_append, sentPackets_packetLog, hd]
      rfl

theorem replies_shape (s : Msc) (c : Cbw) : ∃ (ds : List (List UInt8)) (w : Csw),
    sentPackets (s.replies c) = ds.map .data ++ [.csw w] ∧ w.tag = c.tag ∧
      w.status = (s.begin c).csw.status := by
  unfold replies
  split_ifs with h
  · rcases h with h | h
    · have hb := (begin_dataIn s h).1
      obtain ⟨ds, w, hd, ht, hst⟩ := todoIn_shape (s := s.begin c) (by simpa using h)
        (Nat.lt_succ_self _)
      refine ⟨ds, w, ?_, by simpa using ht, hst⟩
      rw [todo_dataIn hb]
      exact hd
    · refine ⟨[], (s.begin c).csw, ?_, by simp, rfl⟩
      rw [todo_dataOut (begin_write10 s h).1]
      rfl
  · exact ⟨[], _, rfl, by simp, rfl⟩

end Msc

end Ch32fun
