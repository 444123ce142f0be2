import Ch32fun.Msc.Complete
import Ch32fun.Msc.Interrupt

/-!
# A poll that waits for the host

A poll in `MSC_DATA_IN` prepares a packet and waits in a loop until the packet before it was taken.
As long as the host does not take that one, the poll does not come back; what it has done by then
are its statements before the loop.

* `Waiting` : a data packet waits for the host.
* `pollUsbInput_eq_none_iff` : the polls that do not come back at once.
* `Stalled` : what a poll may have done before its busy-wait.
* `stalled_run` : **the main loop stays in its poll** as long as the packet is not taken.
-/

namespace Ch32fun

namespace Msc

variable {m s s' : Msc} {o log : List Event}

/-- A data packet of the mass storage waits for the host. -/
def Waiting (m : Msc) : Prop := m.mscState = .dataIn ∧ m.epMscIn ≠ none

theorem pollUsbInput_eq_none_iff (hs : m.SlotInv) : m.pollUsbInput = none ↔ m.Waiting := by
  constructor
  · intro h
    by_cases hst : m.mscState = .dataIn
    · refine ⟨hst, fun he => ?_⟩
      obtain ⟨s', o, hm, -⟩ := exists_help hs (.inl hst)
      have hpoll : m.help = .poll := by rw [Msc.help, he]; rfl
      rw [hpoll] at hm
      have hp : m.pollUsbInput = some (s', o) := (step_iff_move hs).2 hm
      rw [h] at hp
      cases hp
    · rw [Msc.pollUsbInput, if_neg hst] at h
      cases h
  · rintro ⟨hst, he⟩
    cases h : m.pollUsbInput with
    | none => rfl
    | some x =>
      obtain ⟨m', o⟩ := x
      have hp : mscMachine.step m .poll = some (m', o) := h
      cases (step_iff_move hs).1 hp with
      | pollNothing hne => exact absurd hst hne
      | pollDataIn _ hnone _ => exact absurd hnone he

/-- What a poll that began in `m` may have done: it has copied bytes to the response buffer, reset
the active cluster, written the size to the directory entry, or given up the data phase. -/
structure Stalled (m s : Msc) (log : List Event) : Prop where
  state : s.mscState = .dataIn ∨ s.mscState = .sendCsw
  cluster : s.activeFileCluster = m.activeFileCluster ∨ s.activeFileCluster = fileCluster
  entry : s.rootDirEntry = m.rootDirEntry ∨
    s.rootDirEntry = m.rootDirEntry.write 28 4 (leByte m.activeFileSize)
  others : s = { m with
    mscState := s.mscState
    activeFileCluster := s.activeFileCluster
    rootDirEntry := s.rootDirEntry }
  copies : ∀ e ∈ log, (∃ src, e = .copied src) ∨ e = .fallback

/-- The host takes nothing. -/
def Untaken (_ : Msc) (i : Interrupt) : Prop := i ≠ .take

namespace Stalled

theorem refl (hw : m.Waiting) : m.Stalled m [] := ⟨.inl hw.1, .inl rfl, .inl rfl, rfl, nofun⟩

theorem handle {i : Interrupt} (h : m.Stalled s log) (hi : Untaken s i)
    (hst : i.handle s = some (s', o)) : s' = s ∧ o = [] := by
  cases i with
  | take => exact absurd rfl hi
  | out p =>
    have hst : s.handleMscOut p = some (s', o) := hst
    rw [handleMscOut] at hst
    rcases h.state with he | he <;> rw [he] at hst <;> cases hst <;> exact ⟨rfl, rfl⟩

theorem sendEndpoint_eq_none (h : m.Stalled s log) (hw : m.Waiting) (p : InPacket) :
    s.sendEndpoint p = none := by
  have he : s.epMscIn = m.epMscIn := by rw [h.others]
  unfold sendEndpoint
  cases hm : m.epMscIn with
  | none => exact absurd hm hw.2
  | some q => rw [he, hm]

theorem admissible (m : Msc) (st : MscState) : Routine.Admissible
    (fun s i => Interrupt.handle s i) Untaken (m.Stalled)
    fun s log => m.Stalled s log ∧ s.mscState = st where
  inv h := h.1
  stable {s i s' o log} h hi hst := by
    obtain ⟨rfl, rfl⟩ := h.1.handle hi hst
    rwa [List.append_nil]

theorem kept (m : Msc) : KeptByPreparation Untaken m.Stalled
    fun s log => m.Stalled s log ∧ s.mscState = .dataIn where
  toAdmissible := admissible m .dataIn
  copied l h := by
    refine ⟨{ h.1 with copies := List.forall_mem_append.2 ⟨h.1.copies, fun e he => ?_⟩ }, h.2⟩
    obtain ⟨src, -, rfl⟩ := List.mem_map.1 he
    exact .inl ⟨src, rfl⟩
  cluster h := ⟨{ h.1 with
    cluster := .inr rfl
    others := by rw [h.1.others] }, h.2⟩
  size {s log} h := by
    have hsize : s.activeFileSize = m.activeFileSize := by rw [h.1.others]
    refine ⟨{ h.1 with entry := .inr ?_, others := by rw [h.1.others] }, h.2⟩
    dsimp only
    rw [hsize]
    rcases h.1.entry with he | he <;> rw [he]
    exact Block.write_write ..

/-- What comes behind the busy-wait is not reached. -/
theorem triple_wait (hw : m.Waiting) {st : MscState} (p : Msc → InPacket)
    (k : PUnit → Routine Msc Event PUnit) : Routine.Triple (fun s i => Interrupt.handle s i)
      Untaken m.Stalled (fun s log => m.Stalled s log ∧ s.mscState = st)
      ((Routine.wait fun s => s.sendEndpoint (p s)) >>= k) fun _ _ _ => False := by
  refine .bind (.wait (Q := fun _ _ _ => False) ⟨False.elim, fun h _ _ => h⟩
    fun s s' o log h hs => ?_) fun _ => .of_false fun _ _ h => h
  rw [h.1.sendEndpoint_eq_none hw] at hs
  cases hs

theorem triple_sendStatusStmts (hw : m.Waiting) {l : List Event}
    (hl : ∀ e ∈ l, e = .fallback) : Routine.Triple (fun s i => Interrupt.handle s i) Untaken
      m.Stalled (fun s log => m.Stalled s log ∧ s.mscState = .dataIn) (sendStatusStmts l)
      fun _ _ _ => False := by
  refine .bind (Q := fun _ s log => m.Stalled s log ∧ s.mscState = .sendCsw)
    (.exec (admissible m .sendCsw) fun s log h => ?_) fun _ => ?_
  · refine ⟨{ h.1 with
      state := .inr rfl
      others := by rw [h.1.others]
      copies := List.forall_mem_append.2 ⟨h.1.copies, fun e he => .inr (hl e he)⟩ }, rfl⟩
  · rw [← bind_pure (Routine.wait _)]
    exact triple_wait hw _ _

/-- **A poll that finds a packet waiting does not end.** -/
theorem triple_pollUsbInputStmts (hw : m.Waiting) :
    Routine.Triple (fun s i => Interrupt.handle s i) Untaken m.Stalled
      (fun s log => m.Stalled s log ∧ s.mscState = .dataIn) pollUsbInputStmts
      fun _ _ _ => False := by
  have hseen : ∀ st : MscState, Routine.Admissible (fun s i => Interrupt.handle s i) Untaken
      m.Stalled fun s log => (m.Stalled s log ∧ s.mscState = .dataIn) ∧ st = .dataIn := fun st =>
    { inv := fun h => h.1.1
      stable := fun h hi hst => ⟨(admissible m .dataIn).stable h.1 hi hst, h.2⟩ }
  refine .bind (.read hseen fun s log h => ⟨h, h.2⟩) fun st => ?_
  refine .assume (fun _ _ h => h.2) fun hst => ?_
  rw [if_pos hst]
  refine .pre (P := fun s log => m.Stalled s log ∧ s.mscState = .dataIn) ?_ fun _ _ h => h.1
  -- the state is read once more
  refine .bind (.read hseen fun s log h => ⟨h, h.2⟩) fun st' => ?_
  refine .assume (fun _ _ h => h.2) fun hst' => ?_
  rw [if_neg (by rw [hst']; decide)]
  refine .pre (P := fun s log => m.Stalled s log ∧ s.mscState = .dataIn) ?_ fun _ _ h => h.1
  refine .bind ((kept m).read _) fun remaining => ?_
  split_ifs
  · exact triple_sendStatusStmts hw (List.forall_mem_nil _)
  refine .bind (kept m).dataSourceStmts fun r => ?_
  split_ifs
  · exact triple_wait hw _ _
  · exact triple_sendStatusStmts hw (List.forall_mem_singleton.2 rfl)

end Stalled

/-- **The main loop stays in its poll**: from a state in which a packet waits, whatever the host
sends, and however long the poll spins, it does not come to its end, and all it has done are its
statements before the busy-wait. -/
theorem stalled_run (hw : m.Waiting) {ts : List (Routine.Turn Interrupt)}
    {x : Msc × Routine Msc Event PUnit}
    (h : pollMachine.Run (Routine.Turn.Allowed Untaken) (m, pollUsbInputStmts) ts o x) :
    m.Stalled x.1 o ∧ ∀ a, x.2 ≠ .ret a := by
  have h₀ : m.Stalled m [] ∧ m.mscState = .dataIn := ⟨.refl hw, hw.1⟩
  exact Routine.interleave_spins (Stalled.admissible m .dataIn)
    (Stalled.triple_pollUsbInputStmts hw) h₀ h

end Msc

end Ch32fun
