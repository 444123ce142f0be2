import Ch32fun.Machine.Reduction
import Ch32fun.Msc.Interrupt

/-!
# The interrupted poll is one step

The main loop polls statement by statement, and interrupts come between the statements and into the
busy-waits (`pollMachine`); most of this development speaks of a driver whose polls are one step
(`mscMachine`).  In `MSC_DATA_IN` a packet sent to the driver is ignored, and a packet that the host
takes changes nothing but the slot of the endpoint, which no statement looks at but the busy-wait:
all other statements are movers.

* `Due` : the state in which `MSC_PrepareDataIn` has work to do.
* `reducible_pollUsbInputStmts` : the statements of the poll, taken apart.
* `polls_atomic` : **the two drivers do the same**, as long as each packet taken in `MSC_SEND_CSW`
  is the status wrapper; so what holds of all runs of the one holds of the runs of the other.
-/

namespace Ch32fun

/-- What the host sees of a run, and what happens to the disk; the source bytes of a packet are not
seen before it is sent. -/
def Event.seen : Event → Bool
  | .copied _ | .fallback => false
  | _ => true

namespace Msc

variable {s s' : Msc} {o : List Event} {α : Type}

/-- The next packet is due. -/
def Due (s : Msc) : Prop := s.mscState = .dataIn ∧ s.NoCswPending

/-- The host has taken the packet. -/
def emptied (s : Msc) : Msc := { s with epMscIn := none }

/-- The interrupts while a packet is due: a packet from the host is ignored, and what the host takes
is gone. -/
theorem handle_due (h : s.Due) (i : Interrupt) : i.handle s =
    match i with
    | .out _ => some (s, [])
    | .take => s.epMscIn.map fun p => (s.emptied, [.taken p]) := by
  cases i with
  | out p =>
    rw [Interrupt.handle, handleMscOut, h.1]
  | take =>
    rw [Interrupt.handle, hostTake]
    cases s.epMscIn with
    | none => rfl
    | some p =>
      change some ((handleInRequest s.emptied), _) = _
      rw [handleInRequest, if_neg (by change s.mscState ≠ _; rw [h.1]; decide)]
      rfl

theorem stable_due : Routine.Stable (fun s i => Interrupt.handle s i) Due := by
  intro s i s' o h hi
  change i.handle s = _ at hi
  rw [handle_due h] at hi
  cases i with
  | out p =>
    cases hi
    exact h
  | take =>
    obtain ⟨p, -, he⟩ := Option.map_eq_some_iff.1 hi
    cases he
    exact ⟨h.1, nofun⟩

/-! ### Movers -/

/-- `r` does not look at the slot. -/
abbrev Moves (r : Routine Msc Event α) : Prop :=
  Routine.Movers (fun s i => Interrupt.handle s i) Event.seen Due r

/-- A statement that does not look at the slot, and leaves it and the state machine alone. -/
theorem moves_stmt {f : Msc → Msc × List Event} {k : Msc → Routine Msc Event α}
    (hf : ∀ s, (f s).1.mscState = s.mscState ∧ (f s).1.epMscIn = s.epMscIn ∧
      (f s.emptied).1 = (f s).1.emptied)
    (hsilent : ∀ s, (f s).2.filter Event.seen = []) (hk : ∀ s, k s.emptied = k s)
    (hmoves : ∀ s, Moves (k s)) : Moves (.stmt f k) := by
  refine ⟨fun s hs => ?_, fun s _ => hmoves s⟩
  obtain ⟨hstate, hslot, hempty⟩ := hf s
  have hdue : (f s).1.Due := by
    refine ⟨hstate.trans hs.1, fun w => ?_⟩
    rw [hslot]
    exact hs.2 w
  refine ⟨hdue, hsilent s, fun i => ?_, fun {i s' o} hi => ?_⟩
  · rw [handle_due hdue, handle_due hs]
    cases i with
    | out p => rfl
    | take =>
      dsimp only
      rw [hslot, Option.map_map]
      refine Option.map_congr fun p _ => ?_
      rw [Function.comp, hempty]
  · rw [handle_due hs] at hi
    cases i with
    | out p =>
      cases hi
      rfl
    | take =>
      obtain ⟨p, -, he⟩ := Option.map_eq_some_iff.1 hi
      cases he
      exact hk s

theorem moves_read {g : Msc → α} (h : ∀ s, g s.emptied = g s) : Moves (Routine.read g) :=
  moves_stmt (fun _ => ⟨rfl, rfl, rfl⟩) (fun _ => rfl) (fun s => by rw [h s]) fun _ => trivial

theorem moves_assign {f : Msc → Msc} (h : ∀ s, (f s).mscState = s.mscState ∧
    (f s).epMscIn = s.epMscIn ∧ f s.emptied = (f s).emptied) : Moves (Routine.assign f) :=
  moves_stmt h (fun _ => rfl) (fun _ => rfl) fun _ => trivial

theorem moves_memcpyStmt (src : ℕ → Src) (n : ℕ) : Moves (memcpyStmt src n) := by
  have hload : ∀ s : Msc, ∀ x : Src, x.load s.emptied = x.load s := fun s x => by cases x <;> rfl
  refine moves_stmt (fun _ => ⟨rfl, rfl, rfl⟩) (fun s => ?_) (fun s => ?_) fun _ => trivial
  · rw [List.filter_map]
    simp [Function.comp_def, Event.seen]
  · simp only [hload]

theorem moves_copyStmts (src : ℕ → Option Src) (n : ℕ) : Moves (copyStmts src n) := by
  induction n with
  | zero => trivial
  | succ n ih =>
    refine ih.bind fun buffer => ?_
    cases src n with
    | none => trivial
    | some x => exact (moves_memcpyStmt _ 1).bind fun _ => trivial

theorem moves_read10Stmts : Moves read10Stmts := by
  refine .bind (moves_read fun _ => rfl) fun _ => .bind (moves_read fun _ => rfl) fun _ =>
    .bind (moves_read fun _ => rfl) fun len => ?_
  have hoff : Moves (Routine.read byteOffsetInSector) := moves_read fun _ => rfl
  refine .ite ?_ (.ite ?_ (.ite ?_ (.ite ?_ (.pure _))))
  · exact .bind hoff fun _ => .bind (moves_memcpyStmt _ _) fun _ => .pure _
  · exact .bind hoff fun _ => .ite (.bind (moves_copyStmts _ _) fun _ => .pure _) (.pure _)
  · refine .bind hoff fun _ => .ite ?_ (.pure _)
    exact .bind (moves_assign fun _ => ⟨rfl, rfl, rfl⟩) fun _ =>
      .bind (moves_assign fun _ => ⟨rfl, rfl, rfl⟩) fun _ =>
        .bind (moves_copyStmts _ _) fun _ => .pure _
  · exact .bind (moves_read fun _ => rfl) fun _ =>
      .ite (.bind (moves_memcpyStmt _ _) fun _ => .pure _) (.pure _)

theorem moves_dataSourceStmts : Moves dataSourceStmts :=
  .bind (moves_read fun _ => rfl) fun _ => .ite (.bind moves_read10Stmts fun _ => .pure _)
    (.bind (moves_read fun _ => rfl) fun _ => .pure _)

theorem moves_updateStateStmts (r : Response) : Moves (updateStateStmts r) := by
  unfold updateStateStmts
  refine .ite ?_ ?_
  · exact .bind (moves_assign fun _ => ⟨rfl, rfl, rfl⟩) fun _ =>
      moves_assign fun _ => ⟨rfl, rfl, rfl⟩
  · exact .bind (moves_assign fun _ => ⟨rfl, rfl, rfl⟩) fun _ =>
      moves_assign fun _ => ⟨rfl, rfl, rfl⟩

/-! ### The poll -/

/-- The routine is one step. -/
abbrev Reduces (r : Routine Msc Event PUnit) : Prop :=
  Routine.Reducible (fun s i => Interrupt.handle s i) TakesCsw Event.seen Due r

/-- Once `msc_state` is `MSC_SEND_CSW`, nothing happens before the status wrapper is queued. -/
theorem reduces_sendStatusStmts {log : List Event} (h : log.filter Event.seen = []) :
    Reduces (sendStatusStmts log) := by
  refine .close (fun _ _ => h) fun {s i x} hs hG hi => ?_
  cases i with
  | out p =>
    cases hi
    exact ⟨rfl, handle_due hs (.out p)⟩
  | take =>
    obtain ⟨w, hw⟩ := hG rfl
    exact absurd hw (hs.2 w)

theorem reduces_mscPrepareDataInStmts : Reduces mscPrepareDataInStmts := by
  refine .bind (moves_read fun _ => rfl) fun _ => .ite trivial ?_
  refine .bind (moves_read fun _ => rfl) fun _ => .ite (reduces_sendStatusStmts rfl) ?_
  refine .bind moves_dataSourceStmts fun r => .ite ?_ (reduces_sendStatusStmts rfl)
  refine .wait (fun s s' o hs hw => ?_) (moves_updateStateStmts r)
  -- a data packet is queued
  unfold sendEndpoint at hw
  cases he : s.epMscIn with
  | some p =>
    rw [he] at hw
    cases hw
  | none =>
    rw [he] at hw
    cases hw
    exact ⟨hs.1, nofun⟩

theorem reducible_pollUsbInputStmts : Reduces pollUsbInputStmts :=
  .bind (moves_read fun _ => rfl) fun _ => .ite reduces_mscPrepareDataInStmts trivial

theorem pollUsbInputStmts_skips (h : s.SlotInv) (hs : ¬ s.Due) :
    ∃ f k, pollUsbInputStmts = .stmt f k ∧ f s = (s, []) ∧ k s = .ret ⟨⟩ := by
  have hne : s.mscState ≠ .dataIn := fun hst =>
    hs ⟨hst, h.noCswPending (by rw [hst]; decide)⟩
  exact ⟨_, _, rfl, rfl, if_neg hne⟩

/-! ### The two drivers -/

/-- The turns of a main loop that is not interrupted, as inputs. -/
def turnInput : Routine.Turn Interrupt → Input
  | .main => .poll
  | .irq i => i.toInput

/-- The main loop that runs its polls as a whole is `mscMachine`. -/
theorem atomically_step (s : Msc) (a : Routine.Turn Interrupt) :
    (Routine.atomically (fun s i => Interrupt.handle s i) pollUsbInputStmts).step s a =
      mscMachine.step s (turnInput a) := by
  cases a with
  | main =>
    change (pollUsbInputStmts.perform s).map _ = s.pollUsbInput
    rw [perform_pollUsbInputStmts, Option.map_map]
    simp [Function.comp_def]
  | irq i => exact Interrupt.handle_eq_step s i

theorem run_of_atomically {s t : Msc} {bs : List (Routine.Turn Interrupt)} {log : List Event}
    (h : (Routine.atomically (fun s i => Interrupt.handle s i) pollUsbInputStmts).Run Machine.Free
      s bs log t) : mscMachine.Run Machine.Free s (bs.map turnInput) log t := by
  induction h with
  | nil s => exact .nil s
  | cons _ hst _ ih => exact .cons trivial ((atomically_step _ _).symm.trans hst) ih

theorem interrupts_turnInput (bs : List (Routine.Turn Interrupt)) :
    (bs.map turnInput).flatMap Input.interrupts = bs.flatMap Routine.Turn.irqs := by
  rw [List.flatMap_map]
  refine List.flatMap_congr fun a _ => ?_
  rcases a with _ | (_ | _) <;> rfl

/-- Between whole polls the host takes nothing else for the status wrapper. -/
theorem SlotInv.takesCsw (h : s.SlotInv) (i : Interrupt) : TakesCsw s i := by
  cases i with
  | out p => trivial
  | take => exact fun hst => ⟨_, h.sendCsw hst⟩

/-- **An interrupted poll is one step.**  Take any run of the interrupted main loop in which each
packet taken in `MSC_SEND_CSW` is the status wrapper.  A driver whose polls are one step can take
the same interrupts in the same order so that everything seen is the same, and is in the same state
whenever a poll has returned.  Conversely all runs of that driver are runs of the interrupted main
loop. -/
theorem polls_atomic :
    (∀ as log x, pollMachine.Run (Routine.Turn.Allowed TakesCsw) powerUp as log x →
      ∃ bs log' t, mscMachine.Run Machine.Free usbInit bs log' t ∧
        bs.flatMap Input.interrupts = as.flatMap Routine.Turn.irqs ∧
        log'.filter Event.seen = log.filter Event.seen ∧ (x.2 = .ret ⟨⟩ → x.1 = t)) ∧
    ∀ bs log t, mscMachine.Run Machine.Free usbInit bs log t →
      ∃ as, pollMachine.Run (Routine.Turn.Allowed TakesCsw) powerUp as log
          (t, pollUsbInputStmts) ∧
        as.flatMap Routine.Turn.irqs = bs.flatMap Input.interrupts := by
  constructor
  · intro as log x h
    have hInv : ∀ s a s' o, s.SlotInv →
        (Routine.atomically (fun s i => Interrupt.handle s i) pollUsbInputStmts).step s a =
          some (s', o) → s'.SlotInv := fun s a s' o hs hst =>
      ((step_iff_move hs).1 ((atomically_step s a).symm.trans hst)).slotInv hs
    obtain ⟨bs, log', t, hrun, hirqs, hlog, hred⟩ :=
      Routine.reducible_run stable_due reducible_pollUsbInputStmts hInv
        (fun t ht hdue => pollUsbInputStmts_skips ht hdue) slotInv_usbInit h
    exact ⟨_, log', t, run_of_atomically hrun, (interrupts_turnInput bs).trans hirqs, hlog,
      hred.eq⟩
  · intro bs log t h
    exact exists_pollMachine_run (h.mono_of_invariant SlotInv slotInv_usbInit
      (fun _ _ _ _ hs _ hst => ((step_iff_move hs).1 hst).slotInv hs)
      fun _ _ hs _ i _ => hs.takesCsw i)

end Msc

end Ch32fun
