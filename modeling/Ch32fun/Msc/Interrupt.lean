import Ch32fun.Msc.Protocol
import Ch32fun.Msc.Stmts

/-!
# The poll under interrupts

The main loop polls statement by statement (`pollUsbInputStmts`), and between any two statements,
and at every turn of its busy-wait, the host may take the packet of `EP_MSC_IN`
(`HandleInRequest`) or send one to `EP_MSC_OUT` (`HandleDataOut`).  `HandleInRequest` takes any
packet that leaves in `MSC_SEND_CSW` for the status wrapper, so the state machine is right as long
as none other does (`TakesCsw`).

## Main definitions

* `pollMachine` : the interrupted main loop.
* `owed` : the tag of the last accepted CBW whose status wrapper the host has not taken.
* `NoEarlyIdle` : in `MSC_IDLE`, and when a CBW is accepted, nothing is owed and no status wrapper
  is pending.

## Main results

* `exists_pollMachine_run` : the runs of `mscMachine` are runs of the interrupted main loop.
* `no_early_idle_iff` : `NoEarlyIdle` holds throughout a run if and only if each packet that is
  taken in `MSC_SEND_CSW` is the status wrapper.
* `early_idle_inquiry` : an `INQUIRY` whose data packet is taken too late.
-/

namespace Ch32fun

/-- The interrupts of the mass-storage endpoints. -/
inductive Interrupt
  /-- The host sends a packet to `EP_MSC_OUT`. -/
  | out (p : OutPacket)
  /-- The host takes the packet of `EP_MSC_IN`. -/
  | take

namespace Interrupt

/-- The handler, run as a whole. -/
def handle (s : Msc) : Interrupt → Option (Msc × List Event)
  | out p => s.handleMscOut p
  | take => s.hostTake

/-- The interrupt as an input of the machine whose polls are not interrupted. -/
def toInput : Interrupt → Input
  | out p => .out p
  | take => .take

theorem handle_eq_step (s : Msc) (i : Interrupt) : i.handle s = mscMachine.step s i.toInput := by
  cases i <;> rfl

end Interrupt

/-- The interrupts among the inputs. -/
def Input.interrupts : Input → List Interrupt
  | .out p => [.out p]
  | .take => [.take]
  | .poll => []

/-- The main loop, interrupted between its statements. -/
def pollMachine : Machine (Msc × Routine Msc Event PUnit) (Routine.Turn Interrupt) Event :=
  Routine.interleave (fun s i => i.handle s) Msc.pollUsbInputStmts

/-- Power-up: the main loop is about to poll. -/
def powerUp : Msc × Routine Msc Event PUnit := (usbInit, Msc.pollUsbInputStmts)

/-- A main loop that happens not to be interrupted in a poll: every run of `mscMachine` is one of
`pollMachine`, with the same interrupts. -/
theorem exists_pollMachine_run {G : Msc → Interrupt → Prop} {s s' : Msc} {as : List Input}
    {o : List Event} (h : mscMachine.Run (fun s a => ∀ i ∈ a.interrupts, G s i) s as o s') :
    ∃ ts, pollMachine.Run (Routine.Turn.Allowed G) (s, Msc.pollUsbInputStmts) ts o
      (s', Msc.pollUsbInputStmts) ∧ ts.flatMap Routine.Turn.irqs = as.flatMap Input.interrupts := by
  induction h with
  | nil s => exact ⟨[], .nil _, rfl⟩
  | @cons s t s' a as o os hg hst _ ih =>
    obtain ⟨ts, hr, hirqs⟩ := ih
    have hirq : ∀ i, a.interrupts = [i] → i.handle s = some (t, o) →
        ∃ ts', pollMachine.Run (Routine.Turn.Allowed G) (s, Msc.pollUsbInputStmts) ts' (o ++ os)
          (s', Msc.pollUsbInputStmts) ∧
          ts'.flatMap Routine.Turn.irqs = (a :: as).flatMap Input.interrupts := by
      intro i ha hi
      refine ⟨.irq i :: ts, .cons (hg i (by simp [ha])) ?_ hr, ?_⟩
      · exact Routine.interleave_irq.trans (congrArg (Option.map _) hi)
      · rw [List.flatMap_cons, List.flatMap_cons, hirqs, ha]
        rfl
    cases a with
    | out p => exact hirq _ rfl hst
    | take => exact hirq _ rfl hst
    | poll =>
      have hp : Msc.pollUsbInputStmts.perform s = some (⟨⟩, t, o) :=
        (Msc.perform_pollUsbInputStmts s).trans (congrArg (Option.map _) hst)
      obtain ⟨n, hn⟩ : ∃ n, pollMachine.Run (Routine.Turn.Allowed G)
          (s, Msc.pollUsbInputStmts) (List.replicate n .main) o (t, .ret ⟨⟩) :=
        Routine.run_perform hp
      -- the loop starts over after the poll
      have hloop : pollMachine.step (t, .ret ⟨⟩) .main =
          some ((t, Msc.pollUsbInputStmts), []) := rfl
      refine ⟨_, hn.append (.cons trivial hloop hr), ?_⟩
      rw [List.flatMap_append, List.flatMap_cons, List.flatMap_cons, hirqs,
        List.flatMap_eq_nil_iff.2 fun a ha => by rw [List.eq_of_mem_replicate ha]; rfl]
      rfl

/-! ### What is owed -/

/-- How an event changes the tag that is owed. -/
def Event.owes (q : Option UInt32) : Event → Option UInt32
  | .accepted c => some c.tag
  | .taken (.csw w) => if q = some w.tag then none else q
  | _ => q

/-- The tag of the last accepted CBW, as long as the host has not taken a status wrapper with that
tag since. -/
def owed (log : List Event) : Option UInt32 := log.foldl Event.owes none

theorem Quiet.foldl_owes {log : List Event} (h : Quiet log) (q : Option UInt32) :
    log.foldl Event.owes q = q := by
  induction log with
  | nil => rfl
  | cons e log ih =>
    have he : e.owes q = q := by
      have := h e List.mem_cons_self
      cases e <;> first | rfl | cases this
    rw [List.foldl_cons, he]
    exact ih fun x hx => h x (List.mem_cons_of_mem e hx)

theorem owed_append (log o : List Event) : owed (log ++ o) = o.foldl Event.owes (owed log) :=
  List.foldl_append

namespace Msc

variable {s s' : Msc} {o log : List Event} {i : Interrupt} {a : Input}

/-- Something is owed exactly outside `MSC_IDLE`, and `csw` answers it. -/
def Owes (s : Msc) (log : List Event) : Prop :=
  owed log = if s.mscState = .idle then none else some s.csw.tag

theorem Owes.of_ne (h : owed log = some s.csw.tag) (hs : s.mscState ≠ .idle) : s.Owes log := by
  rw [Owes, if_neg hs, h]

theorem Owes.ne (h : s.Owes log) (hs : s.mscState ≠ .idle) : owed log = some s.csw.tag := by
  rwa [Owes, if_neg hs] at h

theorem owes_afterStatus (h : owed log = some s.csw.tag) :
    s.afterStatus.Owes (log ++ [.sent (.csw s.csw)]) :=
  .of_ne (by simpa [owed_append, Event.owes, afterStatus] using h) fun h => MscState.noConfusion h

theorem Prepare.owes (h : s.Prepare o s') (hst : s.mscState = .dataIn)
    (ho : owed log = some s.csw.tag) : s'.Owes (log ++ o) := by
  cases h with
  | data _ =>
    refine .of_ne ?_ (by rw [afterPacket_mscState, hst]; decide)
    simp [owed_append, (Quiet.map_copied _).foldl_owes, Event.owes, ho]
  | status _ => exact owes_afterStatus ho

theorem Begin.owes {c : Cbw} (h : s.Begin c o s') : s'.Owes (log ++ o) := by
  have hc : owed (log ++ [.accepted c]) = some (s.begin c).csw.tag := by
    simp [owed_append, Event.owes]
  cases h with
  | @dataIn o s' ho hp =>
    rw [← List.singleton_append, ← List.append_assoc]
    exact hp.owes (begin_dataIn s ho).1 hc
  | write10 ho => exact .of_ne hc (by rw [(begin_write10 s ho).1]; decide)
  | noData _ _ =>
    rw [← List.singleton_append, ← List.append_assoc]
    exact owes_afterStatus hc

theorem Move.owes (h : s.Move a o s') (hi : s.Owes log) : s'.Owes (log ++ o) := by
  cases h with
  | ignored _ => rwa [List.append_nil]
  | rejected _ _ _ => rwa [List.append_nil]
  | accept _ hb => exact hb.owes
  | @receive p hst _ =>
    have ho := hi.ne (by rw [hst]; decide)
    refine .of_ne ?_ (by rw [received_mscState, hst]; decide)
    simp [owed_append, (absorb_quiet s p _).foldl_owes, Event.owes, ho]
  | @receiveLast p hst _ =>
    have ho := hi.ne (by rw [hst]; decide)
    refine .of_ne ?_ fun h => MscState.noConfusion h
    simp [owed_append, (absorb_quiet s p _).foldl_owes, Event.owes, ho, afterStatus]
  | takeData hst _ =>
    refine .of_ne ?_ (by rw [hst]; decide)
    simpa [owed_append, Event.owes] using hi.ne (by rw [hst]; decide)
  | takeStatus hst =>
    have ho := hi.ne (by rw [hst]; decide)
    simp [Owes, owed_append, Event.owes, ho]
  | pollNothing _ => rwa [List.append_nil]
  | pollDataIn hst _ hp => exact hp.owes hst (hi.ne (by rw [hst]; decide))

/-! ### The assertions of the poll -/

/-- A packet taken in `MSC_SEND_CSW` is the status wrapper. -/
def TakesCsw (s : Msc) : Interrupt → Prop
  | .take => s.mscState = .sendCsw → ∃ w, s.epMscIn = some (.csw w)
  | .out _ => True

/-- No status wrapper is pending on `EP_MSC_IN`. -/
def NoCswPending (s : Msc) : Prop := ∀ w, s.epMscIn ≠ some (.csw w)

/-- What holds at every moment: something is owed exactly outside `MSC_IDLE`, and no status
wrapper is pending in `MSC_IDLE`. -/
structure Settled (s : Msc) (log : List Event) : Prop where
  owes : s.Owes log
  pending : s.mscState = .idle → s.NoCswPending

/-- Between two polls. -/
structure Polling (s : Msc) (log : List Event) : Prop where
  slot : s.SlotInv
  owes : s.Owes log

/-- In `MSC_PrepareDataIn`, before the status wrapper is due. -/
structure Preparing (s : Msc) (log : List Event) : Prop extends Polling s log where
  state : s.mscState = .dataIn

/-- In the busy-wait for the status wrapper. -/
structure Sending (s : Msc) (log : List Event) : Prop where
  state : s.mscState = .sendCsw
  pending : s.NoCswPending
  owes : s.Owes log

/-- The assertions that may stand between two statements of the poll. -/
abbrev Between (P : Msc → List Event → Prop) : Prop :=
  Routine.Admissible (fun s i => Interrupt.handle s i) TakesCsw Settled P

theorem SlotInv.noCswPending (h : s.SlotInv) (hst : s.mscState ≠ .sendCsw) : s.NoCswPending := by
  intro w
  cases hs : s.mscState with
  | idle => rw [h.idle hs]; exact nofun
  | dataOut => rw [h.dataOut hs]; exact nofun
  | dataIn => exact (h.dataIn hs).2 w
  | sendCsw => exact absurd hs hst

theorem Polling.settled (h : s.Polling log) : s.Settled log :=
  ⟨h.owes, fun hst => h.slot.noCswPending (by rw [hst]; decide)⟩

theorem SlotInv.move_of_handle (h : s.SlotInv) (hi : i.handle s = some (s', o)) :
    s.Move i.toInput o s' :=
  (step_iff_move h).1 (by rw [← Interrupt.handle_eq_step]; exact hi)

theorem Polling.handle (h : s.Polling log) (hi : i.handle s = some (s', o)) :
    s'.Polling (log ++ o) :=
  have hm := h.slot.move_of_handle hi
  ⟨hm.slotInv h.slot, hm.owes h.owes⟩

theorem SlotInv.handle_dataIn (h : s.SlotInv) (hst : s.mscState = .dataIn)
    (hi : i.handle s = some (s', o)) : s'.mscState = .dataIn := by
  have hm := h.move_of_handle hi
  cases i with
  | out p =>
    obtain ⟨-, rfl⟩ := hm.of_answering (.inl hst)
    exact hst
  | take =>
    cases hm with
    | takeData h' _ => exact h'
    | takeStatus h' => exact absurd (hst.symm.trans h') (by decide)

theorem between_polling : Between Polling where
  inv h := h.settled
  stable h _ hi := h.handle hi

theorem between_preparing : Between Preparing where
  inv h := h.settled
  stable h _ hi := ⟨h.handle hi, h.slot.handle_dataIn h.state hi⟩

/-- While the main loop waits to queue the status wrapper, an OUT packet is ignored, and by the
guard no data packet is taken. -/
theorem between_sending : Between Sending where
  inv h := ⟨h.owes, fun hst => absurd (h.state.symm.trans hst) (by decide)⟩
  stable := by
    intro s i s' o log h hg hi
    cases i with
    | out p =>
      -- `HandleDataOut` returns at once
      rw [Interrupt.handle, handleMscOut, h.state] at hi
      cases hi
      rwa [List.append_nil]
    | take =>
      obtain ⟨w, hw⟩ := hg h.state
      exact absurd hw (h.pending w)

/-! ### The statements keep the assertions -/

/-- The statements of the preparation touch none of this, and are seen as copies at most. -/
theorem Preparing.congr {t : Msc} (h : s.Preparing log) (ht : t.mscState = s.mscState ∧
    t.cbw = s.cbw ∧ t.epMscIn = s.epMscIn ∧ t.csw.tag = s.csw.tag) (ho : Quiet o) :
    t.Preparing (log ++ o) := by
  obtain ⟨hst, hc, he, htag⟩ := ht
  refine ⟨⟨?_, ?_⟩, hst.trans h.state⟩
  · rw [SlotInv, hst, h.state, hc, he]
    exact h.slot.dataIn h.state
  · rw [Owes, owed_append, ho.foldl_owes, hst, htag]
    exact h.owes

/-- `r` leads from `P` to `Q` with interrupts between its statements. -/
abbrev PollTriple {α : Type} (P : Msc → List Event → Prop) (r : Routine Msc Event α)
    (Q : α → Msc → List Event → Prop) : Prop :=
  Routine.Triple (fun s i => Interrupt.handle s i) TakesCsw Settled P r Q

section Preparation

variable {G : Msc → Interrupt → Prop} {J P : Msc → List Event → Prop}

/-- `P` may stand between the statements that prepare a packet: beside the interrupts it is kept by
the copies, and by the two changes of the directory case. -/
structure KeptByPreparation (G : Msc → Interrupt → Prop) (J P : Msc → List Event → Prop) : Prop
    extends Routine.Admissible (fun s i => Interrupt.handle s i) G J P where
  copied : ∀ {s log} (l : List Src), P s log → P s (log ++ l.map .copied)
  cluster : ∀ {s log}, P s log → P { s with activeFileCluster := fileCluster } log
  size : ∀ {s log}, P s log →
    P { s with rootDirEntry := s.rootDirEntry.write 28 4 (leByte s.activeFileSize) } log

namespace KeptByPreparation

variable {α : Type}

theorem read (h : KeptByPreparation G J P) (g : Msc → α) :
    Routine.Triple (fun s i => Interrupt.handle s i) G J P (Routine.read g) fun _ => P :=
  .read (fun _ => h.toAdmissible) fun _ _ hs => hs

theorem memcpyStmt (h : KeptByPreparation G J P) (src : ℕ → Src) (n : ℕ) :
    Routine.Triple (fun s i => Interrupt.handle s i) G J P (memcpyStmt src n) fun _ => P := by
  refine ⟨fun _ => P, fun s log hs => ?_, fun s => ⟨h.toAdmissible, fun _ _ hs => hs⟩⟩
  exact List.map_map .. ▸ h.copied ((List.range n).map src) hs

theorem copyStmts (h : KeptByPreparation G J P) (src : ℕ → Option Src) (n : ℕ) :
    Routine.Triple (fun s i => Interrupt.handle s i) G J P (copyStmts src n) fun _ => P := by
  induction n with
  | zero => exact .pure fun _ _ hs => hs
  | succ n ih =>
    refine .bind ih fun buffer => ?_
    cases src n with
    | none => exact .pure fun _ _ hs => hs
    | some x => exact .bind (h.memcpyStmt _ _) fun _ => .pure fun _ _ hs => hs

theorem read10Stmts (h : KeptByPreparation G J P) :
    Routine.Triple (fun s i => Interrupt.handle s i) G J P read10Stmts fun _ => P := by
  have hassign : ∀ f : Msc → Msc, (∀ s log, P s log → P (f s) log) →
      Routine.Triple (fun s i => Interrupt.handle s i) G J P (Routine.assign f) fun _ => P :=
    fun f hf => .exec h.toAdmissible fun s log hs => by
      rw [List.append_nil]
      exact hf s log hs
  refine .bind (h.read _) fun lbaStart => .bind (h.read _) fun lbaOffset =>
    .bind (h.read _) fun len => ?_
  dsimp only
  split_ifs
  · exact .bind (h.read _) fun _ => .bind (h.memcpyStmt _ _) fun _ => .pure fun _ _ hs => hs
  · refine .bind (h.read _) fun off => ?_
    split_ifs
    · exact .bind (h.copyStmts _ _) fun _ => .pure fun _ _ hs => hs
    · exact .pure fun _ _ hs => hs
  · refine .bind (h.read _) fun off => .bind (hassign _ fun _ _ => h.cluster) fun _ => ?_
    refine .bind (hassign _ fun _ _ => h.size) fun _ => ?_
    exact .bind (h.copyStmts _ _) fun _ => .pure fun _ _ hs => hs
  · exact .bind (h.read _) fun _ => .pure fun _ _ hs => hs
  · refine .bind (h.read _) fun ramOffset => ?_
    split_ifs
    · exact .bind (h.memcpyStmt _ _) fun _ => .pure fun _ _ hs => hs
    · exact .pure fun _ _ hs => hs
  · exact .pure fun _ _ hs => hs

/-- **The statements up to the send keep the assertion.** -/
theorem dataSourceStmts (h : KeptByPreparation G J P) :
    Routine.Triple (fun s i => Interrupt.handle s i) G J P dataSourceStmts fun _ => P := by
  refine .bind (h.read _) fun opcode => ?_
  split_ifs
  · exact .bind h.read10Stmts fun _ => .pure fun _ _ hs => hs
  · exact .bind (h.read _) fun _ => .pure fun _ _ hs => hs

end KeptByPreparation

end Preparation

theorem kept_preparing : KeptByPreparation TakesCsw Settled Preparing where
  toAdmissible := between_preparing
  copied l h := h.congr ⟨rfl, rfl, rfl, rfl⟩ (Quiet.map_copied l)
  cluster {s log} h := by
    have h' := h.congr (t := { s with activeFileCluster := fileCluster }) ⟨rfl, rfl, rfl, rfl⟩ .nil
    rwa [List.append_nil] at h'
  size {s log} h := by
    have h' := h.congr
      (t := { s with rootDirEntry := s.rootDirEntry.write 28 4 (leByte s.activeFileSize) })
      ⟨rfl, rfl, rfl, rfl⟩ .nil
    rwa [List.append_nil] at h'

/-- `r` leads from a moment of the preparation to another one. -/
def Prepares {α : Type} (r : Routine Msc Event α) : Prop :=
  PollTriple Preparing r fun _ => Preparing

namespace Prepares

theorem assign {f : Msc → Msc} (h : ∀ s, (f s).mscState = s.mscState ∧ (f s).cbw = s.cbw ∧
    (f s).epMscIn = s.epMscIn ∧ (f s).csw.tag = s.csw.tag) : Prepares (Routine.assign f) :=
  Routine.Triple.exec between_preparing fun s _ hs => hs.congr (h s) .nil

theorem updateStateStmts (r : Response) : Prepares (updateStateStmts r) := by
  unfold Msc.updateStateStmts
  split_ifs
  · exact Routine.Triple.bind (assign fun _ => ⟨rfl, rfl, rfl, rfl⟩) fun _ =>
      assign fun _ => ⟨rfl, rfl, rfl, rfl⟩
  · exact Routine.Triple.bind (assign fun _ => ⟨rfl, rfl, rfl, rfl⟩) fun _ =>
      assign fun _ => ⟨rfl, rfl, rfl, rfl⟩

theorem sendData (bs : List UInt8) :
    Prepares (Routine.wait fun s => s.sendEndpoint (.data bs)) := by
  refine Routine.Triple.wait between_preparing fun s s' o log h hs => ?_
  obtain ⟨rfl, rfl⟩ := sendEndpoint_eq_some hs
  refine ⟨⟨?_, ?_⟩, h.state⟩
  · rw [SlotInv, h.state]
    exact ⟨(h.slot.dataIn h.state).1, by simp⟩
  · simpa [Owes, owed_append, Event.owes] using h.owes

end Prepares

/-- From the change to `MSC_SEND_CSW` to the queued status wrapper. -/
theorem pollTriple_sendStatusStmts {l : List Event} (hl : ∀ q, l.foldl Event.owes q = q) :
    PollTriple Preparing (sendStatusStmts l) fun _ => Polling := by
  refine Routine.Triple.bind (Q := fun _ => Sending) (.exec between_sending fun s log h => ?_)
    fun _ => .wait between_polling fun s s' o log h hs => ?_
  · refine ⟨rfl, h.slot.noCswPending (by rw [h.state]; decide), .of_ne ?_ fun h => nomatch h⟩
    rw [owed_append, hl]
    exact h.owes.ne (by rw [h.state]; decide)
  · obtain ⟨rfl, rfl⟩ := sendEndpoint_eq_some hs
    refine ⟨by rw [SlotInv, h.state], ?_⟩
    simpa [Owes, owed_append, Event.owes] using h.owes

theorem pollTriple_mscPrepareDataInStmts :
    PollTriple Preparing mscPrepareDataInStmts fun _ => Polling := by
  refine Routine.Triple.bind (kept_preparing.read _) fun mscState => ?_
  split_ifs
  · exact .pure fun _ _ h => h.toPolling
  refine Routine.Triple.bind (kept_preparing.read _) fun remaining => ?_
  split_ifs
  · exact pollTriple_sendStatusStmts fun _ => rfl
  refine Routine.Triple.bind kept_preparing.dataSourceStmts fun r => ?_
  split_ifs
  · exact Routine.Triple.bind (Prepares.sendData _) fun _ =>
      (Prepares.updateStateStmts r).post fun _ _ _ h => h.toPolling
  · exact pollTriple_sendStatusStmts fun _ => rfl

/-- A poll leads from one moment between two polls to the next. -/
theorem pollTriple_pollUsbInputStmts : PollTriple Polling pollUsbInputStmts fun _ => Polling := by
  -- a data-in phase that was seen is not over before the main loop ends it
  have hseen : ∀ st : MscState,
      Between fun s log => s.Polling log ∧ (st = .dataIn → s.mscState = .dataIn) := fun st =>
    { inv := fun h => h.1.settled
      stable := fun h _ hi => ⟨h.1.handle hi, fun hst => h.1.slot.handle_dataIn (h.2 hst) hi⟩ }
  refine Routine.Triple.bind (.read hseen fun s log h => ⟨h, id⟩) fun st => ?_
  split_ifs with hst
  · exact pollTriple_mscPrepareDataInStmts.pre fun s log h => ⟨h.1, h.2 hst⟩
  · exact .pure fun s log h => h.1

/-! ### No early `MSC_IDLE` -/

theorem polling_usbInit : usbInit.Polling [] := ⟨slotInv_usbInit, rfl⟩

theorem settled_of_guarded {as : List (Routine.Turn Interrupt)}
    {x : Msc × Routine Msc Event PUnit}
    (h : pollMachine.Run (Routine.Turn.Allowed TakesCsw) powerUp as log x) : x.1.Settled log :=
  Routine.interleave_invariant between_polling pollTriple_pollUsbInputStmts polling_usbInit h

theorem idle_of_accepted {p : OutPacket} {c : Cbw} (h : s.handleMscOut p = some (s', o))
    (hc : Event.accepted c ∈ o) : s.mscState = .idle := by
  unfold handleMscOut at h
  cases hst : s.mscState with
  | idle => rfl
  | dataIn | sendCsw =>
    rw [hst] at h
    cases h
    cases hc
  | dataOut =>
    rw [hst] at h
    have habs : Event.accepted c ∉ (s.absorb p (s.writeLen p)).2 :=
      fun hm => absorb_quiet s p _ _ hm
    unfold receiveData at h
    dsimp only at h
    split_ifs at h
    · obtain ⟨⟨t, o'⟩, ht, he⟩ := Option.map_eq_some_iff.1 h
      cases he
      obtain ⟨-, rfl⟩ := sendEndpoint_eq_some ht
      simp [habs] at hc
    · cases h
      simp [habs] at hc

/-- In `MSC_IDLE`, and whenever a CBW is accepted, the host has taken the status wrapper of the
last accepted CBW, and none is pending on `EP_MSC_IN`. -/
structure NoEarlyIdle (s : Msc) (log : List Event) : Prop where
  idle : s.mscState = .idle → owed log = none ∧ s.NoCswPending
  accept : ∀ p s' o c, s.handleMscOut p = some (s', o) → .accepted c ∈ o →
    owed log = none ∧ s.NoCswPending

theorem Settled.noEarlyIdle (h : s.Settled log) : s.NoEarlyIdle log := by
  have hidle : s.mscState = .idle → owed log = none ∧ s.NoCswPending := fun hst =>
    ⟨by have := h.owes; rwa [Owes, if_pos hst] at this, h.pending hst⟩
  exact ⟨hidle, fun _ _ _ _ hp hc => hidle (idle_of_accepted hp hc)⟩

/-- A data packet taken in `MSC_SEND_CSW` leads to `MSC_IDLE` and settles nothing. -/
theorem hostTake_sendCsw (hst : s.mscState = .sendCsw) (hs : s.NoCswPending)
    (h : s.hostTake = some (s', o)) :
    s'.mscState = .idle ∧ ∀ log, owed (log ++ o) = owed log := by
  unfold hostTake handleInRequest at h
  cases he : s.epMscIn with
  | none => rw [he] at h; cases h
  | some q =>
    cases q with
    | csw w => exact absurd he (hs w)
    | data bs =>
      simp only [he, hst, ↓reduceIte, Option.some.injEq, Prod.mk.injEq] at h
      obtain ⟨rfl, rfl⟩ := h
      exact ⟨rfl, fun log => by simp [owed_append, Event.owes]⟩

/-- **No early `MSC_IDLE`, exactly.**  Throughout a run of the interrupted main loop the host has
taken what it is owed whenever the state is `MSC_IDLE` or a CBW is accepted, if and only if each
packet taken in `MSC_SEND_CSW` is the status wrapper. -/
theorem no_early_idle_iff {as : List (Routine.Turn Interrupt)}
    {x : Msc × Routine Msc Event PUnit} (h : pollMachine.Run Machine.Free powerUp as log x) :
    (∀ as₁ as₂ log₁ x₁, as = as₁ ++ as₂ → pollMachine.Run Machine.Free powerUp as₁ log₁ x₁ →
      x₁.1.NoEarlyIdle log₁) ↔
    pollMachine.Run (Routine.Turn.Allowed TakesCsw) powerUp as log x := by
  constructor
  · intro hall
    rcases h.guarded_or (G := Routine.Turn.Allowed TakesCsw) with h | h
    · exact h
    obtain ⟨as₁, a, as₂, log₁, o, ⟨t, r⟩, x', rfl, hr, hg, hst⟩ := h
    -- the first packet that is taken for the status wrapper is followed by an early `MSC_IDLE`
    cases a with
    | main => exact absurd trivial hg
    | irq i =>
      cases i with
      | out p => exact absurd trivial hg
      | take =>
        obtain ⟨hcsw, hslot⟩ := Classical.not_imp.1 hg
        have howed : owed log₁ = some t.csw.tag :=
          (settled_of_guarded hr).owes.ne (by rw [hcsw]; decide)
        have hnext := hall (as₁ ++ [.irq .take]) as₂ _ x' (by simp) (hr.free.snoc trivial hst)
        obtain ⟨⟨s', o'⟩, ht, he⟩ :=
          Option.map_eq_some_iff.1 (Routine.interleave_irq.symm.trans hst)
        cases he
        obtain ⟨hidle, hkeep⟩ := hostTake_sendCsw hcsw (not_exists.1 hslot) ht
        have hnone := (hnext.idle hidle).1
        rw [hkeep, howed] at hnone
        cases hnone
  · intro hg as₁ as₂ log₁ x₁ has hr
    subst has
    obtain ⟨x₂, o₁, o₂, hg₁, -, -⟩ := Machine.run_append.1 hg
    obtain ⟨rfl, rfl⟩ := hr.det hg₁
    exact (settled_of_guarded hg₁).noEarlyIdle

/-- An `INQUIRY` whose data packet is taken before the poll. -/
theorem no_early_idle_inquiry : ∃ as log x, pollMachine.Run Machine.Free powerUp as log x ∧
    owed log = none ∧ acceptedTags log = [7] ∧ takenTags log = [7] ∧ x.1.mscState = .idle ∧
    ∀ as₁ as₂ log₁ x₁, as = as₁ ++ as₂ → pollMachine.Run Machine.Free powerUp as₁ log₁ x₁ →
      x₁.1.NoEarlyIdle log₁ := by
  have hmain : ∀ x : Msc × Routine Msc Event PUnit, Routine.Turn.Allowed TakesCsw x .main :=
    fun _ => trivial
  have hirq : ∀ (x : Msc × Routine Msc Event PUnit) i, TakesCsw x.1 i →
      Routine.Turn.Allowed TakesCsw x (.irq i) := fun _ _ h => h
  have start := Machine.Run.nil (M := pollMachine) (G := Routine.Turn.Allowed TakesCsw) powerUp
  have queued := start.snoc
    (hirq _ (.out (Cbw.ofBlock 7 36 0x80 [0x12, 0, 0, 0, 36]).toPacket) trivial) rfl
  have taken := queued.snoc (hirq _ .take fun h => MscState.noConfusion h) rfl
  have waiting := (((taken.snoc (hmain _) rfl).snoc (hmain _) rfl).snoc (hmain _) rfl).snoc
    (hmain _) rfl
  have done := (waiting.snoc (hmain _) rfl).snoc (hirq _ .take fun _ => ⟨_, rfl⟩) rfl
  exact ⟨_, _, _, done.free, rfl, rfl, rfl, rfl, (no_early_idle_iff done.free).2 done⟩

/-- An `INQUIRY` whose data packet is taken while the main loop waits to queue the status
wrapper: the state is `MSC_IDLE`, and the status wrapper with tag 7 has not even been queued. -/
theorem early_idle_inquiry : ∃ as log x, pollMachine.Run Machine.Free powerUp as log x ∧
    ¬ x.1.NoEarlyIdle log ∧ x.1.mscState = .idle ∧ owed log = some 7 ∧ sentCsws log = [] := by
  have h := Machine.run_of_perform (M := pollMachine) (s := powerUp)
    [.irq (.out (Cbw.ofBlock 7 36 0x80 [0x12, 0, 0, 0, 36]).toPacket),
      .main, .main, .main, .main, .main, .irq .take] rfl
  refine ⟨_, _, _, h, fun hn => ?_, rfl, rfl, rfl⟩
  have := (hn.idle rfl).1
  cases this

end Msc

end Ch32fun
