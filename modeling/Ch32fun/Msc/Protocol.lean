import Ch32fun.Msc.Move

/-!
# One status wrapper for each command, in order

The bulk-only protocol as a property of whole runs.  `TagInv` couples the state machine with the
history: which tags were accepted, which status wrappers were queued and which were taken.  It
holds in every reachable state, whatever packets arrive in whatever state.
-/

namespace Ch32fun

namespace Event

/-- The tags of the CBWs an event accepts. -/
@[simp] def acceptedTags (e : Event) : List UInt32 := e.acceptedCbws.map Cbw.tag

/-- The tags of the status wrappers an event puts into the slot. -/
@[simp] def sentTags (e : Event) : List UInt32 := e.sentCsws.map Csw.tag

/-- The tags of the status wrappers the host takes. -/
@[simp] def takenTags (e : Event) : List UInt32 := e.takenCsws.map Csw.tag

end Event

/-- The tags of the accepted CBWs, in order. -/
abbrev acceptedTags (log : List Event) : List UInt32 := log.flatMap Event.acceptedTags

/-- The tags of the status wrappers put into the slot, in order. -/
abbrev sentTags (log : List Event) : List UInt32 := log.flatMap Event.sentTags

/-- The tags of the status wrappers the host took, in order. -/
abbrev takenTags (log : List Event) : List UInt32 := log.flatMap Event.takenTags

theorem acceptedTags_eq (log : List Event) : acceptedTags log = (acceptedCbws log).map Cbw.tag :=
  List.map_flatMap.symm

theorem Quiet.tags {l : List Event} (h : Quiet l) :
    acceptedTags l = [] ∧ sentTags l = [] ∧ takenTags l = [] := by
  refine ⟨?_, ?_, ?_⟩ <;>
    exact h.flatMap_eq_nil fun e he => by cases e <;> first | rfl | cases he

namespace Msc

variable {s s' : Msc} {a : Input} {o log : List Event}

/-- The history belonging to each state of the state machine. -/
def TagInv (s : Msc) (log : List Event) : Prop :=
  match s.mscState with
  | .idle => sentTags log = acceptedTags log ∧ takenTags log = acceptedTags log
  | .dataOut | .dataIn =>
    acceptedTags log = sentTags log ++ [s.csw.tag] ∧ takenTags log = sentTags log
  | .sendCsw =>
    sentTags log = acceptedTags log ∧ acceptedTags log = takenTags log ++ [s.csw.tag]

theorem Prepare.tagInv (h : s.Prepare o s') (hst : s.mscState = .dataIn) (hi : s.TagInv log) :
    s'.TagInv (log ++ o) := by
  rw [TagInv, hst] at hi
  obtain ⟨h₁, h₂⟩ := hi
  cases h with
  | data _ =>
    obtain ⟨ha, hs, ht⟩ := (Quiet.map_copied s.dataSource.2.copied).tags
    simp [TagInv, hst, ha, hs, ht, h₁, h₂]
  | status _ => simp [TagInv, afterStatus, h₁, h₂]

theorem Move.tagInv (h : s.Move a o s') (hi : s.TagInv log) : s'.TagInv (log ++ o) := by
  cases h with
  | ignored _ => simpa using hi
  | rejected hst _ _ => rw [TagInv, hst] at hi; rw [TagInv, hst]; simpa using hi
  | @accept p o s' ha hb =>
    rw [TagInv, ha.1] at hi
    cases hb with
    | @dataIn o s' ho hp =>
      have hb := (begin_dataIn s ho).1
      rw [← List.singleton_append, ← List.append_assoc]
      refine hp.tagInv hb ?_
      simp [TagInv, hb, hi.1, hi.2]
    | write10 ho =>
      have hb := (begin_write10 s ho).1
      simp [TagInv, hb, hi.1, hi.2]
    | noData _ _ => simp [TagInv, afterStatus, hi.1, hi.2]
  | @receive p hst _ =>
    obtain ⟨ha, hs, ht⟩ := (absorb_quiet s p (s.writeLen p)).tags
    rw [TagInv, hst] at hi
    simp [TagInv, hst, ha, hs, ht, hi.1, hi.2]
  | @receiveLast p hst _ =>
    obtain ⟨ha, hs, ht⟩ := (absorb_quiet s p (s.writeLen p)).tags
    rw [TagInv, hst] at hi
    simp [TagInv, afterStatus, ha, hs, ht, hi.1, hi.2]
  | takeData hst _ =>
    rw [TagInv, hst] at hi
    simp [TagInv, hst, hi.1, hi.2]
  | takeStatus hst =>
    rw [TagInv, hst] at hi
    simp [TagInv, hi.1, hi.2]
  | pollNothing _ => simpa using hi
  | pollDataIn hst _ hp => exact hp.tagInv hst hi

theorem run_tagInv {G : Msc → Input → Prop} {as : List Input}
    (h : mscMachine.Run G usbInit as log s) : s.TagInv log :=
  run_invariant TagInv [] h slotInv_usbInit ⟨rfl, rfl⟩ fun _ _ _ _ _ _ hi _ hm => hm.tagInv hi

theorem Move.fallback_notMem (h : s.Move a o s') : Event.fallback ∉ o := by
  have hprep : ∀ {t t' : Msc} {o : List Event}, t.Prepare o t' → Event.fallback ∉ o := by
    rintro t t' o (_ | _) <;> simp
  cases h with
  | accept _ hb =>
    cases hb with
    | dataIn _ hp => simpa using hprep hp
    | _ => simp
  | receive _ _ => simpa using (absorb_quiet s _ _).fallback_notMem
  | receiveLast _ _ => simpa using (absorb_quiet s _ _).fallback_notMem
  | pollDataIn _ _ hp => exact hprep hp
  | _ => simp

theorem run_fallback_notMem {G : Msc → Input → Prop} {as : List Input} (hs : s.SlotInv)
    (h : mscMachine.Run G s as o s') : Event.fallback ∉ o :=
  run_invariant (fun _ log => Event.fallback ∉ log) [] h hs (by simp)
    fun _ _ _ _ _ _ hi _ hm => by simp [hi, hm.fallback_notMem]

theorem Move.idle_of_accepted {c : Cbw} (h : s.Move a o s') (hc : Event.accepted c ∈ o) :
    s.mscState = .idle := by
  have hprep : ∀ {t t' : Msc} {o : List Event}, t.Prepare o t' → Event.accepted c ∉ o := by
    rintro t t' o (_ | _) <;> simp
  have habs : ∀ p, Event.accepted c ∉ (s.absorb p (s.writeLen p)).2 :=
    fun p hm => absorb_quiet s p _ _ hm
  cases h with
  | accept ha _ => exact ha.1
  | receive _ _ => exact absurd hc (by simpa using habs _)
  | receiveLast _ _ => exact absurd hc (by simpa using habs _)
  | pollDataIn _ _ hp => exact absurd hc (hprep hp)
  | _ => simp at hc

/-- The status wrappers answer the commands one by one, with at most the last one unanswered. -/
theorem TagInv.answered (h : s.TagInv log) : sentTags log <+: acceptedTags log ∧
    (acceptedTags log).length ≤ (sentTags log).length + 1 ∧
    (s.mscState = .idle ∨ s.mscState = .sendCsw → sentTags log = acceptedTags log) := by
  unfold TagInv at h
  cases hst : s.mscState with
  | idle | sendCsw =>
    rw [hst] at h
    exact ⟨h.1 ▸ List.prefix_rfl, by rw [h.1]; omega, fun _ => h.1⟩
  | dataOut | dataIn =>
    rw [hst] at h
    exact ⟨h.1 ▸ List.prefix_append _ _, by rw [h.1]; simp, by simp⟩

/-- **One status wrapper for each command, in order.**  After any run from power-up:
in `MSC_IDLE` and `MSC_DATA_OUT` the endpoint is empty; in `MSC_SEND_CSW` it holds the status
wrapper of the last accepted command; in `MSC_DATA_IN` the command is one of the six with a
data-in phase; no OUT packet finds the endpoint busy; the fallback branch was never taken; the
status wrappers queued so far answer the accepted commands one by one, with at most the last one
unanswered; and the next command is accepted only when the host has taken all of them. -/
theorem status_protocol {as : List Input}
    (h : mscMachine.Run Machine.Free usbInit as log s) :
    (s.mscState = .idle ∨ s.mscState = .dataOut → s.epMscIn = none) ∧
    (s.mscState = .sendCsw → ∃ w c, s.epMscIn = some (.csw w) ∧
      (acceptedCbws log).getLast? = some c ∧ w.tag = c.tag) ∧
    (s.mscState = .dataIn → s.cbw.opcode.isDataIn = true) ∧
    (∀ p, s.handleMscOut p ≠ none) ∧
    Event.fallback ∉ log ∧
    (sentTags log <+: acceptedTags log ∧
      (acceptedTags log).length ≤ (sentTags log).length + 1 ∧
      (s.mscState = .idle ∨ s.mscState = .sendCsw → sentTags log = acceptedTags log)) ∧
    (∀ p s' o c, s.handleMscOut p = some (s', o) → .accepted c ∈ o →
      takenTags log = acceptedTags log) := by
  have hs : s.SlotInv := slotInv_usbInit.run h
  have hi : s.TagInv log := run_tagInv h
  refine ⟨?_, ?_, fun hst => (hs.dataIn hst).1, handleMscOut_ne_none hs,
    run_fallback_notMem slotInv_usbInit h, ?_, ?_⟩
  · rintro (hst | hst)
    · exact hs.idle hst
    · exact hs.dataOut hst
  · intro hst
    rw [TagInv, hst] at hi
    -- the last accepted tag is that of the latched status wrapper
    have hlast : ((acceptedCbws log).map Cbw.tag).getLast? = some s.csw.tag := by
      rw [← acceptedTags_eq, hi.2, List.getLast?_concat]
    rw [List.getLast?_map, Option.map_eq_some_iff] at hlast
    obtain ⟨c, hc, ht⟩ := hlast
    exact ⟨s.csw, c, hs.sendCsw hst, hc, ht.symm⟩
  · exact hi.answered
  · intro p s' o c hp hc
    have hst : s.mscState = .idle :=
      ((step_iff_move hs (a := .out p)).1 hp).idle_of_accepted hc
    rw [TagInv, hst] at hi
    exact hi.2

/-- The run of an `INQUIRY`, up to the host taking its status wrapper. -/
theorem status_protocol_inquiry : ∃ log s,
    mscMachine.Run Machine.Free usbInit
      [.out (Cbw.ofBlock 7 36 0x80 [0x12, 0, 0, 0, 36]).toPacket, .take, .poll, .take] log s ∧
    Event.fallback ∉ log ∧ takenTags log = [7] := by
  have h := Machine.run_of_perform (M := mscMachine) (s := usbInit)
    [.out (Cbw.ofBlock 7 36 0x80 [0x12, 0, 0, 0, 36]).toPacket, .take, .poll, .take] rfl
  exact ⟨_, _, h, (status_protocol h).2.2.2.2.1, rfl⟩

end Msc

end Ch32fun
