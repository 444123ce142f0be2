import Ch32fun.Msc.Reply

/-!
# Lengths and residues

The bulk-only transport asks that a device moves at most `DataTransferLength` bytes for a command
and reports the rest as the residue of the status wrapper.  The driver takes the length from the
command block (`READ(10)`, `WRITE(10)`), from a constant (the generated headers), or from the
smaller of a constant and the request (`INQUIRY`), and sets the residue on one path only.

* `Accounts c log` : what is asked of the command `c` with the log `log`.
* `Accounted c` : the commands for which the driver does it.
* `accounts_iff` : these are exactly the commands for which it does, however the host plays them.
-/

namespace Ch32fun

/-- The bytes of a data packet. -/
def InPacket.dataBytes : InPacket → List UInt8
  | .data bs => bs
  | .csw _ => []

theorem dataInBytes_eq (log : List Event) :
    dataInBytes log = (sentPackets log).flatMap InPacket.dataBytes := by
  induction log with
  | nil => rfl
  | cons e log ih =>
    cases e with
    | sent q => cases q <;> simp [ih, InPacket.dataBytes]
    | _ => simp [ih]

theorem flatMap_dataBytes (ds : List (List UInt8)) (w : Csw) :
    (ds.map InPacket.data ++ [InPacket.csw w]).flatMap InPacket.dataBytes = ds.flatten := by
  induction ds with
  | nil => rfl
  | cons d ds ih => rw [List.map_cons, List.cons_append, List.flatMap_cons, ih]; rfl

/-- The data bytes that moved for a command: those queued for a data-in command, those consumed for
`WRITE(10)`, none for the others. -/
def movedBytes (c : Cbw) (log : List Event) : ℕ :=
  if c.opcode.isDataIn then (dataInBytes log).length
  else if c.opcode = .write10 then dataOutCount log
  else 0

/-- The log of a command played to its status wrapper is accounted for: data packets, then one
status wrapper with the command's tag; not more bytes moved than were asked for, and the residue is
the difference. -/
def Accounts (c : Cbw) (log : List Event) : Prop :=
  ∃ (ds : List (List UInt8)) (w : Csw), sentPackets log = ds.map .data ++ [.csw w] ∧
    w.tag = c.tag ∧ movedBytes c log ≤ c.dataTransferLength.toNat ∧
    w.dataResidue.toNat = c.dataTransferLength.toNat - movedBytes c log

/-- The commands whose lengths agree with what the driver sends or consumes. -/
def Accounted (c : Cbw) : Prop :=
  match c.opcode with
  | .read10 | .write10 => c.dataTransferLength.toNat = c.blocks.toNat * 512
  | .inquiry => True
  | .requestSense => c.dataTransferLength = 0 ∨ 18 ≤ c.dataTransferLength.toNat
  | .readCapacity10 | .modeSense10 =>
    c.dataTransferLength = 0 ∨ 8 ≤ c.dataTransferLength.toNat
  | .modeSense6 => c.dataTransferLength = 0 ∨ 4 ≤ c.dataTransferLength.toNat
  | .testUnitReady | .preventAllowRemoval | .other => c.dataTransferLength = 0

instance : DecidablePred Accounted := fun c => by
  unfold Accounted
  cases c.opcode <;> exact inferInstance

namespace Msc

variable {s s' s₁ s₂ : Msc} {a : Input} {as : List Input} {o log e₁ e₂ : List Event}
  {p : OutPacket} {c : Cbw}

/-! ### Bytes consumed -/

/-- The bytes a data-out phase has still to consume. -/
def outLeft (s : Msc) : ℕ := if s.mscState = .dataOut then s.mscBytesRemaining.toNat else 0

theorem outLeft_of_ne (h : s.mscState ≠ .dataOut) : outLeft s = 0 := if_neg h

theorem sub_writeLen_toNat (s : Msc) (p : OutPacket) :
    (s.mscBytesRemaining - s.writeLen p).toNat =
      s.mscBytesRemaining.toNat - (s.writeLen p).toNat := by
  refine UInt32.toNat_sub_of_le _ _ (UInt32.le_iff_toNat_le.2 ?_)
  rw [writeLen_toNat]
  exact Nat.min_le_right _ _

theorem writeLen_le (s : Msc) (p : OutPacket) :
    (s.writeLen p).toNat ≤ s.mscBytesRemaining.toNat := by
  rw [writeLen_toNat]
  exact Nat.min_le_right _ _

theorem Prepare.outLeft (h : s.Prepare o s') (hst : s.mscState = .dataIn) :
    dataOutCount o + s'.outLeft = 0 := by
  cases h with
  | data _ => simp [(Quiet.map_copied _).dataOutCount, Msc.outLeft, hst]
  | status _ => simp [Msc.outLeft, afterStatus]

theorem Move.outLeft (h : s.Move a o s') (hb : Busy s a) :
    dataOutCount o + s'.outLeft = s.outLeft := by
  cases h with
  | ignored _ => simp
  | rejected h _ _ => exact absurd h hb
  | accept h _ => exact absurd h.1 hb
  | @receive p h _ =>
    have hle := writeLen_le s p
    simp only [dataOutCount_append, (absorb_quiet s _ _).dataOutCount, Msc.outLeft,
      received_mscState, h, ↓reduceIte, received_mscBytesRemaining, sub_writeLen_toNat,
      dataOutCount_cons, Event.dataOutCount, dataOutCount_nil]
    omega
  | @receiveLast p h hr =>
    have hle := writeLen_le s p
    have hz : s.mscBytesRemaining.toNat - (s.writeLen p).toNat = 0 := by
      rw [← sub_writeLen_toNat, hr]; rfl
    simp only [dataOutCount_append, (absorb_quiet s _ _).dataOutCount, Msc.outLeft, afterStatus,
      h, ↓reduceIte, dataOutCount_cons, Event.dataOutCount, dataOutCount_nil, reduceCtorEq]
    omega
  | takeData h _ => simp [Msc.outLeft, h]
  | takeStatus h => simp [Msc.outLeft, h]
  | pollNothing _ => simp
  | pollDataIn h _ hp => rw [hp.outLeft h, Msc.outLeft, if_neg (by rw [h]; decide)]

theorem busy_run_outLeft (hs : s.SlotInv) (h : mscMachine.Run Busy s as o s') :
    dataOutCount o + s'.outLeft = s.outLeft := by
  refine run_invariant (fun t log => dataOutCount log + t.outLeft = s.outLeft) [] h hs
    (by simp) ?_
  intro t a t' o log _ hi hb hm
  rw [dataOutCount_append, Nat.add_assoc, hm.outLeft hb, hi]

theorem Begin.outLeft (h : s.Begin c o s') (hw : c.opcode = .write10) :
    dataOutCount o + s'.outLeft = c.blocks.toNat * 512 := by
  cases h with
  | dataIn ho _ => rw [hw] at ho; cases ho
  | write10 _ =>
    obtain ⟨hst, -, hrem, -⟩ := begin_write10 s hw
    rw [Msc.outLeft, if_pos hst, hrem, Cbw.blocks_mul_toNat]
    simp
  | noData _ hn => exact absurd hw hn

/-! ### Bytes queued -/

/-- A `READ(10)` in progress queues exactly the bytes left, and never touches the residue. -/
theorem todoIn_read10 {n : ℕ} (ho : s.cbw.opcode = .read10) (hn : s.mscBytesRemaining.toNat < n) :
    ∃ ds : List (List UInt8), sentPackets (todoIn n s) = ds.map .data ++ [.csw s.csw] ∧
      ds.flatten.length = s.mscBytesRemaining.toNat := by
  have ho' : s.cbw.opcode.isDataIn = true := by rw [ho]; rfl
  induction n generalizing s with
  | zero => omega
  | succ n ih =>
    unfold todoIn
    split_ifs with hr
    · exact ⟨[], rfl, by rw [hr]; rfl⟩
    · have hlt := afterPacket_lt ho' hr
      obtain ⟨hrem, hcsw⟩ := afterPacket_of_read10 ho
      obtain ⟨ds, hd, hl⟩ := ih (s := s.afterPacket) (by simpa using ho) (by omega)
        (by simpa using ho')
      -- this packet is `readLen` bytes, and the induction hypothesis counts the rest
      have hlen : s.packet.length = s.readLen.toNat := by
        rw [packet_length, packetLen, dataSource, ho]
        rfl
      have hle : s.readLen ≤ s.mscBytesRemaining := by
        unfold readLen
        split_ifs with h64
        · exact UInt32.le_of_lt h64
        · exact UInt32.le_refl _
      refine ⟨s.packet :: ds, ?_, ?_⟩
      · rw [sentPackets_append, sentPackets_packetLog, hd, hcsw]
        rfl
      rw [List.flatten_cons, List.length_append, hl, hlen, hrem, UInt32.toNat_sub_of_le _ _ hle]
      have := UInt32.le_iff_toNat_le.1 hle
      omega

theorem replies_read10 (s : Msc) (ho : c.opcode = .read10) : ∃ ds : List (List UInt8),
    sentPackets (s.replies c) = ds.map .data ++ [.csw (s.begin c).csw] ∧
      ds.flatten.length = c.blocks.toNat * 512 := by
  have ho' : c.opcode.isDataIn = true := by rw [ho]; rfl
  obtain ⟨hst, -, hrem⟩ := begin_dataIn s ho'
  obtain ⟨ds, hd, hl⟩ := todoIn_read10 (s := s.begin c) (by simpa using ho) (Nat.lt_succ_self _)
  refine ⟨ds, ?_, ?_⟩
  · rw [replies, if_pos (.inl ho'), todo_dataIn hst, hd]
  · rw [hl, hrem, if_pos ho, Cbw.blocks_mul_toNat]

theorem replies_oneShot_of_eq (s : Msc) (ho : c.opcode.isDataIn = true) (hn : c.opcode ≠ .read10)
    (hD : c.dataTransferLength = 0) :
    sentPackets (s.replies c) = [.csw (s.begin c).csw] := by
  obtain ⟨hst, -, hrem⟩ := begin_dataIn s ho
  rw [if_neg hn, hD] at hrem
  rw [replies, if_pos (.inl ho), todo_of_eq hst hrem]
  rfl

theorem replies_oneShot_of_ne (s : Msc) (ho : c.opcode.isDataIn = true) (hn : c.opcode ≠ .read10)
    (hD : c.dataTransferLength ≠ 0) :
    ∃ w : Csw, sentPackets (s.replies c) = [.data (s.begin c).packet, .csw w] ∧
      w.dataResidue = c.dataTransferLength - (s.begin c).packetLen := by
  obtain ⟨hst, -, hrem⟩ := begin_dataIn s ho
  rw [if_neg hn] at hrem
  have ho' : (s.begin c).cbw.opcode.isDataIn = true := by simpa using ho
  obtain ⟨hz, hres⟩ := afterPacket_of_oneShot ho' (by simpa using hn)
  refine ⟨(s.begin c).afterPacket.csw, ?_, by rw [hres, hrem]⟩
  rw [replies, if_pos (.inl ho), todo_of_ne hst ho' (by rw [hrem]; exact hD),
    todo_of_eq (by simpa using hst) hz, sentPackets_append, sentPackets_packetLog]
  rfl

theorem packetLen_begin (s : Msc) (c : Cbw) : (s.begin c).packetLen =
    match c.opcode with
    | .requestSense => 18
    | .inquiry =>
      if (s.begin c).mscBytesRemaining < 37 then (s.begin c).mscBytesRemaining else 37
    | .readCapacity10 | .modeSense10 => 8
    | .modeSense6 => 4
    | .read10 => (s.begin c).readLen
    | _ => 0 := by
  unfold packetLen dataSource
  rw [begin_cbw]
  cases c.opcode <;> rfl

/-- A wrapping difference is the residue exactly when it does not wrap. -/
theorem residue_iff (D n : UInt32) :
    n.toNat ≤ D.toNat ∧ (D - n).toNat = D.toNat - n.toNat ↔ n.toNat ≤ D.toNat := by
  refine ⟨And.left, fun h => ⟨h, UInt32.toNat_sub_of_le _ _ (UInt32.le_iff_toNat_le.2 h)⟩⟩

theorem begin_csw_residue_toNat (s : Msc) (c : Cbw) : (s.begin c).csw.dataResidue.toNat = 0 := by
  rw [begin_csw_dataResidue]; rfl

/-! ### The accounts of each kind of command -/

theorem tag_of_replies {ds : List (List UInt8)} {w : Csw}
    (h : sentPackets (s.replies c) = ds.map .data ++ [.csw w]) : w.tag = c.tag := by
  obtain ⟨ds', w', h', ht, -⟩ := replies_shape s c
  rw [h] at h'
  have hw := List.append_inj_right' h' rfl
  simp only [List.cons.injEq, InPacket.csw.injEq, and_true] at hw
  rw [hw, ht]

theorem accounts_iff_of_sent {ds : List (List UInt8)} {w : Csw} {n : ℕ}
    (hsent : sentPackets log = sentPackets (s.replies c))
    (h : sentPackets (s.replies c) = ds.map .data ++ [.csw w])
    (hn : movedBytes c log = n) :
    Accounts c log ↔ n ≤ c.dataTransferLength.toNat ∧
      w.dataResidue.toNat = c.dataTransferLength.toNat - n := by
  subst hn
  constructor
  · rintro ⟨ds', w', h', -, hle, hres⟩
    rw [hsent, h] at h'
    have hw := List.append_inj_right' h' rfl
    simp only [List.cons.injEq, InPacket.csw.injEq, and_true] at hw
    rw [hw]
    exact ⟨hle, hres⟩
  · rintro ⟨hle, hres⟩
    exact ⟨ds, w, hsent.trans h, tag_of_replies h, hle, hres⟩

theorem movedBytes_of_dataIn {ds : List (List UInt8)} {w : Csw} (ho : c.opcode.isDataIn = true)
    (hsent : sentPackets log = sentPackets (s.replies c))
    (h : sentPackets (s.replies c) = ds.map .data ++ [.csw w]) :
    movedBytes c log = ds.flatten.length := by
  rw [movedBytes, if_pos ho, dataInBytes_eq, hsent, h, flatMap_dataBytes]

theorem accounts_iff_read10 (ho : c.opcode = .read10)
    (hsent : sentPackets log = sentPackets (s.replies c)) : Accounts c log ↔ Accounted c := by
  obtain ⟨ds, h, hl⟩ := replies_read10 s ho
  have hm := movedBytes_of_dataIn (by rw [ho]; rfl) hsent h
  rw [accounts_iff_of_sent hsent h hm, hl, begin_csw_residue_toNat, Accounted, ho]
  dsimp only
  omega

theorem accounted_iff_packetLen (ho : c.opcode.isDataIn = true) (hn : c.opcode ≠ .read10)
    (hD : c.dataTransferLength ≠ 0) :
    Accounted c ↔ (s.begin c).packetLen.toNat ≤ c.dataTransferLength.toNat := by
  have hrem := (begin_dataIn s ho).2.2
  rw [if_neg hn] at hrem
  rw [packetLen_begin, Accounted]
  cases hc : c.opcode
  case read10 => exact absurd hc hn
  case testUnitReady | preventAllowRemoval | write10 | other => rw [hc] at ho; cases ho
  case inquiry =>
    dsimp only
    rw [hrem, true_iff]
    split_ifs with hlt
    · exact le_rfl
    · rw [UInt32.lt_iff_toNat_lt] at hlt
      exact Nat.le_of_not_lt hlt
  all_goals
    dsimp only
    rw [or_iff_right hD]
    rfl

theorem accounted_of_eq (ho : c.opcode.isDataIn = true) (hn : c.opcode ≠ .read10)
    (hD : c.dataTransferLength = 0) : Accounted c := by
  unfold Accounted
  cases hc : c.opcode
  case read10 => exact absurd hc hn
  case testUnitReady | preventAllowRemoval | write10 | other => rw [hc] at ho; cases ho
  case inquiry => trivial
  all_goals exact .inl hD

theorem accounts_iff_oneShot (ho : c.opcode.isDataIn = true) (hn : c.opcode ≠ .read10)
    (hsent : sentPackets log = sentPackets (s.replies c)) : Accounts c log ↔ Accounted c := by
  by_cases hD : c.dataTransferLength = 0
  · -- nothing is asked for, nothing is sent
    have h : sentPackets (s.replies c) =
        ([] : List (List UInt8)).map .data ++ [.csw (s.begin c).csw] :=
      replies_oneShot_of_eq s ho hn hD
    rw [accounts_iff_of_sent hsent h (movedBytes_of_dataIn ho hsent h), begin_csw_residue_toNat,
      hD]
    exact ⟨fun _ => accounted_of_eq ho hn hD, fun _ => ⟨le_rfl, rfl⟩⟩
  · -- the header is sent whole, and the residue is a difference that may wrap
    obtain ⟨w, h, hw⟩ := replies_oneShot_of_ne s ho hn hD
    have h' : sentPackets (s.replies c) = [(s.begin c).packet].map .data ++ [.csw w] := h
    have hm : movedBytes c log = (s.begin c).packetLen.toNat := by
      rw [movedBytes_of_dataIn ho hsent h', List.flatten_singleton, packet_length]
    rw [accounts_iff_of_sent hsent h' hm, hw, residue_iff, accounted_iff_packetLen ho hn hD]

theorem accounts_iff_write10 (ho : c.opcode = .write10)
    (hsent : sentPackets log = sentPackets (s.replies c))
    (hout : dataOutCount log = c.blocks.toNat * 512) : Accounts c log ↔ Accounted c := by
  have h : sentPackets (s.replies c) =
      ([] : List (List UInt8)).map .data ++ [.csw (s.begin c).csw] := by
    rw [replies, if_pos (.inr ho), todo_dataOut (begin_write10 s ho).1]
    rfl
  have hm : movedBytes c log = c.blocks.toNat * 512 := by
    rw [movedBytes, if_neg (by rw [ho]; decide), if_pos ho, hout]
  rw [accounts_iff_of_sent hsent h hm, begin_csw_residue_toNat, Accounted, ho]
  dsimp only
  omega

theorem accounts_iff_noData (ho : c.opcode.isDataIn = false) (hw : c.opcode ≠ .write10)
    (hsent : sentPackets log = sentPackets (s.replies c)) : Accounts c log ↔ Accounted c := by
  have h : sentPackets (s.replies c) =
      ([] : List (List UInt8)).map .data ++ [.csw (s.begin c).csw] := by
    rw [replies, if_neg (by simp [ho, hw])]
    rfl
  have hm : movedBytes c log = 0 := by
    rw [movedBytes, if_neg (by simp [ho]), if_neg hw]
  have hA : Accounted c ↔ c.dataTransferLength = 0 := by
    unfold Accounted
    cases hc : c.opcode
    case testUnitReady | preventAllowRemoval | other => rfl
    case write10 => exact absurd hc hw
    all_goals rw [hc] at ho; cases ho
  rw [accounts_iff_of_sent hsent h hm, begin_csw_residue_toNat, hA, ← UInt32.toNat_inj,
    UInt32.toNat_zero]
  omega

/-- **Which commands are accounted for.**  From any reachable state, a command accepted there and
played in any way to its status wrapper moves at most `DataTransferLength` bytes and reports the
difference as the residue, under its own tag, if and only if its lengths are `Accounted`. -/
theorem accounts_iff (hr : s.Reachable) (h₁ : s.Starts p e₁ s₁)
    (h₂ : mscMachine.Run Busy s₁ as e₂ s₂)
    (hend : s₂.mscState = .sendCsw ∨ s₂.mscState = .idle) :
    Accounts p.cbw (e₁ ++ e₂) ↔ Accounted p.cbw := by
  have hs := hr.slotInv
  have hsent : sentPackets (e₁ ++ e₂) = sentPackets (s.replies p.cbw) := by
    rw [← sentPackets_outputs, command_outputs_of_done hs h₁ h₂ hend]
  by_cases ho : p.cbw.opcode.isDataIn = true
  · by_cases hread : p.cbw.opcode = .read10
    · exact accounts_iff_read10 hread hsent
    · exact accounts_iff_oneShot ho hread hsent
  · by_cases hw : p.cbw.opcode = .write10
    · refine accounts_iff_write10 hw hsent ?_
      -- all blocks were consumed: nothing is left of the data-out phase
      have hbegin := (h₁.begin hs).outLeft hw
      have hrun := busy_run_outLeft (h₁.slotInv hs) h₂
      have hzero : outLeft s₂ = 0 := by
        rcases hend with h | h <;> exact outLeft_of_ne (by rw [h]; decide)
      rw [dataOutCount_append]
      omega
    · exact accounts_iff_noData (by simpa using ho) hw hsent

/-- A `REQUEST SENSE` that asks for 255 bytes at power-up: 18 bytes are moved, and the residue is
the other 237. -/
theorem accounts_requestSense : ∃ e₁ s₁ e₂ s₂,
    usbInit.Starts (Cbw.ofBlock 1 255 0x80 [0x03, 0, 0, 0, 255]).toPacket e₁ s₁ ∧
      mscMachine.Run Busy s₁ [.take, .poll] e₂ s₂ ∧
      movedBytes (Cbw.ofBlock 1 255 0x80 [0x03, 0, 0, 0, 255]) (e₁ ++ e₂) = 18 ∧
      (sentCsws (e₁ ++ e₂)).map Csw.dataResidue = [237] ∧
      Accounts (Cbw.ofBlock 1 255 0x80 [0x03, 0, 0, 0, 255]).toPacket.cbw (e₁ ++ e₂) := by
  have h : usbInit.Starts (Cbw.ofBlock 1 255 0x80 [0x03, 0, 0, 0, 255]).toPacket _ _ :=
    ⟨⟨rfl, rfl, rfl⟩, rfl⟩
  refine ⟨_, _, _, _, h, .cons (fun h => MscState.noConfusion h) rfl
    (.cons (fun h => MscState.noConfusion h) rfl (.nil _)),
    by decide +kernel, by decide +kernel, ?_⟩
  exact (accounts_iff (Machine.Reachable.refl _) h
    (.cons (a := .take) (fun h => MscState.noConfusion h) rfl
      (.cons (a := .poll) (fun h => MscState.noConfusion h) rfl (.nil _)))
    (.inl rfl)).2 (by decide +kernel)

/-- A `REQUEST SENSE` that asks for 4 bytes at power-up: 18 bytes are queued, and the residue wraps
below zero. -/
theorem not_accounts_requestSense : ∃ e₁ s₁ e₂ s₂,
    usbInit.Starts (Cbw.ofBlock 1 4 0x80 [0x03, 0, 0, 0, 4]).toPacket e₁ s₁ ∧
      mscMachine.Run Busy s₁ [.take, .poll] e₂ s₂ ∧ s₂.mscState = .sendCsw ∧
      movedBytes (Cbw.ofBlock 1 4 0x80 [0x03, 0, 0, 0, 4]) (e₁ ++ e₂) = 18 ∧
      (sentCsws (e₁ ++ e₂)).map Csw.dataResidue = [0xFFFFFFF2] ∧
      ¬ Accounts (Cbw.ofBlock 1 4 0x80 [0x03, 0, 0, 0, 4]) (e₁ ++ e₂) := by
  have h : usbInit.Starts (Cbw.ofBlock 1 4 0x80 [0x03, 0, 0, 0, 4]).toPacket _ _ :=
    ⟨⟨rfl, rfl, rfl⟩, rfl⟩
  refine ⟨_, _, _, _, h, .cons (fun h => MscState.noConfusion h) rfl
    (.cons (fun h => MscState.noConfusion h) rfl (.nil _)), rfl,
    by decide +kernel, by decide +kernel, ?_⟩
  rintro ⟨-, -, -, -, hle, -⟩
  exact absurd hle (by decide +kernel)

end Msc

end Ch32fun
