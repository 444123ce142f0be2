import Ch32fun.Msc.Accounting
import Ch32fun.Msc.Image
import Ch32fun.Msc.Play

/-!
# Answers and the active cluster after a command

A command is answered with data bytes and one status wrapper, both known in advance (`Answers`).
The file is left alone by every command but `WRITE(10)`; a `READ(10)` that comes past the first
sector of the root directory also resets the active cluster (`Play.cluster_read10`), the others do
not (`Play.cluster_of_ne`).
-/

namespace Ch32fun

/-- What a command is answered with: the data bytes and the status wrapper. -/
structure Reply where
  data : List UInt8
  csw : Csw
  deriving DecidableEq

/-- The status wrapper of the command `c`. -/
def Cbw.status (c : Cbw) (dataResidue : UInt32) (status : UInt8) : Csw :=
  ⟨0x53425355, c.tag, dataResidue, status⟩

/-- The header that the driver generates for a command. -/
def Cbw.header (c : Cbw) : List UInt8 :=
  match c.opcode with
  | .requestSense => [0x70, 0, 0, 0, 0, 0, 0, 10, 0, 0, 0, 0, 0, 0, 0, 0, 0, 0]
  | .inquiry => (Msc.inquiryData ++ [0]).take c.dataTransferLength.toNat
  | .readCapacity10 => [0, 0, 0x3F, 0xFF, 0, 0, 2, 0]
  | .modeSense6 => [3, 0, 0, 0]
  | .modeSense10 => [0, 6, 0, 0, 0, 0, 0, 0]
  | _ => []

/-- The log of a command holds these data bytes and this status wrapper, and no other. -/
def Answers (log : List Event) (r : Reply) : Prop :=
  dataInBytes log = r.data ∧ sentCsws log = [r.csw]

namespace Msc

open Machine

variable {s s' t t' : Msc} {a : Input} {o log : List Event} {c : Cbw} {data : ℕ → UInt8} {k : ℕ}

/-! ### The active cluster -/

/-- The active cluster after `k` packets of the `READ(10)` `c`. -/
def clusterAfter (s : Msc) (c : Cbw) (k : ℕ) : UInt16 :=
  if ∃ j < k, c.readLba j = startRoot then fileCluster else s.activeFileCluster

theorem clusterAfter_zero (s : Msc) (c : Cbw) : s.clusterAfter c 0 = s.activeFileCluster :=
  if_neg fun ⟨_, hj, _⟩ => absurd hj (Nat.not_lt_zero _)

theorem clusterAfter_succ (s : Msc) (c : Cbw) (k : ℕ) : s.clusterAfter c (k + 1) =
    if c.readLba k = startRoot then fileCluster else s.clusterAfter c k := by
  unfold clusterAfter
  by_cases hk : c.readLba k = startRoot
  · rw [if_pos hk, if_pos ⟨k, Nat.lt_succ_self k, hk⟩]
  · rw [if_neg hk]
    refine if_congr ?_ rfl rfl
    constructor
    · rintro ⟨j, hj, hr⟩
      have hne : j ≠ k := by rintro rfl; exact hk hr
      exact ⟨j, by omega, hr⟩
    · rintro ⟨j, hj, hr⟩
      exact ⟨j, by omega, hr⟩

theorem ReadAt.currentLba (h : ReadAt c k t) : t.currentLba = c.readLba k := by
  rw [Msc.currentLba, Cbw.readLba, transferOffset, Cbw.readOffset, h.cbw, h.remaining]

theorem ReadAt.cluster_afterPacket (h : ReadAt c k t) : t.afterPacket.activeFileCluster =
    if c.readLba k = startRoot then fileCluster else t.activeFileCluster := by
  have ho : t.cbw.opcode = .read10 := by rw [h.cbw, h.opcode]
  have hcl : t.afterPacket.activeFileCluster = t.refreshRoot.activeFileCluster := by
    simp [Msc.afterPacket, dataSource, ho, read10Response, updateState]
  rw [hcl, refreshRoot, h.currentLba]
  split_ifs <;> rfl

/-- A `READ(10)` that began in `s` is about to queue packet `k`, or has queued its status. -/
def ReadInv (s : Msc) (c : Cbw) (t : Msc) : Prop :=
  (∃ k ≤ 8 * c.blocks.toNat, t.mscState = .dataIn ∧ ReadAt c k t ∧
    t.activeFileCluster = s.clusterAfter c k) ∨
  ((t.mscState = .sendCsw ∨ t.mscState = .idle) ∧
    t.activeFileCluster = s.clusterAfter c (8 * c.blocks.toNat))

theorem ReadInv.prepare (hst : t.mscState = .dataIn) (hk : k ≤ 8 * c.blocks.toNat)
    (hat : ReadAt c k t) (hcl : t.activeFileCluster = s.clusterAfter c k) (hp : t.Prepare o t') :
    ReadInv s c t' := by
  have hrem := congrArg UInt32.toNat hat.remaining
  rw [Cbw.readRemaining_toNat] at hrem
  cases hp with
  | data hr =>
    -- bytes are left, so this is not the last packet
    have hpos : t.mscBytesRemaining.toNat ≠ 0 := fun h0 => hr (UInt32.toNat_inj.1 h0)
    have hlt : k < 8 * c.blocks.toNat := by omega
    refine .inl ⟨k + 1, hlt, by simpa using hst, (hat.afterPacket hlt).1, ?_⟩
    rw [hat.cluster_afterPacket, clusterAfter_succ, hcl]
  | status hr =>
    rw [hr, UInt32.toNat_zero] at hrem
    obtain rfl : k = 8 * c.blocks.toNat := by omega
    exact .inr ⟨.inl rfl, hcl⟩

/-- Every move of the command keeps count. -/
theorem ReadInv.move (h : ReadInv s c t) (hb : Busy t a) (hm : t.Move a o t') :
    ReadInv s c t' := by
  rcases h with ⟨k, hk, hst, hat, hcl⟩ | ⟨hst, hcl⟩
  · cases hm with
    | ignored _ => exact .inl ⟨k, hk, hst, hat, hcl⟩
    | rejected h => exact absurd h hb
    | accept h => exact absurd h.1 hb
    | receive h => exact absurd (hst.symm.trans h) (by decide)
    | receiveLast h => exact absurd (hst.symm.trans h) (by decide)
    | takeData _ _ => exact .inl ⟨k, hk, hst, ⟨hat.cbw, hat.opcode, hat.remaining⟩, hcl⟩
    | takeStatus h => exact absurd (hst.symm.trans h) (by decide)
    | pollNothing h => exact absurd hst h
    | pollDataIn _ _ hp => exact .prepare hst hk hat hcl hp
  · have hst' : t.mscState = .sendCsw := hst.resolve_right hb
    cases hm with
    | ignored _ => exact .inr ⟨hst, hcl⟩
    | rejected h => exact absurd h hb
    | accept h => exact absurd h.1 hb
    | receive h => exact absurd (hst'.symm.trans h) (by decide)
    | receiveLast h => exact absurd (hst'.symm.trans h) (by decide)
    | takeData h => exact absurd (hst'.symm.trans h) (by decide)
    | takeStatus _ => exact .inr ⟨.inr rfl, hcl⟩
    | pollNothing _ => exact .inr ⟨hst, hcl⟩
    | pollDataIn h => exact absurd (hst'.symm.trans h) (by decide)

theorem ReadInv.begin (s : Msc) (ho : c.opcode = .read10) (hp : (s.begin c).Prepare o t) :
    ReadInv s c t := by
  have ho' : c.opcode.isDataIn = true := by rw [ho]; rfl
  obtain ⟨hst, -, hrem⟩ := begin_dataIn s ho'
  obtain ⟨_, _, _, _, hf, -⟩ := begin_frame s c
  refine .prepare hst (Nat.zero_le _) ⟨begin_cbw s c, ho, ?_⟩ ?_ hp
  · apply UInt32.toNat_inj.1
    rw [hrem, if_pos ho, Cbw.blocks_mul_toNat, Cbw.readRemaining_toNat]
    omega
  · rw [clusterAfter_zero, hf]

/-- **`READ(10)` resets the active cluster** when it comes past the first directory sector. -/
theorem Play.cluster_read10 (h : s.Play c data log s') (hs : s.SlotInv) (ho : c.opcode = .read10) :
    s'.activeFileCluster = s.clusterAfter c (8 * c.blocks.toNat) := by
  obtain ⟨p, e₁, s₁, as, e₂, rfl, hst, hrun, hidle, -⟩ := h
  have h₁ : ReadInv s p.cbw s₁ := by
    cases hst.begin hs with
    | dataIn _ hp => exact .begin s ho hp
    | write10 hw => rw [ho] at hw; cases hw
    | noData hn _ => rw [ho] at hn; cases hn
  have hinv : ReadInv s p.cbw s' := run_invariant (fun t _ => ReadInv s p.cbw t) [] hrun
    (hst.slotInv hs) h₁ fun _ _ _ _ _ _ hi hg hm => hi.move hg.1 hm
  rcases hinv with ⟨k, -, hst', -⟩ | ⟨-, hcl⟩
  · exact absurd (hst'.symm.trans hidle) (by decide)
  · exact hcl

theorem Play.cluster_of_ne (h : s.Play c data log s') (hs : s.SlotInv) (hr : c.opcode ≠ .read10)
    (hw : c.opcode ≠ .write10) : s'.activeFileCluster = s.activeFileCluster := by
  obtain ⟨p, e₁, s₁, as, e₂, rfl, hst, hrun, -, -⟩ := h
  let Inv (t : Msc) : Prop := t.mscState ≠ .dataOut ∧ t.cbw.opcode ≠ .read10 ∧
    t.activeFileCluster = s.activeFileCluster
  have hpacket : ∀ {t t' : Msc} {o}, t.cbw.opcode ≠ .read10 → t.Prepare o t' →
      t'.cbw = t.cbw ∧ t'.activeFileCluster = t.activeFileCluster := by
    intro t t' o hne hp
    cases hp with
    | data _ =>
      refine ⟨by simp, ?_⟩
      have hsrc : t.dataSource.1 = t := by
        unfold dataSource
        split
        · rename_i h; exact absurd h hne
        · rfl
      obtain ⟨_, _, _, hu, -⟩ := updateState_frame t t.dataSource.2
      rw [afterPacket, hsrc, hu]
    | status _ => exact ⟨rfl, rfl⟩
  have hb := hst.begin hs
  obtain ⟨_, _, _, _, hf, -⟩ := begin_frame s p.cbw
  have h₁ : Inv s₁ := by
    refine ⟨hb.ne_dataOut hw, ?_⟩
    cases hb with
    | dataIn _ hp =>
      obtain ⟨hcbw, hcl⟩ := hpacket (by simpa using hr) hp
      rw [hcbw, hcl, begin_cbw, hf]
      exact ⟨hr, rfl⟩
    | write10 h => exact absurd h hw
    | noData _ _ =>
      change (s.begin p.cbw).cbw.opcode ≠ _ ∧ (s.begin p.cbw).activeFileCluster = _
      rw [begin_cbw, hf]
      exact ⟨hr, rfl⟩
  refine (run_invariant (fun t _ => Inv t) [] hrun (hst.slotInv hs) h₁ ?_).2.2
  rintro t a t' o log ht ⟨hne, hop, hcl⟩ hg hm
  refine ⟨hm.ne_dataOut ht hg.1 hne, ?_⟩
  cases hm with
  | ignored _ => exact ⟨hop, hcl⟩
  | rejected h => exact absurd h hg.1
  | accept h => exact absurd h.1 hg.1
  | receive h => exact absurd h hne
  | receiveLast h => exact absurd h hne
  | takeData _ _ => exact ⟨hop, hcl⟩
  | takeStatus _ => exact ⟨hop, hcl⟩
  | pollNothing _ => exact ⟨hop, hcl⟩
  | pollDataIn _ _ hp =>
    obtain ⟨hcbw, hcl'⟩ := hpacket hop hp
    rw [hcbw, hcl', hcl]
    exact ⟨hop, rfl⟩

/-! ### Answers -/

theorem Play.answers (h : s.Play c data log s') (hs : s.SlotInv) (ds : List (List UInt8))
    {w : Csw} (hr : sentPackets (s.replies c) = ds.map .data ++ [.csw w]) :
    Answers log ⟨ds.flatten, w⟩ := by
  have hsent : sentPackets log = ds.map .data ++ [.csw w] := by
    rw [← hr, ← h.outputs hs, sentPackets_outputs]
  refine ⟨?_, sentCsws_of_sentPackets hsent⟩
  rw [dataInBytes_eq, hsent, flatMap_dataBytes]

theorem begin_csw (s : Msc) (c : Cbw) : (s.begin c).csw = c.status 0 (s.begin c).csw.status := by
  obtain ⟨_, csw, _, _, hf, htag, hres, hsig⟩ := begin_frame s c
  rw [hf]
  obtain ⟨sig, tag, res, status⟩ := csw
  exact (Csw.mk.injEq ..).mpr ⟨hsig, htag, hres, rfl⟩

theorem Play.answers_read10 (h : s.Play c data log s') (hs : s.SlotInv) (hc : c.InRange) :
    Answers log ⟨(List.range c.blocks.toNat).flatMap fun b => s.sector (c.lba.toNat + b),
      c.status 0 0⟩ := by
  rw [← flatten_readPackets]
  exact h.answers hs _ (sentPackets_replies_read10 s hc)

theorem Play.answers_write10 (h : s.Play c data log s') (hs : s.SlotInv)
    (ho : c.opcode = .write10) : Answers log ⟨[], c.status 0 0⟩ := by
  obtain ⟨hst, hstatus, -⟩ := begin_write10 s ho
  refine h.answers hs [] ?_
  rw [replies, if_pos (.inr ho), todo_dataOut hst, begin_csw, hstatus]
  rfl

/-- A command without data is answered with its status: failure when data was asked for. -/
theorem Play.answers_noData (h : s.Play c data log s') (hs : s.SlotInv)
    (ho : c.opcode.isDataIn = false) (hw : c.opcode ≠ .write10) :
    Answers log ⟨[], c.status 0
      (if 0 < c.dataTransferLength ∧ c.flags &&& 0x80 ≠ 0 then 1 else 0)⟩ := by
  have hstatus : (s.begin c).csw.status =
      if 0 < c.dataTransferLength ∧ c.flags &&& 0x80 ≠ 0 then 1 else 0 := by
    unfold begin
    cases hc : c.opcode
    case testUnitReady => split_ifs <;> rfl
    case preventAllowRemoval => split_ifs <;> rfl
    case other => split_ifs <;> rfl
    case write10 => exact absurd hc hw
    all_goals rw [hc] at ho; cases ho
  refine h.answers hs [] ?_
  rw [replies, if_neg (by simp [ho, hw]), begin_csw, hstatus]
  rfl

theorem bytes_oneShotResponse (ho : c.opcode.isDataIn = true) (hn : c.opcode ≠ .read10) :
    (oneShotResponse c.dataTransferLength c.opcode).bytes = c.header := by
  unfold Cbw.header
  cases hc : c.opcode
  case inquiry =>
    -- the request is cut at 37 bytes
    have hall : inquiryData ++ [0] = (List.range 37).map fun i => inquiryData.getD i 0 := by
      decide +kernel
    have hlen : (if c.dataTransferLength < 37 then c.dataTransferLength else 37).toNat =
        min c.dataTransferLength.toNat 37 := by
      split_ifs with h
      · exact (Nat.min_eq_left (UInt32.lt_iff_toNat_lt.1 h).le).symm
      · exact (Nat.min_eq_right (UInt32.le_iff_toNat_le.1 (UInt32.not_lt.1 h))).symm
    dsimp only
    rw [hall, ← List.map_take, List.take_range, ← hlen]
    rfl
  case read10 => exact absurd hc hn
  case requestSense | readCapacity10 | modeSense6 | modeSense10 => rfl
  all_goals rw [hc] at ho; cases ho

theorem packet_begin (s : Msc) (ho : c.opcode.isDataIn = true) (hn : c.opcode ≠ .read10) :
    (s.begin c).packet = c.header := by
  have hrem := (begin_dataIn s ho).2.2
  rw [if_neg hn] at hrem
  have hsrc : (s.begin c).dataSource.2 = oneShotResponse c.dataTransferLength c.opcode := by
    unfold dataSource
    rw [begin_cbw, hrem]
    split
    · rename_i h; exact absurd h hn
    · rfl
  rw [packet, hsrc, bytes_oneShotResponse ho hn]

/-- A generated header is sent when any byte is asked for, and the status reports what it is short
of. -/
theorem Play.answers_oneShot (h : s.Play c data log s') (hs : s.SlotInv)
    (ho : c.opcode.isDataIn = true) (hn : c.opcode ≠ .read10) :
    Answers log (if c.dataTransferLength = 0 then ⟨[], c.status 0 0⟩
      else ⟨c.header, c.status (c.dataTransferLength - .ofNat c.header.length) 0⟩) := by
  obtain ⟨hst, hstatus, hrem⟩ := begin_dataIn s ho
  rw [if_neg hn] at hrem
  split_ifs with hD
  · refine h.answers hs [] ?_
    rw [replies_oneShot_of_eq s ho hn hD, begin_csw, hstatus]
    rfl
  · have ho' : (s.begin c).cbw.opcode.isDataIn = true := by simpa using ho
    obtain ⟨hz, hres⟩ := afterPacket_of_oneShot ho' (by simpa using hn)
    -- the status wrapper after the header
    have hcsw : (s.begin c).afterPacket.csw =
        c.status (c.dataTransferLength - .ofNat c.header.length) 0 := by
      have hlen : (s.begin c).packetLen = .ofNat c.header.length := by
        rw [← packet_begin s ho hn, packet_length, UInt32.ofNat_toNat]
      obtain ⟨csw, _, _, _, _, hf, htag, hst', hsig⟩ := afterPacket_frame (s.begin c)
      rw [hf] at hres
      have hbegin := begin_csw s c
      rw [hf]
      obtain ⟨sig, tag, res, status⟩ := csw
      rw [hbegin] at hsig htag
      exact (Csw.mk.injEq ..).mpr ⟨hsig, htag, by rw [← hlen, ← hrem]; exact hres,
        hst'.trans hstatus⟩
    have hsent : sentPackets (s.replies c) = [c.header].map .data ++
        [.csw (c.status (c.dataTransferLength - .ofNat c.header.length) 0)] := by
      rw [replies, if_pos (.inl ho), todo_of_ne hst ho' (by rw [hrem]; exact hD),
        todo_of_eq (by simpa using hst) hz, sentPackets_append, sentPackets_packetLog, hcsw,
        packet_begin s ho hn]
      rfl
    simpa using h.answers hs [c.header] hsent

end Msc

end Ch32fun
