import Ch32fun.Isler.Basic
import Mathlib.Algebra.BigOperators.Ring.List
import Mathlib.Data.List.TakeDrop

/-!
# Frames stay whole as long as they fit

Frames of different lengths share the receive FIFO, and a reader tells them apart by their length
bytes.  The interrupt pushes byte by byte, and the push drops the bytes that find no room: a frame
that fits only in part is cut, and so is one whose length wraps around to a single byte.

* `FrameFits` : the frame is stored as a whole, or not at all.
* `isr_whole_iff` : the interrupt stores the whole frame or nothing exactly under this condition.
* `frames_whole_iff` : a run all of whose frames fit is a run that never cuts a frame, and in it the
  bytes read and the bytes stored are the complete frames of a subsequence of those received.
-/

namespace Ch32fun

namespace Isler

open Machine

variable {s s' : Isler} {a : IslerInput} {as : List IslerInput} {o log : List IslerEvent}
  {frame : LleBuf}

/-- The frame is stored as a whole, or nothing of it: no slot is free; or its length, which wraps
around, is one that the handler refuses; or there is room for all of it. -/
def FrameFits (s : Isler) (frame : LleBuf) : Prop :=
  s.rxFifo.count = rxFifoSize - 1 ∨ frame 1 = 253 ∨ frame 1 = 254 ∨
    ((frame 1).toNat ≤ 252 ∧ s.rxFifo.count + ((frame 1).toNat + 2) ≤ rxFifoSize - 1)

instance (s : Isler) (frame : LleBuf) : Decidable (s.FrameFits frame) := by
  unfold FrameFits
  exact inferInstance

/-- The condition on the steps of a run. -/
def Fits (s : Isler) (a : IslerInput) : Prop := ∀ frame, a = .rx frame → s.FrameFits frame

/-- The interrupt stores the whole frame, or nothing. -/
def Whole (s : Isler) (frame : LleBuf) : Prop :=
  (modIslerRxIsr s frame).1.rxFifo.stored = s.rxFifo.stored ∨
    (modIslerRxIsr s frame).1.rxFifo.stored = s.rxFifo.stored ++ complete frame

/-- Every interrupt of a run stores the whole frame, or nothing. -/
def WholeOrNothing (s : Isler) (a : IslerInput) : Prop := ∀ frame, a = .rx frame → s.Whole frame

/-- What was read and what is stored are complete frames of a subsequence of the frames received,
and a reader who splits by the length byte finds them. -/
def Framed (s : Isler) (log : List IslerEvent) : Prop :=
  ∃ frames, List.Sublist frames (receivedFrames log) ∧
    bytesRead log ++ s.rxFifo.stored = frames.flatMap complete ∧
    cutFrames (bytesRead log ++ s.rxFifo.stored) = frames.map complete

/-! ### One interrupt -/

theorem isrBytes_of_le (h : (frame 1).toNat ≤ 252) : isrBytes frame = complete frame := by
  have hlen : (isrLen frame).toNat = (frame 1).toNat + 2 := by
    rw [isrLen, UInt8.toNat_add]
    exact Nat.mod_eq_of_lt (by simp; omega)
  have hgood : isrLen frame > 0 ∧ isrLen frame < 255 := by
    rw [gt_iff_lt, UInt8.lt_iff_toNat_lt, UInt8.lt_iff_toNat_lt, hlen]
    exact ⟨Nat.succ_pos _, Nat.lt_succ_of_le (Nat.add_le_add_right h 2)⟩
  rw [isrBytes, if_pos hgood, hlen, complete]

/-- Lengths 255 and 256 are refused, 257 wraps around to 1. -/
theorem isrBytes_of_gt (h : 252 < (frame 1).toNat) :
    isrBytes frame = if frame 1 = 255 then [frame 0] else [] := by
  have hcases : frame 1 = 253 ∨ frame 1 = 254 ∨ frame 1 = 255 := by
    have := (frame 1).toNat_lt
    rw [← UInt8.toNat_inj, ← UInt8.toNat_inj, ← UInt8.toNat_inj]
    change (frame 1).toNat = 253 ∨ (frame 1).toNat = 254 ∨ (frame 1).toNat = 255
    omega
  unfold isrBytes isrLen
  rcases hcases with h | h | h <;> rw [h] <;> rfl

theorem isr_stored (s : Isler) (frame : LleBuf) : (modIslerRxIsr s frame).1.rxFifo.stored =
    s.rxFifo.stored ++ (isrBytes frame).take (rxFifoSize - 1 - s.rxFifo.count) :=
  s.rxFifo.stored_pushAll _

@[simp] theorem length_complete (frame : LleBuf) :
    (complete frame).length = (frame 1).toNat + 2 := by simp [complete]

theorem whole_iff_take (s : Isler) (frame : LleBuf) : s.Whole frame ↔
    (isrBytes frame).take (rxFifoSize - 1 - s.rxFifo.count) = [] ∨
      (isrBytes frame).take (rxFifoSize - 1 - s.rxFifo.count) = complete frame := by
  unfold Whole
  rw [isr_stored, List.append_right_eq_self, List.append_cancel_left_eq]

/-- **The interrupt keeps a frame whole exactly when it fits.** -/
theorem isr_whole_iff (s : Isler) (frame : LleBuf) : s.Whole frame ↔ s.FrameFits frame := by
  have hcount : s.rxFifo.count < 512 := s.rxFifo.count_lt
  have hlen := length_complete frame
  have hbyte : ∀ b : UInt8, frame 1 = b ↔ (frame 1).toNat = b.toNat :=
    fun b => UInt8.toNat_inj.symm
  rw [whole_iff_take, FrameFits, hbyte 253, hbyte 254, show (253 : UInt8).toNat = 253 from rfl,
    show (254 : UInt8).toNat = 254 from rfl, show rxFifoSize - 1 = 511 from rfl]
  by_cases h : (frame 1).toNat ≤ 252
  · -- the bytes pushed are those of the frame, as many as there is room for
    rw [isrBytes_of_le h, List.take_eq_nil_iff, List.take_eq_self_iff,
      ← List.length_eq_zero_iff, hlen]
    omega
  · rw [isrBytes_of_gt (by omega)]
    by_cases h255 : frame 1 = 255
    · -- one byte of 257 is pushed, if there is room for it
      rw [if_pos h255]
      have h255' := (hbyte 255).1 h255
      rw [show (255 : UInt8).toNat = 255 from rfl] at h255'
      have hne : ∀ n, [frame 0].take n ≠ complete frame := by
        intro n he
        have hl := congrArg List.length he
        rw [hlen, List.length_take] at hl
        have := Nat.min_le_right n [frame 0].length
        simp only [List.length_singleton] at this hl
        omega
      rw [or_iff_left (hne _), List.take_eq_nil_iff]
      simp only [List.cons_ne_nil, or_false]
      omega
    · rw [if_neg h255]
      have h255' := mt (hbyte 255).2 h255
      rw [show (255 : UInt8).toNat = 255 from rfl] at h255'
      have := (frame 1).toNat_lt
      simp only [List.take_nil, true_or, true_iff]
      omega

/-! ### Runs -/

theorem Framed.of_stream (frames : List LleBuf) (hsub : frames.Sublist (receivedFrames log))
    (hstream : bytesRead log ++ s.rxFifo.stored = frames.flatMap complete) : s.Framed log := by
  refine ⟨frames, hsub, hstream, ?_⟩
  rw [hstream]
  simpa [cutFrames] using cutFrames_flatMap frames []

/-- Every step that fits keeps the stream one of complete frames. -/
theorem Framed.step (h : s.Framed log) (hg : s.Fits a)
    (hst : islerMachine.step s a = some (s', o)) : s'.Framed (log ++ o) := by
  obtain ⟨frames, hsub, hstream, -⟩ := h
  cases a with
  | rx frame =>
    obtain ⟨rfl, rfl⟩ := isr_eq hst
    have hread : bytesRead (log ++ (modIslerRxIsr s frame).2) = bytesRead log := by simp
    have hrec : receivedFrames (log ++ (modIslerRxIsr s frame).2) =
        receivedFrames log ++ [frame] := by simp
    rcases (isr_whole_iff s frame).2 (hg frame rfl) with hwhole | hwhole
    · -- nothing was stored: the frame is left out of the subsequence
      refine .of_stream frames ?_ (by rw [hread, hwhole, hstream])
      rw [hrec]
      exact hsub.trans (List.sublist_append_left _ _)
    · refine .of_stream (frames ++ [frame]) ?_ ?_
      · rw [hrec]
        exact hsub.append (List.Sublist.refl _)
      · rw [hread, hwhole, ← List.append_assoc, hstream]
        simp
  | read req =>
    cases hst
    refine .of_stream frames (by simpa [receivedFrames] using hsub) ?_
    rw [bytesRead_append, List.append_assoc, ← hstream, ← funIslerRead_stored s req]
    simp [bytesRead]
  | any =>
    cases hst
    exact .of_stream frames (by simpa [receivedFrames] using hsub)
      (by simpa [bytesRead] using hstream)
  | irq handler =>
    cases hst
    rw [List.append_nil]
    exact .of_stream frames hsub hstream

/-- **Frames stay whole in a run exactly when all of them fit.**  The first part says that no
interrupt of the run cuts a frame, the second that the stream is one of complete frames. -/
theorem frames_whole_iff :
    (islerMachine.Run WholeOrNothing islerInit as log s ∧ s.Framed log) ↔
      islerMachine.Run Fits islerInit as log s := by
  have hiff : ∀ s a, WholeOrNothing s a ↔ Fits s a := fun s a =>
    forall_congr' fun frame => imp_congr_right fun _ => isr_whole_iff s frame
  have h₀ : islerInit.Framed [] := .of_stream [] (List.Sublist.refl _) rfl
  constructor
  · rintro ⟨hw, -⟩
    exact hw.mono fun s a => (hiff s a).1
  · intro hf
    exact ⟨hf.mono fun s a => (hiff s a).2, by
      simpa using hf.invariant Framed [] h₀ fun _ _ _ _ _ hi hg hst => hi.step hg hst⟩

/-- A frame of 202 bytes, its content all 200. -/
def longFrame : LleBuf := fun _ => 200

/-- A frame with length byte 255. -/
def wrapFrame : LleBuf := fun i => if i = 1 then 255 else 0

/-- **Frames are cut.**  The third of three frames of 202 bytes fits only in part, and a frame with
length byte 255 is stored as the single byte 0. -/
theorem frames_cut : (∃ as log s, islerMachine.Run Free islerInit as log s ∧ ¬ s.Framed log) ∧
    ∃ frame log s, islerMachine.Run Free islerInit [.rx frame] log s ∧ ¬ s.Framed log := by
  have hcut : ∀ (log : List IslerEvent) (s : Isler) (n : ℕ), bytesRead log = [] →
      (∀ frame ∈ receivedFrames log, (complete frame).length = n) →
      ¬ n ∣ s.rxFifo.count → ¬ s.Framed log := by
    rintro log s n hread hlen hdvd ⟨frames, hsub, hstream, -⟩
    -- the number of bytes of complete frames is a multiple of their length
    have hsum := congrArg List.length hstream
    rw [hread, List.nil_append, Ring.length_stored, List.length_flatMap] at hsum
    refine hdvd (hsum ▸ ?_)
    refine List.dvd_sum fun m hm => ?_
    obtain ⟨frame, hframe, rfl⟩ := List.mem_map.1 hm
    rw [hlen frame (hsub.subset hframe)]
  constructor
  · have hr := run_of_perform (M := islerMachine) (s := islerInit)
      [.rx longFrame, .rx longFrame, .rx longFrame] rfl
    refine ⟨_, _, _, hr, hcut _ _ 202 rfl ?_ ?_⟩
    · simp [receivedFrames, islerInit, longFrame, complete]
    · decide +kernel
  · have hr := run_of_perform (M := islerMachine) (s := islerInit) [.rx wrapFrame] rfl
    refine ⟨_, _, _, hr, hcut _ _ 257 rfl ?_ ?_⟩
    · simp [receivedFrames, islerInit, wrapFrame, complete]
    · decide +kernel

end Isler

end Ch32fun
