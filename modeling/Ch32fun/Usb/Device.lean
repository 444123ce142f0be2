import Ch32fun.Console.Cdc
import Ch32fun.Machine.Refine
import Ch32fun.Msc.Stall

/-!
# The composite device

The console and the mass-storage function share one USB device: the callbacks of the USB stack
dispatch on the endpoint, and `poll_usb_input` serves the mass storage first and the console after
it.  This file puts the two functions together with the control endpoint.

* `Device.handleDataOut`, `Device.handleInRequest`, `Device.handleSetupCustom` : the callbacks.
* `deviceMachine` : the callbacks and what the main loop does.
* `simulates_msc`, `simulates_console` : each function is a part of the device.
* `functions_independent` : what the host does with one function has no effect on the other, as
  long as the polls come.
* `console_starves` : the main loop stays in its poll while a data packet of the mass storage waits
  for the host, and the console is cut down to the last 64 bytes.
-/

namespace Ch32fun

/-- `EP_CDC_OUT`. -/
abbrev epCdcOut : ℕ := 2

/-- `EP_MSC_OUT`. -/
abbrev epMscOut : ℕ := 6

/-- `EP_MSC_IN`. -/
abbrev epMscIn : ℕ := 5

/-- The class requests that `HandleSetupCustom` distinguishes. -/
inductive SetupCode
  | cdcSetLineCoding
  | cdcSetLineCtlste
  | cdcSendBreak
  | cdcGetLineCoding
  /-- `0xFE`. -/
  | mscGetMaxLun
  | other
  deriving DecidableEq

/-- The globals of both functions, and what the control endpoint uses of the USB stack. -/
structure Device where
  msc : Msc
  console : Console
  /-- `ctx->USBFS_SetupReqLen`. -/
  setupReqLen : UInt16
  /-- `CTRL0BUFF[0]`. -/
  ctrl0Buff : UInt8

/-- What can be observed of the device. -/
inductive DeviceEvent
  | msc (e : Event)
  | console (e : ConsoleEvent)
  /-- `HandleSetupCustom` returned. -/
  | setup (ret : ℤ)
  deriving DecidableEq

/-- The packet as the console sees it: its bytes, without what is left in the buffer. -/
def OutPacket.toCdc (p : OutPacket) : CdcPacket where
  data := (List.range p.len).map p.data.get
  length_le := by simpa using p.len_le

namespace Device

/-- `HandleDataOut`. -/
def handleDataOut (d : Device) (endp : ℕ) (p : OutPacket) : Option (Device × List DeviceEvent) :=
  if endp = 0 then some ({ d with setupReqLen := 0 }, [])
  else if endp = epCdcOut then
    some ({ d with console := d.console.handleCdcOut p.toCdc }, [.console (.received p.toCdc.data)])
  else if endp = epMscOut then
    (d.msc.handleMscOut p).map fun (m, o) => ({ d with msc := m }, o.map .msc)
  else some (d, [])

/-- The host takes the packet of an IN endpoint, and `HandleInRequest` is called. -/
def handleInRequest (d : Device) (endp : ℕ) : Option (Device × List DeviceEvent) :=
  if endp = epMscIn then d.msc.hostTake.map fun (m, o) => ({ d with msc := m }, o.map .msc)
  else some (d, [])

/-- `HandleSetupCustom` : the value returned, and `CTRL0BUFF[0]`. -/
def handleSetupCustom (d : Device) (reqType : UInt8) (code : SetupCode) : ℤ × UInt8 :=
  -- `USB_REQ_TYP_CLASS`
  if reqType &&& 0x20 ≠ 0 then
    match code with
    | .cdcSetLineCoding | .cdcSetLineCtlste | .cdcSendBreak =>
      (if d.setupReqLen ≠ 0 then d.setupReqLen.toNat else -1, d.ctrl0Buff)
    | .cdcGetLineCoding => (d.setupReqLen.toNat, d.ctrl0Buff)
    | .mscGetMaxLun => (1, 0)
    | .other => (0, d.ctrl0Buff)
  else (0, d.ctrl0Buff)

/-- A setup packet: the USB stack latches the length, and asks for the answer. -/
def setup (d : Device) (reqType : UInt8) (code : SetupCode) (len : UInt16) :
    Device × List DeviceEvent :=
  let d := { d with setupReqLen := len }
  let (ret, b) := d.handleSetupCustom reqType code
  ({ d with ctrl0Buff := b }, [.setup ret])

/-- The mass storage takes its part of `poll_usb_input`, and `f` the rest. -/
def afterMsc (d : Device) (f : Console → Console × List ConsoleEvent) :
    Option (Device × List DeviceEvent) :=
  d.msc.pollUsbInput.map fun (m, o) =>
    ({ d with msc := m, console := (f d.console).1 }, o.map .msc ++ (f d.console).2.map .console)

/-- `poll_usb_input` if `mp_hal_background_processing` comes to it, as part of `f`. -/
def withBackground (d : Device) (f : Console → Console × List ConsoleEvent) :
    Console.Background → Option (Device × List DeviceEvent)
  | .polls => d.afterMsc f
  | .idle | .raises => some ({ d with console := (f d.console).1 }, (f d.console).2.map .console)

end Device

/-- What the host, the USB stack and the main loop do. -/
inductive DeviceInput
  | dataOut (endp : ℕ) (p : OutPacket)
  | inRequest (endp : ℕ)
  | setup (reqType : UInt8) (code : SetupCode) (len : UInt16)
  | background (b : Console.Background)
  | stdinRxChr (b : Console.Background)
  | setInterruptChar (ch : ℤ)

/-- The device, each callback run without interruption. -/
def deviceMachine : Machine Device DeviceInput DeviceEvent where
  step d
    | .dataOut endp p => d.handleDataOut endp p
    | .inRequest endp => d.handleInRequest endp
    | .setup reqType code len => some (d.setup reqType code len)
    | .background b => d.withBackground (fun c => c.background b) b
    | .stdinRxChr b => d.withBackground (fun c => c.stdinRxChr b) b
    | .setInterruptChar ch =>
      some ({ d with console := d.console.setInterruptChar ch }, [])

/-- Power-up. -/
def deviceInit : Device := ⟨usbInit, consoleInit, 0, 0⟩

/-! ### What each function sees -/

/-- An input, as the mass storage sees it. -/
def DeviceInput.toMsc : DeviceInput → List Input
  | .dataOut endp p => if endp = epMscOut then [.out p] else []
  | .inRequest endp => if endp = epMscIn then [.take] else []
  | .background .polls | .stdinRxChr .polls => [.poll]
  | _ => []

/-- An input, as the console sees it. -/
def DeviceInput.toConsole : DeviceInput → List ConsoleInput
  | .dataOut endp p => if endp = epCdcOut then [.cdcOut p.toCdc] else []
  | .background b => [.background b]
  | .stdinRxChr b => [.stdinRxChr b]
  | .setInterruptChar ch => [.setInterruptChar ch]
  | _ => []

/-- An observation of the mass storage. -/
def DeviceEvent.toMsc : DeviceEvent → List Event
  | .msc e => [e]
  | _ => []

/-- An observation of the console. -/
def DeviceEvent.toConsole : DeviceEvent → List ConsoleEvent
  | .console e => [e]
  | _ => []

section View

variable (l : List Event) (l' : List ConsoleEvent)

@[simp] theorem toMsc_map_msc : (l.map DeviceEvent.msc).flatMap DeviceEvent.toMsc = l := by
  simp [List.flatMap_map, DeviceEvent.toMsc]

@[simp] theorem toMsc_map_console :
    (l'.map DeviceEvent.console).flatMap DeviceEvent.toMsc = [] := by
  simp [List.flatMap_map, DeviceEvent.toMsc]

@[simp] theorem toConsole_map_msc :
    (l.map DeviceEvent.msc).flatMap DeviceEvent.toConsole = [] := by
  simp [List.flatMap_map, DeviceEvent.toConsole]

@[simp] theorem toConsole_map_console :
    (l'.map DeviceEvent.console).flatMap DeviceEvent.toConsole = l' := by
  simp [List.flatMap_map, DeviceEvent.toConsole]

end View

namespace Device

open Machine

variable {d d' e e' : Device} {a : DeviceInput} {as bs : List DeviceInput}
  {o os os' : List DeviceEvent}

theorem run_nil_of (hm : d'.msc = d.msc) (hc : d'.console = d.console) :
    mscMachine.Run Free d.msc [] [] d'.msc ∧
      consoleMachine.Run Free d.console [] [] d'.console := by
  rw [hm, hc]
  exact ⟨.nil _, .nil _⟩

theorem withBackground_step {f : Console → Console × List ConsoleEvent} {b : Console.Background}
    {i : ConsoleInput} (hf : ∀ c, consoleMachine.step c i = some (f c))
    (h : d.withBackground f b = some (d', o)) :
    mscMachine.Run Free d.msc (match b with | .polls => [.poll] | _ => [])
        (o.flatMap DeviceEvent.toMsc) d'.msc ∧
      consoleMachine.Run Free d.console [i] (o.flatMap DeviceEvent.toConsole) d'.console := by
  cases b with
  | polls =>
    obtain ⟨⟨m, om⟩, hm, he⟩ := Option.map_eq_some_iff.1 h
    cases he
    simp only [List.flatMap_append, toMsc_map_msc, toMsc_map_console, toConsole_map_msc,
      toConsole_map_console, List.append_nil, List.nil_append]
    exact ⟨.single trivial hm, .single trivial (hf _)⟩
  | idle =>
    cases h
    simp only [toMsc_map_console, toConsole_map_console]
    exact ⟨.nil _, .single trivial (hf _)⟩
  | raises =>
    cases h
    simp only [toMsc_map_console, toConsole_map_console]
    exact ⟨.nil _, .single trivial (hf _)⟩

/-- **What a step of the device is** for the mass storage, and for the console. -/
theorem step_cases (h : deviceMachine.step d a = some (d', o)) :
    mscMachine.Run Free d.msc a.toMsc (o.flatMap DeviceEvent.toMsc) d'.msc ∧
      consoleMachine.Run Free d.console a.toConsole (o.flatMap DeviceEvent.toConsole)
        d'.console := by
  cases a with
  | dataOut endp p =>
    change d.handleDataOut endp p = _ at h
    unfold handleDataOut at h
    by_cases h₀ : endp = 0
    · subst h₀
      cases h
      exact run_nil_of rfl rfl
    by_cases h₁ : endp = epCdcOut
    · subst h₁
      cases h
      exact ⟨.nil _, .single trivial rfl⟩
    rw [if_neg h₀, if_neg h₁] at h
    rw [DeviceInput.toConsole, if_neg h₁, DeviceInput.toMsc]
    split_ifs at h ⊢
    · obtain ⟨⟨m, om⟩, hm, he⟩ := Option.map_eq_some_iff.1 h
      cases he
      rw [toMsc_map_msc, toConsole_map_msc]
      exact ⟨.single trivial hm, .nil _⟩
    · cases h; exact run_nil_of rfl rfl
  | inRequest endp =>
    change d.handleInRequest endp = _ at h
    unfold handleInRequest at h
    rw [DeviceInput.toMsc]
    split_ifs at h ⊢
    · obtain ⟨⟨m, om⟩, hm, he⟩ := Option.map_eq_some_iff.1 h
      cases he
      rw [toMsc_map_msc, toConsole_map_msc]
      exact ⟨.single trivial hm, .nil _⟩
    · cases h; exact run_nil_of rfl rfl
  | setup reqType code len => cases h; exact run_nil_of rfl rfl
  | background b =>
    have hst := withBackground_step (i := .background b) (fun _ => rfl) h
    cases b <;> exact hst
  | stdinRxChr b =>
    have hst := withBackground_step (i := .stdinRxChr b) (fun _ => rfl) h
    cases b <;> exact hst
  | setInterruptChar ch =>
    cases h
    exact ⟨.nil _, .single trivial rfl⟩

end Device

open Machine

theorem simulates_msc : Simulates deviceMachine mscMachine Free Free (fun d m => d.msc = m)
    DeviceInput.toMsc DeviceEvent.toMsc where
  step := by
    rintro d _ a d' o rfl - h
    exact ⟨_, (Device.step_cases h).1, rfl⟩

theorem simulates_console : Simulates deviceMachine consoleMachine Free Free
    (fun d c => d.console = c) DeviceInput.toConsole DeviceEvent.toConsole where
  step := by
    rintro d _ a d' o rfl - h
    exact ⟨_, (Device.step_cases h).2, rfl⟩

/-! ### The functions do not disturb each other -/

section Independent

variable {d d' e e' : Device} {as bs : List DeviceInput} {os os' : List DeviceEvent}

theorem exists_afterMsc {o : List Event} {m : Msc} (f : Console → Console × List ConsoleEvent)
    (h : mscMachine.Run Free d.msc [.poll] o m) : ∃ x, d.afterMsc f = some x := by
  obtain ⟨m, o, _, -, hst, -, -⟩ := Run.cons_iff.1 h
  have hp : d.msc.pollUsbInput = some (m, o) := hst
  rw [Device.afterMsc, hp]
  exact ⟨_, rfl⟩

/-- Only the mass storage can keep the device from a step. -/
theorem exists_step {a : DeviceInput} {o : List Event} {m : Msc}
    (h : mscMachine.Run Free d.msc a.toMsc o m) : ∃ x, deviceMachine.step d a = some x := by
  cases a with
  | dataOut endp p =>
    change ∃ x, d.handleDataOut endp p = some x
    unfold Device.handleDataOut
    by_cases h₀ : endp = 0
    · rw [if_pos h₀]
      exact ⟨_, rfl⟩
    by_cases h₁ : endp = epCdcOut
    · rw [if_neg h₀, if_pos h₁]
      exact ⟨_, rfl⟩
    rw [if_neg h₀, if_neg h₁]
    rw [DeviceInput.toMsc] at h
    split_ifs at h ⊢
    · obtain ⟨m, o, _, -, hst, -, -⟩ := Run.cons_iff.1 h
      have hp : d.msc.handleMscOut p = some (m, o) := hst
      rw [hp]
      exact ⟨_, rfl⟩
    · exact ⟨_, rfl⟩
  | inRequest endp =>
    change ∃ x, d.handleInRequest endp = some x
    unfold Device.handleInRequest
    rw [DeviceInput.toMsc] at h
    split_ifs at h ⊢
    · obtain ⟨m, o, _, -, hst, -, -⟩ := Run.cons_iff.1 h
      have hp : d.msc.hostTake = some (m, o) := hst
      rw [hp]
      exact ⟨_, rfl⟩
    · exact ⟨_, rfl⟩
  | setup reqType code len => exact ⟨_, rfl⟩
  | background b =>
    cases b with
    | polls => exact exists_afterMsc (fun c => c.background .polls) h
    | idle => exact ⟨_, rfl⟩
    | raises => exact ⟨_, rfl⟩
  | stdinRxChr b =>
    cases b with
    | polls => exact exists_afterMsc (fun c => c.stdinRxChr .polls) h
    | idle => exact ⟨_, rfl⟩
    | raises => exact ⟨_, rfl⟩
  | setInterruptChar ch => exact ⟨_, rfl⟩

theorem exists_run {o : List Event} {m : Msc}
    (h : mscMachine.Run Free d.msc (as.flatMap DeviceInput.toMsc) o m) :
    ∃ os d', deviceMachine.Run Free d as os d' := by
  induction as generalizing d o with
  | nil => exact ⟨[], d, .nil d⟩
  | cons a as ih =>
    rw [List.flatMap_cons] at h
    obtain ⟨m₁, o₁, o₂, h₁, h₂, -⟩ := run_append.1 h
    obtain ⟨⟨d₁, od⟩, hstep⟩ := exists_step h₁
    obtain ⟨-, rfl⟩ := (Device.step_cases hstep).1.det h₁
    obtain ⟨os, d', hr⟩ := ih h₂
    exact ⟨_, d', .cons trivial hstep hr⟩

/-- **The functions do not disturb each other.**  Two runs of the device, with any traffic on the
control endpoint and on endpoints that are not in use.  If the mass storage starts in the same state
and gets the same packets, takes and polls in both, then it ends in the same state and is observed
to do the same, whatever happens on the console; and the same holds the other way round.  Inputs of
the device can be taken as soon as the mass storage can take its part of them. -/
theorem functions_independent (h : deviceMachine.Run Free d as os d')
    (h' : deviceMachine.Run Free e bs os' e') :
    (d.msc = e.msc → as.flatMap DeviceInput.toMsc = bs.flatMap DeviceInput.toMsc →
      d'.msc = e'.msc ∧ os.flatMap DeviceEvent.toMsc = os'.flatMap DeviceEvent.toMsc) ∧
    (d.console = e.console → as.flatMap DeviceInput.toConsole = bs.flatMap DeviceInput.toConsole →
      d'.console = e'.console ∧
        os.flatMap DeviceEvent.toConsole = os'.flatMap DeviceEvent.toConsole) ∧
    ∀ cs o m, mscMachine.Run Free d'.msc (cs.flatMap DeviceInput.toMsc) o m →
      ∃ os₁ d₁, deviceMachine.Run Free d' cs os₁ d₁ := by
  refine ⟨?_, ?_, fun cs o m hm => exists_run hm⟩
  · intro hm heq
    obtain ⟨_, hr, rfl⟩ := simulates_msc.run rfl h
    obtain ⟨_, hr', rfl⟩ := simulates_msc.run rfl h'
    rw [hm, heq] at hr
    exact (hr.det hr').symm
  · intro hc heq
    obtain ⟨_, hr, rfl⟩ := simulates_console.run rfl h
    obtain ⟨_, hr', rfl⟩ := simulates_console.run rfl h'
    rw [hc, heq] at hr
    exact (hr.det hr').symm

/-- `INQUIRY` for 36 bytes. -/
def inquiryPacket : OutPacket := (Cbw.ofBlock 1 36 0x80 [0x12, 0, 0, 0, 36]).toPacket

/-- An `INQUIRY` is answered the same with packets on the console before and in the middle of it. -/
theorem functions_independent_inquiry : ∃ os d' os' e',
    deviceMachine.Run Free deviceInit [.dataOut epCdcOut inquiryPacket,
      .dataOut epMscOut inquiryPacket, .inRequest epMscIn, .dataOut epCdcOut inquiryPacket,
      .background .polls, .inRequest epMscIn] os d' ∧
    deviceMachine.Run Free deviceInit [.dataOut epMscOut inquiryPacket, .inRequest epMscIn,
      .background .polls, .inRequest epMscIn] os' e' ∧
    d'.msc = e'.msc ∧ (takenCsws (os.flatMap DeviceEvent.toMsc)).length = 1 := by
  have hrun : ((deviceMachine.perform deviceInit [.dataOut epCdcOut inquiryPacket,
      .dataOut epMscOut inquiryPacket, .inRequest epMscIn, .dataOut epCdcOut inquiryPacket,
      .background .polls, .inRequest epMscIn]).bind fun x =>
      (deviceMachine.perform deviceInit [.dataOut epMscOut inquiryPacket, .inRequest epMscIn,
        .background .polls, .inRequest epMscIn]).map fun _ =>
          (takenCsws (x.2.flatMap DeviceEvent.toMsc)).length) = some 1 := by decide +kernel
  obtain ⟨⟨d', os⟩, h, hrun⟩ := Option.bind_eq_some_iff.1 hrun
  obtain ⟨⟨e', os'⟩, h', hcsw⟩ := Option.map_eq_some_iff.1 hrun
  have h := run_of_perform _ h
  have h' := run_of_perform _ h'
  exact ⟨os, d', os', e', h, h', ((functions_independent h h').1 rfl rfl).1, hcsw⟩

end Independent

/-! ### What they share is the poll -/

section Starves

variable {d d' : Device} {m : Msc} {as : List DeviceInput} {os : List DeviceEvent}

theorem console_step_of_ne {c c' : Console} {i : ConsoleInput} {o : List ConsoleEvent}
    (h₁ : i ≠ .background .polls) (h₂ : i ≠ .stdinRxChr .polls)
    (h : consoleMachine.step c i = some (c', o)) : processedBytes o = [] ∧
      c'.buffered = (c.buffered ++ receivedBytes o).rtake usbfsPacketSize := by
  -- nothing arrived
  have hkeep : c.buffered = (c.buffered ++ []).rtake usbfsPacketSize := by
    rw [List.append_nil, List.rtake, Console.length_buffered, Nat.sub_eq_zero_of_le c.idx_le,
      List.drop_zero]
  cases i with
  | cdcOut p =>
    cases h
    refine ⟨rfl, ?_⟩
    rw [Console.buffered_handleCdcOut]
    exact congrArg (fun l => (c.buffered ++ l).rtake _) (List.append_nil _).symm
  | background b =>
    cases b with
    | polls => exact absurd rfl h₁
    | idle => cases h; exact ⟨rfl, hkeep⟩
    | raises => cases h; exact ⟨rfl, hkeep⟩
  | stdinRxChr b =>
    cases b with
    | polls => exact absurd rfl h₂
    | idle =>
      -- a character may be taken from the ring
      rcases c.takeChar_cases with ⟨-, ht⟩ | ⟨-, ht⟩
      · have hst : some c.takeChar = some (c', o) := h
        rw [ht] at hst
        cases hst
        exact ⟨rfl, hkeep⟩
      · have hst : some c.takeChar = some (c', o) := h
        rw [ht] at hst
        cases hst
        exact ⟨rfl, hkeep⟩
    | raises => cases h; exact ⟨rfl, hkeep⟩
  | setInterruptChar ch => cases h; exact ⟨rfl, hkeep⟩

theorem waiting_run {m' : Msc} {is : List Input} {o : List Event} (hs : m.SlotInv)
    (hw : m.Waiting) (his : .take ∉ is) (h : mscMachine.Run Free m is o m') : .poll ∉ is := by
  induction is generalizing m o with
  | nil => exact nofun
  | cons i is ih =>
    obtain ⟨m₁, o₁, o₂, -, hst, hr, -⟩ := Run.cons_iff.1 h
    rw [List.mem_cons, not_or] at his
    have hm := (Msc.step_iff_move hs).1 hst
    cases hm with
    | ignored _ => simpa using ih hs hw his.2 hr
    | rejected hi => exact absurd (hw.1.symm.trans hi) (by decide)
    | accept hi => exact absurd (hw.1.symm.trans hi.1) (by decide)
    | receive hi => exact absurd (hw.1.symm.trans hi) (by decide)
    | receiveLast hi => exact absurd (hw.1.symm.trans hi) (by decide)
    | takeData _ _ => exact absurd rfl his.1
    | takeStatus _ => exact absurd rfl his.1
    | pollNothing hi => exact absurd hw.1 hi
    | pollDataIn _ hnone _ => exact absurd hnone hw.2

theorem console_run_of_ne {c c' : Console} {is : List ConsoleInput} {o : List ConsoleEvent}
    (h₁ : .background .polls ∉ is) (h₂ : .stdinRxChr .polls ∉ is)
    (h : consoleMachine.Run Free c is o c') : processedBytes o = [] ∧
      c'.buffered = (c.buffered ++ receivedBytes o).rtake usbfsPacketSize := by
  induction h with
  | nil c =>
    refine ⟨rfl, ?_⟩
    rw [List.rtake, List.length_append, Console.length_buffered]
    have := c.idx_le
    simp [receivedBytes, Nat.sub_eq_zero_of_le this]
  | @cons c c₁ c' i is o os _ hst _ ih =>
    rw [List.mem_cons, not_or] at h₁ h₂
    obtain ⟨hp, hb⟩ := console_step_of_ne (Ne.symm h₁.1) (Ne.symm h₂.1) hst
    obtain ⟨hp', hb'⟩ := ih h₁.2 h₂.2
    refine ⟨by rw [processedBytes_append, hp, hp']; rfl, ?_⟩
    rw [hb', hb, CdcVars.rtake_rtake_append, receivedBytes_append, List.append_assoc]

theorem toMsc_of_take {a : DeviceInput} (h : .take ∈ a.toMsc) : a = .inRequest epMscIn := by
  cases a with
  | dataOut endp p =>
    rw [DeviceInput.toMsc] at h
    split_ifs at h <;> simp at h
  | inRequest endp =>
    rw [DeviceInput.toMsc] at h
    split_ifs at h with he
    · rw [he]
    · cases h
  | background b => cases b <;> simp [DeviceInput.toMsc] at h
  | stdinRxChr b => cases b <;> simp [DeviceInput.toMsc] at h
  | setup _ _ _ => cases h
  | setInterruptChar _ => cases h

theorem mem_toConsole {a : DeviceInput} {b : Console.Background} :
    (.background b ∈ a.toConsole ↔ a = .background b) ∧
      (.stdinRxChr b ∈ a.toConsole ↔ a = .stdinRxChr b) := by
  cases a with
  | dataOut endp p =>
    rw [DeviceInput.toConsole]
    split_ifs <;> simp
  | inRequest _ => simp [DeviceInput.toConsole]
  | background b => simp [DeviceInput.toConsole, eq_comm]
  | stdinRxChr b => simp [DeviceInput.toConsole, eq_comm]
  | setup _ _ _ => simp [DeviceInput.toConsole]
  | setInterruptChar _ => simp [DeviceInput.toConsole]

/-- **A data packet that the host does not take starves the console.**  In every reachable state a
poll spins exactly while a data packet of the mass storage waits for the host.  From such a state
on, until the host takes the packet, whatever else comes: the main loop stays in its poll, which has
sent and stored nothing and changed neither the RAM disk nor the size of the file; no poll comes to
its end, no byte of the console is processed, and of all that arrives on the console the last 64
bytes are kept. -/
theorem console_starves (hr : d.msc.Reachable) :
    (d.msc.pollUsbInput = none ↔ d.msc.Waiting) ∧
    (∀ ts o x, d.msc.Waiting → pollMachine.Run (Routine.Turn.Allowed Msc.Untaken)
        (d.msc, Msc.pollUsbInputStmts) ts o x →
      d.msc.Stalled x.1 o ∧ ∀ a, x.2 ≠ .ret a) ∧
    ∀ as os d', d.msc.Waiting → deviceMachine.Run Free d as os d' → .inRequest epMscIn ∉ as →
      .background .polls ∉ as ∧ .stdinRxChr .polls ∉ as ∧
        processedBytes (os.flatMap DeviceEvent.toConsole) = [] ∧
        d'.console.buffered = (d.console.buffered ++
          receivedBytes (os.flatMap DeviceEvent.toConsole)).rtake usbfsPacketSize := by
  refine ⟨Msc.pollUsbInput_eq_none_iff hr.slotInv, fun ts o x hw h => Msc.stalled_run hw h,
    fun as os d' hw h hno => ?_⟩
  obtain ⟨_, hmsc, rfl⟩ := simulates_msc.run rfl h
  obtain ⟨_, hcon, rfl⟩ := simulates_console.run rfl h
  have htake : .take ∉ as.flatMap DeviceInput.toMsc := by
    intro hmem
    obtain ⟨a, ha, hat⟩ := List.mem_flatMap.1 hmem
    exact hno (toMsc_of_take hat ▸ ha)
  have hpoll := waiting_run hr.slotInv hw htake hmsc
  have hb : .background .polls ∉ as := fun ha =>
    hpoll (List.mem_flatMap.2 ⟨_, ha, List.mem_singleton_self _⟩)
  have hrx : .stdinRxChr .polls ∉ as := fun ha =>
    hpoll (List.mem_flatMap.2 ⟨_, ha, List.mem_singleton_self _⟩)
  refine ⟨hb, hrx, console_run_of_ne ?_ ?_ hcon⟩
  · intro hmem
    obtain ⟨a, ha, hab⟩ := List.mem_flatMap.1 hmem
    exact hb (mem_toConsole.1.1 hab ▸ ha)
  · intro hmem
    obtain ⟨a, ha, hab⟩ := List.mem_flatMap.1 hmem
    exact hrx (mem_toConsole.2.1 hab ▸ ha)

/-- An `INQUIRY` whose answer is not taken, and a packet on the console: the poll has already given
up the data phase when it begins to wait. -/
theorem console_starves_inquiry : ∃ d ts o x as os d', d.msc.Waiting ∧
    pollMachine.Run (Routine.Turn.Allowed Msc.Untaken) (d.msc, Msc.pollUsbInputStmts) ts o x ∧
      x.1.mscState = .sendCsw ∧ d.msc.Stalled x.1 o ∧
    as ≠ [] ∧ deviceMachine.Run Free d as os d' ∧
      processedBytes (os.flatMap DeviceEvent.toConsole) = [] := by
  have h : ((mscMachine.perform usbInit [.out inquiryPacket]).bind fun x =>
      (pollMachine.perform (x.1, Msc.pollUsbInputStmts) (List.replicate 4 .main)).map fun y =>
        (x.1.mscState, x.1.epMscIn.isSome, y.1.1.mscState)) = some (.dataIn, true, .sendCsw) := by
    decide +kernel
  obtain ⟨⟨m, o⟩, hm, h⟩ := Option.bind_eq_some_iff.1 h
  obtain ⟨⟨x, o'⟩, hx, he⟩ := Option.map_eq_some_iff.1 h
  obtain ⟨hst, he⟩ := Prod.mk.inj he
  obtain ⟨hslot, hcsw⟩ := Prod.mk.inj he
  have hw : m.Waiting := ⟨hst, fun hn => by rw [hn] at hslot; cases hslot⟩
  let d : Device := { deviceInit with msc := m }
  have hspin : pollMachine.Run (Routine.Turn.Allowed Msc.Untaken) (d.msc, Msc.pollUsbInputStmts)
      _ o' x := (run_of_perform _ hx).of_inputs fun a ha y => by
    rw [List.eq_of_mem_replicate ha]
    trivial
  have hrun : deviceMachine.Run Free d [.dataOut epCdcOut (Cbw.ofBlock 1 0 0 []).toPacket] _ _ :=
    .single trivial rfl
  obtain ⟨-, hstall, hstarve⟩ := console_starves (d := d) ⟨_, _, run_of_perform _ hm⟩
  exact ⟨d, _, _, x, _, _, _, hw, hspin, hcsw, (hstall _ _ _ hw hspin).1, by simp, hrun,
    (hstarve _ _ _ hw hrun (by simp)).2.2.1⟩

end Starves

end Ch32fun
