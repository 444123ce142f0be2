import Ch32fun.Console.Flow
import Ch32fun.Delay

/-!
# How often the console is polled

`mp_hal_background_processing` runs after every opcode and in every turn of the loops that wait.  It
does its work only when the tick is another one than at its last turn, and the tick is a quotient of
a 32-bit counter that wraps around.  Before it polls, it calls `mp_handle_pending`, which may run a
callback (and so call `mp_hal_background_processing` again) or raise, and then there is no poll.

* `ticksBy` : the number of changes of the tick, over all turns of the counter.
* `pacedMachine` : the console with the clock; a call that finds a new tick is open until
  `mp_handle_pending` returns or raises.
* `Synced` : `last_usb_poll` is the tick of the last call, whatever came of that call.
* `polls_paced` : every call that finds a new tick polls unless it raises; there are at most as many
  as the tick has changes, and, when calls are frequent, no less than a fixed part of them.  What
  the console does is a run of `consoleMachine`.
-/

namespace Ch32fun

/-! ### Changes of the tick -/

/-- The largest tick, when it takes `K` cycles. -/
def maxTick (K : ℕ) : ℕ := (2 ^ 32 - 1) / K

/-- How often the tick has changed when the counter, without its wrapping around, is `x`. -/
def ticksBy (K x : ℕ) : ℕ := x / 2 ^ 32 * (maxTick K + 1) + x % 2 ^ 32 / K

section Ticks

variable {K x y d : ℕ} {c : UInt32}

theorem mod_div_le (K x : ℕ) : x % 2 ^ 32 / K ≤ maxTick K :=
  Nat.div_le_div_right (Nat.le_sub_one_of_lt (Nat.mod_lt x (by decide)))

theorem tick_eq_iff (K : ℕ) (c : UInt32) (m n : ℕ) :
    mpHalTicksMs K (funSysTick32 c m) = mpHalTicksMs K (funSysTick32 c n) ↔
      (c.toNat + m) % 2 ^ 32 / K = (c.toNat + n) % 2 ^ 32 / K := by
  rw [mpHalTicksMs, mpHalTicksMs, ← UInt32.toNat_inj, mpHalTicks_toNat, mpHalTicks_toNat,
    funSysTick32_toNat, funSysTick32_toNat]

/-- A turn of the counter later there are more changes than in the whole turn before. -/
theorem ticksBy_lt_of_turn (K : ℕ) (h : x / 2 ^ 32 < y / 2 ^ 32) : ticksBy K x < ticksBy K y := by
  have hle := mod_div_le K x
  calc ticksBy K x ≤ x / 2 ^ 32 * (maxTick K + 1) + maxTick K := Nat.add_le_add_left hle _
    _ < (x / 2 ^ 32 + 1) * (maxTick K + 1) := by rw [Nat.succ_mul]; omega
    _ ≤ y / 2 ^ 32 * (maxTick K + 1) := Nat.mul_le_mul_right _ h
    _ ≤ ticksBy K y := Nat.le_add_right _ _

theorem ticksBy_mono (K : ℕ) (h : x ≤ y) : ticksBy K x ≤ ticksBy K y := by
  rcases (Nat.div_le_div_right h : x / 2 ^ 32 ≤ y / 2 ^ 32).lt_or_eq with hlt | heq
  · exact (ticksBy_lt_of_turn K hlt).le
  · have hmod : x % 2 ^ 32 ≤ y % 2 ^ 32 := by omega
    unfold ticksBy
    rw [heq]
    exact Nat.add_le_add_left (Nat.div_le_div_right hmod) _

theorem ticksBy_lt (h : x ≤ y) (hne : x % 2 ^ 32 / K ≠ y % 2 ^ 32 / K) :
    ticksBy K x < ticksBy K y := by
  rcases (Nat.div_le_div_right h : x / 2 ^ 32 ≤ y / 2 ^ 32).lt_or_eq with hlt | heq
  · exact ticksBy_lt_of_turn K hlt
  · have hmod : x % 2 ^ 32 ≤ y % 2 ^ 32 := by omega
    have hlt := (Nat.div_le_div_right (c := K) hmod).lt_of_ne hne
    unfold ticksBy
    rw [heq]
    exact Nat.add_lt_add_left hlt _

/-- **The same tick, less than a turn of the counter later, is no change.** -/
theorem ticksBy_eq (hK : 0 < K) (h : x ≤ y) (hnear : y + K ≤ x + 2 ^ 32)
    (he : x % 2 ^ 32 / K = y % 2 ^ 32 / K) : ticksBy K x = ticksBy K y := by
  have hx := Nat.div_add_mod' (x % 2 ^ 32) K
  have hy := Nat.div_add_mod' (y % 2 ^ 32) K
  have hmx := Nat.mod_lt (x % 2 ^ 32) hK
  have hmy := Nat.mod_lt (y % 2 ^ 32) hK
  -- two values of the counter with the same tick are less than `K` apart
  rw [he] at hx
  have hturn : x / 2 ^ 32 = y / 2 ^ 32 := by omega
  unfold ticksBy
  rw [hturn, he]

theorem ticksBy_add_unit (hK : 0 < K) (x : ℕ) : ticksBy K x < ticksBy K (x + K) := by
  have hdiv : (x % 2 ^ 32 + K) / K = x % 2 ^ 32 / K + 1 := Nat.add_div_right _ hK
  by_cases hturn : x / 2 ^ 32 < (x + K) / 2 ^ 32
  · exact ticksBy_lt_of_turn K hturn
  · have hmod : (x + K) % 2 ^ 32 = x % 2 ^ 32 + K := by omega
    refine ticksBy_lt (Nat.le_add_right x K) ?_
    rw [hmod, hdiv]
    omega

/-- **At least one change for every `K` cycles.** -/
theorem le_ticksBy_add (hK : 0 < K) (x d : ℕ) : ticksBy K x + d / K ≤ ticksBy K (x + d) := by
  have hunits : ∀ m, ticksBy K x + m ≤ ticksBy K (x + m * K) := by
    intro m
    induction m with
    | zero => rw [Nat.zero_mul]; rfl
    | succ m ih =>
      have hunit := ticksBy_add_unit hK (x + m * K)
      rw [Nat.succ_mul, ← Nat.add_assoc x]
      omega
  exact (hunits _).trans (ticksBy_mono K (Nat.add_le_add_left (Nat.div_mul_le_self d K) x))

/-- **At most one change for every `K` cycles**, one for every turn of the counter, and two. -/
theorem ticksBy_add_le (hK : 0 < K) (x d : ℕ) :
    ticksBy K (x + d) ≤ ticksBy K x + (d / K + d / 2 ^ 32 + 2) := by
  obtain ⟨w, hw⟩ : ∃ w, (x + d) / 2 ^ 32 = x / 2 ^ 32 + w :=
    Nat.exists_eq_add_of_le (Nat.div_le_div_right (Nat.le_add_right x d))
  have hturns : w ≤ d / 2 ^ 32 + 1 := by omega
  have hspan : w * 2 ^ 32 + (x + d) % 2 ^ 32 = x % 2 ^ 32 + d := by omega
  -- `w` turns of the counter, and the ticks of the last one, fit into the cycles
  have hmax : maxTick K * K ≤ 2 ^ 32 :=
    (Nat.div_mul_le_self (2 ^ 32 - 1) K).trans (Nat.sub_le _ _)
  have hticks : w * maxTick K + (x + d) % 2 ^ 32 / K ≤ (x % 2 ^ 32 + d) / K := by
    rw [Nat.le_div_iff_mul_le hK, Nat.add_mul, ← hspan, Nat.mul_assoc]
    exact Nat.add_le_add (Nat.mul_le_mul_left w hmax) (Nat.div_mul_le_self _ K)
  have hsplit : (x % 2 ^ 32 + d) / K ≤ x % 2 ^ 32 / K + d / K + 1 := by
    have hx := Nat.lt_div_mul_add hK (a := x % 2 ^ 32)
    have hd := Nat.lt_div_mul_add hK (a := d)
    rw [← Nat.lt_succ_iff, Nat.div_lt_iff_lt_mul hK, Nat.succ_mul, Nat.succ_mul, Nat.add_mul]
    omega
  have hexpand : (x / 2 ^ 32 + w) * (maxTick K + 1) =
      x / 2 ^ 32 * (maxTick K + 1) + w * maxTick K + w := by ring
  unfold ticksBy
  rw [hw, hexpand]
  omega

end Ticks

/-! ### The console with a clock -/

/-- The console, `last_usb_poll`, and the clock. -/
structure Paced where
  console : Console
  lastUsbPoll : UInt32
  /-- The calls of `mp_hal_background_processing` that are inside `mp_handle_pending`. -/
  inPending : ℕ
  /-- The cycles since the counter was `c`. -/
  now : ℕ
  /-- When `mp_hal_background_processing` last read the clock. -/
  calledAt : ℕ

/-- What can happen. -/
inductive PacedInput
  /-- Time passes. -/
  | wait (cycles : ℕ)
  | cdcOut (p : CdcPacket)
  /-- `mp_hal_background_processing` is called; if it reads the clock again, it does so `cycles`
  later. -/
  | background (cycles : ℕ)
  /-- `mp_handle_pending` returns; the debugger has sent some bytes. -/
  | handled (debug : List UInt8)
  /-- `mp_handle_pending` raises. -/
  | raised
  /-- The test for a character in `mp_hal_stdin_rx_chr`. -/
  | takeChar
  | setInterruptChar (ch : ℤ)

/-- What can be observed. -/
inductive PacedEvent
  /-- A call found a new tick. -/
  | due
  /-- A call came to its end. -/
  | polled
  /-- An exception left a call. -/
  | aborted
  | console (e : ConsoleEvent)
  deriving DecidableEq

namespace Paced

variable (K : ℕ) (c : UInt32) (s : Paced)

/-- `mp_hal_ticks_ms()`. -/
def tick (n : ℕ) : UInt32 := mpHalTicksMs K (funSysTick32 c n)

/-- `mp_hal_background_processing`, up to `mp_handle_pending(true)`. -/
def mpHalBackgroundProcessing (cycles : ℕ) : Paced × List PacedEvent :=
  if tick K c s.now ≠ s.lastUsbPoll then
    let now := s.now + cycles
    ({ s with lastUsbPoll := tick K c now, inPending := s.inPending + 1, now, calledAt := now },
      [.due])
  else ({ s with calledAt := s.now }, [])

/-- `poll_input`, which hands `handle_debug_input` what the debugger sent, and then
`poll_usb_input`. -/
def pollInputs (c : Console) (debug : List UInt8) : Console × List ConsoleEvent :=
  let (c, o) := c.handleInput debug
  let (c, o') := c.pollUsbInput
  (c, o ++ o')

end Paced

/-- The console with a clock whose tick takes `K` cycles. -/
def pacedMachine (K : ℕ) (c : UInt32) : Machine Paced PacedInput PacedEvent where
  step s
    | .wait cycles => some ({ s with now := s.now + cycles }, [])
    | .cdcOut p =>
      some ({ s with console := s.console.handleCdcOut p }, [.console (.received p.data)])
    | .background cycles => some (s.mpHalBackgroundProcessing K c cycles)
    | .handled debug =>
      if 0 < s.inPending then
        let (console, o) := Paced.pollInputs s.console debug
        some ({ s with console, inPending := s.inPending - 1 }, .polled :: o.map .console)
      else none
    | .raised =>
      if 0 < s.inPending then some ({ s with inPending := s.inPending - 1 }, [.aborted]) else none
    | .takeChar =>
      let (console, o) := s.console.takeChar
      some ({ s with console }, o.map .console)
    | .setInterruptChar ch => some ({ s with console := s.console.setInterruptChar ch }, [])

namespace Paced

open Machine

variable {K : ℕ} {c : UInt32} {s s' : Paced} {a : PacedInput} {as : List PacedInput}
  {o log : List PacedEvent}

/-- The calls that found a new tick. -/
def dues (log : List PacedEvent) : ℕ := log.count .due

/-- The calls that polled. -/
def polls (log : List PacedEvent) : ℕ := log.count .polled

/-- The calls that an exception left. -/
def aborts (log : List PacedEvent) : ℕ := log.count .aborted

section Counts

variable (l l' : List PacedEvent)

@[simp] theorem dues_append : dues (l ++ l') = dues l + dues l' := List.count_append

@[simp] theorem polls_append : polls (l ++ l') = polls l + polls l' := List.count_append

@[simp] theorem aborts_append : aborts (l ++ l') = aborts l + aborts l' := List.count_append

end Counts

/-- The changes of the tick up to the last call. -/
def changes (K : ℕ) (c : UInt32) (s : Paced) : ℕ := ticksBy K (c.toNat + s.calledAt)

/-- `last_usb_poll` is the tick of the last call. -/
structure Synced (K : ℕ) (c : UInt32) (s : Paced) : Prop where
  last : s.lastUsbPoll = tick K c s.calledAt
  called_le : s.calledAt ≤ s.now

/-- Not more than `g` cycles pass from one call to the next. -/
def Prompt (g : ℕ) (s : Paced) (a : PacedInput) : Prop :=
  ∀ cycles, a = .background cycles → s.now + cycles ≤ s.calledAt + g

/-! ### What a step can do -/

theorem counts_console (l : List ConsoleEvent) :
    dues (l.map .console) = 0 ∧ polls (l.map .console) = 0 ∧ aborts (l.map .console) = 0 := by
  refine ⟨?_, ?_, ?_⟩ <;> exact List.count_eq_zero.2 (by simp)

/-- **What a call does**, and that nothing else does it. -/
theorem step_cases (hst : (pacedMachine K c).step s a = some (s', o)) :
    (∃ cycles, a = .background cycles ∧ tick K c s.now ≠ s.lastUsbPoll ∧ dues o = 1 ∧
      s'.calledAt = s.now + cycles) ∨
    (∃ cycles, a = .background cycles ∧ tick K c s.now = s.lastUsbPoll ∧ dues o = 0 ∧
      s'.calledAt = s.now) ∨
    (dues o = 0 ∧ s'.calledAt = s.calledAt ∧ s.now ≤ s'.now ∧ s'.lastUsbPoll = s.lastUsbPoll) := by
  cases a with
  | background cycles =>
    have he : s.mpHalBackgroundProcessing K c cycles = (s', o) := Option.some.inj hst
    unfold mpHalBackgroundProcessing at he
    split_ifs at he with hnew
    · cases he
      exact .inl ⟨cycles, rfl, hnew, rfl, rfl⟩
    · cases he
      exact .inr (.inl ⟨cycles, rfl, not_not.1 hnew, rfl, rfl⟩)
  | wait cycles =>
    cases hst
    exact .inr (.inr ⟨rfl, rfl, Nat.le_add_right _ _, rfl⟩)
  | cdcOut p =>
    cases hst
    exact .inr (.inr ⟨rfl, rfl, le_rfl, rfl⟩)
  | handled debug =>
    simp only [pacedMachine] at hst
    split_ifs at hst
    cases hst
    exact .inr (.inr ⟨(counts_console _).1, rfl, le_rfl, rfl⟩)
  | raised =>
    simp only [pacedMachine] at hst
    split_ifs at hst
    cases hst
    exact .inr (.inr ⟨rfl, rfl, le_rfl, rfl⟩)
  | takeChar =>
    cases hst
    exact .inr (.inr ⟨(counts_console _).1, rfl, le_rfl, rfl⟩)
  | setInterruptChar ch =>
    cases hst
    exact .inr (.inr ⟨rfl, rfl, le_rfl, rfl⟩)

/-- Every call that finds a new tick polls, is left by an exception, or is still open. -/
theorem open_step (hst : (pacedMachine K c).step s a = some (s', o)) :
    dues o + s.inPending = polls o + aborts o + s'.inPending := by
  cases a with
  | background cycles =>
    have he : s.mpHalBackgroundProcessing K c cycles = (s', o) := Option.some.inj hst
    unfold mpHalBackgroundProcessing at he
    split_ifs at he <;> cases he
    · change 1 + s.inPending = 0 + 0 + (s.inPending + 1)
      omega
    · change 0 + s.inPending = 0 + 0 + s.inPending
      omega
  | handled debug =>
    simp only [pacedMachine] at hst
    split_ifs at hst with hopen
    cases hst
    obtain ⟨hdues, hpolls, haborts⟩ := counts_console (pollInputs s.console debug).2
    unfold dues at hdues ⊢
    unfold polls at hpolls ⊢
    unfold aborts at haborts ⊢
    rw [List.count_cons_of_ne (by decide), List.count_cons_self,
      List.count_cons_of_ne (by decide), hdues, hpolls, haborts]
    dsimp only
    omega
  | raised =>
    simp only [pacedMachine] at hst
    split_ifs at hst with hopen
    cases hst
    change 0 + s.inPending = 0 + 1 + (s.inPending - 1)
    omega
  | takeChar =>
    have he : ({ s with console := s.console.takeChar.1 }, s.console.takeChar.2.map .console) =
      (s', o) := Option.some.inj hst
    obtain ⟨hdues, hpolls, haborts⟩ := counts_console s.console.takeChar.2
    rw [← (Prod.mk.inj he).1, ← (Prod.mk.inj he).2, hdues, hpolls, haborts, Nat.zero_add]
  | wait _ | cdcOut _ | setInterruptChar _ =>
    cases hst
    change 0 + s.inPending = 0 + 0 + s.inPending
    omega

/-- **Every call leaves a synchronised state**, whatever the state before it. -/
theorem synced_of_call {cycles : ℕ}
    (hst : (pacedMachine K c).step s (.background cycles) = some (s', o)) : s'.Synced K c := by
  have he : s.mpHalBackgroundProcessing K c cycles = (s', o) := Option.some.inj hst
  unfold mpHalBackgroundProcessing at he
  split_ifs at he with hnew
  · cases he
    exact ⟨rfl, le_rfl⟩
  · cases he
    exact ⟨(not_not.1 hnew).symm, le_rfl⟩

theorem Synced.step (h : s.Synced K c) (hst : (pacedMachine K c).step s a = some (s', o)) :
    s'.Synced K c := by
  rcases step_cases hst with ⟨n, rfl, -⟩ | ⟨n, rfl, -⟩ | ⟨-, hcalled, hnow, hlast⟩
  · exact synced_of_call hst
  · exact synced_of_call hst
  · exact ⟨by rw [hlast, hcalled, h.last], by rw [hcalled]; exact h.called_le.trans hnow⟩

/-- **A call that finds a new tick comes after a change.** -/
theorem Synced.dues_le (h : s.Synced K c) (hst : (pacedMachine K c).step s a = some (s', o)) :
    s.changes K c + dues o ≤ s'.changes K c := by
  have hcalled := h.called_le
  unfold changes
  rcases step_cases hst with ⟨n, -, hnew, hdue, hcalled'⟩ | ⟨n, -, -, hdue, hcalled'⟩ |
    ⟨hdue, hcalled', -⟩
  · rw [hdue, hcalled']
    rw [h.last, ne_comm, ne_eq, tick, tick, tick_eq_iff] at hnew
    exact (ticksBy_lt (Nat.add_le_add_left hcalled _) hnew).trans_le
      (ticksBy_mono K (by omega))
  · rw [hdue, hcalled']
    exact ticksBy_mono K (Nat.add_le_add_left hcalled _)
  · rw [hdue, hcalled']
    rfl

/-- **No change goes unnoticed**, if calls are frequent. -/
theorem Synced.changes_le (hK : 0 < K) {g : ℕ} (hg : g + K ≤ 2 ^ 32) (h : s.Synced K c)
    (hprompt : s.Prompt g a) (hst : (pacedMachine K c).step s a = some (s', o)) :
    s'.changes K c ≤ s.changes K c + (g / K + 2) * dues o := by
  have hcalled := h.called_le
  unfold changes
  rcases step_cases hst with ⟨n, ha, -, hdue, hcalled'⟩ | ⟨n, ha, hold, hdue, hcalled'⟩ |
    ⟨hdue, hcalled', -⟩
  · have hnear := hprompt n ha
    obtain ⟨d, hd⟩ := Nat.exists_eq_add_of_le (show s.calledAt ≤ s.now + n by omega)
    have hle := ticksBy_add_le hK (c.toNat + s.calledAt) d
    have hunits : d / K ≤ g / K := Nat.div_le_div_right (by omega)
    have hturns : d / 2 ^ 32 = 0 := Nat.div_eq_of_lt (by omega)
    rw [hdue, hcalled', hd, ← Nat.add_assoc]
    omega
  · have hnear := hprompt n ha
    rw [h.last, eq_comm, tick, tick, tick_eq_iff] at hold
    rw [hdue, hcalled', ticksBy_eq hK (Nat.add_le_add_left hcalled _) (by omega) hold]
    rfl
  · rw [hdue, hcalled']
    exact le_rfl

theorem Synced.called_mono (h : s.Synced K c)
    (hst : (pacedMachine K c).step s a = some (s', o)) : s.calledAt ≤ s'.calledAt := by
  have hcalled := h.called_le
  rcases step_cases hst with ⟨n, -, -, -, hcalled'⟩ | ⟨n, -, -, -, hcalled'⟩ |
    ⟨-, hcalled', -⟩ <;> omega

end Paced

/-! ### What the console sees -/

/-- A step, as one of the console. -/
def PacedInput.toConsole : PacedInput → List ConsoleInput
  | wait _ | background _ => []
  | cdcOut p => [.cdcOut p]
  | handled _ => [.background .polls]
  | raised => [.background .raises]
  | takeChar => [.stdinRxChr .idle]
  | setInterruptChar ch => [.setInterruptChar ch]

/-- An observation, as one of the console. -/
def PacedEvent.toConsole : PacedEvent → List ConsoleEvent
  | due | polled | aborted => []
  | console e => [e]

namespace Paced

open Machine

variable {K : ℕ} {c : UInt32} {s s' : Paced} {as : List PacedInput} {log : List PacedEvent}

/-- The debugger sends nothing. -/
def NoDebug (_ : Paced) (a : PacedInput) : Prop := ∀ debug, a = .handled debug → debug = []

theorem flatMap_console (l : List ConsoleEvent) :
    (l.map PacedEvent.console).flatMap PacedEvent.toConsole = l := by
  rw [List.flatMap_map]
  exact List.flatMap_singleton' l

/-- **What the console does is a run of `consoleMachine`.** -/
theorem simulates_console (K : ℕ) (c : UInt32) : Simulates (pacedMachine K c) consoleMachine NoDebug
    Free (fun s t => t = s.console) PacedInput.toConsole PacedEvent.toConsole where
  step := by
    rintro s _ a s' o rfl hdebug hst
    cases a with
    | wait cycles =>
      cases hst
      exact ⟨_, .nil _, rfl⟩
    | cdcOut p =>
      cases hst
      exact ⟨_, .single trivial rfl, rfl⟩
    | background cycles =>
      have he : s.mpHalBackgroundProcessing K c cycles = (s', o) := Option.some.inj hst
      unfold mpHalBackgroundProcessing at he
      split_ifs at he <;> cases he <;> exact ⟨_, .nil _, rfl⟩
    | handled debug =>
      obtain rfl := hdebug debug rfl
      simp only [pacedMachine] at hst
      split_ifs at hst
      cases hst
      have hpoll : pollInputs s.console [] = s.console.pollUsbInput := rfl
      refine ⟨_, .single trivial ?_, rfl⟩
      rw [List.flatMap_cons, flatMap_console, hpoll]
      rfl
    | raised =>
      simp only [pacedMachine] at hst
      split_ifs at hst
      cases hst
      exact ⟨_, .single trivial rfl, rfl⟩
    | takeChar =>
      have he : ({ s with console := s.console.takeChar.1 }, s.console.takeChar.2.map .console) =
        (s', o) := Option.some.inj hst
      rw [← (Prod.mk.inj he).1, ← (Prod.mk.inj he).2, flatMap_console]
      exact ⟨_, .single trivial rfl, rfl⟩
    | setInterruptChar ch =>
      cases hst
      exact ⟨_, .single trivial rfl, rfl⟩

/-- **How often the console is polled.**  In every run from a synchronised state, such as that at
power-up (`synced_pacedInit`) or after any call (`synced_of_call`): every call that finds a new tick
polls, is left by an exception or is still open; there is at most one for every `K` cycles, one for
every turn of the counter, and two; if not more than `g` cycles pass from one call to the next,
there is at least one for every `g / K + 2` units of `K` cycles; and if the debugger is silent, the
console does what `consoleMachine` does. -/
theorem polls_paced (hK : 0 < K) (hs : s.Synced K c)
    (h : (pacedMachine K c).Run Free s as log s') :
    s'.Synced K c ∧
      dues log + s.inPending = polls log + aborts log + s'.inPending ∧
      dues log ≤ (s'.calledAt - s.calledAt) / K + (s'.calledAt - s.calledAt) / 2 ^ 32 + 2 ∧
      (∀ g, g + K ≤ 2 ^ 32 → (pacedMachine K c).Run (Prompt g) s as log s' →
        (s'.calledAt - s.calledAt) / K ≤ (g / K + 2) * dues log) ∧
      ((pacedMachine K c).Run NoDebug s as log s' →
        consoleMachine.Run Free s.console (as.flatMap PacedInput.toConsole)
          (log.flatMap PacedEvent.toConsole) s'.console) := by
  -- each call is due once, and a due call has seen a change
  have hsynced : s'.Synced K c ∧ s.calledAt ≤ s'.calledAt ∧
      s.changes K c + dues log ≤ s'.changes K c := by
    refine h.invariant (fun t l => t.Synced K c ∧ s.calledAt ≤ t.calledAt ∧
      s.changes K c + dues l ≤ t.changes K c) [] ⟨hs, le_rfl, le_rfl⟩ ?_
    rintro t a t' o l ⟨hi, hcalled, hdues⟩ - hst
    have hstep := hi.dues_le hst
    rw [dues_append]
    exact ⟨hi.step hst, hcalled.trans (hi.called_mono hst), by omega⟩
  obtain ⟨hsync, hcalled, hdues⟩ := hsynced
  obtain ⟨d, hd⟩ := Nat.exists_eq_add_of_le hcalled
  have hspan : s'.calledAt - s.calledAt = d := by omega
  rw [hspan]
  have hchanges : s'.changes K c = ticksBy K (c.toNat + s.calledAt + d) := by
    rw [changes, hd, Nat.add_assoc]
  refine ⟨hsync, ?_, ?_, fun g hg hr => ?_, fun hr => ?_⟩
  · refine h.invariant (fun t l => dues l + s.inPending = polls l + aborts l + t.inPending) []
      rfl fun t a t' o l hi _ hst => ?_
    have hstep := open_step hst
    rw [dues_append, polls_append, aborts_append]
    omega
  · have hle := ticksBy_add_le hK (c.toNat + s.calledAt) d
    rw [hchanges, changes] at hdues
    omega
  · have hall : s'.Synced K c ∧ s'.changes K c ≤ s.changes K c + (g / K + 2) * dues log := by
      refine hr.invariant (fun t l => t.Synced K c ∧
        t.changes K c ≤ s.changes K c + (g / K + 2) * dues l) [] ⟨hs, le_rfl⟩ ?_
      rintro t a t' o l ⟨hi, hle⟩ hprompt hst
      have hstep := hi.changes_le hK hg hprompt hst
      rw [dues_append, Nat.mul_add]
      exact ⟨hi.step hst, by omega⟩
    have hge := le_ticksBy_add hK (c.toNat + s.calledAt) d
    have hle := hall.2
    rw [hchanges, changes] at hle
    omega
  · obtain ⟨t, hrun, rfl⟩ := (simulates_console K c).run rfl hr
    exact hrun

end Paced

/-- The console at power-up, when the counter starts. -/
def pacedInit : Paced := ⟨consoleInit, 0, 0, 0, 0⟩

namespace Paced

open Machine

theorem synced_pacedInit (K : ℕ) : pacedInit.Synced K 0 where
  last := by
    rw [tick, ← UInt32.toNat_inj, mpHalTicksMs, mpHalTicks_toNat, funSysTick32_toNat]
    simp [pacedInit]
  called_le := le_rfl

/-- At 60000 cycles a tick, a packet waits for the first tick after power-up. -/
theorem polls_paced_tick : ∃ log s', (pacedMachine 60000 0).Run Free pacedInit
    [.cdcOut Console.shortPacket, .background 3, .wait 60000, .background 3, .handled [], .takeChar]
      log s' ∧ dues log = polls log ∧ consoleMachine.Run Free consoleInit
      [.cdcOut Console.shortPacket, .background .polls, .stdinRxChr .idle]
      (log.flatMap PacedEvent.toConsole) s'.console := by
  have hrun : ((pacedMachine 60000 0).perform pacedInit [.cdcOut Console.shortPacket,
      .background 3, .wait 60000, .background 3, .handled [], .takeChar]).map
      (fun x => (aborts x.2, x.1.inPending)) = some (0, 0) := by
    decide +kernel
  obtain ⟨⟨s', log⟩, hp, he⟩ := Option.map_eq_some_iff.1 hrun
  obtain ⟨haborts, hpending⟩ : aborts log = 0 ∧ s'.inPending = 0 := by
    simpa using he
  have h := run_of_perform _ hp
  obtain ⟨-, hopen, -, -, hconsole⟩ := polls_paced (by decide) (synced_pacedInit 60000) h
  rw [haborts, hpending] at hopen
  refine ⟨log, s', h, hopen, hconsole (h.of_inputs fun a ha _ debug hdebug => ?_)⟩
  subst hdebug
  simpa using ha

end Paced

end Ch32fun
