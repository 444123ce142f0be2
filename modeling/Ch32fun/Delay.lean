import Mathlib.Tactic.Ring

/-!
# Delays

`mp_hal_delay_us` and `mp_hal_delay_ms` wait until the tick, a quotient of a free-running 32-bit
counter, reaches a target that is formed at the call.  The counter wraps around at `2^32`, so that
the tick wraps around at a quotient of that, and a target beyond the largest tick is never reached.

* `delayLoop` : the loop, its guard evaluated at every cycle; the fuel bounds the cycles.
* `OnTime` : the loop ends, and between `d - 1` and `d + 1` units after the call.
* `delay_on_time_iff` : this is so exactly when the target does not exceed the largest tick.
-/

namespace Ch32fun

/-- `funSysTick32`, `n` cycles after the counter was `c`. -/
def funSysTick32 (c : UInt32) (n : ℕ) : UInt32 := c + UInt32.ofNat n

/-- The counter in units of `K` cycles. -/
def mpHalTicks (K : ℕ) (counter : UInt32) : UInt32 := UInt32.ofNat (counter.toNat / K)

/-- `mp_hal_ticks_us`. -/
def mpHalTicksUs (DELAY_US_TIME : ℕ) (counter : UInt32) : UInt32 := mpHalTicks DELAY_US_TIME counter

/-- `mp_hal_ticks_ms`. -/
def mpHalTicksMs (DELAY_MS_TIME : ℕ) (counter : UInt32) : UInt32 := mpHalTicks DELAY_MS_TIME counter

/-- `while(ticks() < (start + d))`, from cycle `n` on; the cycle at which the loop is left, `none`
when the fuel does not last. -/
def delayLoop (ticks : UInt32 → UInt32) (c start d : UInt32) : ℕ → ℕ → Option ℕ
  | 0, _ => none
  | fuel + 1, n =>
    if ticks (funSysTick32 c n) < start + d then delayLoop ticks c start d fuel (n + 1)
    else some n

/-- `mp_hal_delay_us`, called when the counter is `c`. -/
def mpHalDelayUs (DELAY_US_TIME : ℕ) (c us : UInt32) (fuel : ℕ) : Option ℕ :=
  let start := mpHalTicksUs DELAY_US_TIME (funSysTick32 c 0)
  delayLoop (mpHalTicksUs DELAY_US_TIME) c start us fuel 0

/-- `mp_hal_delay_ms`, called when the counter is `c`. -/
def mpHalDelayMs (DELAY_MS_TIME : ℕ) (c ms : UInt32) (fuel : ℕ) : Option ℕ :=
  let start := mpHalTicksMs DELAY_MS_TIME (funSysTick32 c 0)
  delayLoop (mpHalTicksMs DELAY_MS_TIME) c start ms fuel 0

/-- A delay of `d` units of `K` cycles ends, and on time. -/
def OnTime (K : ℕ) (d : UInt32) (delay : ℕ → Option ℕ) : Prop :=
  ∃ n fuel, delay fuel = some n ∧ ((d.toNat : ℤ) - 1) * K ≤ n ∧ (n : ℤ) ≤ (d.toNat + 1) * K

/-! ### The loop -/

section Loop

variable {ticks : UInt32 → UInt32} {c start d : UInt32}

/-- The loop is left at the first cycle at which its guard fails. -/
theorem delayLoop_of_first (n m : ℕ) (hn : ¬ ticks (funSysTick32 c (m + n)) < start + d)
    (hfirst : ∀ k < n, ticks (funSysTick32 c (m + k)) < start + d) :
    delayLoop ticks c start d (n + 1) m = some (m + n) := by
  induction n generalizing m with
  | zero => exact if_neg hn
  | succ n ih =>
    have hstep : delayLoop ticks c start d (n + 1 + 1) m =
        delayLoop ticks c start d (n + 1) (m + 1) := if_pos (hfirst 0 n.succ_pos)
    have harith : ∀ k, m + 1 + k = m + (k + 1) := by intro k; omega
    rw [hstep, ih, harith]
    · rwa [harith]
    · intro k hk
      rw [harith]
      exact hfirst (k + 1) (Nat.succ_lt_succ hk)

theorem delayLoop_of_always (h : ∀ n, ticks (funSysTick32 c n) < start + d) (fuel m : ℕ) :
    delayLoop ticks c start d fuel m = none := by
  induction fuel generalizing m with
  | zero => rfl
  | succ fuel ih =>
    rw [delayLoop, if_pos (h m)]
    exact ih (m + 1)

end Loop

/-! ### Ticks -/

section Ticks

variable {K : ℕ} {c d : UInt32}

theorem funSysTick32_toNat (c : UInt32) (n : ℕ) :
    (funSysTick32 c n).toNat = (c.toNat + n) % 2 ^ 32 := by
  rw [funSysTick32, UInt32.toNat_add, UInt32.toNat_ofNat', Nat.add_mod_mod]

theorem mpHalTicks_toNat (K : ℕ) (counter : UInt32) :
    (mpHalTicks K counter).toNat = counter.toNat / K := by
  have hlt := counter.toNat_lt
  have hle := Nat.div_le_self counter.toNat K
  rw [mpHalTicks, UInt32.toNat_ofNat', Nat.mod_eq_of_lt (by omega)]

theorem mpHalTicks_le (K : ℕ) (counter : UInt32) :
    (mpHalTicks K counter).toNat ≤ (2 ^ 32 - 1) / K := by
  have hlt := counter.toNat_lt
  rw [mpHalTicks_toNat]
  exact Nat.div_le_div_right (by omega)

/-- The target is formed without overflow. -/
theorem target_toNat (hK : 2 ≤ K) (hd : d.toNat * K < 2 ^ 32) :
    (mpHalTicks K c + d).toNat = c.toNat / K + d.toNat := by
  have hlt := c.toNat_lt
  have htick : c.toNat / K ≤ c.toNat / 2 := Nat.div_le_div_left hK (by decide)
  have hunits : d.toNat * 2 ≤ d.toNat * K := Nat.mul_le_mul_left _ hK
  rw [UInt32.toNat_add, mpHalTicks_toNat, Nat.mod_eq_of_lt (by omega)]

theorem guard_iff (hK : 2 ≤ K) (hd : d.toNat * K < 2 ^ 32) {n : ℕ} (hn : c.toNat + n < 2 ^ 32) :
    mpHalTicks K (funSysTick32 c n) < mpHalTicks K (funSysTick32 c 0) + d ↔
      c.toNat + n < (c.toNat / K + d.toNat) * K := by
  have hzero : funSysTick32 c 0 = c := by
    rw [← UInt32.toNat_inj, funSysTick32_toNat, Nat.add_zero, Nat.mod_eq_of_lt c.toNat_lt]
  rw [hzero, UInt32.lt_iff_toNat_lt, target_toNat hK hd, mpHalTicks_toNat, funSysTick32_toNat,
    Nat.mod_eq_of_lt hn]
  exact Nat.div_lt_iff_lt_mul (by omega)

/-- **A target beyond the largest tick is never reached.** -/
theorem guard_of_beyond (hK : 2 ≤ K) (hd : d.toNat * K < 2 ^ 32)
    (h : (2 ^ 32 - 1) / K < c.toNat / K + d.toNat) (n : ℕ) :
    mpHalTicks K (funSysTick32 c n) < mpHalTicks K (funSysTick32 c 0) + d := by
  have hzero : funSysTick32 c 0 = c := by
    rw [← UInt32.toNat_inj, funSysTick32_toNat, Nat.add_zero, Nat.mod_eq_of_lt c.toNat_lt]
  rw [hzero, UInt32.lt_iff_toNat_lt, target_toNat hK hd]
  exact Nat.lt_of_le_of_lt (mpHalTicks_le K _) h

/-- **A delay ends on time exactly when its target does not exceed the largest tick.** -/
theorem onTime_iff (hK : 2 ≤ K) (hd : d.toNat * K < 2 ^ 32) :
    OnTime K d (fun fuel => delayLoop (mpHalTicks K) c (mpHalTicks K (funSysTick32 c 0)) d fuel 0) ↔
      c.toNat / K + d.toNat ≤ (2 ^ 32 - 1) / K := by
  constructor
  · rintro ⟨n, fuel, hn, -⟩
    by_contra hbeyond
    dsimp only at hn
    rw [delayLoop_of_always (guard_of_beyond hK hd (Nat.not_le.1 hbeyond))] at hn
    cases hn
  · intro h
    -- the loop ends when the counter reaches the target, or at once
    let target := (c.toNat / K + d.toNat) * K
    have htarget : target < 2 ^ 32 := by
      have := (Nat.le_div_iff_mul_le (by omega)).1 h
      omega
    have hsplit : target = c.toNat / K * K + d.toNat * K := Nat.add_mul ..
    have hdiv := Nat.div_add_mod' c.toNat K
    have hmod := Nat.mod_lt c.toNat (show 0 < K by omega)
    have hc := c.toNat_lt
    have hloop : delayLoop (mpHalTicks K) c (mpHalTicks K (funSysTick32 c 0)) d
        (target - c.toNat + 1) 0 = some (0 + (target - c.toNat)) := by
      refine delayLoop_of_first _ _ ?_ fun k hk => ?_
      · rw [Nat.zero_add, guard_iff hK hd (by omega)]
        omega
      · rw [Nat.zero_add, guard_iff hK hd (by omega)]
        omega
    refine ⟨_, _, hloop, ?_, ?_⟩
    · rw [Int.sub_mul, Int.one_mul, ← Int.natCast_mul]
      omega
    · rw [Int.add_mul, Int.one_mul, ← Int.natCast_mul]
      omega

end Ticks

/-- **When delays end on time.**  A unit takes `K` cycles, at least two, and the delay is less than
a turn of the counter. -/
theorem delay_on_time_iff {K : ℕ} (hK : 2 ≤ K) (c d : UInt32) (hd : d.toNat * K < 2 ^ 32) :
    (OnTime K d (mpHalDelayUs K c d) ↔ c.toNat / K + d.toNat ≤ (2 ^ 32 - 1) / K) ∧
      (OnTime K d (mpHalDelayMs K c d) ↔ c.toNat / K + d.toNat ≤ (2 ^ 32 - 1) / K) :=
  ⟨onTime_iff hK hd, onTime_iff hK hd⟩

/-- At 48 cycles a microsecond, a delay of a millisecond after the counter has started. -/
theorem delay_on_time_start : OnTime 48 1000 (mpHalDelayUs 48 0 1000) :=
  (delay_on_time_iff (by decide) 0 1000 (by decide)).1.2 (by decide)

/-- Called in the last cycle before the counter wraps around, a delay of one microsecond never
ends. -/
theorem delay_never_ends : ¬ OnTime 48 1 (mpHalDelayUs 48 0xFFFFFFFF 1) := by
  rintro ⟨n, fuel, hn, -⟩
  have hnone : mpHalDelayUs 48 0xFFFFFFFF 1 fuel = none :=
    delayLoop_of_always (guard_of_beyond (by decide) (by decide) (by decide)) fuel 0
  rw [hnone] at hn
  cases hn

end Ch32fun
