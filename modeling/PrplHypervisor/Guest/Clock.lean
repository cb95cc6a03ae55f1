import Mathlib.Data.BitVec

/-!
# Millisecond clocks of the guests

`irq_timer` of the applications secureConnection and updateManager (it is the same in
both) counts milliseconds for picoTCP by the Count register; `wait_time` of
bare-metal-apps/arch/mips/pic32mz/platform.c tells when a delay is over. Both take the
time between two values of the register by the same expression, which is one short
when the register has wrapped around.

`guestClock_iff`: where the clocks count the time that has passed.
-/

namespace PrplHypervisor.GuestClock

/-- `prev_init`, `prev_count` and `pico_ms_tick`. -/
structure PicoClock where
  prevInit : Bool
  prevCount : BitVec 32
  picoMsTick : BitVec 32
  deriving DecidableEq

/-- `diff_ticks` and `diff_time`. -/
def diffTicks (old new : BitVec 32) : BitVec 32 :=
  if new ≥ old then new - old else 0xffffffff - (old - new)

/-- `calculate_ms_passed`. `cp0_ms_ticks` is `CPU_SPEED/2/1000`, which is not 0. -/
def calculateMsPassed (cp0MsTicks oldTicks newTicks : BitVec 32) : BitVec 32 :=
  diffTicks oldTicks newTicks / cp0MsTicks

/-- `irq_timer`. `cur` and `later` are the values Count is read with; the second read
is made on the first call only. -/
def irqTimer (cp0MsTicks : BitVec 32) (s : PicoClock) (cur later : BitVec 32) : PicoClock :=
  let s := if !s.prevInit then { s with prevCount := later, prevInit := true } else s
  if cur ≥ s.prevCount + cp0MsTicks then
    { s with
      picoMsTick := s.picoMsTick + calculateMsPassed cp0MsTicks s.prevCount cur
      prevCount := cur }
  else s

/-- `MILISECOND`. -/
def milisecond : BitVec 32 := 100000000 / 1000

/-- `wait_time`; `now` is what Count is read with. -/
def waitTime (oldTime msDelay now : BitVec 32) : BitVec 32 :=
  if diffTicks oldTime now > msDelay * milisecond then 1 else 0

/-- What `irq_timer` is for: the milliseconds since `prev_count`, once there are some. -/
def PicoClock.advance (cp0MsTicks : BitVec 32) (s : PicoClock) (cur : BitVec 32) : PicoClock :=
  let d := cur - s.prevCount
  if d ≥ cp0MsTicks then { s with picoMsTick := s.picoMsTick + d / cp0MsTicks, prevCount := cur }
  else s

/-- Where `irq_timer` counts the time that has passed. -/
def PicoClock.OnTime (cp0MsTicks : BitVec 32) (s : PicoClock) (cur : BitVec 32) : Prop :=
  let d := cur - s.prevCount
  if s.prevCount.toNat + cp0MsTicks.toNat < 2 ^ 32 then s.prevCount ≤ cur
  else cur = s.prevCount ∨
    cur < s.prevCount ∧ (d < cp0MsTicks ∨ ¬cp0MsTicks.toNat ∣ d.toNat)

instance (t : BitVec 32) (s : PicoClock) (cur : BitVec 32) : Decidable (s.OnTime t cur) :=
  inferInstanceAs (Decidable (ite _ _ _))

/-! ## The time between two values of the register -/

section Difference

variable {old now t d : BitVec 32}

theorem diffTicks_of_le (h : old ≤ now) : diffTicks old now = now - old := if_pos h

/-- After a wrap the expression is one short. -/
theorem diffTicks_of_lt (h : now < old) : diffTicks old now = now - old - 1 := by
  rw [diffTicks, if_neg (by bv_omega)]
  bv_omega

/-- One tick less makes one millisecond less exactly at the multiples. -/
theorem sub_one_div_eq_iff (hd : d ≠ 0) : (d - 1) / t = d / t ↔ ¬t.toNat ∣ d.toNat := by
  have hsucc : d.toNat = (d - 1).toNat + 1 := by bv_omega
  rw [← BitVec.toNat_inj, BitVec.toNat_udiv, BitVec.toNat_udiv, hsucc, Nat.succ_div]
  by_cases h : t.toNat ∣ (d - 1).toNat + 1
  · rw [if_pos h]
    omega
  · rw [if_neg h]
    omega

end Difference

/-! ## `irq_timer` -/

section IrqTimer

variable {s : PicoClock} {t cur later : BitVec 32}

theorem irqTimer_of_le (hinit : s.prevInit = true) (h : s.prevCount + t ≤ cur) :
    irqTimer t s cur later =
      { s with
        picoMsTick := s.picoMsTick + diffTicks s.prevCount cur / t
        prevCount := cur } := by
  simp [irqTimer, hinit, h, calculateMsPassed]

theorem irqTimer_of_lt (hinit : s.prevInit = true) (h : cur < s.prevCount + t) :
    irqTimer t s cur later = s := by
  simp [irqTimer, hinit, h]

theorem advance_of_le (h : t ≤ cur - s.prevCount) :
    s.advance t cur =
      { s with picoMsTick := s.picoMsTick + (cur - s.prevCount) / t, prevCount := cur } :=
  if_pos h

theorem advance_of_lt (h : cur - s.prevCount < t) : s.advance t cur = s :=
  if_neg (by simpa using h)

/-- The sum `prev_count + cp0_ms_ticks` stays in a word: the clock stands still from the
wrap of Count until Count is past `prev_count` again. -/
theorem irqTimer_iff_of_lt (hinit : s.prevInit = true)
    (hsum : s.prevCount.toNat + t.toNat < 2 ^ 32) :
    irqTimer t s cur later = s.advance t cur ↔ s.prevCount ≤ cur := by
  by_cases hle : s.prevCount ≤ cur
  · refine iff_of_true ?_ hle
    by_cases hfire : s.prevCount + t ≤ cur
    · rw [irqTimer_of_le hinit hfire, advance_of_le (by bv_omega), diffTicks_of_le hle]
    · rw [irqTimer_of_lt hinit (by bv_omega), advance_of_lt (by bv_omega)]
  · refine iff_of_false (fun heq => hle ?_) hle
    rw [irqTimer_of_lt hinit (by bv_omega), advance_of_le (by bv_omega)] at heq
    have hprev : s.prevCount = cur := congrArg PicoClock.prevCount heq
    exact hprev ▸ BitVec.le_refl _

/-- The sum wraps: what has passed since is dropped before the wrap of Count, and after
it a tick is missing. -/
theorem irqTimer_iff_of_ge (hinit : s.prevInit = true)
    (hsum : 2 ^ 32 ≤ s.prevCount.toNat + t.toNat) :
    irqTimer t s cur later = s.advance t cur ↔
      cur = s.prevCount ∨
        cur < s.prevCount ∧ (cur - s.prevCount < t ∨ ¬t.toNat ∣ (cur - s.prevCount).toNat) := by
  have hcases : cur < s.prevCount ∨ cur = s.prevCount ∨ s.prevCount < cur := by bv_omega
  rcases hcases with hlt | heq | hgt
  · have hne : cur ≠ s.prevCount := by bv_omega
    simp only [hne, hlt, false_or, true_and]
    by_cases hfire : s.prevCount + t ≤ cur
    · rw [irqTimer_of_le hinit hfire, advance_of_le (by bv_omega), diffTicks_of_lt hlt,
        PicoClock.mk.injEq, add_right_inj, sub_one_div_eq_iff (by bv_omega)]
      have hd : ¬cur - s.prevCount < t := by bv_omega
      simp [hd]
    · rw [irqTimer_of_lt hinit (by bv_omega), advance_of_lt (by bv_omega)]
      exact iff_of_true rfl (.inl (by bv_omega))
  · refine iff_of_true ?_ (.inl heq)
    subst heq
    rw [irqTimer_of_le hinit (by bv_omega), advance_of_lt (by bv_omega),
      diffTicks_of_le (BitVec.le_refl _)]
    simp
  · refine iff_of_false (fun heq => ?_) (by bv_omega)
    rw [irqTimer_of_le hinit (by bv_omega), advance_of_lt (by bv_omega)] at heq
    have hprev : cur = s.prevCount := congrArg PicoClock.prevCount heq
    bv_omega

theorem irqTimer_iff (hinit : s.prevInit = true) :
    irqTimer t s cur later = s.advance t cur ↔ s.OnTime t cur := by
  by_cases hsum : s.prevCount.toNat + t.toNat < 2 ^ 32
  · rw [irqTimer_iff_of_lt hinit hsum, PicoClock.OnTime, if_pos hsum]
  · rw [irqTimer_iff_of_ge hinit (by omega), PicoClock.OnTime, if_neg hsum]

end IrqTimer

/-! ## `wait_time` -/

section WaitTime

variable {old now msDelay p : BitVec 32}

theorem waitTime_eq_one_iff :
    waitTime old msDelay now = 1 ↔ msDelay * milisecond < diffTicks old now := by
  by_cases h : msDelay * milisecond < diffTicks old now <;> simp [waitTime, h]

/-- The comparison fails for the first tick over the delay, if Count has wrapped. -/
theorem lt_diffTicks_iff :
    (p < diffTicks old now ↔ p < now - old) ↔ old ≤ now ∨ (now - old).toNat ≠ p.toNat + 1 := by
  by_cases hle : old ≤ now
  · simp [hle, diffTicks_of_le hle]
  · rw [diffTicks_of_lt (by bv_omega)]
    bv_omega

/-- The product as a number: one that does not fit its word must never be reached. -/
theorem waitTime_iff :
    (waitTime old msDelay now = 1 ↔
        msDelay.toNat * milisecond.toNat < (now - old).toNat) ↔
      if msDelay.toNat * milisecond.toNat < 2 ^ 32 then
        old ≤ now ∨ (now - old).toNat ≠ msDelay.toNat * milisecond.toNat + 1
      else diffTicks old now ≤ msDelay * milisecond := by
  rw [waitTime_eq_one_iff]
  by_cases hfit : msDelay.toNat * milisecond.toNat < 2 ^ 32
  · have hmul : (msDelay * milisecond).toNat = msDelay.toNat * milisecond.toNat := by
      rw [BitVec.toNat_mul, Nat.mod_eq_of_lt hfit]
    rw [if_pos hfit, ← hmul]
    exact lt_diffTicks_iff
  · have hlt := (now - old).isLt
    have hnever : ¬msDelay.toNat * milisecond.toNat < (now - old).toNat := by omega
    rw [if_neg hfit, iff_false_right hnever, BitVec.not_lt]

end WaitTime

/-- The clocks are right at the values of `OnTime`, and `wait_time` is right, with the
product in a word, but for the first tick over the delay after a wrap. -/
theorem guestClock_iff (cp0MsTicks : BitVec 32) (s : PicoClock)
    (cur later old msDelay now : BitVec 32) (hinit : s.prevInit = true) :
    (irqTimer cp0MsTicks s cur later = s.advance cp0MsTicks cur ↔ s.OnTime cp0MsTicks cur) ∧
      ((waitTime old msDelay now = 1 ↔ msDelay * milisecond < now - old) ↔
        old ≤ now ∨ (now - old).toNat ≠ (msDelay * milisecond).toNat + 1) ∧
      ((waitTime old msDelay now = 1 ↔
          msDelay.toNat * milisecond.toNat < (now - old).toNat) ↔
        if msDelay.toNat * milisecond.toNat < 2 ^ 32 then
          old ≤ now ∨ (now - old).toNat ≠ msDelay.toNat * milisecond.toNat + 1
        else diffTicks old now ≤ msDelay * milisecond) := by
  refine ⟨irqTimer_iff hinit, ?_, waitTime_iff⟩
  rw [waitTime_eq_one_iff]
  exact lt_diffTicks_iff

/-- 90000 ticks before a wrap and 60000 after it. -/
theorem guestClock_iff_wrap : irqTimer 100000 ⟨true, -90000, 7⟩ 60000 0 = ⟨true, 60000, 8⟩ := by
  have h := (guestClock_iff 100000 ⟨true, -90000, 7⟩ 60000 0 0 0 0 rfl).1.mpr (by decide)
  exact h.trans (by decide)

/-- Count wraps and 200000 ticks, two milliseconds, after it was read nothing happens. A
delay of one millisecond is not over 100001 ticks after it began before a wrap. -/
theorem guestClock_stalls :
    irqTimer 100000 ⟨true, -150000, 7⟩ 50000 0 ≠
        PicoClock.advance 100000 ⟨true, -150000, 7⟩ 50000 ∧
      irqTimer 100000 ⟨true, -150000, 7⟩ 50000 0 = ⟨true, -150000, 7⟩ ∧
      PicoClock.advance 100000 ⟨true, -150000, 7⟩ 50000 = ⟨true, 50000, 9⟩ ∧
      waitTime (-1) 1 100000 = 0 ∧
      (1 : BitVec 32).toNat * milisecond.toNat < ((100000 : BitVec 32) - (-1)).toNat := by
  decide

end PrplHypervisor.GuestClock
