import Mathlib.Algebra.Order.Ring.Int

/-!
# Deadlines

`QueueDequeueItem` adds its timeout to the current time, seconds to seconds and the rest to the
microseconds, and waits until then.
-/

namespace HavokMud.Queue

/-- `struct timeval`. -/
structure Timeval where
  tv_sec : Int64
  tv_usec : Int64

/-- `struct timespec`. -/
structure Timespec where
  tv_sec : Int64
  tv_nsec : Int64
deriving DecidableEq

/-- The `timeout` that `QueueDequeueItem` passes on.  The remainder is multiplied as an `int`. -/
def timeoutAt (tv : Timeval) (ms_timeout : Int32) : Timespec where
  tv_sec := tv.tv_sec + (ms_timeout / 1000).toInt64
  tv_nsec := tv.tv_usec * 1000 + ((ms_timeout % 1000) * 1000000).toInt64

/-- The values of `status` that matter to the loop. -/
inductive Status
  | zero
  | etimedout
  | einval
deriving DecidableEq

/-- The nanoseconds are less than a second. -/
def Timespec.Valid (timeout : Timespec) : Prop :=
  0 ≤ timeout.tv_nsec.toInt ∧ timeout.tv_nsec.toInt < 10 ^ 9

instance Timespec.decidableValid (timeout : Timespec) : Decidable timeout.Valid :=
  inferInstanceAs (Decidable (_ ∧ _))

/-- `pthread_cond_timedwait`, where `wait` is how a wait ends.  There is no wait if the time is not
valid. -/
def condTimedwait (abstime : Timespec) (wait : Status) : Status :=
  if abstime.Valid then wait else .einval

/-- The `status` in the loop, as long as the queue is empty and the program goes on.  The loop is
left at `ETIMEDOUT`. -/
def waitLoop (timeout : Timespec) (wait : ℕ → Status) : ℕ → Status
  | 0 => .zero
  | n + 1 =>
      if waitLoop timeout wait n = .etimedout then .etimedout
      else condTimedwait timeout (wait n)

/-! ## The sums -/

section Sums

variable {tv : Timeval} {ms_timeout : Int32}

theorem toInt_seconds (hms : 0 ≤ ms_timeout.toInt) :
    (ms_timeout / 1000).toInt64.toInt = ms_timeout.toInt / 1000 := by
  have hdiv : (ms_timeout / 1000).toInt = ms_timeout.toInt.tdiv 1000 :=
    Int32.toInt_div_of_ne_right _ _ (by decide)
  rw [Int32.toInt_toInt64, hdiv, Int.tdiv_eq_ediv_of_nonneg hms]

/-- The rest of the timeout in nanoseconds is an `int`. -/
theorem toInt_rest (hms : 0 ≤ ms_timeout.toInt) :
    (ms_timeout % 1000 * 1000000).toInt64.toInt = ms_timeout.toInt % 1000 * 1000000 := by
  have hmod : (ms_timeout % 1000).toInt = ms_timeout.toInt % 1000 := by
    rw [Int32.toInt_mod, ← Int.tmod_eq_emod_of_nonneg hms]
    rfl
  have hmillion : (1000000 : Int32).toInt = 1000000 := rfl
  rw [Int32.toInt_toInt64, Int32.toInt_mul, hmod, hmillion]
  apply Int.bmod_eq_of_le <;> omega

/-- The nanoseconds are never too many for a `long`. -/
theorem toInt_tv_nsec (hms : 0 ≤ ms_timeout.toInt) (husec : 0 ≤ tv.tv_usec.toInt)
    (husec' : tv.tv_usec.toInt < 10 ^ 6) : (timeoutAt tv ms_timeout).tv_nsec.toInt =
      tv.tv_usec.toInt * 1000 + ms_timeout.toInt % 1000 * 1000000 := by
  have hthousand : (1000 : Int64).toInt = 1000 := rfl
  have hmicro : (tv.tv_usec * 1000).toInt = tv.tv_usec.toInt * 1000 := by
    rw [Int64.toInt_mul, hthousand]
    apply Int.bmod_eq_of_le <;> omega
  unfold timeoutAt
  rw [Int64.toInt_add, hmicro, toInt_rest hms]
  apply Int.bmod_eq_of_le <;> omega

/-- The seconds may be too many. -/
theorem toInt_tv_sec (hms : 0 ≤ ms_timeout.toInt) :
    (timeoutAt tv ms_timeout).tv_sec.toInt = tv.tv_sec.toInt + ms_timeout.toInt / 1000 ↔
      tv.tv_sec.toInt + ms_timeout.toInt / 1000 < 2 ^ 63 := by
  have hlow := tv.tv_sec.le_toInt
  have hmax := (timeoutAt tv ms_timeout).tv_sec.toInt_lt
  have hsum : (timeoutAt tv ms_timeout).tv_sec.toInt =
      (tv.tv_sec.toInt + ms_timeout.toInt / 1000).bmod (2 ^ 64) := by
    unfold timeoutAt
    rw [Int64.toInt_add, toInt_seconds hms]
  constructor
  · intro heq
    omega
  · intro hlt
    rw [hsum]
    apply Int.bmod_eq_of_le <;> omega

end Sums

/-! ## Deadlines that are waited for -/

section Deadlines

/-- The nanoseconds since the epoch. -/
def Timespec.instant (timeout : Timespec) : ℤ :=
  timeout.tv_sec.toInt * 10 ^ 9 + timeout.tv_nsec.toInt

/-- The microseconds since the epoch. -/
def Timeval.instant (tv : Timeval) : ℤ :=
  tv.tv_sec.toInt * 10 ^ 6 + tv.tv_usec.toInt

/-- The deadline is valid, it is the current time and `ms_timeout` milliseconds, and the loop does
not see `EINVAL`. -/
def WaitsUntil (tv : Timeval) (ms_timeout : Int32) : Prop :=
  let timeout := timeoutAt tv ms_timeout
  timeout.Valid ∧ timeout.instant = tv.instant * 10 ^ 3 + ms_timeout.toInt * 10 ^ 6 ∧
    ∀ wait : ℕ → Status, (∀ n, wait n ≠ .einval) → ∀ n, waitLoop timeout wait n ≠ .einval

variable {tv : Timeval} {ms_timeout : Int32} {timeout : Timespec} {wait : ℕ → Status}

/-- A valid time is waited for. -/
theorem waitLoop_of_valid (hvalid : timeout.Valid) (hwait : ∀ n, wait n ≠ .einval) (n : ℕ) :
    waitLoop timeout wait n ≠ .einval := by
  induction n with
  | zero => exact fun heq ↦ by cases heq
  | succ n ih =>
      rw [waitLoop, condTimedwait, if_pos hvalid]
      split_ifs
      · exact fun heq ↦ by cases heq
      · exact hwait n

/-- The loop spins at a time that is not valid: it neither waits nor ends. -/
theorem waitLoop_of_not_valid (hvalid : ¬ timeout.Valid) (n : ℕ) :
    waitLoop timeout wait (n + 1) = .einval := by
  have hpass : ∀ n, waitLoop timeout wait n ≠ .etimedout →
      waitLoop timeout wait (n + 1) = .einval := by
    intro n hgoes
    rw [waitLoop, if_neg hgoes, condTimedwait, if_neg hvalid]
  induction n with
  | zero => exact hpass 0 fun heq ↦ by cases heq
  | succ n ih =>
      apply hpass
      rw [ih]
      exact fun heq ↦ by cases heq

theorem valid_iff (hms : 0 ≤ ms_timeout.toInt) (husec : 0 ≤ tv.tv_usec.toInt)
    (husec' : tv.tv_usec.toInt < 10 ^ 6) : (timeoutAt tv ms_timeout).Valid ↔
      tv.tv_usec.toInt + ms_timeout.toInt % 1000 * 1000 < 10 ^ 6 := by
  unfold Timespec.Valid
  rw [toInt_tv_nsec hms husec husec']
  omega

/-- The microseconds carry nothing, and so they have to fit: a deadline is valid and exact if and
only if the milliseconds do not complete the current second. -/
theorem waitsUntil_iff (hms : 0 ≤ ms_timeout.toInt) (husec : 0 ≤ tv.tv_usec.toInt)
    (husec' : tv.tv_usec.toInt < 10 ^ 6) : WaitsUntil tv ms_timeout ↔
      tv.tv_usec.toInt + ms_timeout.toInt % 1000 * 1000 < 10 ^ 6 ∧
        tv.tv_sec.toInt + ms_timeout.toInt / 1000 < 2 ^ 63 := by
  have hvalid := valid_iff hms husec husec'
  have hexact : (timeoutAt tv ms_timeout).instant =
        tv.instant * 10 ^ 3 + ms_timeout.toInt * 10 ^ 6 ↔
      tv.tv_sec.toInt + ms_timeout.toInt / 1000 < 2 ^ 63 := by
    rw [← toInt_tv_sec hms]
    unfold Timespec.instant Timeval.instant
    rw [toInt_tv_nsec hms husec husec']
    omega
  constructor
  · rintro ⟨hfits, hsame, -⟩
    exact ⟨hvalid.mp hfits, hexact.mp hsame⟩
  · rintro ⟨hfits, hsame⟩
    exact ⟨hvalid.mpr hfits, hexact.mpr hsame,
      fun _ hwait ↦ waitLoop_of_valid (hvalid.mpr hfits) hwait⟩

/-- Half a second at the beginning of a second. -/
theorem waitsUntil_early : WaitsUntil ⟨1000, 0⟩ 500 :=
  (waitsUntil_iff (by decide) (by decide) (by decide)).mpr (by decide)

/-- One millisecond at the end of a second. -/
theorem not_waitsUntil_late :
    timeoutAt ⟨1000, 999999⟩ 1 = ⟨1000, 1000999000⟩ ∧ ¬ WaitsUntil ⟨1000, 999999⟩ 1 ∧
      ∀ wait n, waitLoop (timeoutAt ⟨1000, 999999⟩ 1) wait (n + 1) = .einval := by
  have hlate : ¬ (timeoutAt ⟨1000, 999999⟩ 1).Valid := by decide
  exact ⟨by decide, fun hwaits ↦ hlate hwaits.1, fun _ n ↦ waitLoop_of_not_valid hlate n⟩

end Deadlines

end HavokMud.Queue
