import Mathlib.Data.Int.ModEq

/-!
# The calendar of the game

`another_hour` moves the clock of the game on by one hour, and with it the day, the month of 35
days, the year of 17 months, the moon, the season and the light.  With mode 0 it counts the hours
and nothing else.
-/

namespace HavokMud.Weather

/-! ## The clock -/

/-- `struct time_info_data`. -/
structure TimeInfo where
  hours : Int32
  day : Int32
  month : Int32
  year : Int32

inductive Season
  | winter
  | spring
  | summer
  | fall
deriving DecidableEq

/-- `WeatherLight_t`. -/
inductive Sunlight
  | dark
  | rise
  | light
  | set
deriving DecidableEq

/-- The variables that `another_hour` works on. -/
structure State where
  timeInfo : TimeInfo
  moontype : UInt8
  season : Season
  sunRise : Int32
  sunSet : Int32
  moonRise : Int32
  lightLevel : Int32
  sunlight : Sunlight
  /-- `SYS_ECLIPS`. -/
  eclipse : Bool

/-- `ChangeSeason`. -/
def changeSeason (month : Int32) (s : State) : State :=
  if 4 ≤ month ∧ month ≤ 7 then { s with sunRise := 7, sunSet := 18, season := .spring }
  else if 8 ≤ month ∧ month ≤ 11 then { s with sunRise := 5, sunSet := 20, season := .summer }
  else if 12 ≤ month ∧ month ≤ 15 then { s with sunRise := 7, sunSet := 18, season := .fall }
  else { s with sunRise := 9, sunSet := 16, season := .winter }

/-- The light level goes up when one of the brighter moons rises. -/
def riseMoon (tmp : Int32) (s : State) : State :=
  if tmp = s.moonRise ∧ 16 < s.moontype ∧ s.moontype < 22 then
    { s with lightLevel := s.lightLevel + 1 }
  else s

/-- What the hour is to the sun.  The last event of the hour counts. -/
def moveSun (tmp : Int32) (s : State) : State :=
  if tmp = s.sunSet + 1 then { s with sunlight := .dark }
  else if tmp = s.sunSet ∧ s.eclipse = false then { s with sunlight := .set }
  else if tmp = s.sunRise + 1 ∧ s.eclipse = false then { s with sunlight := .light }
  else if tmp = s.sunRise ∧ s.eclipse = false then { s with sunlight := .rise }
  else s

/-- The moon from one night to the next. -/
def nextMoon (moontype : UInt8) : UInt8 :=
  if 32 < moontype + 1 then 1 else moontype + 1

/-- The first day of the next month. -/
def nextMonth (time : TimeInfo) : TimeInfo :=
  let time := { time with day := 0, month := time.month + 1 }
  if 16 < time.month then { time with month := 0, year := time.year + 1 } else time

/-- Midnight. -/
def nextDay (s : State) : State :=
  let time := { s.timeInfo with hours := s.timeInfo.hours - 24, day := s.timeInfo.day + 1 }
  let s := changeSeason time.month s
  let s := { s with moontype := nextMoon s.moontype }
  let time := if 34 < time.day then nextMonth time else time
  changeSeason time.month { s with timeInfo := time }

/-- `another_hour`. -/
def anotherHour (mode : Int32) (s : State) : State :=
  let s := { s with timeInfo := { s.timeInfo with hours := s.timeInfo.hours + 1 } }
  let tmp := s.timeInfo.hours
  if mode = 0 then s
  else
    let s := moveSun tmp (riseMoon tmp s)
    if 23 < s.timeInfo.hours then nextDay s else s

section Fields

variable (s : State) (month tmp : Int32)

@[simp]
theorem timeInfo_changeSeason : (changeSeason month s).timeInfo = s.timeInfo := by
  unfold changeSeason
  split_ifs <;> rfl

@[simp]
theorem moontype_changeSeason : (changeSeason month s).moontype = s.moontype := by
  unfold changeSeason
  split_ifs <;> rfl

@[simp]
theorem timeInfo_riseMoon : (riseMoon tmp s).timeInfo = s.timeInfo := by
  unfold riseMoon
  split_ifs <;> rfl

@[simp]
theorem moontype_riseMoon : (riseMoon tmp s).moontype = s.moontype := by
  unfold riseMoon
  split_ifs <;> rfl

@[simp]
theorem timeInfo_moveSun : (moveSun tmp s).timeInfo = s.timeInfo := by
  unfold moveSun
  split_ifs <;> rfl

@[simp]
theorem moontype_moveSun : (moveSun tmp s).moontype = s.moontype := by
  unfold moveSun
  split_ifs <;> rfl

@[simp]
theorem moontype_nextDay : (nextDay s).moontype = nextMoon s.moontype := by
  unfold nextDay
  simp

end Fields

/-! ## One hour -/

/-- A time of the calendar. -/
structure TimeInfo.Valid (time : TimeInfo) : Prop where
  hours : 0 ≤ time.hours.toInt ∧ time.hours.toInt ≤ 23
  day : 0 ≤ time.day.toInt ∧ time.day.toInt ≤ 34
  month : 0 ≤ time.month.toInt ∧ time.month.toInt ≤ 16

/-- The midnights since the beginning of the year 0. -/
def TimeInfo.totalDays (time : TimeInfo) : ℤ :=
  (time.year.toInt * 17 + time.month.toInt) * 35 + time.day.toInt

def TimeInfo.totalHours (time : TimeInfo) : ℤ :=
  time.totalDays * 24 + time.hours.toInt

/-- The year is an `int`, and the calendar ends with the last of them. -/
def endOfTime : ℤ := 2 ^ 31 * (17 * 35 * 24)

variable {s : State} {time : TimeInfo} {mode n : Int32}

theorem toInt_add_one (hn : n.toInt < 2 ^ 31 - 1) : (n + 1).toInt = n.toInt + 1 := by
  have hlow := n.le_toInt
  rw [Int32.toInt_add, show (1 : Int32).toInt = 1 from rfl, Int.bmod_def]
  omega

theorem TimeInfo.Valid.totalHours_lt (h : time.Valid) : time.totalHours < endOfTime := by
  have hyear := time.year.toInt_lt
  obtain ⟨⟨-, hhours⟩, ⟨-, hday⟩, ⟨-, hmonth⟩⟩ := h
  unfold TimeInfo.totalHours TimeInfo.totalDays endOfTime
  omega

/-- Behind the last day of a month. -/
theorem nextMonth_spec (hhours : 0 ≤ time.hours.toInt ∧ time.hours.toInt ≤ 23)
    (hday : time.day.toInt = 35) (hmonth : 0 ≤ time.month.toInt ∧ time.month.toInt ≤ 16)
    (hend : time.totalHours < endOfTime) :
    (nextMonth time).Valid ∧ (nextMonth time).totalDays = time.totalDays ∧
      (nextMonth time).hours = time.hours := by
  have hnext : (time.month + 1).toInt = time.month.toInt + 1 := toInt_add_one (by omega)
  unfold TimeInfo.totalHours TimeInfo.totalDays endOfTime at hend
  unfold nextMonth TimeInfo.totalDays
  dsimp only
  have hzero : (0 : Int32).toInt = 0 := rfl
  have hsixteen : (16 : Int32).toInt = 16 := rfl
  split_ifs with hlast
  · rw [Int32.lt_iff_toInt_lt, hnext] at hlast
    have hyear : (time.year + 1).toInt = time.year.toInt + 1 := toInt_add_one (by omega)
    refine ⟨⟨hhours, ?_, ?_⟩, ?_, rfl⟩
    · dsimp only
      omega
    · dsimp only
      omega
    · dsimp only
      omega
  · rw [Int32.lt_iff_toInt_lt, hnext] at hlast
    refine ⟨⟨hhours, ?_, ?_⟩, ?_, rfl⟩
    · dsimp only
      omega
    · dsimp only
      omega
    · dsimp only
      omega

/-- From one state to another that is some hours later. -/
structure Advances (s s' : State) (n : ℤ) : Prop where
  valid : s'.timeInfo.Valid
  totalHours : s'.timeInfo.totalHours = s.timeInfo.totalHours + n
  moon_range : 1 ≤ s'.moontype.toNat ∧ s'.moontype.toNat ≤ 32
  moon : (s'.moontype.toNat : ℤ) ≡
    s.moontype.toNat + (s'.timeInfo.totalDays - s.timeInfo.totalDays) [ZMOD 32]

theorem Advances.refl (h : s.timeInfo.Valid)
    (hmoon : 1 ≤ s.moontype.toNat ∧ s.moontype.toNat ≤ 32) : Advances s s 0 :=
  ⟨h, (add_zero _).symm, hmoon, by rw [sub_self, add_zero]⟩

theorem Advances.trans {s₁ s₂ s₃ : State} {m n : ℤ} (h₁ : Advances s₁ s₂ m)
    (h₂ : Advances s₂ s₃ n) : Advances s₁ s₃ (m + n) where
  valid := h₂.valid
  totalHours := by rw [h₂.totalHours, h₁.totalHours, add_assoc]
  moon_range := h₂.moon_range
  moon := by
    calc (s₃.moontype.toNat : ℤ)
      _ ≡ s₂.moontype.toNat + (s₃.timeInfo.totalDays - s₂.timeInfo.totalDays) [ZMOD 32] := h₂.moon
      _ ≡ s₁.moontype.toNat + (s₂.timeInfo.totalDays - s₁.timeInfo.totalDays) +
          (s₃.timeInfo.totalDays - s₂.timeInfo.totalDays) [ZMOD 32] := h₁.moon.add_right _
      _ = s₁.moontype.toNat + (s₃.timeInfo.totalDays - s₁.timeInfo.totalDays) := by omega

theorem nextMoon_spec {moontype : UInt8} (hmoon : 1 ≤ moontype.toNat ∧ moontype.toNat ≤ 32) :
    (1 ≤ (nextMoon moontype).toNat ∧ (nextMoon moontype).toNat ≤ 32) ∧
      ((nextMoon moontype).toNat : ℤ) ≡ moontype.toNat + 1 [ZMOD 32] := by
  have hnext : (moontype + 1).toNat = moontype.toNat + 1 := by
    rw [UInt8.toNat_add, show (1 : UInt8).toNat = 1 from rfl]
    omega
  unfold nextMoon Int.ModEq
  split_ifs with hlast
  · rw [UInt8.lt_iff_toNat_lt, hnext] at hlast
    have hlimit : (32 : UInt8).toNat = 32 := rfl
    have hone : (1 : UInt8).toNat = 1 := rfl
    omega
  · rw [UInt8.lt_iff_toNat_lt, hnext] at hlast
    have hlimit : (32 : UInt8).toNat = 32 := rfl
    omega

/-- Midnight, when the hours have been counted up to 24. -/
theorem nextDay_spec (hhours : s.timeInfo.hours.toInt = 24)
    (hday : 0 ≤ s.timeInfo.day.toInt ∧ s.timeInfo.day.toInt ≤ 34)
    (hmonth : 0 ≤ s.timeInfo.month.toInt ∧ s.timeInfo.month.toInt ≤ 16)
    (hend : s.timeInfo.totalHours < endOfTime) :
    (nextDay s).timeInfo.Valid ∧
      (nextDay s).timeInfo.totalDays = s.timeInfo.totalDays + 1 ∧
      (nextDay s).timeInfo.hours.toInt = 0 ∧ (nextDay s).moontype = nextMoon s.moontype := by
  have hnext : (s.timeInfo.day + 1).toInt = s.timeInfo.day.toInt + 1 := toInt_add_one (by omega)
  have hzero : (s.timeInfo.hours - 24).toInt = 0 := by
    rw [Int32.toInt_sub, hhours]
    rfl
  have hlimit : (34 : Int32).toInt = 34 := rfl
  set time : TimeInfo :=
    { s.timeInfo with hours := s.timeInfo.hours - 24, day := s.timeInfo.day + 1 } with htime
  have hdays : time.totalDays = s.timeInfo.totalDays + 1 := by
    rw [htime]
    unfold TimeInfo.totalDays
    dsimp only
    omega
  have hhours' : 0 ≤ time.hours.toInt ∧ time.hours.toInt ≤ 23 := by
    rw [htime]
    dsimp only
    omega
  have hcases : (nextDay s).timeInfo = if 34 < time.day then nextMonth time else time := by
    unfold nextDay
    simp [htime]
  rw [hcases, moontype_nextDay]
  split_ifs with hlast
  · rw [Int32.lt_iff_toInt_lt, hlimit] at hlast
    have hend' : time.totalHours < endOfTime := by
      unfold TimeInfo.totalHours at hend ⊢
      rw [hdays]
      dsimp only [time]
      omega
    obtain ⟨hvalid, hsame, hkept⟩ := nextMonth_spec hhours'
      (show (s.timeInfo.day + 1).toInt = 35 by dsimp only [time] at hlast; omega) hmonth hend'
    refine ⟨hvalid, hsame.trans hdays, ?_, rfl⟩
    rw [hkept]
    exact hzero
  · rw [Int32.lt_iff_toInt_lt, hlimit] at hlast
    dsimp only [time] at hlast
    refine ⟨⟨hhours', ?_, hmonth⟩, hdays, hzero, rfl⟩
    dsimp only [time]
    omega

/-- One call, before the calendar ends. -/
theorem anotherHour_advances (hmode : mode ≠ 0) (h : s.timeInfo.Valid)
    (hmoon : 1 ≤ s.moontype.toNat ∧ s.moontype.toNat ≤ 32)
    (hend : s.timeInfo.totalHours + 1 < endOfTime) : Advances s (anotherHour mode s) 1 := by
  obtain ⟨hhours, hday, hmonth⟩ := h
  have hnext : (s.timeInfo.hours + 1).toInt = s.timeInfo.hours.toInt + 1 :=
    toInt_add_one (by omega)
  have hlimit : (23 : Int32).toInt = 23 := rfl
  unfold anotherHour
  dsimp only
  rw [if_neg hmode]
  generalize hlater : moveSun _ _ = later
  have htime : later.timeInfo = { s.timeInfo with hours := s.timeInfo.hours + 1 } := by
    rw [← hlater]
    simp
  have hsame : later.moontype = s.moontype := by
    rw [← hlater]
    simp
  have hdays : later.timeInfo.totalDays = s.timeInfo.totalDays := by
    rw [htime]
    rfl
  have hcounted : later.timeInfo.hours.toInt = s.timeInfo.hours.toInt + 1 := by
    rw [htime]
    exact hnext
  split_ifs with hmidnight
  · rw [Int32.lt_iff_toInt_lt, hlimit] at hmidnight
    unfold TimeInfo.totalHours at hend
    obtain ⟨hvalid, hday', hzero, hmoon'⟩ := nextDay_spec (s := later) (by omega)
      (by rw [htime]; exact hday) (by rw [htime]; exact hmonth)
      (by unfold TimeInfo.totalHours; omega)
    rw [hsame] at hmoon'
    obtain ⟨hrange, hmod⟩ := nextMoon_spec hmoon
    refine ⟨hvalid, ?_, by rw [hmoon']; exact hrange, ?_⟩
    · unfold TimeInfo.totalHours
      omega
    · rw [hmoon', hday', hdays, add_sub_cancel_left]
      exact hmod
  · rw [Int32.lt_iff_toInt_lt, hlimit] at hmidnight
    refine ⟨⟨⟨by omega, by omega⟩, by rw [htime]; exact hday, by rw [htime]; exact hmonth⟩, ?_,
      by rw [hsame]; exact hmoon, ?_⟩
    · unfold TimeInfo.totalHours
      omega
    · rw [hsame, hdays, sub_self, add_zero]

/-! ## Many hours -/

/-- Calls of `another_hour`, one for each mode. -/
def hoursLater (modes : List Int32) (s : State) : State :=
  modes.foldl (fun s mode ↦ anotherHour mode s) s

theorem hoursLater_advances {modes : List Int32} (hmodes : ∀ mode ∈ modes, mode ≠ 0)
    (h : s.timeInfo.Valid) (hmoon : 1 ≤ s.moontype.toNat ∧ s.moontype.toNat ≤ 32)
    (hend : s.timeInfo.totalHours + modes.length < endOfTime) :
    Advances s (hoursLater modes s) modes.length := by
  induction modes generalizing s with
  | nil => exact .refl h hmoon
  | cons mode modes ih =>
      obtain ⟨hmode, hmodes⟩ := List.forall_mem_cons.mp hmodes
      rw [List.length_cons] at hend ⊢
      have hfirst := anotherHour_advances hmode h hmoon (by omega)
      have hrest := ih hmodes hfirst.valid hfirst.moon_range (by
        rw [hfirst.totalHours]
        omega)
      have hboth := hfirst.trans hrest
      rwa [add_comm, ← Nat.cast_succ] at hboth

/-- Each call counts one hour, and the moon changes at midnight, as long as the year is an `int`. -/
theorem hoursLater_iff {modes : List Int32} (hmodes : ∀ mode ∈ modes, mode ≠ 0)
    (h : s.timeInfo.Valid) (hmoon : 1 ≤ s.moontype.toNat ∧ s.moontype.toNat ≤ 32) :
    ((hoursLater modes s).timeInfo.Valid ∧
      (hoursLater modes s).timeInfo.totalHours = s.timeInfo.totalHours + modes.length ∧
      ((hoursLater modes s).moontype.toNat : ℤ) =
        (s.moontype.toNat - 1 + (s.timeInfo.hours.toInt + modes.length) / 24) % 32 + 1) ↔
      s.timeInfo.totalHours + modes.length < endOfTime := by
  constructor
  · rintro ⟨hvalid, htotal, -⟩
    rw [← htotal]
    exact hvalid.totalHours_lt
  · intro hend
    obtain ⟨hvalid, htotal, hrange, hmod⟩ := hoursLater_advances hmodes h hmoon hend
    refine ⟨hvalid, htotal, ?_⟩
    have hhours := h.hours
    have hhours' := hvalid.hours
    unfold TimeInfo.totalHours at htotal
    unfold Int.ModEq at hmod
    omega

/-- The last hour of a year. -/
def lastHour (year : Int32) : State :=
  ⟨⟨23, 34, 16, year⟩, 32, .winter, 9, 16, 22, 4, .dark, false⟩

theorem valid_lastHour (year : Int32) : (lastHour year).timeInfo.Valid where
  hours := (by decide : 0 ≤ (23 : Int32).toInt ∧ (23 : Int32).toInt ≤ 23)
  day := (by decide : 0 ≤ (34 : Int32).toInt ∧ (34 : Int32).toInt ≤ 34)
  month := (by decide : 0 ≤ (16 : Int32).toInt ∧ (16 : Int32).toInt ≤ 16)

/-- Into the second hour of the year 6. -/
theorem hoursLater_newYear :
    (hoursLater [1, 1] (lastHour 5)).timeInfo.Valid ∧
      (hoursLater [1, 1] (lastHour 5)).timeInfo.totalHours =
        (lastHour 5).timeInfo.totalHours + ([1, 1] : List Int32).length ∧
      ((hoursLater [1, 1] (lastHour 5)).moontype.toNat : ℤ) =
        ((lastHour 5).moontype.toNat - 1 +
          ((lastHour 5).timeInfo.hours.toInt + ([1, 1] : List Int32).length) / 24) % 32 + 1 :=
  (hoursLater_iff (by simp) (valid_lastHour 5) (by decide)).mpr (by decide)

/-- There is no year behind the greatest `int`. -/
theorem after_lastHour :
    (lastHour 2147483647).timeInfo.Valid ∧
      (hoursLater [1] (lastHour 2147483647)).timeInfo.totalHours ≠
        (lastHour 2147483647).timeInfo.totalHours + 1 :=
  ⟨valid_lastHour 2147483647, by decide⟩

end HavokMud.Weather
