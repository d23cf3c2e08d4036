import HavokMud.Weather.Calendar
import Mathlib.Data.Nat.Count

/-!
# Daylight and moonlight

Without an eclipse the sunlight is right from the second sunrise on, whatever it was before, since
the season is chosen anew at midnight and the sun rises every day.  The light level is not: it goes
up when a bright moon rises, and nothing takes that back.
-/

namespace HavokMud.Weather

/-! ## Seasons -/

/-- The season of a month, with the hours of its sunrise and its sunset. -/
def seasonOf (month : Int32) : Season × Int32 × Int32 :=
  if 4 ≤ month ∧ month ≤ 7 then (.spring, 7, 18)
  else if 8 ≤ month ∧ month ≤ 11 then (.summer, 5, 20)
  else if 12 ≤ month ∧ month ≤ 15 then (.fall, 7, 18)
  else (.winter, 9, 16)

/-- The sunlight at an hour, between a sunrise and a sunset. -/
def sunlightAt (sunRise sunSet hours : Int32) : Sunlight :=
  if hours = sunRise then .rise
  else if hours = sunSet then .set
  else if sunRise < hours ∧ hours < sunSet then .light
  else .dark

/-- The sunlight at an hour of a month. -/
def daylight (month hours : Int32) : Sunlight :=
  sunlightAt (seasonOf month).2.1 (seasonOf month).2.2 hours

/-- The season is that of the month. -/
def InSeason (s : State) : Prop :=
  (s.season, s.sunRise, s.sunSet) = seasonOf s.timeInfo.month

/-- The sunlight is that of the hour. -/
def Lit (s : State) : Prop :=
  s.sunlight = daylight s.timeInfo.month s.timeInfo.hours

section Fields

variable (s : State) (month tmp : Int32)

theorem season_changeSeason :
    ((changeSeason month s).season, (changeSeason month s).sunRise,
      (changeSeason month s).sunSet) = seasonOf month := by
  unfold changeSeason seasonOf
  split_ifs <;> rfl

@[simp]
theorem sunlight_changeSeason : (changeSeason month s).sunlight = s.sunlight := by
  unfold changeSeason
  split_ifs <;> rfl

@[simp]
theorem eclipse_changeSeason : (changeSeason month s).eclipse = s.eclipse := by
  unfold changeSeason
  split_ifs <;> rfl

@[simp]
theorem sunlight_riseMoon : (riseMoon tmp s).sunlight = s.sunlight := by
  unfold riseMoon
  split_ifs <;> rfl

@[simp]
theorem eclipse_riseMoon : (riseMoon tmp s).eclipse = s.eclipse := by
  unfold riseMoon
  split_ifs <;> rfl

theorem season_riseMoon :
    ((riseMoon tmp s).season, (riseMoon tmp s).sunRise, (riseMoon tmp s).sunSet) =
      (s.season, s.sunRise, s.sunSet) := by
  unfold riseMoon
  split_ifs <;> rfl

@[simp]
theorem eclipse_moveSun : (moveSun tmp s).eclipse = s.eclipse := by
  unfold moveSun
  split_ifs <;> rfl

theorem season_moveSun :
    ((moveSun tmp s).season, (moveSun tmp s).sunRise, (moveSun tmp s).sunSet) =
      (s.season, s.sunRise, s.sunSet) := by
  unfold moveSun
  split_ifs <;> rfl

@[simp]
theorem sunlight_nextDay : (nextDay s).sunlight = s.sunlight := by
  unfold nextDay
  simp

@[simp]
theorem eclipse_nextDay : (nextDay s).eclipse = s.eclipse := by
  unfold nextDay
  simp

theorem inSeason_nextDay : InSeason (nextDay s) := by
  unfold nextDay InSeason
  rw [timeInfo_changeSeason]
  exact season_changeSeason _ _

end Fields

/-! ## One hour of daylight -/

section Steps

variable {s : State} {mode tmp sunRise sunSet hours : Int32}

/-- The sun moves on from the right light, and a sunrise puts a wrong one right. -/
theorem sunlight_moveSun (heclipse : s.eclipse = false) (hnext : tmp.toInt = hours.toInt + 1)
    (hset : (s.sunSet + 1).toInt = s.sunSet.toInt + 1)
    (hrise : (s.sunRise + 1).toInt = s.sunRise.toInt + 1)
    (hday : s.sunRise.toInt + 1 < s.sunSet.toInt)
    (h : s.sunlight = sunlightAt s.sunRise s.sunSet hours ∨ tmp = s.sunRise) :
    (moveSun tmp s).sunlight = sunlightAt s.sunRise s.sunSet tmp := by
  unfold moveSun sunlightAt at *
  simp only [heclipse, and_true, ← Int32.toInt_inj, Int32.lt_iff_toInt_lt] at *
  rcases h with h | h
  · split_ifs <;> first
      | rfl
      | omega
      | (rw [h]; split_ifs <;> first | rfl | omega)
  · split_ifs <;> first
      | rfl
      | omega

theorem seasonOf_hours (month : Int32) :
    0 < (seasonOf month).2.1.toInt ∧ (seasonOf month).2.1.toInt ≤ 9 ∧
      (seasonOf month).2.1.toInt + 1 < (seasonOf month).2.2.toInt ∧
      (seasonOf month).2.2.toInt < 23 := by
  unfold seasonOf
  split_ifs <;> decide

@[simp]
theorem hours_nextDay (s : State) : (nextDay s).timeInfo.hours = s.timeInfo.hours - 24 := by
  unfold nextDay nextMonth
  simp only [timeInfo_changeSeason]
  split_ifs <;> rfl

/-- The state in an hour, before midnight is seen to. -/
def inHour (s : State) : State :=
  moveSun (s.timeInfo.hours + 1) (riseMoon (s.timeInfo.hours + 1)
    { s with timeInfo := { s.timeInfo with hours := s.timeInfo.hours + 1 } })

@[simp]
theorem timeInfo_inHour (s : State) :
    (inHour s).timeInfo = { s.timeInfo with hours := s.timeInfo.hours + 1 } := by
  simp [inHour]

theorem season_inHour (s : State) :
    ((inHour s).season, (inHour s).sunRise, (inHour s).sunSet) =
      (s.season, s.sunRise, s.sunSet) := by
  rw [inHour, season_moveSun, season_riseMoon]

@[simp]
theorem eclipse_inHour (s : State) : (inHour s).eclipse = s.eclipse := by
  simp [inHour]

theorem anotherHour_cases (hmode : mode ≠ 0) (h : s.timeInfo.Valid) :
    (s.timeInfo.hours.toInt < 23 ∧ anotherHour mode s = inHour s) ∨
      (s.timeInfo.hours.toInt = 23 ∧ anotherHour mode s = nextDay (inHour s)) := by
  have hhours := h.hours
  have hnext : (s.timeInfo.hours + 1).toInt = s.timeInfo.hours.toInt + 1 :=
    toInt_add_one (by omega)
  have hlimit : (23 : Int32).toInt = 23 := rfl
  have hrun : anotherHour mode s =
      if 23 < (inHour s).timeInfo.hours then nextDay (inHour s) else inHour s := if_neg hmode
  rw [timeInfo_inHour] at hrun
  dsimp only at hrun
  rw [hrun]
  split_ifs with hlast
  · rw [Int32.lt_iff_toInt_lt, hlimit, hnext] at hlast
    exact .inr ⟨by omega, rfl⟩
  · rw [Int32.lt_iff_toInt_lt, hlimit, hnext] at hlast
    exact .inl ⟨by omega, rfl⟩

theorem eclipse_anotherHour (mode : Int32) (s : State) :
    (anotherHour mode s).eclipse = s.eclipse := by
  unfold anotherHour
  dsimp only
  split_ifs <;> simp

/-- At midnight the season is that of the month, and it stays so. -/
theorem inSeason_anotherHour (hmode : mode ≠ 0) (h : s.timeInfo.Valid)
    (hseason : InSeason s ∨ s.timeInfo.hours.toInt = 23) : InSeason (anotherHour mode s) := by
  rcases anotherHour_cases hmode h with ⟨hhours, hrun⟩ | ⟨-, hrun⟩
  · rw [hrun, InSeason, season_inHour, timeInfo_inHour]
    exact hseason.resolve_right (by omega)
  · rw [hrun]
    exact inSeason_nextDay _

/-- In the right season the light stays right, and a sunrise puts it right. -/
theorem lit_anotherHour (hmode : mode ≠ 0) (h : s.timeInfo.Valid) (heclipse : s.eclipse = false)
    (hseason : InSeason s)
    (hlit : Lit s ∨ s.timeInfo.hours.toInt + 1 = (seasonOf s.timeInfo.month).2.1.toInt) :
    Lit (anotherHour mode s) := by
  obtain ⟨hpos, hrise, hday, hset⟩ := seasonOf_hours s.timeInfo.month
  obtain ⟨hseason', hrise', hset'⟩ : s.season = (seasonOf s.timeInfo.month).1 ∧
      s.sunRise = (seasonOf s.timeInfo.month).2.1 ∧ s.sunSet = (seasonOf s.timeInfo.month).2.2 := by
    simpa [InSeason, Prod.ext_iff] using hseason
  have hhours := h.hours
  have hnext : (s.timeInfo.hours + 1).toInt = s.timeInfo.hours.toInt + 1 :=
    toInt_add_one (by omega)
  have hlight : (inHour s).sunlight = daylight s.timeInfo.month (s.timeInfo.hours + 1) := by
    set before := riseMoon (s.timeInfo.hours + 1)
      { s with timeInfo := { s.timeInfo with hours := s.timeInfo.hours + 1 } } with hbefore
    obtain ⟨-, hriseBefore, hsetBefore⟩ : before.season = s.season ∧
        before.sunRise = s.sunRise ∧ before.sunSet = s.sunSet := by
      simpa only [Prod.mk.injEq] using season_riseMoon
        { s with timeInfo := { s.timeInfo with hours := s.timeInfo.hours + 1 } }
        (s.timeInfo.hours + 1)
    have heclipse' : before.eclipse = false := by rwa [hbefore, eclipse_riseMoon]
    have hsunlight : before.sunlight = s.sunlight := by rw [hbefore, sunlight_riseMoon]
    have hmoved := sunlight_moveSun heclipse' hnext
      (by rw [hsetBefore, hset']; exact toInt_add_one (by omega))
      (by rw [hriseBefore, hrise']; exact toInt_add_one (by omega))
      (by rw [hriseBefore, hsetBefore, hrise', hset']; exact hday)
      (by
        rw [hriseBefore, hsetBefore, hsunlight, hrise', hset']
        exact hlit.imp id fun heq ↦ Int32.toInt_inj.mp (hnext.trans heq))
    rw [hriseBefore, hsetBefore, hrise', hset'] at hmoved
    exact hmoved
  rcases anotherHour_cases hmode h with ⟨-, hrun⟩ | ⟨hlast, hrun⟩
  · rw [hrun, Lit, hlight, timeInfo_inHour]
  · -- at midnight it is dark in every season
    have hzero : (s.timeInfo.hours + 1 - 24).toInt = 0 := by
      rw [Int32.toInt_sub, hnext, hlast]
      rfl
    obtain ⟨hpos', -, hday', -⟩ := seasonOf_hours (nextDay (inHour s)).timeInfo.month
    rw [hrun, Lit, sunlight_nextDay, hlight, hours_nextDay, timeInfo_inHour]
    unfold daylight sunlightAt
    simp only [← Int32.toInt_inj, Int32.lt_iff_toInt_lt]
    split_ifs <;> first
      | rfl
      | omega

end Steps

/-! ## Many hours of daylight -/

section Runs

variable {s : State} {modes : List Int32}

/-- The time does not depend on the moon. -/
theorem timeInfo_anotherHour (mode : Int32) (s : State) (moontype : UInt8) :
    (anotherHour mode { s with moontype := moontype }).timeInfo = (anotherHour mode s).timeInfo := by
  unfold anotherHour nextDay
  simp only [timeInfo_moveSun, timeInfo_riseMoon]
  split_ifs <;> simp

/-- So it is counted from any state of the moon. -/
theorem anotherHour_counts {mode : Int32} (hmode : mode ≠ 0) (h : s.timeInfo.Valid)
    (hend : s.timeInfo.totalHours + 1 < endOfTime) :
    (anotherHour mode s).timeInfo.Valid ∧
      (anotherHour mode s).timeInfo.totalHours = s.timeInfo.totalHours + 1 := by
  have hadvances := @anotherHour_advances { s with moontype := 1 } mode hmode h
    (show 1 ≤ (1 : UInt8).toNat ∧ (1 : UInt8).toNat ≤ 32 by decide) hend
  rw [← timeInfo_anotherHour mode s 1]
  exact ⟨hadvances.valid, hadvances.totalHours⟩

theorem hoursLater_counts (hmodes : ∀ mode ∈ modes, mode ≠ 0) (h : s.timeInfo.Valid)
    (hend : s.timeInfo.totalHours + modes.length < endOfTime) :
    (hoursLater modes s).timeInfo.Valid ∧
      (hoursLater modes s).timeInfo.totalHours = s.timeInfo.totalHours + modes.length := by
  induction modes generalizing s with
  | nil => exact ⟨h, (add_zero _).symm⟩
  | cons mode modes ih =>
      obtain ⟨hmode, hmodes⟩ := List.forall_mem_cons.mp hmodes
      rw [List.length_cons] at hend ⊢
      obtain ⟨hvalid, htotal⟩ := anotherHour_counts hmode h (by omega)
      obtain ⟨hvalid', htotal'⟩ := ih hmodes hvalid (by omega)
      exact ⟨hvalid', htotal'.trans (by rw [htotal]; push_cast; omega)⟩

/-- The hours are counted as the calendar says. -/
theorem hours_anotherHour {mode : Int32} (hmode : mode ≠ 0) (h : s.timeInfo.Valid)
    (hlast : s.timeInfo.hours.toInt ≠ 23) :
    (anotherHour mode s).timeInfo.hours.toInt = s.timeInfo.hours.toInt + 1 ∧
      (anotherHour mode s).timeInfo.month = s.timeInfo.month := by
  rcases anotherHour_cases hmode h with ⟨hhours, hrun⟩ | ⟨heq, -⟩
  · rw [hrun, timeInfo_inHour]
    have hhours' := h.hours
    exact ⟨toInt_add_one (by omega), rfl⟩
  · exact absurd heq hlast

theorem eclipse_hoursLater (modes : List Int32) (s : State) :
    (hoursLater modes s).eclipse = s.eclipse := by
  induction modes generalizing s with
  | nil => rfl
  | cons mode modes ih => exact (ih _).trans (eclipse_anotherHour mode s)

theorem inSeason_hoursLater (hmodes : ∀ mode ∈ modes, mode ≠ 0) (h : s.timeInfo.Valid)
    (hend : s.timeInfo.totalHours + modes.length < endOfTime)
    (hseason : InSeason s ∨ 24 ≤ s.timeInfo.hours.toInt + modes.length) :
    InSeason (hoursLater modes s) := by
  induction modes generalizing s with
  | nil =>
      have hhours := h.hours
      rw [List.length_nil] at hseason
      exact hseason.resolve_right (by omega)
  | cons mode modes ih =>
      obtain ⟨hmode, hmodes⟩ := List.forall_mem_cons.mp hmodes
      rw [List.length_cons] at hend hseason
      obtain ⟨hvalid, htotal⟩ := anotherHour_counts hmode h (by omega)
      have hrest : (anotherHour mode s).timeInfo.totalHours + modes.length < endOfTime := by omega
      refine ih hmodes hvalid hrest ?_
      by_cases hnow : InSeason s ∨ s.timeInfo.hours.toInt = 23
      · exact .inl (inSeason_anotherHour hmode h hnow)
      · obtain ⟨hnot, hlast⟩ := not_or.mp hnow
        have hlong := hseason.resolve_left hnot
        rw [(hours_anotherHour hmode h hlast).1]
        exact .inr (by omega)

theorem lit_hoursLater (hmodes : ∀ mode ∈ modes, mode ≠ 0) (h : s.timeInfo.Valid)
    (hend : s.timeInfo.totalHours + modes.length < endOfTime) (heclipse : s.eclipse = false)
    (hseason : InSeason s)
    (hlit : Lit s ∨ s.timeInfo.hours.toInt < (seasonOf s.timeInfo.month).2.1.toInt ∧
      (seasonOf s.timeInfo.month).2.1.toInt ≤ s.timeInfo.hours.toInt + modes.length) :
    Lit (hoursLater modes s) := by
  induction modes generalizing s with
  | nil =>
      rw [List.length_nil] at hlit
      exact hlit.resolve_right (by omega)
  | cons mode modes ih =>
      obtain ⟨hmode, hmodes⟩ := List.forall_mem_cons.mp hmodes
      rw [List.length_cons] at hend hlit
      obtain ⟨hvalid, htotal⟩ := anotherHour_counts hmode h (by omega)
      have hrest : (anotherHour mode s).timeInfo.totalHours + modes.length < endOfTime := by omega
      refine ih hmodes hvalid hrest
        ((eclipse_anotherHour mode s).trans heclipse)
        (inSeason_anotherHour hmode h (.inl hseason)) ?_
      by_cases hnow : Lit s ∨
          s.timeInfo.hours.toInt + 1 = (seasonOf s.timeInfo.month).2.1.toInt
      · exact .inl (lit_anotherHour hmode h heclipse hseason hnow)
      · obtain ⟨hnot, hrise⟩ := not_or.mp hnow
        obtain ⟨hearly, hlong⟩ := hlit.resolve_left hnot
        obtain ⟨-, hle, -, -⟩ := seasonOf_hours s.timeInfo.month
        obtain ⟨hhours, hmonth⟩ := hours_anotherHour hmode h (by omega)
        rw [hhours, hmonth]
        exact .inr (by omega)

/-- Whatever season and sunlight there were, after 33 hours without an eclipse they are those of the
calendar, and they stay so. -/
theorem daylight_settles (hmodes : ∀ mode ∈ modes, mode ≠ 0) (h : s.timeInfo.Valid)
    (hend : s.timeInfo.totalHours + modes.length < endOfTime) (heclipse : s.eclipse = false)
    (hlong : 33 ≤ modes.length) : InSeason (hoursLater modes s) ∧ Lit (hoursLater modes s) := by
  have hhours := h.hours
  refine ⟨inSeason_hoursLater hmodes h hend (.inr (by omega)), ?_⟩
  -- up to midnight, and from there past the sunrise
  obtain ⟨night, day, rfl, hnight⟩ : ∃ night day : List Int32, modes = night ++ day ∧
      (night.length : ℤ) = 24 - s.timeInfo.hours.toInt :=
    ⟨modes.take (24 - s.timeInfo.hours.toInt).toNat, modes.drop (24 - s.timeInfo.hours.toInt).toNat,
      (List.take_append_drop _ _).symm, by rw [List.length_take]; omega⟩
  rw [List.length_append] at hend hlong
  have hnights : ∀ mode ∈ night, mode ≠ 0 :=
    fun mode hmem ↦ hmodes mode (List.mem_append_left _ hmem)
  obtain ⟨hvalid, htotal⟩ := hoursLater_counts hnights h (by omega)
  have hseason := inSeason_hoursLater hnights h (by omega) (.inr (by omega))
  have hmidnight : (hoursLater night s).timeInfo.hours.toInt = 0 := by
    have hvalid := hvalid.hours
    unfold TimeInfo.totalHours at htotal
    omega
  obtain ⟨hpos, hle, -, -⟩ := seasonOf_hours (hoursLater night s).timeInfo.month
  have hrun : hoursLater (night ++ day) s = hoursLater day (hoursLater night s) :=
    List.foldl_append
  rw [hrun]
  exact lit_hoursLater (fun mode hmem ↦ hmodes mode (List.mem_append_right _ hmem))
    hvalid (by omega) ((eclipse_hoursLater night s).trans heclipse) hseason (.inr (by omega))

/-- The state in which the program starts. -/
def atBoot : State :=
  ⟨⟨0, 0, 0, 0⟩, 0, .winter, 5, 18, 22, 4, .dark, false⟩

/-- The 33 hours after that. -/
theorem daylight_settles_atBoot : InSeason (hoursLater (List.replicate 33 1) atBoot) ∧
    Lit (hoursLater (List.replicate 33 1) atBoot) := by
  have hvalid : atBoot.timeInfo.Valid :=
    ⟨(by decide : 0 ≤ (0 : Int32).toInt ∧ (0 : Int32).toInt ≤ 23),
      (by decide : 0 ≤ (0 : Int32).toInt ∧ (0 : Int32).toInt ≤ 34),
      (by decide : 0 ≤ (0 : Int32).toInt ∧ (0 : Int32).toInt ≤ 16)⟩
  exact daylight_settles (by simp) hvalid (by decide) rfl (by simp)

end Runs

/-! ## Moonlight -/

section Moonlight

variable {s : State}

/-- The moon is a bright one that rises in the next hour; the hours are counted from the first one
of the first moon. -/
def bright (hours : ℕ) : Bool :=
  hours % 24 = 21 ∧ 16 ≤ hours % 768 / 24 ∧ hours % 768 / 24 ≤ 20

theorem bright_add (hours : ℕ) : bright (768 + hours) = bright hours := by
  unfold bright
  apply decide_eq_decide.mpr
  omega

/-- In 32 days, from any hour on, five bright moons rise. -/
theorem count_bright (hours days : ℕ) :
    Nat.count (fun i ↦ bright (hours + i)) (768 * days) = 5 * days := by
  have hfirst : Nat.count (fun i ↦ bright i) 768 = 5 := by decide +kernel
  have hmonth : ∀ hours, Nat.count (fun i ↦ bright (hours + i)) 768 = 5 := by
    intro hours
    have hlater := Nat.count_add (fun i ↦ bright i) hours 768
    have hsooner := Nat.count_add (fun i ↦ bright i) 768 hours
    simp only [bright_add] at hsooner
    rw [Nat.add_comm hours 768, hsooner, hfirst] at hlater
    omega
  induction days generalizing hours with
  | zero => rfl
  | succ days ih =>
      have hlater := hmonth (hours + 768 * days)
      simp only [Nat.add_assoc] at hlater
      rw [Nat.mul_succ, Nat.count_add, ih, hlater, Nat.mul_succ]

/-- The hours since the first hour of the first moon. -/
def AtMoon (s : State) (hours : ℕ) : Prop :=
  (hours % 768 : ℤ) = (s.moontype.toNat - 1) * 24 + s.timeInfo.hours.toInt

@[simp]
theorem moonRise_changeSeason (month : Int32) (s : State) :
    (changeSeason month s).moonRise = s.moonRise := by
  unfold changeSeason
  split_ifs <;> rfl

@[simp]
theorem lightLevel_changeSeason (month : Int32) (s : State) :
    (changeSeason month s).lightLevel = s.lightLevel := by
  unfold changeSeason
  split_ifs <;> rfl

@[simp]
theorem moonRise_moveSun (tmp : Int32) (s : State) : (moveSun tmp s).moonRise = s.moonRise := by
  unfold moveSun
  split_ifs <;> rfl

@[simp]
theorem lightLevel_moveSun (tmp : Int32) (s : State) :
    (moveSun tmp s).lightLevel = s.lightLevel := by
  unfold moveSun
  split_ifs <;> rfl

@[simp]
theorem moonRise_riseMoon (tmp : Int32) (s : State) :
    (riseMoon tmp s).moonRise = s.moonRise := by
  unfold riseMoon
  split_ifs <;> rfl

@[simp]
theorem moonRise_nextDay (s : State) : (nextDay s).moonRise = s.moonRise := by
  unfold nextDay
  simp

@[simp]
theorem lightLevel_nextDay (s : State) : (nextDay s).lightLevel = s.lightLevel := by
  unfold nextDay
  simp

/-- One hour of the moon. -/
theorem light_anotherHour {mode : Int32} {hours : ℕ} (hmode : mode ≠ 0) (h : s.timeInfo.Valid)
    (hmoon : 1 ≤ s.moontype.toNat ∧ s.moontype.toNat ≤ 32) (hrise : s.moonRise = 22)
    (hend : s.timeInfo.totalHours + 1 < endOfTime) (hat : AtMoon s hours) :
    AtMoon (anotherHour mode s) (hours + 1) ∧ (anotherHour mode s).moonRise = 22 ∧
      (anotherHour mode s).lightLevel = s.lightLevel + if bright hours then 1 else 0 := by
  have hhours := h.hours
  have hadvances := anotherHour_advances hmode h hmoon hend
  have hnext : (s.timeInfo.hours + 1).toInt = s.timeInfo.hours.toInt + 1 :=
    toInt_add_one (by omega)
  unfold AtMoon at *
  refine ⟨?_, ?_, ?_⟩
  · have hmoon' := hadvances.moon
    have hrange := hadvances.moon_range
    have htotal := hadvances.totalHours
    have hhours' := hadvances.valid.hours
    unfold TimeInfo.totalHours at htotal
    unfold Int.ModEq at hmoon'
    push_cast
    omega
  · rcases anotherHour_cases hmode h with ⟨-, hrun⟩ | ⟨-, hrun⟩ <;>
      simpa [hrun, inHour] using hrise
  · have hlevel : (inHour s).lightLevel = s.lightLevel + if bright hours then 1 else 0 := by
      have htmp : s.timeInfo.hours + 1 = s.moonRise ↔ s.timeInfo.hours.toInt = 21 := by
        rw [hrise, ← Int32.toInt_inj, hnext, show (22 : Int32).toInt = 22 from rfl]
        omega
      have hbright : (s.timeInfo.hours + 1 = s.moonRise ∧ 16 < s.moontype ∧ s.moontype < 22) ↔
          bright hours := by
        rw [htmp, UInt8.lt_iff_toNat_lt, UInt8.lt_iff_toNat_lt,
          show (16 : UInt8).toNat = 16 from rfl, show (22 : UInt8).toNat = 22 from rfl]
        simp only [bright, decide_eq_true_eq]
        omega
      rw [inHour, lightLevel_moveSun, riseMoon]
      dsimp only
      by_cases hyes : bright hours
      · rw [if_pos (hbright.mpr hyes), if_pos hyes]
      · rw [if_neg (mt hbright.mp hyes), if_neg hyes, Int32.add_zero]
    rcases anotherHour_cases hmode h with ⟨-, hrun⟩ | ⟨-, hrun⟩
    · rw [hrun, hlevel]
    · rw [hrun, lightLevel_nextDay, hlevel]

theorem light_hoursLater {modes : List Int32} {hours : ℕ} (hmodes : ∀ mode ∈ modes, mode ≠ 0)
    (h : s.timeInfo.Valid) (hmoon : 1 ≤ s.moontype.toNat ∧ s.moontype.toNat ≤ 32)
    (hrise : s.moonRise = 22) (hend : s.timeInfo.totalHours + modes.length < endOfTime)
    (hat : AtMoon s hours) :
    (hoursLater modes s).lightLevel =
      s.lightLevel + .ofNat (Nat.count (fun i ↦ bright (hours + i)) modes.length) := by
  induction modes generalizing s hours with
  | nil => exact (Int32.add_zero _).symm
  | cons mode modes ih =>
      obtain ⟨hmode, hmodes⟩ := List.forall_mem_cons.mp hmodes
      rw [List.length_cons] at hend ⊢
      have hadvances := anotherHour_advances hmode h hmoon (by omega)
      obtain ⟨hat', hrise', hlevel⟩ := light_anotherHour hmode h hmoon hrise (by omega) hat
      have hrest : (anotherHour mode s).timeInfo.totalHours + modes.length < endOfTime := by
        rw [hadvances.totalHours]
        omega
      refine (ih hmodes hadvances.valid hadvances.moon_range hrise' hrest hat').trans ?_
      have hcount : Nat.count (fun i ↦ bright (hours + i)) (modes.length + 1) =
          (if bright hours then 1 else 0) +
            Nat.count (fun i ↦ bright (hours + 1 + i)) modes.length := by
        rw [Nat.count_succ', Nat.add_comm]
        simp only [Nat.add_assoc, Nat.add_comm 1, Nat.add_zero]
      rw [hlevel, hcount, Int32.ofNat_add, Int32.add_assoc]
      split_ifs <;> rfl

/-- In 32 days, whenever they begin, the light level goes up by exactly five: what the bright moons
add is not taken back. -/
theorem light_rises {modes : List Int32} {months : ℕ} (hmodes : ∀ mode ∈ modes, mode ≠ 0)
    (h : s.timeInfo.Valid) (hmoon : 1 ≤ s.moontype.toNat ∧ s.moontype.toNat ≤ 32)
    (hrise : s.moonRise = 22) (hend : s.timeInfo.totalHours + modes.length < endOfTime)
    (hlength : modes.length = 768 * months) :
    (hoursLater modes s).lightLevel = s.lightLevel + .ofNat (5 * months) := by
  have hhours := h.hours
  have hat : AtMoon s ((s.moontype.toNat - 1) * 24 + s.timeInfo.hours.toInt.toNat) := by
    unfold AtMoon
    omega
  rw [light_hoursLater hmodes h hmoon hrise hend hat, hlength, count_bright]

/-- From the last hour of the year 5 on. -/
theorem light_rises_newYear :
    (hoursLater (List.replicate 768 1) (lastHour 5)).lightLevel = 4 + .ofNat (5 * 1) := by
  have hmodes : ∀ mode ∈ List.replicate 768 (1 : Int32), mode ≠ 0 := by
    intro mode hmem
    rw [List.eq_of_mem_replicate hmem]
    decide
  have hend : (lastHour 5).timeInfo.totalHours + (List.replicate 768 (1 : Int32)).length <
      endOfTime := by
    rw [List.length_replicate]
    decide
  exact light_rises hmodes (valid_lastHour 5) (by decide) rfl hend List.length_replicate

end Moonlight

end HavokMud.Weather
