import Mathlib
import ScriptFold.Calendar.Moment
/-!
Day numbers and calendar dates are inverse.

`CivilDate.toDays` and `CivilDate.ofDays` count in eras of 400 years, 146097 days, whose years
start on 1 March, so that a leap day is the last day of its year. Both pass through the same
four coordinates, `CivilDate.ofEra`: the era, the year of the era, the month counted from March
and the day of the month. `yearStart` and `monthStart` give the first day of a year of the era
and of a month of the year; `yearOfEra` and `monthOfYear` are their inverses.

Main statements: `toDays_ofDays` for every day number, `ofDays_toDays` for every valid date,
`ofDays_isValid` and `toDays_mem` (the supported days are the days of the supported years), and
`Moment.ofCivil?_date_clock`: a moment on a whole second is rebuilt from its date and its clock,
the second 60 of a leap second included.
-/
namespace ScriptFold.CivilDate

set_option autoImplicit false

/-! ## Years of an era and months of a year -/

/-- Days from 1 March of the first year of an era to 1 March of its year `y`. -/

def yearStart (y : Int) : Int := 365 * y + y / 4 - y / 100

/-- Days from 1 March to the first day of the month `mp` months later. -/
def monthStart (mp : Int) : Int := (153 * mp + 2) / 5

/-- The year of an era that holds the era's day `doe`. -/
def yearOfEra (doe : Int) : Int := (doe - doe / 1460 + doe / 36524 - doe / 146096) / 365

/-- The month, counted from March, that holds the year's day `doy`. -/
def monthOfYear (doy : Int) : Int := (5 * doy + 2) / 153

/-- The year `y` of an era ends with a leap day: the February after it is in a leap year. -/
def LeapEnd (y : Int) : Prop := (y + 1) % 4 = 0 ∧ ((y + 1) % 100 ≠ 0 ∨ y = 399)

theorem era_split {doe : Int} (h0 : 0 ≤ doe) (h1 : doe < 146096) :
    ∃ c k s, doe = 36524 * c + 1461 * k + s ∧ 0 ≤ c ∧ c ≤ 3 ∧ 0 ≤ k ∧ 0 ≤ s ∧ s ≤ 1460 ∧
      1461 * k + s ≤ 36523 :=
  ⟨doe / 36524, doe % 36524 / 1461, doe % 36524 % 1461, by omega, by omega, by omega, by omega,
    by omega, by omega, by omega⟩

theorem yearOfEra_split {c k s : Int} (hc0 : 0 ≤ c) (hc : c ≤ 3) (hk : 0 ≤ k) (hs0 : 0 ≤ s)
    (hs : s ≤ 1460) (hr : 1461 * k + s ≤ 36523) :
    yearOfEra (36524 * c + 1461 * k + s) = 100 * c + 4 * k + min s 1459 / 365 := by
  -- `doe / 1460` takes one day off for each four-year cycle begun and `doe / 36524` gives one
  -- back for each century; the one day still wrong is the cycle's own leap day
  have h4 : (36524 * c + 1461 * k + s) / 146096 = 0 := by omega
  have h3 : (36524 * c + 1461 * k + s) / 36524 = c := by omega
  have h2 : (36524 * c + 1461 * k + s) / 1460 = 25 * c + k + (24 * c + k + s) / 1460 := by omega
  have hd : (24 * c + k + s) / 1460 = if 1460 ≤ 24 * c + k + s then 1 else 0 := by
    split <;> omega
  rw [yearOfEra, h4, h3, h2, hd]
  split <;> omega

theorem yearStart_split {c k j : Int} (hk : 0 ≤ k) (hj0 : 0 ≤ j) (hj : j ≤ 3)
    (hkj : 4 * k + j ≤ 99) : yearStart (100 * c + 4 * k + j) = 36524 * c + 1461 * k + 365 * j := by
  unfold yearStart; omega

theorem yearOfEra_spec {doe : Int} (h0 : 0 ≤ doe) (h1 : doe ≤ 146096) :
    0 ≤ yearOfEra doe ∧ yearOfEra doe ≤ 399 ∧ yearStart (yearOfEra doe) ≤ doe ∧
      doe ≤ yearStart (yearOfEra doe) + 365 ∧
      (doe = yearStart (yearOfEra doe) + 365 → LeapEnd (yearOfEra doe)) := by
  rcases Int.lt_or_eq_of_le h1 with h1 | rfl
  · obtain ⟨c, k, s, rfl, hc0, hc, hk, hs0, hs, hr⟩ := era_split h0 h1
    rw [yearOfEra_split hc0 hc hk hs0 hs hr, yearStart_split hk (by omega) (by omega) (by omega)]
    unfold LeapEnd
    omega
  · have h : yearOfEra 146096 = 399 := by decide
    rw [h]
    unfold LeapEnd
    decide

theorem yearOfEra_yearStart {y doy : Int} (hy0 : 0 ≤ y) (hy : y ≤ 399) (hd0 : 0 ≤ doy)
    (hd : doy ≤ 365) (hleap : doy = 365 → LeapEnd y) : yearOfEra (yearStart y + doy) = y := by
  by_cases hend : y = 399 ∧ doy = 365
  · obtain ⟨rfl, rfl⟩ := hend; decide
  · have hsplit := yearStart_split (c := y / 100) (k := y % 100 / 4) (j := y % 4)
      (by omega) (by omega) (by omega) (by omega)
    have hy : 100 * (y / 100) + 4 * (y % 100 / 4) + y % 4 = y := by omega
    rw [hy] at hsplit
    unfold LeapEnd at hleap
    rw [hsplit, show 36524 * (y / 100) + 1461 * (y % 100 / 4) + 365 * (y % 4) + doy =
      36524 * (y / 100) + 1461 * (y % 100 / 4) + (365 * (y % 4) + doy) by omega,
      yearOfEra_split (by omega) (by omega) (by omega) (by omega) (by omega) (by omega)]
    omega

theorem monthOfYear_spec {doy : Int} (h0 : 0 ≤ doy) (h1 : doy ≤ 365) :
    0 ≤ monthOfYear doy ∧ monthOfYear doy ≤ 11 ∧ monthStart (monthOfYear doy) ≤ doy ∧
      doy < monthStart (monthOfYear doy + 1) := by
  unfold monthOfYear monthStart; omega

theorem monthOfYear_eq {mp doy : Int} (h0 : monthStart mp ≤ doy) (h1 : doy < monthStart (mp + 1)) :
    monthOfYear doy = mp := by
  unfold monthOfYear monthStart at *; omega

/-! ## Era coordinates -/

/-- The date of day `day` of the month `mp` months after March, in year `yoe` of the 400-year
era `era`. -/
def ofEra (era yoe mp day : Int) : CivilDate :=
  let month := if mp < 10 then mp + 3 else mp - 9
  ⟨yoe + era * 400 + (if month ≤ 2 then 1 else 0), month.toNat, day.toNat⟩

theorem ofDays_eq (n : Int) :
    let z := n - serialShift + unixShift
    let era := z.fdiv 146097
    let yoe := yearOfEra (z - era * 146097)
    let doy := z - era * 146097 - yearStart yoe
    ofDays n = ofEra era yoe (monthOfYear doy) (doy - monthStart (monthOfYear doy) + 1) := rfl

theorem toDays_ofEra {era yoe mp day : Int} (hy0 : 0 ≤ yoe) (hy : yoe ≤ 399) (hm0 : 0 ≤ mp)
    (hm : mp ≤ 11) (hd : 1 ≤ day) :
    (ofEra era yoe mp day).toDays =
      era * 146097 + yearStart yoe + monthStart mp + day - 1 - unixShift + serialShift := by
  have hera : (yoe + era * 400).fdiv 400 = era := by
    rw [Int.fdiv_eq_ediv_of_nonneg _ (by decide)]; omega
  have hday : ((day.toNat : Nat) : Int) = day := by omega
  by_cases hmp : mp < 10
  · have hmonth : (((mp + 3).toNat : Nat) : Int) = mp + 3 := by omega
    simp only [ofEra, toDays, if_pos hmp, hmonth, hday, if_neg (show ¬(mp + 3).toNat ≤ 2 by omega),
      if_neg (show ¬mp + 3 ≤ 2 by omega), if_pos (show mp + 3 > 2 by omega), Int.add_zero, hera,
      yearStart, monthStart]
    omega
  · have hmonth : (((mp - 9).toNat : Nat) : Int) = mp - 9 := by omega
    have hera' : (yoe + era * 400 + 1 - 1).fdiv 400 = era := by rw [Int.add_sub_cancel, hera]
    simp only [ofEra, toDays, if_neg hmp, hmonth, hday, if_pos (show (mp - 9).toNat ≤ 2 by omega),
      if_pos (show mp - 9 ≤ 2 by omega), if_neg (show ¬mp - 9 > 2 by omega), hera', yearStart,
      monthStart]
    omega

/-! ## The two directions -/

theorem toDays_ofDays (n : Int) : (ofDays n).toDays = n := by
  have h := ofDays_eq n
  simp only at h
  rw [h, Int.fdiv_eq_ediv_of_nonneg _ (by decide)]
  generalize hz : n - serialShift + unixShift = z
  have hd0 : 0 ≤ z - z / 146097 * 146097 := by omega
  have hd1 : z - z / 146097 * 146097 ≤ 146096 := by omega
  obtain ⟨hy0, hy1, hys, hye, -⟩ := yearOfEra_spec hd0 hd1
  generalize yearOfEra (z - z / 146097 * 146097) = yoe at *
  obtain ⟨hm0, hm1, hms, -⟩ := monthOfYear_spec
    (show 0 ≤ z - z / 146097 * 146097 - yearStart yoe by omega) (by omega)
  rw [toDays_ofEra hy0 hy1 hm0 hm1 (by omega)]
  omega

/-- The months counted from March: March is 0 and February 11. -/
def marchMonth (m : Nat) : Int := if (m : Int) > 2 then m - 3 else m + 9

theorem isLeapYear_era (era : Int) {yoe : Int} (hy0 : 0 ≤ yoe) (hy : yoe ≤ 399) :
    isLeapYear (yoe + era * 400 + 1) = true ↔ LeapEnd yoe := by
  simp only [isLeapYear, LeapEnd, Bool.and_eq_true, Bool.or_eq_true, decide_eq_true_eq]
  omega

theorem monthStart_succ_sub (y : Int) {mp : Int} (h0 : 0 ≤ mp) (h : mp ≤ 10) :
    monthStart (mp + 1) - monthStart mp =
      daysInMonth y (if mp < 10 then mp + 3 else mp - 9).toNat := by
  have : mp = 0 ∨ mp = 1 ∨ mp = 2 ∨ mp = 3 ∨ mp = 4 ∨ mp = 5 ∨ mp = 6 ∨ mp = 7 ∨ mp = 8 ∨
    mp = 9 ∨ mp = 10 := by omega
  rcases this with rfl | rfl | rfl | rfl | rfl | rfl | rfl | rfl | rfl | rfl | rfl <;> rfl

theorem eq_ofEra (d : CivilDate) (hm1 : 1 ≤ d.month) (hm : d.month ≤ 12) (hday : 1 ≤ d.day) :
    let y := if d.month ≤ 2 then d.year - 1 else d.year
    d = ofEra (y.fdiv 400) (y - y.fdiv 400 * 400) (marchMonth d.month) d.day := by
  intro y
  obtain ⟨year, month, day⟩ := d
  simp only at hm1 hm hday
  simp only [y, ofEra, marchMonth, mk.injEq]
  by_cases h2 : month ≤ 2
  · simp only [if_pos h2, if_neg (show ¬(month : Int) > 2 by omega),
      if_neg (show ¬(month : Int) + 9 < 10 by omega)]
    omega
  · simp only [if_neg h2, if_pos (show (month : Int) > 2 by omega),
      if_pos (show (month : Int) - 3 < 10 by omega)]
    omega

theorem ofDays_ofEra {era yoe mp day : Int} (hy0 : 0 ≤ yoe) (hy : yoe ≤ 399) (hm0 : 0 ≤ mp)
    (hd : 1 ≤ day) (hlen : monthStart mp + day - 1 < monthStart (mp + 1))
    (hdoy : monthStart mp + day - 1 ≤ 365) (hleap : monthStart mp + day - 1 = 365 → LeapEnd yoe) :
    ofDays (era * 146097 + yearStart yoe + monthStart mp + day - 1 - unixShift + serialShift) =
      ofEra era yoe mp day := by
  have h := ofDays_eq (era * 146097 + yearStart yoe + monthStart mp + day - 1 - unixShift +
    serialShift)
  simp only at h
  rw [h, Int.fdiv_eq_ediv_of_nonneg _ (by decide)]
  have hms : 0 ≤ monthStart mp := by unfold monthStart; omega
  have hdoe : 0 ≤ yearStart yoe ∧ yearStart yoe + (monthStart mp + day - 1) ≤ 146096 := by
    unfold LeapEnd at hleap; unfold yearStart; omega
  have hz : era * 146097 + yearStart yoe + monthStart mp + day - 1 - unixShift + serialShift -
      serialShift + unixShift = era * 146097 + (yearStart yoe + (monthStart mp + day - 1)) := by
    omega
  have hera : (era * 146097 + (yearStart yoe + (monthStart mp + day - 1))) / 146097 = era := by
    omega
  rw [hz, hera, show era * 146097 + (yearStart yoe + (monthStart mp + day - 1)) - era * 146097 =
    yearStart yoe + (monthStart mp + day - 1) by omega,
    yearOfEra_yearStart hy0 hy (by omega) hdoy hleap,
    show yearStart yoe + (monthStart mp + day - 1) - yearStart yoe = monthStart mp + day - 1 by
      omega,
    monthOfYear_eq (by omega) hlen]
  congr 1
  omega

theorem dayOfYear_spec {year : Int} {m day : Nat} (hm1 : 1 ≤ m) (hm : m ≤ 12)
    (hd : day ≤ daysInMonth year m) :
    monthStart (marchMonth m) + day - 1 < monthStart (marchMonth m + 1) ∧
      monthStart (marchMonth m) + day - 1 ≤ 365 ∧
      (monthStart (marchMonth m) + day - 1 = 365 → isLeapYear year = true) := by
  have : m = 1 ∨ m = 2 ∨ m = 3 ∨ m = 4 ∨ m = 5 ∨ m = 6 ∨ m = 7 ∨ m = 8 ∨ m = 9 ∨ m = 10 ∨
    m = 11 ∨ m = 12 := by omega
  rcases this with rfl | rfl | rfl | rfl | rfl | rfl | rfl | rfl | rfl | rfl | rfl | rfl
  case inr.inl =>
    simp only [daysInMonth] at hd
    split at hd <;> simp_all [marchMonth, monthStart] <;> omega
  all_goals simp only [daysInMonth] at hd; simp [marchMonth, monthStart]; omega

theorem exists_ofEra {d : CivilDate} (h : d.isValid = true) :
    ∃ era yoe mp, 0 ≤ yoe ∧ yoe ≤ 399 ∧ 0 ≤ mp ∧ mp ≤ 11 ∧ 1 ≤ d.day ∧
      monthStart mp + d.day - 1 < monthStart (mp + 1) ∧ monthStart mp + d.day - 1 ≤ 365 ∧
      (monthStart mp + d.day - 1 = 365 → LeapEnd yoe) ∧ d = ofEra era yoe mp d.day := by
  simp only [isValid, Bool.and_eq_true, decide_eq_true_eq] at h
  obtain ⟨⟨⟨⟨⟨-, -⟩, hm1⟩, hm⟩, hd1⟩, hd⟩ := h
  have e := eq_ofEra d hm1 hm (by omega)
  simp only at e
  generalize hy : (if d.month ≤ 2 then d.year - 1 else d.year) = y at e
  rw [Int.fdiv_eq_ediv_of_nonneg y (show (0 : Int) ≤ 400 by decide)] at e
  obtain ⟨hlen, hdoy, hleap⟩ := dayOfYear_spec hm1 hm hd
  have hyoe : 0 ≤ y - y / 400 * 400 ∧ y - y / 400 * 400 ≤ 399 := by omega
  refine ⟨y / 400, y - y / 400 * 400, marchMonth d.month, hyoe.1, hyoe.2,
    by unfold marchMonth; split <;> omega, by unfold marchMonth; split <;> omega, hd1, hlen, hdoy,
    fun h365 => ?_, e⟩
  have hlp := hleap h365
  by_cases hfeb : d.month = 2
  · rw [← isLeapYear_era (y / 400) hyoe.1 hyoe.2]
    rw [hfeb] at hy
    simp only [show (2 : Nat) ≤ 2 from Nat.le_refl 2, if_true] at hy
    rw [show y - y / 400 * 400 + y / 400 * 400 + 1 = d.year by omega]
    exact hlp
  · have : monthStart (marchMonth d.month) ≤ 306 := by
      unfold marchMonth monthStart; split <;> omega
    simp only [daysInMonth] at hd
    split at hd <;> omega

theorem ofDays_toDays {d : CivilDate} (h : d.isValid = true) : ofDays d.toDays = d := by
  obtain ⟨era, yoe, mp, hy0, hy, hm0, hm, hd1, hlen, hdoy, hleap, e⟩ := exists_ofEra h
  calc ofDays d.toDays = ofDays (ofEra era yoe mp d.day).toDays := by rw [← e]
    _ = ofEra era yoe mp d.day := by
        rw [toDays_ofEra hy0 hy hm0 hm (by omega)]
        exact ofDays_ofEra hy0 hy hm0 (by omega) hlen hdoy hleap
    _ = d := e.symm

/-! ## Supported days and supported years -/

theorem minYear_le_iff (era : Int) {yoe mp doy : Int} (hy0 : 0 ≤ yoe) (hy : yoe ≤ 399) (hm0 : 0 ≤ mp)
    (hms : monthStart mp ≤ doy) (hml : doy < monthStart (mp + 1)) (hd : doy ≤ 365) :
    minYear ≤ yoe + era * 400 + (if 10 ≤ mp then 1 else 0) ↔
      minDay ≤ era * 146097 + yearStart yoe + doy - unixShift + serialShift := by
  have hmin : minDay = -96439723 := by decide
  simp only [hmin, minYear, unixShift, serialShift]
  have hs256 : yoe ≤ 255 → yearStart yoe + 365 < 93808 := by unfold yearStart; omega
  have hs257 : 257 ≤ yoe → 93808 ≤ yearStart yoe := by unfold yearStart; omega
  have hs : 0 ≤ yearStart yoe ∧ yearStart yoe ≤ 146096 := by unfold yearStart; omega
  have hm10 : 10 ≤ mp ↔ 306 ≤ doy := by unfold monthStart at hms hml; omega
  have hd0 : 0 ≤ doy := by unfold monthStart at hms; omega
  have h256 : yoe = 256 → yearStart yoe = 93502 := by intro h; subst h; decide
  split <;> omega

theorem le_maxYear_iff (era : Int) {yoe mp doy : Int} (hy0 : 0 ≤ yoe) (hy : yoe ≤ 399) (hm0 : 0 ≤ mp)
    (hms : monthStart mp ≤ doy) (hml : doy < monthStart (mp + 1)) (hd : doy ≤ 365) :
    yoe + era * 400 + (if 10 ≤ mp then 1 else 0) ≤ maxYear ↔
      era * 146097 + yearStart yoe + doy - unixShift + serialShift ≤ maxDay := by
  have hmax : maxDay = 95051805 := by decide
  simp only [hmax, maxYear, unixShift, serialShift]
  have hs142 : yoe ≤ 141 → yearStart yoe + 365 ≤ 51864 := by unfold yearStart; omega
  have hs143 : 143 ≤ yoe → 52195 ≤ yearStart yoe := by unfold yearStart; omega
  have hs : 0 ≤ yearStart yoe ∧ yearStart yoe ≤ 146096 := by unfold yearStart; omega
  have hm10 : 10 ≤ mp ↔ 306 ≤ doy := by unfold monthStart at hms hml; omega
  have hd0 : 0 ≤ doy := by unfold monthStart at hms; omega
  have h142 : yoe = 142 → yearStart yoe = 51864 := by intro h; subst h; decide
  split <;> omega

theorem ofEra_leap_shift {mp : Int} (hm0 : 0 ≤ mp) (hm : mp ≤ 11) :
    (if (if mp < 10 then mp + 3 else mp - 9) ≤ 2 then (1 : Int) else 0) =
      if 10 ≤ mp then 1 else 0 := by
  split <;> split <;> split <;> omega

theorem ofDays_isValid {n : Int} (h0 : minDay ≤ n) (h1 : n ≤ maxDay) :
    (ofDays n).isValid = true := by
  have h := ofDays_eq n
  simp only at h
  rw [h, Int.fdiv_eq_ediv_of_nonneg _ (by decide)]
  generalize hz : n - serialShift + unixShift = z
  have hd0 : 0 ≤ z - z / 146097 * 146097 := by omega
  have hd1 : z - z / 146097 * 146097 ≤ 146096 := by omega
  obtain ⟨hy0, hy1, hys, hye, hleap⟩ := yearOfEra_spec hd0 hd1
  generalize yearOfEra (z - z / 146097 * 146097) = yoe at *
  obtain ⟨hm0, hm1, hms, hml⟩ := monthOfYear_spec
    (show 0 ≤ z - z / 146097 * 146097 - yearStart yoe by omega) (by omega)
  generalize monthOfYear (z - z / 146097 * 146097 - yearStart yoe) = mp at *
  have hn : z / 146097 * 146097 + yearStart yoe + (z - z / 146097 * 146097 - yearStart yoe) -
      unixShift + serialShift = n := by omega
  have hmin := minYear_le_iff (z / 146097) hy0 hy1 hm0 hms hml (by omega)
  have hmax := le_maxYear_iff (z / 146097) hy0 hy1 hm0 hms hml (by omega)
  rw [hn] at hmin hmax
  simp only [ofEra, isValid, Bool.and_eq_true, ofEra_leap_shift hm0 hm1]
  refine ⟨⟨⟨⟨⟨decide_eq_true (hmin.mpr h0), decide_eq_true (hmax.mpr h1)⟩, decide_eq_true ?_⟩,
    decide_eq_true ?_⟩, decide_eq_true ?_⟩, decide_eq_true ?_⟩
  · split <;> omega
  · split <;> omega
  · omega
  · by_cases hfeb : mp = 11
    · subst hfeb
      have h29 : z - z / 146097 * 146097 - yearStart yoe ≤ 365 := by omega
      simp only [show ¬(11 : Int) < 10 by decide, if_false, show (11 : Int) - 9 = 2 by decide,
        show (2 : Int).toNat = 2 by decide, if_pos (show (10 : Int) ≤ 11 by decide), daysInMonth]
      have h337 : monthStart 11 = 337 := by decide
      rw [h337] at hms ⊢
      split
      · omega
      · rename_i hnl
        have : z - z / 146097 * 146097 - yearStart yoe ≠ 365 := fun h365 =>
          hnl ((isLeapYear_era _ hy0 hy1).mpr (hleap (by omega)))
        omega
    · have := monthStart_succ_sub (yoe + z / 146097 * 400 + if 10 ≤ mp then 1 else 0) hm0
        (by omega : mp ≤ 10)
      omega

theorem toDays_mem {d : CivilDate} (h : d.isValid = true) :
    minDay ≤ d.toDays ∧ d.toDays ≤ maxDay := by
  obtain ⟨era, yoe, mp, hy0, hy, hm0, hm, hd1, hlen, hdoy, hleap, e⟩ := exists_ofEra h
  have hyear : d.year = yoe + era * 400 + if 10 ≤ mp then 1 else 0 := by
    rw [e]; simp only [ofEra, ofEra_leap_shift hm0 hm]
  have hdays : d.toDays = era * 146097 + yearStart yoe + (monthStart mp + d.day - 1) - unixShift +
      serialShift := by
    rw [congrArg toDays e, toDays_ofEra hy0 hy hm0 hm (by omega)]
    omega
  have hms : monthStart mp ≤ monthStart mp + d.day - 1 := by omega
  simp only [isValid, Bool.and_eq_true, decide_eq_true_eq] at h
  rw [hdays]
  exact ⟨(minYear_le_iff era hy0 hy hm0 hms hlen hdoy).mp (hyear ▸ h.1.1.1.1.1),
    (le_maxYear_iff era hy0 hy hm0 hms hlen hdoy).mp (hyear ▸ h.1.1.1.1.2)⟩

end ScriptFold.CivilDate

namespace ScriptFold.Moment

/-! ## Moments -/

theorem ext_parts {t t' : Moment} (hd : t.day = t'.day) (hs : t.second = t'.second)
    (hn : t.nano = t'.nano) : t = t' := by
  cases t; cases t'; simp_all

theorem date_isValid (t : Moment) : t.date.isValid = true :=
  CivilDate.ofDays_isValid t.day_ge t.day_le

theorem toDays_date (t : Moment) : t.date.toDays = t.day :=
  CivilDate.toDays_ofDays t.day

theorem ofCivil?_clock (t : Moment) {d : CivilDate} (hd : d.isValid = true)
    (hn : t.nano = 0 ∨ t.nano = nanosPerSecond) :
    ∃ t', ofCivil? d t.hour t.minute t.shownSecond 0 = some t' ∧ t'.day = d.toDays ∧
      t'.second = t.second ∧ t'.nano = t.nano := by
  have hs := t.second_lt
  have hmem := CivilDate.toDays_mem hd
  have hns : nanosPerSecond = 1000000000 := rfl
  have hshow : t.shownSecond = t.second % 60 + (if t.nano = 0 then 0 else 1) := by
    rcases hn with hn | hn <;> simp [shownSecond, hn, hns]
  have hshow60 : t.shownSecond ≤ 60 := by rw [hshow]; split <;> omega
  have hguard : (d.isValid && decide (t.hour < 24) && decide (t.minute < 60) &&
      decide (t.shownSecond ≤ 60) && decide (0 < nanosPerSecond)) = true := by
    simp only [hd, hour, minute, hns, hshow60, Bool.true_and, Bool.and_eq_true, decide_true]
    exact ⟨⟨⟨decide_eq_true (by omega), decide_eq_true (by omega)⟩, trivial⟩, by decide⟩
  simp only [ofCivil?, hguard, if_true]
  rcases hn with hn | hn
  · have h60 : t.shownSecond ≠ 60 := by rw [hshow, if_pos hn]; omega
    have hsec : t.hour * 3600 + t.minute * 60 + t.shownSecond = t.second := by
      rw [hshow, if_pos hn]; simp only [hour, minute]; omega
    simp only [if_neg h60, hsec, make?]
    rw [dif_pos (by rw [hns]; omega)]
    exact ⟨_, rfl, rfl, rfl, hn.symm⟩
  · have h59 : t.second % 60 = 59 := t.leap (by omega)
    have h60 : t.shownSecond = 60 := by rw [hshow, if_neg (by rw [hn, hns]; decide)]; omega
    have hsec : t.hour * 3600 + t.minute * 60 + 59 = t.second := by
      simp only [hour, minute]; omega
    simp only [if_pos h60, hsec, make?]
    rw [dif_pos (by rw [hns]; omega)]
    exact ⟨_, rfl, rfl, rfl, by simp [hn]⟩

theorem ofCivil?_date_clock (t : Moment) (hn : t.nano = 0 ∨ t.nano = nanosPerSecond) :
    ofCivil? t.date t.hour t.minute t.shownSecond 0 = some t := by
  obtain ⟨t', h, hd, hs, hn'⟩ := ofCivil?_clock t (date_isValid t) hn
  rw [h, ext_parts (hd.trans (toDays_date t)) hs hn']

end ScriptFold.Moment
