import Mathlib.Tactic.Ring

/-!
# The proleptic Gregorian calendar

Days are numbered from 1 January 1970, years without a gap at zero. `yearStart` is the number of the
first day of a year: it is 0 for 1970 and grows by the length of each year (`yearStart_succ`), so
that each day is in exactly one year.
-/

namespace SafeLibc.Lib.Calendar

/-- The Gregorian rule. -/
def IsLeap (y : Int) : Prop := y % 4 = 0 ∧ (y % 100 ≠ 0 ∨ y % 400 = 0)

instance (y : Int) : Decidable (IsLeap y) := inferInstanceAs (Decidable (_ ∧ _))

def yearLength (y : Int) : Int := if IsLeap y then 366 else 365

variable (y : Int) {m : Nat}

theorem yearLength_bounds : 365 ≤ yearLength y ∧ yearLength y ≤ 366 := by
  unfold yearLength
  split
  · omega
  · omega

/-- The leap years from year 1 to year `y`, negative before. -/
def leapsThrough (y : Int) : Int := y / 4 - y / 100 + y / 400

/-- The day of the epoch on which the year starts. -/
def yearStart (y : Int) : Int := 365 * (y - 1970) + (leapsThrough (y - 1) - leapsThrough 1969)

theorem yearStart_epoch : yearStart 1970 = 0 := rfl

theorem yearStart_succ : yearStart (y + 1) = yearStart y + yearLength y := by
  by_cases hleap : IsLeap y
  · rw [yearLength, if_pos hleap]
    unfold IsLeap at hleap
    unfold yearStart leapsThrough
    omega
  · rw [yearLength, if_neg hleap]
    unfold IsLeap at hleap
    unfold yearStart leapsThrough
    omega

/-- In `k` years there are at most `(k + 3) / 4` leap years. -/
theorem yearStart_add {k : Int} (hk : 0 ≤ k) :
    yearStart y + 365 * k ≤ yearStart (y + k) ∧
      yearStart (y + k) ≤ yearStart y + 365 * k + (k + 3) / 4 := by
  unfold yearStart leapsThrough
  omega

theorem yearStart_le {y z : Int} (h : y ≤ z) : yearStart y ≤ yearStart z := by
  have hstart := (yearStart_add y (Int.sub_nonneg_of_le h)).1
  rw [show y + (z - y) = z by omega] at hstart
  omega

/-- Day `d` of the epoch is in year `y`. -/
def InYear (d y : Int) : Prop := yearStart y ≤ d ∧ d < yearStart (y + 1)

/-- A day is in one year. -/
theorem InYear.unique {d y z : Int} (hy : InYear d y) (hz : InYear d z) : y = z := by
  rcases Int.lt_trichotomy y z with hlt | heq | hgt
  · have hle := yearStart_le (Int.add_one_le_of_lt hlt)
    have := hy.2
    have := hz.1
    omega
  · exact heq
  · have hle := yearStart_le (Int.add_one_le_of_lt hgt)
    have := hz.2
    have := hy.1
    omega

/-! ## Months -/

def monthLengths (y : Int) : List Int :=
  [31, if IsLeap y then 29 else 28, 31, 30, 31, 30, 31, 31, 30, 31, 30, 31]

/-- The days of a year before a month, where 0 is January. -/
def monthStart (y : Int) (m : Nat) : Int := ((monthLengths y).take m).sum

theorem monthStart_succ (hm : m < 12) :
    monthStart y (m + 1) = monthStart y m + (monthLengths y).getD m 0 := by
  have hlength : m < (monthLengths y).length := hm
  rw [monthStart, List.take_add_one, List.sum_append,
    List.getD_eq_getElem?_getD, List.getElem?_eq_getElem hlength]
  simp [monthStart]

theorem monthStart_zero : monthStart y 0 = 0 := rfl

theorem monthStart_twelve : monthStart y 12 = yearLength y := by
  unfold monthStart yearLength monthLengths
  split <;> rfl

theorem monthLength_nonneg (m : Nat) : 0 ≤ (monthLengths y).getD m 0 := by
  have hall : ∀ x ∈ monthLengths y, 0 ≤ x := by
    unfold monthLengths
    split <;> decide
  rw [List.getD_eq_getElem?_getD]
  cases h : (monthLengths y)[m]? with
  | none => exact Int.le_refl 0
  | some x => exact hall x (List.mem_of_getElem? h)

theorem monthStart_le {n : Nat} (h : m ≤ n) (hn : n ≤ 12) :
    monthStart y m ≤ monthStart y n := by
  induction h with
  | refl => exact Int.le_refl _
  | @step n _ ih =>
    have hnonneg := monthLength_nonneg y n
    rw [monthStart_succ y hn]
    omega

/-- The number of the day `d` of a month, counted from 1. It need not be in the month. -/
def dayNumber (y : Int) (m : Nat) (d : Int) : Int := yearStart y + monthStart y m + (d - 1)

/-- Day `day` of the epoch is day `d` of month `m`. -/
structure IsDate (day y : Int) (m : Nat) (d : Int) : Prop where
  month_lt : m < 12
  one_le : 1 ≤ d
  le_length : d ≤ (monthLengths y).getD m 0
  day_eq : dayNumber y m d = day

namespace IsDate

variable {day y z d e : Int} {m n : Nat}

theorem inYear (h : IsDate day y m d) : InYear day y := by
  obtain ⟨hm, hone, hlength, hday⟩ := h
  have hstart := monthStart_le y (Nat.zero_le m) (le_of_lt hm)
  have hend := monthStart_le y (Nat.succ_le_of_lt hm) (le_refl 12)
  rw [monthStart_succ y hm, monthStart_twelve] at hend
  rw [monthStart_zero] at hstart
  have hsucc := yearStart_succ y
  unfold dayNumber at hday
  constructor
  · omega
  · omega

theorem unique (h : IsDate day y m d) (h' : IsDate day z n e) : y = z ∧ m = n ∧ d = e := by
  obtain rfl : y = z := h.inYear.unique h'.inYear
  obtain ⟨hm, hone, hlength, hday⟩ := h
  obtain ⟨hn, hone', hlength', hday'⟩ := h'
  unfold dayNumber at hday hday'
  have hmonth : m = n := by
    rcases Nat.lt_trichotomy m n with hlt | heq | hgt
    · have hle := monthStart_le y (Nat.succ_le_of_lt hlt) (le_of_lt hn)
      rw [monthStart_succ y hm] at hle
      omega
    · exact heq
    · have hle := monthStart_le y (Nat.succ_le_of_lt hgt) (le_of_lt hm)
      rw [monthStart_succ y hn] at hle
      omega
  subst hmonth
  refine ⟨rfl, rfl, ?_⟩
  omega

end IsDate

/-! ## Seconds -/

/-- The second of a day, an hour, a minute and a second, which need not be in their ranges. -/
def seconds (day hour min sec : Int) : Int := 86400 * day + 3600 * hour + 60 * min + sec

structure IsTime (hour min sec : Int) : Prop where
  hour_mem : 0 ≤ hour ∧ hour < 24
  min_mem : 0 ≤ min ∧ min < 60
  sec_mem : 0 ≤ sec ∧ sec < 60

theorem seconds_unique {day hour min sec day' hour' min' sec' : Int} (h : IsTime hour min sec)
    (h' : IsTime hour' min' sec')
    (heq : seconds day hour min sec = seconds day' hour' min' sec') :
    day = day' ∧ hour = hour' ∧ min = min' ∧ sec = sec' := by
  obtain ⟨hhour, hmin, hsec⟩ := h
  obtain ⟨hhour', hmin', hsec'⟩ := h'
  unfold seconds at heq
  omega

end SafeLibc.Lib.Calendar
