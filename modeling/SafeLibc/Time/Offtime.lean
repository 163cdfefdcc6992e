import SafeLibc.Lib.Calendar
import SafeLibc.Lib.Signed

/-!
# Broken-down time

`__offtime` of `time/offtime.c`. The year is found by guesses: each assumes 365 days per year and is
corrected by the leap years that it has passed. `correctYear_spec` says that this ends, in the year
of the day.

`none` stands for a signed overflow. The value of `offtime` under it is what the function stores, or
`none` when it returns 0.
-/

namespace SafeLibc.Time

open SafeLibc.Lib SafeLibc.Lib.Calendar

/-- `struct tm` -/
structure Tm where
  sec : Int32
  min : Int32
  hour : Int32
  mday : Int32
  mon : Int32
  year : Int32
  wday : Int32
  yday : Int32
  isdst : Int32
  gmtoff : Int64
  zone : String
  deriving DecidableEq

def monYday (leap : Bool) : List Int :=
  if leap then [0, 31, 60, 91, 121, 152, 182, 213, 244, 274, 305, 335, 366]
  else [0, 31, 59, 90, 120, 151, 181, 212, 243, 273, 304, 334, 365]

def isleap (year : Int) : Bool :=
  year.tmod 4 = 0 ∧ (year.tmod 100 ≠ 0 ∨ year.tmod 400 = 0)

def SECS_PER_HOUR : Int := 60 * 60

def SECS_PER_DAY : Int := SECS_PER_HOUR * 24

/-- `while (rem < 0)` -/
def borrowDays (days rem : Int) : Option (Int × Int) :=
  if rem < 0 then
    match _hrem : long (rem + SECS_PER_DAY), long (days - 1) with
    | some rem', some days' => borrowDays days' rem'
    | _, _ => none
  else some (days, rem)
termination_by (-rem).toNat
decreasing_by
  have := eq_of_long _hrem
  unfold SECS_PER_DAY SECS_PER_HOUR at this
  omega

/-- `while (rem >= SECS_PER_DAY)` -/
def carryDays (days rem : Int) : Option (Int × Int) :=
  if rem ≥ SECS_PER_DAY then
    match _hrem : long (rem - SECS_PER_DAY), long (days + 1) with
    | some rem', some days' => carryDays days' rem'
    | _, _ => none
  else some (days, rem)
termination_by rem.toNat
decreasing_by
  have := eq_of_long _hrem
  unfold SECS_PER_DAY SECS_PER_HOUR at *
  omega

def div (a b : Int) : Option Int := long (a.tdiv b - ofCond (a.tmod b < 0))

def leapsThruEndOf (y : Int) : Option Int := do
  long ((← long ((← div y 4) - (← div y 100))) + (← div y 400))

def yearOut (days y : Int) : Prop := days < 0 ∨ days ≥ if isleap y then 366 else 365

instance (days y : Int) : Decidable (yearOut days y) := inferInstanceAs (Decidable (_ ∨ _))

/-- Guess a corrected year, assuming 365 days per year, and adjust. -/
def guessYear (days y : Int) : Option (Int × Int) := do
  let yg ← long ((← long (y + days.tdiv 365)) - ofCond (days.tmod 365 < 0))
  let diff ← long (yg - y)
  let diff ← long (diff * 365)
  let diff ← long (diff + (← leapsThruEndOf (← long (yg - 1))))
  let diff ← long (diff - (← leapsThruEndOf (← long (y - 1))))
  let days ← long (days - diff)
  return (days, yg)

section

variable {a b q : Int}

theorem div_eq (hb : 0 < b) (a : Int) : div a b = long (a / b) := by rw [div, tdiv_sub_cond hb]

variable {y : Int}

theorem leapsThruEndOf_of_bounds (hlo : -2 ^ 62 ≤ y) (hhi : y < 2 ^ 62) :
    leapsThruEndOf y = some (leapsThrough y) := by
  unfold leapsThruEndOf
  rw [div_eq (by decide), div_eq (by decide), div_eq (by decide)]
  simp (disch := omega) only [long_of_bounds, Option.bind_eq_bind, Option.bind_some]
  rfl

theorem eq_of_leapsThruEndOf {n : Int} (h : leapsThruEndOf y = some n) : n = leapsThrough y := by
  unfold leapsThruEndOf at h
  rw [div_eq (by decide), div_eq (by decide), div_eq (by decide)] at h
  simp only [Option.bind_eq_bind, Option.bind_eq_some_iff] at h
  obtain ⟨a, ha, b, hb, d, hd, c, hc, hn⟩ := h
  rw [eq_of_long hn, eq_of_long hd, eq_of_long ha, eq_of_long hb, eq_of_long hc]
  rfl

end

def guessed (days y : Int) : Int × Int :=
  (days - (yearStart (y + days / 365) - yearStart y), y + days / 365)

theorem guessed_eq (days y : Int) :
    guessed days y = (days - ((y + days / 365 - y) * 365 + leapsThrough (y + days / 365 - 1) -
      leapsThrough (y - 1)), y + days / 365) := by
  unfold guessed yearStart
  refine Prod.ext ?_ rfl
  omega

variable {days y t : Int}

theorem eq_of_guessYear {r : Int × Int} (h : guessYear days y = some r) : r = guessed days y := by
  unfold guessYear at h
  simp only [Option.bind_eq_bind, Option.bind_eq_some_iff, Option.pure_def, Option.some.injEq] at h
  obtain ⟨s, hs, yg, hyg, d1, hd1, d2, hd2, v, hv, l1, hl1, d3, hd3, u, hu, l2, hl2, d4, hd4, d, hd,
    rfl⟩ := h
  have hfloor := tdiv_sub_cond (b := 365) (by decide) days
  have hyear : yg = y + days / 365 := by
    rw [eq_of_long hyg, eq_of_long hs]
    omega
  rw [guessed_eq, eq_of_long hd, eq_of_long hd4, eq_of_long hd3, eq_of_long hd2, eq_of_long hd1,
    eq_of_leapsThruEndOf hl1, eq_of_leapsThruEndOf hl2, eq_of_long hv, eq_of_long hu, hyear]

theorem guessYear_of_bounds (hdays : -2 ^ 50 ≤ days ∧ days < 2 ^ 50)
    (hy : -2 ^ 50 ≤ y ∧ y < 2 ^ 50) : guessYear days y = some (guessed days y) := by
  have hfloor := tdiv_sub_cond (b := 365) (by decide) days
  have hcond : ofCond (days.tmod 365 < 0) = 0 ∨ ofCond (days.tmod 365 < 0) = 1 := by
    unfold ofCond
    split <;> simp
  have hyear : y + days.tdiv 365 - ofCond (days.tmod 365 < 0) = y + days / 365 := by omega
  have hleaps : -2 ^ 51 ≤ leapsThrough (y + days / 365 - 1) ∧
      leapsThrough (y + days / 365 - 1) < 2 ^ 51 ∧ -2 ^ 51 ≤ leapsThrough (y - 1) ∧
      leapsThrough (y - 1) < 2 ^ 51 := by
    unfold leapsThrough
    omega
  rw [guessed_eq, guessYear]
  simp (disch := omega) only [hyear, long_of_bounds, leapsThruEndOf_of_bounds, Option.bind_eq_bind,
    Option.bind_some]
  rfl

theorem isleap_eq (y : Int) : isleap y = decide (IsLeap y) := by
  have htmod : ∀ b : Int, 0 < b → (y.tmod b = 0 ↔ y % b = 0) := by
    intro b hb
    rw [← Int.dvd_iff_tmod_eq_zero, ← Int.dvd_iff_emod_eq_zero]
  apply decide_eq_decide.2
  rw [Ne, htmod 4 (by decide), htmod 100 (by decide), htmod 400 (by decide)]
  rfl

theorem yearOut_iff : yearOut days y ↔ days < 0 ∨ yearLength y ≤ days := by
  unfold yearOut yearLength
  rw [isleap_eq]
  by_cases h : IsLeap y
  · simp [h]
  · simp [h]

/-- A guess that is still wrong is nearer. -/
theorem natAbs_guessed (hout : yearOut days y)
    (hout' : yearOut (guessed days y).1 (guessed days y).2) :
    (guessed days y).1.natAbs < days.natAbs := by
  rw [yearOut_iff] at hout hout'
  unfold guessed at hout' ⊢
  dsimp only at hout' ⊢
  have hlength := (yearLength_bounds y).1
  have hlength' := (yearLength_bounds (y + days / 365)).1
  rcases hout with hneg | hlarge
  · -- back by `k` years; after one year the day is in the year
    obtain ⟨k, hk⟩ : ∃ k, days / 365 = -k := ⟨-(days / 365), by omega⟩
    rw [hk] at hout' hlength' ⊢
    have hbounds := yearStart_add (y + -k) (k := k) (by omega)
    have hstep := yearStart_succ (y + -k)
    rw [show y + -k + k = y by omega] at hbounds
    by_cases hone : k = 1
    · subst hone
      rw [show y + -1 + 1 = y by omega] at hstep
      omega
    · omega
  · have hbounds := yearStart_add y (k := days / 365) (by omega)
    omega

def correctYear (days y : Int) : Option (Int × Int) :=
  if yearOut days y then
    match _h : guessYear days y with
    | none => none
    | some (days', y') => correctYear days' y'
  else some (days, y)
termination_by if yearOut days y then days.natAbs + 1 else 0
decreasing_by
  have hguess := eq_of_guessYear _h
  have hdays : days' = (guessed days y).1 := congrArg Prod.fst hguess
  have hy : y' = (guessed days y).2 := congrArg Prod.snd hguess
  subst hdays hy
  rw [if_pos ‹yearOut days y›]
  split
  · next hout' => exact Nat.succ_lt_succ (natAbs_guessed ‹_› hout')
  · exact Nat.succ_pos _

theorem correctYear_spec (hdays : -2 ^ 48 ≤ days ∧ days < 2 ^ 48)
    (hday : -2 ^ 48 ≤ yearStart y + days ∧ yearStart y + days < 2 ^ 48) :
    ∃ days' y', correctYear days y = some (days', y') ∧ yearStart y' + days' = yearStart y + days ∧
      InYear (yearStart y + days) y' := by
  fun_induction correctYear days y with
  | case1 days y hout hguess =>
    have hy : -2 ^ 50 ≤ y ∧ y < 2 ^ 50 := by
      unfold yearStart leapsThrough at hday
      omega
    rw [guessYear_of_bounds (by omega) hy] at hguess
    cases hguess
  | case2 days y hout days' y' hguess ih =>
    have heq := eq_of_guessYear hguess
    have hdays' : days' = (guessed days y).1 := congrArg Prod.fst heq
    have hy' : y' = (guessed days y).2 := congrArg Prod.snd heq
    have hsum : yearStart y' + days' = yearStart y + days := by
      rw [hdays', hy']
      unfold guessed
      dsimp only
      omega
    have hbounds : -2 ^ 48 ≤ days' ∧ days' < 2 ^ 48 := by
      by_cases hout' : yearOut days' y'
      · rw [hdays', hy'] at hout'
        have hnear := natAbs_guessed hout hout'
        omega
      · rw [yearOut_iff] at hout'
        have := yearLength_bounds y'
        omega
    obtain ⟨days'', y'', heq', hsum', hin⟩ := ih hbounds (by omega)
    exact ⟨days'', y'', heq', hsum'.trans hsum, hsum ▸ hin⟩
  | case3 days y hin =>
    rw [yearOut_iff] at hin
    have hsucc := yearStart_succ y
    refine ⟨days, y, rfl, rfl, ?_⟩
    constructor
    · omega
    · omega

/-- `for (y = 11; days < ip[y]; --y)` -/
def findMonth (ip : List Int) (days : Int) : Nat → Nat
  | 0 => 0
  | y + 1 => if days < ip.getD (y + 1) 0 then findMonth ip days y else y + 1

/-- The day of the week: January 1, 1970 was a Thursday. -/
def weekday (days : Int) : Option Int := do
  let wday := (← long (4 + days)).tmod 7
  if wday < 0 then int (wday + 7) else some wday

def offtime (t offset : Int) (tp : Tm) : Option (Option Tm) := do
  let days := t.tdiv SECS_PER_DAY
  let rem ← long (t.tmod SECS_PER_DAY + offset)
  let (days, rem) ← borrowDays days rem
  let (days, rem) ← carryDays days rem
  let hour := rem.tdiv SECS_PER_HOUR
  let rem := rem.tmod SECS_PER_HOUR
  let min := rem.tdiv 60
  let sec := rem.tmod 60
  let wday ← weekday days
  let (days, y) ← correctYear days 1970
  let year := Int32.ofInt (← long (y - 1900))
  if year.toInt ≠ y - 1900 then
    -- the year cannot be represented
    return none
  let ip := monYday (isleap y)
  let mon := findMonth ip days 11
  let mday ← long ((← long (days - ip.getD mon 0)) + 1)
  return some { tp with
    sec := Int32.ofInt sec
    min := Int32.ofInt min
    hour := Int32.ofInt hour
    mday := Int32.ofInt mday
    mon := Int32.ofInt mon
    year := year
    wday := Int32.ofInt wday
    yday := Int32.ofInt days }

/-! ## What is stored -/

/-- The second that the fields mean, when months that are not in a year move the year. -/
def Tm.instant (tm : Tm) : Int :=
  seconds (dayNumber (tm.year.toInt + 1900 + tm.mon.toInt / 12) (tm.mon.toInt % 12).toNat
    tm.mday.toInt) tm.hour.toInt tm.min.toInt tm.sec.toInt

structure BrokenDown (t : Int) (tm : Tm) : Prop where
  time : IsTime tm.hour.toInt tm.min.toInt tm.sec.toInt
  mon_nonneg : 0 ≤ tm.mon.toInt
  date : IsDate (t / 86400) (tm.year.toInt + 1900) tm.mon.toInt.toNat tm.mday.toInt
  seconds_eq : seconds (t / 86400) tm.hour.toInt tm.min.toInt tm.sec.toInt = t
  wday : tm.wday.toInt = (t / 86400 + 4) % 7
  yday : yearStart (tm.year.toInt + 1900) + tm.yday.toInt = t / 86400

theorem BrokenDown.unique {a b : Tm} (ha : BrokenDown t a) (hb : BrokenDown t b) :
    { b with isdst := a.isdst, gmtoff := a.gmtoff, zone := a.zone } = a := by
  obtain ⟨-, hhour, hmin, hsec⟩ :=
    seconds_unique ha.time hb.time (ha.seconds_eq.trans hb.seconds_eq.symm)
  obtain ⟨hyear, hmon, hmday⟩ := ha.date.unique hb.date
  have hmon' : a.mon.toInt = b.mon.toInt := by
    have := ha.mon_nonneg
    have := hb.mon_nonneg
    omega
  have hyday : a.yday.toInt = b.yday.toInt := by
    have := ha.yday
    have := hb.yday
    rw [← hyear] at this
    omega
  have hyear' : a.year.toInt = b.year.toInt := by omega
  have hwday : a.wday.toInt = b.wday.toInt := ha.wday.trans hb.wday.symm
  cases a
  simp only [Int32.toInt_inj] at *
  simp only [*]

/-! ## The months -/

theorem monYday_getD (y : Int) {m : Nat} (hm : m ≤ 12) :
    (monYday (isleap y)).getD m 0 = monthStart y m := by
  have htable : ∀ leap : Bool, ∀ m < 13, (monYday leap).getD m 0 =
      (([31, if leap then 29 else 28, 31, 30, 31, 30, 31, 31, 30, 31, 30, 31] : List Int).take
        m).sum := by
    decide
  rw [isleap_eq, htable _ m (Nat.lt_succ_of_le hm), monthStart, monthLengths]
  simp only [decide_eq_true_eq]

theorem findMonth_spec {ip : List Int} (hzero : ip.getD 0 0 ≤ days) (n : Nat) :
    findMonth ip days n ≤ n ∧ ip.getD (findMonth ip days n) 0 ≤ days ∧
      (findMonth ip days n < n → days < ip.getD (findMonth ip days n + 1) 0) := by
  induction n with
  | zero => exact ⟨le_refl 0, hzero, fun h => absurd h (lt_irrefl 0)⟩
  | succ n ih =>
    obtain ⟨hle, hstart, hend⟩ := ih
    rw [findMonth]
    split
    · next hlt =>
      refine ⟨Nat.le_succ_of_le hle, hstart, ?_⟩
      intro _
      rcases Nat.lt_or_eq_of_le hle with hmn | hmn
      · exact hend hmn
      · rw [hmn]
        exact hlt
    · next hle' => exact ⟨le_rfl, Int.not_lt.1 hle', fun h => absurd h (lt_irrefl _)⟩

theorem findMonth_date (hnonneg : 0 ≤ days) (hlt : days < yearLength y) :
    IsDate (yearStart y + days) y (findMonth (monYday (isleap y)) days 11)
      (days - (monYday (isleap y)).getD (findMonth (monYday (isleap y)) days 11) 0 + 1) := by
  have hzero : (monYday (isleap y)).getD 0 0 ≤ days := by
    rw [monYday_getD y (Nat.zero_le 12)]
    exact hnonneg
  obtain ⟨hle, hstart, hend⟩ := findMonth_spec hzero 11
  generalize findMonth (monYday (isleap y)) days 11 = m at hle hstart hend ⊢
  rw [monYday_getD y (by omega)] at hstart ⊢
  have hnext : days < monthStart y (m + 1) := by
    rcases Nat.lt_or_eq_of_le hle with hm | rfl
    · have := hend hm
      rwa [monYday_getD y (by omega)] at this
    · rw [monthStart_twelve]
      exact hlt
  rw [monthStart_succ y (by omega)] at hnext
  refine ⟨by omega, by omega, by omega, ?_⟩
  unfold dayNumber
  omega

/-! ## The whole function -/

section

variable {rem : Int} (ht : -2 ^ 64 ≤ t ∧ t < 2 ^ 64) (hsum : days * 86400 + rem = t)

include ht hsum

/-- Days are borrowed until the rest is not negative. -/
theorem borrowDays_spec (hrem : -2 ^ 40 ≤ rem ∧ rem < 2 ^ 40) : ∃ days' rem',
    borrowDays days rem = some (days', rem') ∧ days' * 86400 + rem' = t ∧
      0 ≤ rem' ∧ rem' < 2 ^ 40 := by
  fun_induction borrowDays days rem with
  | case1 days rem hneg rem' days' hrem' hdays' ih =>
    have hrem := eq_of_long hrem'
    have hdays := eq_of_long hdays'
    unfold SECS_PER_DAY SECS_PER_HOUR at hrem
    exact ih (by omega) (by omega)
  | case2 days rem hneg hover =>
    unfold SECS_PER_DAY SECS_PER_HOUR at hover
    exact (hover _ _ (long_of_bounds (by omega)) (long_of_bounds (by omega))).elim
  | case3 days rem hneg => exact ⟨days, rem, rfl, hsum, by omega, hrem.2⟩

/-- Days are carried until the rest is less than a day. -/
theorem carryDays_spec (hrem : 0 ≤ rem ∧ rem < 2 ^ 40) :
    carryDays days rem = some (t / 86400, t % 86400) := by
  fun_induction carryDays days rem with
  | case1 days rem hlarge rem' days' hrem' hdays' ih =>
    have hrem := eq_of_long hrem'
    have hdays := eq_of_long hdays'
    unfold SECS_PER_DAY SECS_PER_HOUR at hrem hlarge
    exact ih (by omega) (by omega)
  | case2 days rem hlarge hover =>
    unfold SECS_PER_DAY SECS_PER_HOUR at hover
    exact (hover _ _ (long_of_bounds (by omega)) (long_of_bounds (by omega))).elim
  | case3 days rem hlarge =>
    unfold SECS_PER_DAY SECS_PER_HOUR at hlarge
    rw [show days = t / 86400 by omega, show rem = t % 86400 by omega]

end

theorem weekday_eq (h : -2 ^ 50 ≤ days ∧ days < 2 ^ 50) : weekday days = some ((days + 4) % 7) := by
  have hmod := tmod_add_cond (b := 7) (by decide) (4 + days)
  unfold weekday
  rw [long_of_bounds (by omega)]
  simp only [Option.bind_eq_bind, Option.bind_some]
  unfold ofCond at hmod
  split
  · next hneg =>
    rw [int_of_bounds (by omega)]
    congr 1
    omega
  · next hneg =>
    congr 1
    omega

def FitsYear (y : Int) : Prop := -2 ^ 31 ≤ y - 1900 ∧ y - 1900 < 2 ^ 31

theorem toInt_ofInt_iff (y : Int) : (Int32.ofInt (y - 1900)).toInt = y - 1900 ↔ FitsYear y := by
  constructor
  · intro h
    have hlo := Int32.le_toInt (Int32.ofInt (y - 1900))
    have hhi := Int32.toInt_lt (Int32.ofInt (y - 1900))
    rw [h] at hlo hhi
    exact ⟨hlo, hhi⟩
  · intro h
    exact Int32.toInt_ofInt_of_le h.1 h.2

theorem brokenDown_stored {mday : Int} {mon : Nat} (tp : Tm) (hfits : FitsYear y)
    (hsum : yearStart y + days = t / 86400) (hdays : 0 ≤ days ∧ days < 366)
    (hdate : IsDate (t / 86400) y mon mday) (hmday : mday < 2 ^ 31) : BrokenDown t { tp with
      sec := Int32.ofInt (((t % 86400).tmod 3600).tmod 60)
      min := Int32.ofInt (((t % 86400).tmod 3600).tdiv 60)
      hour := Int32.ofInt ((t % 86400).tdiv 3600)
      mday := Int32.ofInt mday
      mon := Int32.ofInt mon
      year := Int32.ofInt (y - 1900)
      wday := Int32.ofInt ((t / 86400 + 4) % 7)
      yday := Int32.ofInt days } := by
  have hmon := hdate.month_lt
  have hone := hdate.one_le
  have hhour : (t % 86400).tdiv 3600 = t % 86400 / 3600 := Int.tdiv_eq_ediv_of_nonneg (by omega)
  have hrem : (t % 86400).tmod 3600 = t % 86400 % 3600 := Int.tmod_eq_emod_of_nonneg (by omega)
  have hmin : (t % 86400 % 3600).tdiv 60 = t % 86400 % 3600 / 60 :=
    Int.tdiv_eq_ediv_of_nonneg (by omega)
  have hsec : (t % 86400 % 3600).tmod 60 = t % 86400 % 3600 % 60 :=
    Int.tmod_eq_emod_of_nonneg (by omega)
  have hyear : (Int32.ofInt (y - 1900)).toInt = y - 1900 := (toInt_ofInt_iff y).2 hfits
  have hyear' : y - 1900 + 1900 = y := by omega
  rw [hrem, hhour, hmin, hsec]
  have hhour' := Int32.toInt_ofInt_of_le (n := t % 86400 / 3600) (by omega) (by omega)
  have hmin' := Int32.toInt_ofInt_of_le (n := t % 86400 % 3600 / 60) (by omega) (by omega)
  have hsec' := Int32.toInt_ofInt_of_le (n := t % 86400 % 3600 % 60) (by omega) (by omega)
  have hmon' := Int32.toInt_ofInt_of_le (n := (mon : Int)) (by omega) (by omega)
  have hmday' := Int32.toInt_ofInt_of_le (n := mday) (by omega) hmday
  have hwday' := Int32.toInt_ofInt_of_le (n := (t / 86400 + 4) % 7) (by omega) (by omega)
  have hyday' := Int32.toInt_ofInt_of_le (n := days) (by omega) (by omega)
  constructor
  · rw [hhour', hmin', hsec']
    constructor
    · omega
    · omega
    · omega
  · dsimp only
    omega
  · dsimp only
    rw [hyear, hyear', hmon', hmday']
    exact hdate
  · dsimp only
    rw [hmin']
    unfold seconds
    omega
  · exact hwday'
  · dsimp only
    rw [hyear, hyear', hyday']
    exact hsum

/-- `__offtime` stores the fields of the second, or fails since the year is not an `int`. -/
theorem offtime_spec {s offset : Int} (hs : -2 ^ 63 ≤ s ∧ s < 2 ^ 63)
    (hoffset : -2 ^ 31 < offset ∧ offset < 2 ^ 31) (hsum : s + offset = t) (tp : Tm) :
    ∃ y, InYear (t / 86400) y ∧
      ((¬FitsYear y ∧ offtime s offset tp = some none) ∨
        ∃ tm, FitsYear y ∧ offtime s offset tp = some (some tm) ∧ BrokenDown t tm ∧
          tm.isdst = tp.isdst ∧ tm.gmtoff = tp.gmtoff ∧ tm.zone = tp.zone) := by
  have hday : -2 ^ 48 ≤ t / 86400 ∧ t / 86400 < 2 ^ 48 := by omega
  have hweekday : weekday (t / 86400) = some ((t / 86400 + 4) % 7) := weekday_eq (by omega)
  have hsplit : s.tdiv 86400 * 86400 + (s.tmod 86400 + offset) = t ∧ -86400 ≤ s.tmod 86400 ∧
      s.tmod 86400 < 86400 := by
    rcases tdiv_tmod_cases (b := 86400) (by decide) s with ⟨hdiv, hmod, -⟩ | ⟨hdiv, hmod, -, -⟩
    · omega
    · omega
  obtain ⟨days₀, rem, hborrow, hcarry⟩ := borrowDays_spec (by omega) hsplit.1 (by omega)
  have hcarry' := carryDays_spec (by omega) hcarry.1 hcarry.2
  obtain ⟨days, y, hyear, hsum, hin⟩ := correctYear_spec (y := 1970) hday
    (by rw [yearStart_epoch]; omega)
  rw [yearStart_epoch, Int.zero_add] at hsum hin
  refine ⟨y, hin, ?_⟩
  have hybounds : -2 ^ 50 ≤ y ∧ y < 2 ^ 50 := by
    obtain ⟨hlo, hhi⟩ := hin
    unfold yearStart leapsThrough at hlo hhi
    omega
  have hdays : 0 ≤ days ∧ days < yearLength y := by
    obtain ⟨hlo, hhi⟩ := hin
    rw [yearStart_succ] at hhi
    omega
  have hlength := yearLength_bounds y
  have hdate := findMonth_date hdays.1 hdays.2
  have hmday : 0 ≤ days - (monYday (isleap y)).getD (findMonth (monYday (isleap y)) days 11) 0 ∧
      days - (monYday (isleap y)).getD (findMonth (monYday (isleap y)) days 11) 0 < 366 := by
    have hone := hdate.one_le
    have hstart := monthStart_le y (Nat.zero_le _) (le_of_lt hdate.month_lt)
    rw [monthStart_zero, ← monYday_getD y (le_of_lt hdate.month_lt)] at hstart
    omega
  unfold offtime
  rw [show SECS_PER_DAY = 86400 from rfl,
    long_of_bounds (by omega)]
  simp only [Option.bind_eq_bind, Option.bind_some, hborrow, hcarry', hweekday, hyear]
  rw [long_of_bounds (by omega), long_of_bounds (by omega)]
  simp only [Option.bind_some]
  rw [long_of_bounds (by omega)]
  by_cases hfits : FitsYear y
  · right
    rw [if_neg (not_not_intro ((toInt_ofInt_iff y).2 hfits))]
    refine ⟨_, hfits, rfl, ?_, rfl, rfl, rfl⟩
    rw [hsum] at hdate
    exact brokenDown_stored tp hfits hsum (by omega) hdate (by omega)
  · left
    rw [if_pos (mt (toInt_ofInt_iff y).1 hfits)]
    exact ⟨hfits, rfl⟩

/-- **Broken-down time is exact**: no operation overflows, the fields are those of the date and the
time, and it fails exactly when the year is not an `int`. -/
theorem offtime_exact {offset : Int} (ht : -2 ^ 63 ≤ t ∧ t < 2 ^ 63)
    (hoffset : -2 ^ 31 < offset ∧ offset < 2 ^ 31) (tp : Tm) :
    ∃ r y, offtime t offset tp = some r ∧ InYear ((t + offset) / 86400) y ∧
      (r = none ↔ ¬FitsYear y) ∧ ∀ tm ∈ r, BrokenDown (t + offset) tm := by
  obtain ⟨y, hin, ⟨hyear, hrun⟩ | ⟨tm, hyear, hrun, htm, -⟩⟩ := offtime_spec ht hoffset rfl tp
  · exact ⟨none, y, hrun, hin, iff_of_true rfl hyear, by simp⟩
  · refine ⟨some tm, y, hrun, hin, by simp [hyear], ?_⟩
    rintro _ ⟨⟩
    exact htm

theorem offtime_exact_cet :
    ∃ r y, offtime (-1) 3600 ⟨0, 0, 0, 0, 0, 0, 0, 0, 0, 0, "CET"⟩ = some r ∧
      InYear (3599 / 86400) y ∧ (r = none ↔ ¬FitsYear y) ∧ ∀ tm ∈ r, BrokenDown 3599 tm :=
  offtime_exact (by decide) (by decide) _

end SafeLibc.Time
