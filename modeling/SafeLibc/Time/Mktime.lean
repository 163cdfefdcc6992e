import SafeLibc.Time.Offtime

/-!
# From broken-down time to seconds

`__mktime_internal` of `time/mktime.c`, which inverts a conversion from seconds to broken-down time
by probing it, and `timegm`, which calls it with the conversion to UTC. The conversion is a
parameter: it may fail, with `EOVERFLOW` if the second has no broken-down time. `none` stands for a
signed overflow.
-/

namespace SafeLibc.Time

open SafeLibc.Lib SafeLibc.Lib.Calendar

inductive Errno
  | EOVERFLOW
  | other
  deriving DecidableEq

/-- The type of `CONVERT`. -/
abbrev Convert := Int → Option (Except Errno Tm)

/-- `mktime_min`, the same for `__time64_t` and `long_int` -/
def mktimeMin : Int := -2 ^ 63

def mktimeMax : Int := 2 ^ 63 - 1

def EPOCH_YEAR : Int := 1970

def TM_YEAR_BASE : Int := 1900

def shr (a : Int) (b : Nat) : Int := a / 2 ^ b

def leapyear (year : Int) : Bool :=
  lowBits 2 year = 0 ∧
    (year.tmod 100 ≠ 0 ∨ lowBits 2 (year.tdiv 100) = lowBits 2 (-(TM_YEAR_BASE.tdiv 100)))

def isdstDiffer (a b : Int) : Bool :=
  (decide (a = 0) != decide (b = 0)) && decide (0 ≤ a) && decide (0 ≤ b)

/-! ## Differences -/

/-- The leap years before a year, if every fourth is one: `a4` and `b4`. -/
def fourths (year : Int) : Option Int := do
  let sum ← long (shr year 2 + shr TM_YEAR_BASE 2)
  return toInt (← long (sum - ofCond (lowBits 2 year = 0)))

/-- `a100` and `b100` -/
def hundredths (a4 : Int) : Option Int := do
  let quotient := (← int (a4 + ofCond (a4 < 0))).tdiv 25
  int (quotient - ofCond (a4 < 0))

def interveningLeapDays (year1 year0 : Int) : Option Int := do
  let a4 ← fourths year1
  let b4 ← fourths year0
  let a100 ← hundredths a4
  let b100 ← hundredths b4
  let a400 := toInt (shr a100 2)
  let b400 := toInt (shr b100 2)
  let diff ← int ((← int (a4 - b4)) - (← int (a100 - b100)))
  int (diff + (← int (a400 - b400)))

def ydhmsDiff (year1 yday1 hour1 min1 sec1 year0 yday0 hour0 min0 sec0 : Int) : Option Int := do
  let intervening_leap_days ← interveningLeapDays year1 year0
  let years ← long (year1 - year0)
  let days ← long ((← long ((← long ((← long (365 * years)) + yday1)) - yday0))
    + intervening_leap_days)
  let hours ← long ((← long ((← long (24 * days)) + hour1)) - hour0)
  let minutes ← long ((← long ((← long (60 * hours)) + min1)) - min0)
  long ((← long ((← long (60 * minutes)) + sec1)) - sec0)

def longIntAvg (a b : Int) : Option Int := do
  long ((← long (shr a 1 + shr b 1)) + max (lowBits 1 a) (lowBits 1 b))

structure Requested where
  year : Int
  yday : Int
  hour : Int
  min : Int
  sec : Int

def tmDiff (req : Requested) (tp : Tm) : Option Int :=
  ydhmsDiff req.year req.yday req.hour req.min req.sec tp.year.toInt tp.yday.toInt tp.hour.toInt
    tp.min.toInt tp.sec.toInt

/-! ## Probes -/

theorem eq_of_longIntAvg {a b mid : Int} (h : longIntAvg a b = some mid) :
    mid = (a + b + 1) / 2 := by
  unfold longIntAvg at h
  simp only [Option.bind_eq_bind, Option.bind_eq_some_iff] at h
  obtain ⟨s, hs, hmid⟩ := h
  rw [eq_of_long hmid, eq_of_long hs]
  unfold shr lowBits
  omega

/-- The binary search of `ranged_convert`: `bad` is out of range and `ok` in range. -/
def bisect (convert : Convert) (bad ok : Int) (oktm : Option Tm) :
    Option (Except Errno (Int × Tm)) :=
  match _hmid : longIntAvg ok bad with
  | none => none
  | some mid =>
    if mid = ok ∨ mid = bad then
      match oktm with
      | none => some (.error .EOVERFLOW)
      | some tm => some (if tm.sec.toInt < 0 then .error .EOVERFLOW else .ok (ok, tm))
    else
      match convert mid with
      | none => none
      | some (.ok tm) => bisect convert bad mid (some tm)
      | some (.error .EOVERFLOW) => bisect convert mid ok oktm
      | some (.error .other) => some (.error .other)
termination_by (bad - ok).natAbs
decreasing_by
  · have := eq_of_longIntAvg _hmid
    omega
  · have := eq_of_longIntAvg _hmid
    omega

/-- `ranged_convert`: the second that is converted, and its broken-down time. -/
def rangedConvert (convert : Convert) (t : Int) : Option (Except Errno (Int × Tm)) := do
  let t1 := if t < mktimeMin then mktimeMin else if t ≤ mktimeMax then t else mktimeMax
  match ← convert t1 with
  | .ok tm => return .ok (t1, tm)
  | .error .other => return .error .other
  | .error .EOVERFLOW => bisect convert t1 0 none

inductive Outcome
  /-- `return -1` -/
  | fail
  /-- The loop ends with a match. -/
  | found (t : Int) (tm : Tm)
  /-- `goto offset_found` -/
  | settled (t : Int) (tm : Tm)

def improve (convert : Convert) (req : Requested) (isdst : Int) :
    Nat → Int → Int → Int → Int → Option Outcome
  | 0, _, _, _, _ => some .fail
  | remaining_probes + 1, t, t1, t2, dst2 => do
    match ← rangedConvert convert t with
    | .error _ => return .fail
    | .ok (t, tm) =>
      let dt ← tmDiff req tm
      if dt = 0 then return .found t tm
      let isdst' := tm.isdst.toInt
      if t = t1 ∧ t ≠ t2 ∧ (isdst' < 0 ∨
          if isdst < 0 then dst2 ≤ ofCond (isdst' ≠ 0) else (isdst ≠ 0) ≠ (isdst' ≠ 0)) then
        -- we are oscillating between two values
        return .settled t tm
      if remaining_probes = 0 then return .fail
      improve convert req isdst remaining_probes (← long (t + dt)) t2 t (ofCond (isdst' ≠ 0))

def stride : Int := 601200

def durationMax : Int := 457243209

def deltaBound : Int := durationMax.tdiv 2 + stride

/-- A probe in one direction; `none` inside when the search goes on. -/
def probeDst (convert : Convert) (req : Requested) (isdst t delta direction : Int) :
    Option (Option Outcome) := do
  let step ← int (delta * direction)
  match long (t + step) with
  | none => return none
  | some ot =>
    match ← rangedConvert convert ot with
    | .error _ => return some .fail
    | .ok (ot, otm) =>
      if isdstDiffer isdst otm.isdst.toInt then return none
      -- extrapolate back to the desired time
      let gt ← long (ot + (← tmDiff req otm))
      if mktimeMin ≤ gt ∧ gt ≤ mktimeMax then
        match ← convert gt with
        | .ok tm => return some (.settled gt tm)
        | .error .EOVERFLOW => return none
        | .error .other => return some .fail
      else return none

def searchDst (convert : Convert) (req : Requested) (isdst t : Int) (delta : Int) :
    Option (Option Outcome) :=
  if delta < deltaBound then
    match probeDst convert req isdst t delta (-1) with
    | none => none
    | some (some outcome) => some (some outcome)
    | some none =>
      match probeDst convert req isdst t delta 1 with
      | none => none
      | some (some outcome) => some (some outcome)
      | some none =>
        match _hdelta : int (delta + stride) with
        | none => none
        | some delta' => searchDst convert req isdst t delta'
  else some none
termination_by (deltaBound - delta).toNat
decreasing_by
  have := eq_of_int _hdelta
  unfold stride at this
  omega

/-- What is done when `tm.tm_isdst` has the wrong value. -/
def adjustDst (convert : Convert) (req : Requested) (isdst t : Int) (tm : Tm) : Option Outcome := do
  let dst_difference := ofCond (isdst = 0) - ofCond (tm.isdst.toInt = 0)
  match ← searchDst convert req isdst t stride with
  | some outcome => return outcome
  | none =>
    -- assume one-hour DST
    let t ← long (t + (← int (60 * 60 * dst_difference)))
    if mktimeMin ≤ t ∧ t ≤ mktimeMax then
      match ← convert t with
      | .ok tm => return .settled t tm
      | .error _ => return .fail
    else return .fail

/-! ## The function -/

/-- The returned time, `none` for -1 on failure, and what `*tp` and `*offset` are then. -/
structure Result where
  value : Option Int
  tp : Tm
  offset : Int64
  deriving DecidableEq

/-- From `offset_found` on. -/
def offsetFound (convert : Convert) (tp : Tm) (sec sec_requested t0 negative_offset_guess t : Int)
    (tm : Tm) : Option Result := do
  let offset := Int64.ofInt (t - t0)
  let offset := Int64.ofInt (offset.toInt - negative_offset_guess)
  if sec_requested = tm.sec.toInt then return ⟨some t, tm, offset⟩
  let sec_adjustment := ofCond (sec = 0 ∧ tm.sec.toInt = 60)
  let sec_adjustment ← long (sec_adjustment - sec)
  let sec_adjustment ← long (sec_adjustment + sec_requested)
  match long (t + sec_adjustment) with
  | none => return ⟨none, tp, offset⟩
  | some t =>
    if mktimeMin ≤ t ∧ t ≤ mktimeMax then
      match ← convert t with
      | .ok tm => return ⟨some t, tm, offset⟩
      | .error _ => return ⟨none, tp, offset⟩
    else return ⟨none, tp, offset⟩

/-- The year, with the month in range, and the day of the year, which need not be in range. -/
def yearAndYday (tp : Tm) : Option (Int × Int) := do
  let mon_remainder := tp.mon.toInt.tmod 12
  let negative_mon_remainder := ofCond (mon_remainder < 0)
  let mon_years ← int (tp.mon.toInt.tdiv 12 - negative_mon_remainder)
  let year ← long (tp.year.toInt + mon_years)
  let index ← int (mon_remainder + (← int (12 * negative_mon_remainder)))
  let mon_yday ← int ((monYday (leapyear year)).getD index.toNat 0 - 1)
  return (year, ← long (mon_yday + tp.mday.toInt))

/-- Out-of-range seconds are handled specially, since `ydhms_diff` assumes every minute has 60. -/
def clampSec (sec : Int) : Int :=
  let sec := if sec < 0 then 0 else sec
  if 59 < sec then 59 else sec

def mktimeInternal (convert : Convert) (tp : Tm) (offset : Int64) : Option Result := do
  let isdst := tp.isdst.toInt
  let (year, yday) ← yearAndYday tp
  let sec_requested := tp.sec.toInt
  let sec := clampSec sec_requested
  let negative_offset_guess := toInt (0 - offset.toInt)
  let t0 ← ydhmsDiff year yday tp.hour.toInt tp.min.toInt sec (EPOCH_YEAR - TM_YEAR_BASE) 0 0 0
    negative_offset_guess
  let req : Requested := ⟨year, yday, tp.hour.toInt, tp.min.toInt, sec⟩
  match ← improve convert req isdst 6 t0 t0 t0 0 with
  | .fail => return ⟨none, tp, offset⟩
  | .settled t tm => offsetFound convert tp sec sec_requested t0 negative_offset_guess t tm
  | .found t tm =>
    if isdstDiffer isdst tm.isdst.toInt then
      match ← adjustDst convert req isdst t tm with
      | .fail => return ⟨none, tp, offset⟩
      | .found t tm | .settled t tm =>
        offsetFound convert tp sec sec_requested t0 negative_offset_guess t tm
    else offsetFound convert tp sec sec_requested t0 negative_offset_guess t tm

/-! ## UTC -/

/-- `__gmtime64_r`, by `__tz_convert` without leap seconds -/
def gmtime64R : Convert := fun t => do
  let tp : Tm := ⟨0, 0, 0, 0, 0, 0, 0, 0, 0, 0, "GMT"⟩
  match ← offtime t 0 tp with
  | some tm => return .ok tm
  | none => return .error .EOVERFLOW

def timegm (tmp : Tm) (gmtime_offset : Int64) : Option Result :=
  mktimeInternal gmtime64R { tmp with isdst := 0 } gmtime_offset

end SafeLibc.Time
