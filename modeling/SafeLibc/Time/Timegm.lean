import SafeLibc.Time.Mktime

/-!
# The inverse of broken-down time

With the conversion to UTC, the error of a probe is exact: after the first one the guess is the
requested second, whatever the offset cache was (`improve_spec`). A probe out of range is taken
at the end of the range, where the error is still exact.
-/

namespace SafeLibc.Time

open SafeLibc.Lib SafeLibc.Lib.Calendar

/-! ## Differences -/

variable {t year1 year0 year yday1 hour1 min1 sec1 yday0 hour0 min0 sec0 sec : Int} {tm : Tm}

theorem fourths_eq (h : -2 ^ 32 ≤ year ∧ year < 2 ^ 32) :
    fourths year = some ((year + 1899) / 4) := by
  have hcond :
      shr year 2 + shr TM_YEAR_BASE 2 - ofCond (lowBits 2 year = 0) = (year + 1899) / 4 := by
    unfold shr TM_YEAR_BASE ofCond lowBits
    split
    · omega
    · omega
  have hbase : shr year 2 + shr TM_YEAR_BASE 2 = year / 4 + 475 := by
    unfold shr TM_YEAR_BASE
    omega
  unfold fourths
  rw [long_of_bounds (by omega)]
  simp only [Option.bind_eq_bind, Option.bind_some, hcond]
  rw [long_of_bounds (by omega)]
  simp only [Option.bind_some, Option.pure_def]
  rw [toInt_of_bounds (by omega)]

theorem hundredths_eq {a4 : Int} (h : -2 ^ 30 ≤ a4 ∧ a4 ≤ 2 ^ 30) :
    hundredths a4 = some (a4 / 25) := by
  have hfloor := tdiv_add_cond (b := 25) (by decide) a4
  have hcond := ofCond_mem (a4 < 0)
  unfold hundredths
  rw [int_of_bounds (by omega)]
  simp only [Option.bind_eq_bind, Option.bind_some, hfloor]
  rw [int_of_bounds (by omega)]

/-- Bounds under which differences are exact: those of the requested fields and of a probe. -/
structure Bounded (year yday hour min sec : Int) : Prop where
  year : -2400000000 ≤ year ∧ year ≤ 2400000000
  yday : -2 ^ 32 ≤ yday ∧ yday ≤ 2 ^ 32
  hour : -2 ^ 31 ≤ hour ∧ hour < 2 ^ 31
  min : -2 ^ 31 ≤ min ∧ min < 2 ^ 31
  sec : -2 ^ 31 ≤ sec ∧ sec < 2 ^ 31

/-- The second of a day of a year, counted as in a `struct tm`. -/
def secondsOf (year yday hour min sec : Int) : Int :=
  seconds (yearStart (year + 1900) + yday) hour min sec

theorem interveningLeapDays_eq (h1 : -2400000000 ≤ year1 ∧ year1 ≤ 2400000000)
    (h0 : -2400000000 ≤ year0 ∧ year0 ≤ 2400000000) : interveningLeapDays year1 year0 =
      some (leapsThrough (year1 + 1899) - leapsThrough (year0 + 1899)) := by
  have hquads : ∀ y : Int, -2400000000 ≤ y ∧ y ≤ 2400000000 →
      fourths y = some ((y + 1899) / 4) ∧ hundredths ((y + 1899) / 4) = some ((y + 1899) / 100) ∧
        toInt (shr ((y + 1899) / 100) 2) = (y + 1899) / 400 := by
    intro y hy
    refine ⟨fourths_eq (by omega), ?_, ?_⟩
    · rw [hundredths_eq (by omega)]
      congr 1
      omega
    · unfold shr
      rw [toInt_of_bounds (by omega)]
      omega
  obtain ⟨hfour1, hhundred1, hfourhundred1⟩ := hquads year1 h1
  obtain ⟨hfour0, hhundred0, hfourhundred0⟩ := hquads year0 h0
  refine bind_of_eq hfour1 (bind_of_eq hfour0 (bind_of_eq hhundred1 (bind_of_eq hhundred0 ?_)))
  refine bind_int (by omega) ?_
  refine bind_int (by omega) ?_
  refine bind_int (by omega) ?_
  refine bind_int (by omega) ?_
  rw [int_of_bounds (by omega)]
  unfold leapsThrough
  congr 1
  omega

theorem ydhmsDiff_eq (h1 : Bounded year1 yday1 hour1 min1 sec1)
    (h0 : Bounded year0 yday0 hour0 min0 sec0) :
    ydhmsDiff year1 yday1 hour1 min1 sec1 year0 yday0 hour0 min0 sec0 =
      some (secondsOf year1 yday1 hour1 min1 sec1 - secondsOf year0 yday0 hour0 min0 sec0) := by
  have hleaps := interveningLeapDays_eq h1.year h0.year
  have hbounds : -2 ^ 32 ≤ leapsThrough (year1 + 1899) - leapsThrough (year0 + 1899) ∧
      leapsThrough (year1 + 1899) - leapsThrough (year0 + 1899) ≤ 2 ^ 32 := by
    have := h1.year
    have := h0.year
    unfold leapsThrough
    omega
  have hexact : secondsOf year1 yday1 hour1 min1 sec1 - secondsOf year0 yday0 hour0 min0 sec0 =
      60 * (60 * (24 * (365 * (year1 - year0) + yday1 - yday0 +
        (leapsThrough (year1 + 1899) - leapsThrough (year0 + 1899))) + hour1 - hour0) + min1 - min0)
        + sec1 - sec0 := by
    unfold secondsOf seconds yearStart
    rw [show year1 + 1900 - 1 =
      year1 + 1899 by omega, show year0 + 1900 - 1 = year0 + 1899 by omega]
    omega
  rw [hexact]
  obtain ⟨hyear1, hyday1, hhour1, hmin1, hsec1⟩ := h1
  obtain ⟨hyear0, hyday0, hhour0, hmin0, hsec0⟩ := h0
  refine bind_of_eq hleaps ?_
  -- one for each operation
  iterate 13 refine bind_long (by omega) ?_
  exact long_of_bounds (by omega)

/-! ## The conversion -/

/-- The year of the second is an `int`. -/
def Representable (t : Int) : Prop := ∃ y, InYear (t / 86400) y ∧ FitsYear y

/-- The fields are those of the second in UTC. -/
structure IsUtc (t : Int) (tm : Tm) : Prop where
  fields : BrokenDown t tm
  isdst : tm.isdst = 0
  gmtoff : tm.gmtoff = 0
  zone : tm.zone = "GMT"

theorem IsUtc.unique {a b : Tm} (ha : IsUtc t a) (hb : IsUtc t b) : a = b := by
  have heq := ha.fields.unique hb.fields
  rw [ha.isdst, ← hb.isdst, ha.gmtoff, ← hb.gmtoff, ha.zone, ← hb.zone] at heq
  exact heq.symm

theorem representable_iff : Representable t ↔ -67768040609740800 ≤ t ∧ t < 67768036191676800 := by
  have hfirst : yearStart (1900 - 2 ^ 31) * 86400 = -67768040609740800 := by
    unfold yearStart leapsThrough
    omega
  have hlast : yearStart (1900 + 2 ^ 31) * 86400 = 67768036191676800 := by
    unfold yearStart leapsThrough
    omega
  constructor
  · rintro ⟨y, ⟨hstart, hend⟩, hlo, hhi⟩
    have hle := yearStart_le (y := 1900 - 2 ^ 31) (z := y) (by omega)
    have hle' := yearStart_le (y := y + 1) (z := 1900 + 2 ^ 31) (by omega)
    omega
  · rintro ⟨hlo, hhi⟩
    obtain ⟨y, hin, -⟩ := offtime_spec (s := t) (by omega) (by decide) (Int.add_zero t)
      ⟨0, 0, 0, 0, 0, 0, 0, 0, 0, 0, "GMT"⟩
    refine ⟨y, hin, ?_⟩
    obtain ⟨hstart, hend⟩ := hin
    constructor
    · by_contra hlt
      have hle := yearStart_le (y := y + 1) (z := 1900 - 2 ^ 31) (by omega)
      omega
    · by_contra hge
      have hle := yearStart_le (y := 1900 + 2 ^ 31) (z := y) (by omega)
      omega

theorem toInt_bounds (x : Int32) : -2 ^ 31 ≤ x.toInt ∧ x.toInt < 2 ^ 31 := ⟨x.le_toInt, x.toInt_lt⟩

theorem IsUtc.representable (h : IsUtc t tm) : Representable t := by
  have hyear := toInt_bounds tm.year
  refine ⟨_, h.fields.date.inYear, ?_⟩
  constructor
  · omega
  · omega

theorem gmtime64R_spec (ht : -2 ^ 63 ≤ t ∧ t < 2 ^ 63) :
    (∃ tm, gmtime64R t = some (.ok tm) ∧ IsUtc t tm) ∨
      (gmtime64R t = some (.error .EOVERFLOW) ∧ ¬Representable t) := by
  obtain ⟨y, hin, h⟩ :=
    offtime_spec ht (by decide) (Int.add_zero t) ⟨0, 0, 0, 0, 0, 0, 0, 0, 0, 0, "GMT"⟩
  rcases h with ⟨hfits, hnone⟩ | ⟨tm, hfits, hsome, hfields, hisdst, hgmtoff, hzone⟩
  · right
    refine ⟨bind_of_eq hnone rfl, ?_⟩
    rintro ⟨z, hz, hfits'⟩
    exact hfits (hin.unique hz ▸ hfits')
  · left
    exact ⟨tm, bind_of_eq hsome rfl, hfields, hisdst, hgmtoff, hzone⟩

theorem gmtime64R_eq_ok_iff (t : Int64) : gmtime64R t.toInt = some (.ok tm) ↔ IsUtc t.toInt tm := by
  rcases gmtime64R_spec ⟨t.le_toInt, t.toInt_lt⟩ with ⟨tm', heq, hutc⟩ | ⟨heq, hout⟩
  · rw [heq]
    constructor
    · rintro ⟨⟩
      exact hutc
    · intro h
      rw [hutc.unique h]
  · rw [heq]
    constructor
    · rintro ⟨⟩
    · intro h
      exact absurd h.representable hout

/-! ## Probes -/

theorem longIntAvg_eq {a b : Int} (ha : -2 ^ 63 ≤ a ∧ a < 2 ^ 63) (hb : -2 ^ 63 ≤ b ∧ b < 2 ^ 63) :
    longIntAvg a b = some ((a + b + 1) / 2) := by
  unfold longIntAvg shr lowBits
  refine bind_long (by omega) ?_
  rw [long_of_bounds (by omega)]
  congr 1
  omega

theorem bisect_spec {bad ok : Int} {oktm : Option Tm} (hbad : -2 ^ 63 ≤ bad ∧ bad < 2 ^ 63)
    (hout : ¬Representable bad) (hok : Representable ok)
    (htm : (oktm = none ∧ ok = 0) ∨ ∃ tm, oktm = some tm ∧ IsUtc ok tm) :
    ∃ t tm, bisect gmtime64R bad ok oktm = some (.ok (t, tm)) ∧ IsUtc t tm := by
  have hrange : -2 ^ 63 ≤ ok ∧ ok < 2 ^ 63 := by
    rw [representable_iff] at hok
    omega
  fun_induction bisect gmtime64R bad ok oktm with
  | case1 bad ok oktm hmid =>
    rw [longIntAvg_eq hrange hbad] at hmid
    cases hmid
  | case2 bad ok mid hmid hend =>
    -- 0 is not next to the end of the range
    rcases htm with ⟨-, rfl⟩ | ⟨tm, htm, -⟩
    · have := eq_of_longIntAvg hmid
      rw [representable_iff] at hout
      omega
    · cases htm
  | case3 bad ok mid hmid hend tm =>
    rcases htm with ⟨htm, -⟩ | ⟨tm', htm, hutc⟩
    · cases htm
    · cases htm
      have hsec := hutc.fields.time.sec_mem.1
      refine ⟨ok, tm, ?_, hutc⟩
      rw [if_neg (by omega)]
  | case4 bad ok oktm mid hmid hend hconvert | case7 bad ok oktm mid hmid hend hconvert =>
    have hbounds := eq_of_longIntAvg hmid
    rcases gmtime64R_spec (t := mid) (by omega) with ⟨tm, heq, -⟩ | ⟨heq, -⟩ <;>
      cases hconvert.symm.trans heq
  | case5 bad ok oktm mid hmid hend tm hconvert ih =>
    have hbounds := eq_of_longIntAvg hmid
    rcases gmtime64R_spec (t := mid) (by omega) with ⟨tm', heq, hutc⟩ | ⟨heq, -⟩
    · rw [hconvert] at heq
      cases heq
      exact ih hbad hout hutc.representable (.inr ⟨tm, rfl, hutc⟩) (by omega)
    · rw [hconvert] at heq
      cases heq
  | case6 bad ok oktm mid hmid hend hconvert ih =>
    have hbounds := eq_of_longIntAvg hmid
    rcases gmtime64R_spec (t := mid) (by omega) with ⟨tm', heq, -⟩ | ⟨-, hmid'⟩
    · rw [hconvert] at heq
      cases heq
    · exact ih (by omega) hmid' hok htm hrange

/-- A probe gives a second in range and its broken-down time, and the second itself if it is in
range. -/
theorem rangedConvert_spec (ht : -2 ^ 63 ≤ t ∧ t < 2 ^ 63) :
    ∃ t' tm, rangedConvert gmtime64R t = some (.ok (t', tm)) ∧ IsUtc t' tm ∧
      (Representable t → t' = t) := by
  have hclamp :
      (if t < mktimeMin then mktimeMin else if t ≤ mktimeMax then t else mktimeMax) = t := by
    unfold mktimeMin mktimeMax
    rw [if_neg (by omega), if_pos (by omega)]
  unfold rangedConvert
  rw [hclamp]
  rcases gmtime64R_spec ht with ⟨tm, heq, hutc⟩ | ⟨heq, hout⟩
  · exact ⟨t, tm, bind_of_eq heq rfl, hutc, fun _ => rfl⟩
  · have hzero : Representable 0 := representable_iff.2 (by omega)
    obtain ⟨t', tm, hbisect, hutc⟩ := bisect_spec ht hout hzero (.inl ⟨rfl, rfl⟩)
    exact ⟨t', tm, bind_of_eq heq hbisect, hutc, fun h => absurd h hout⟩

/-! ## The requested second -/

def Requested.seconds (req : Requested) : Int :=
  secondsOf req.year req.yday req.hour req.min req.sec

theorem tmDiff_eq {req : Requested} (hreq : Bounded req.year req.yday req.hour req.min req.sec)
    (hutc : IsUtc t tm) : tmDiff req tm = some (req.seconds - t) := by
  have hbounded : Bounded tm.year.toInt tm.yday.toInt tm.hour.toInt tm.min.toInt tm.sec.toInt := by
    have hyear := toInt_bounds tm.year
    have hyday := toInt_bounds tm.yday
    exact ⟨by omega, by omega, toInt_bounds _, toInt_bounds _, toInt_bounds _⟩
  have hseconds :
      secondsOf tm.year.toInt tm.yday.toInt tm.hour.toInt tm.min.toInt tm.sec.toInt = t := by
    rw [secondsOf, hutc.fields.yday, hutc.fields.seconds_eq]
  rw [tmDiff, ydhmsDiff_eq hreq hbounded, hseconds]
  rfl

section

variable {req : Requested} (hreq : Bounded req.year req.yday req.hour req.min req.sec)
  (hrange : -2 ^ 63 ≤ req.seconds ∧ req.seconds < 2 ^ 63)

include hreq hrange

variable {t : Int}

/-- One probe. The error is exact, so the next guess is the requested second. -/
theorem improve_turn (ht : -2 ^ 63 ≤ t ∧ t < 2 ^ 63) (n : Nat) (t1 t2 dst2 : Int) :
    (∃ tm, IsUtc req.seconds tm ∧
        improve gmtime64R req 0 (n + 1) t t1 t2 dst2 = some (.found req.seconds tm)) ∨
      ∃ t', (Representable t → req.seconds ≠ t) ∧ improve gmtime64R req 0 (n + 1) t t1 t2 dst2 =
        if n = 0 then some .fail else improve gmtime64R req 0 n req.seconds t2 t' 0 := by
  obtain ⟨t', tm, hconvert, hutc, hsame⟩ := rangedConvert_spec ht
  have hisdst : tm.isdst.toInt = 0 := by rw [hutc.isdst]; rfl
  have hnext : long (t' + (req.seconds - t')) = some req.seconds := by
    rw [long_of_bounds (by omega)]
    congr 1
    omega
  by_cases hdone : req.seconds = t'
  · left
    refine ⟨tm, hdone ▸ hutc, ?_⟩
    refine bind_of_eq hconvert (bind_of_eq (tmDiff_eq hreq hutc) ?_)
    rw [if_pos (by omega), hdone]
    rfl
  · right
    refine ⟨t', fun h => hsame h ▸ hdone, ?_⟩
    refine bind_of_eq hconvert (bind_of_eq (tmDiff_eq hreq hutc) ?_)
    rw [if_neg (by omega), if_neg (by simp [hisdst])]
    by_cases hlast : n = 0
    · rw [if_pos hlast, if_pos hlast]
      rfl
    · rw [if_neg hlast, if_neg hlast]
      refine bind_of_eq hnext ?_
      rw [hisdst]
      rfl

/-- Where the loop ends: from the requested second in any number of turns, from others in two. -/
theorem improve_spec (ht : -2 ^ 63 ≤ t ∧ t < 2 ^ 63) (n : Nat) (hn : n = 0 → t = req.seconds)
    (t1 t2 dst2 : Int) :
    (∃ tm, IsUtc req.seconds tm ∧
        improve gmtime64R req 0 (n + 1) t t1 t2 dst2 = some (.found req.seconds tm)) ∨
      (¬Representable req.seconds ∧ improve gmtime64R req 0 (n + 1) t t1 t2 dst2 = some .fail) := by
  induction n generalizing t t1 t2 dst2 with
  | zero =>
    obtain rfl := hn rfl
    rcases improve_turn hreq hrange hrange 0 t1 t2 dst2 with hfound | ⟨t', hout, heq⟩
    · exact .inl hfound
    · exact .inr ⟨fun h => hout h rfl, heq⟩
  | succ n ih =>
    rcases improve_turn hreq hrange ht (n + 1) t1 t2 dst2 with hfound | ⟨t', -, heq⟩
    · exact .inl hfound
    · rw [heq]
      exact ih hrange (fun _ => rfl) t2 t' 0

end

/-! ## The requested fields -/

theorem leapyear_eq (year : Int) : leapyear year = decide (IsLeap (year + 1900)) := by
  have hhundred : year.tmod 100 = 0 ↔ year % 100 = 0 := by
    rw [← Int.dvd_iff_tmod_eq_zero, ← Int.dvd_iff_emod_eq_zero]
  have hdiv : year % 100 = 0 → year.tdiv 100 = year / 100 := by
    intro h
    rcases tdiv_tmod_cases (b := 100) (by decide) year with ⟨hdiv, -, -⟩ | ⟨-, -, -, hndvd⟩
    · exact hdiv
    · exact absurd (Int.dvd_of_emod_eq_zero h) hndvd
  have hbase : lowBits 2 (-(TM_YEAR_BASE.tdiv 100)) = 1 := rfl
  apply decide_eq_decide.2
  rw [hbase, Ne]
  unfold lowBits IsLeap
  by_cases h : year % 100 = 0
  · omega
  · omega

theorem mon_yday_eq (year mon : Int) :
    (monYday (leapyear year)).getD (mon % 12).toNat 0 =
      monthStart (year + 1900) (mon % 12).toNat := by
  rw [leapyear_eq, ← isleap_eq, monYday_getD _ (by omega)]

theorem monthStart_bounds (y : Int) {m : Nat} (hm : m < 12) :
    0 ≤ monthStart y m ∧ monthStart y m ≤ 366 := by
  have hlo := monthStart_le y (Nat.zero_le m) (le_of_lt hm)
  have hhi := monthStart_le y (le_of_lt hm) (le_refl 12)
  rw [monthStart_twelve] at hhi
  rw [monthStart_zero] at hlo
  have := yearLength_bounds y
  omega

theorem Bounded.seconds_bounds {yday hour min : Int} (h : Bounded year yday hour min sec) :
    -2 ^ 62 ≤ secondsOf year yday hour min sec ∧ secondsOf year yday hour min sec < 2 ^ 62 := by
  obtain ⟨hyear, hyday, hhour, hmin, hsec⟩ := h
  unfold secondsOf seconds yearStart leapsThrough
  omega

theorem ydhmsDiff_mem (h1 : Bounded year1 yday1 hour1 min1 sec1)
    (h0 : Bounded year0 yday0 hour0 min0 sec0) :
    ∃ t, ydhmsDiff year1 yday1 hour1 min1 sec1 year0 yday0 hour0 min0 sec0 = some t ∧
      -2 ^ 63 ≤ t ∧ t < 2 ^ 63 := by
  have hbounds1 := h1.seconds_bounds
  have hbounds0 := h0.seconds_bounds
  exact ⟨_, ydhmsDiff_eq h1 h0, by omega, by omega⟩

/-- What the fields ask for, with the months carried into the years. -/
def Tm.requested (tm : Tm) (sec : Int) : Requested where
  year := tm.year.toInt + tm.mon.toInt / 12
  yday := monthStart (tm.year.toInt + tm.mon.toInt / 12 + 1900) (tm.mon.toInt % 12).toNat - 1 +
    tm.mday.toInt
  hour := tm.hour.toInt
  min := tm.min.toInt
  sec := sec

theorem yearAndYday_eq (tm : Tm) :
    yearAndYday tm = some ((tm.requested 0).year, (tm.requested 0).yday) := by
  have hmon := toInt_bounds tm.mon
  have hyear := toInt_bounds tm.year
  have hmday := toInt_bounds tm.mday
  have hdiv := tdiv_sub_cond (b := 12) (by decide) tm.mon.toInt
  have hmod := tmod_add_cond (b := 12) (by decide) tm.mon.toInt
  have hstart := monthStart_bounds (tm.year.toInt + tm.mon.toInt / 12 + 1900)
    (m := (tm.mon.toInt % 12).toNat) (by omega)
  have hcond := ofCond_mem (tm.mon.toInt.tmod 12 < 0)
  unfold yearAndYday
  dsimp only
  rw [hdiv]
  refine bind_int (by omega) ?_
  refine bind_long (by omega) ?_
  refine bind_int (by omega) ?_
  rw [hmod]
  refine bind_int (by omega) ?_
  rw [mon_yday_eq]
  refine bind_int (by omega) ?_
  refine bind_long (by omega) ?_
  rfl

theorem requested_bounded (tm : Tm) (hsec : -2 ^ 31 ≤ sec ∧ sec < 2 ^ 31) :
    Bounded (tm.requested sec).year (tm.requested sec).yday (tm.requested sec).hour
      (tm.requested sec).min (tm.requested sec).sec := by
  have hmon := toInt_bounds tm.mon
  have hyear := toInt_bounds tm.year
  have hmday := toInt_bounds tm.mday
  have hstart := monthStart_bounds (tm.year.toInt + tm.mon.toInt / 12 + 1900)
    (m := (tm.mon.toInt % 12).toNat) (by omega)
  unfold Tm.requested
  exact ⟨by dsimp only; omega, by dsimp only; omega, toInt_bounds _, toInt_bounds _, hsec⟩

theorem requested_seconds (tm : Tm) :
    (tm.requested tm.sec.toInt).seconds = tm.instant := by
  unfold Requested.seconds Tm.requested secondsOf Tm.instant dayNumber
  dsimp only
  rw [show tm.year.toInt + tm.mon.toInt / 12 + 1900 = tm.year.toInt + 1900 +
    tm.mon.toInt / 12 by omega]
  congr 1
  omega

theorem requested_seconds_sub (tm : Tm) (sec sec' : Int) :
    (tm.requested sec).seconds + (sec' - sec) = (tm.requested sec').seconds := by
  unfold Requested.seconds secondsOf seconds Tm.requested
  dsimp only
  omega

/-- The fields with the seconds in a minute. -/
def Tm.clamped (tm : Tm) : Tm := { tm with sec := Int32.ofInt (clampSec tm.sec.toInt) }

theorem clampSec_bounds (sec : Int) : 0 ≤ clampSec sec ∧ clampSec sec < 60 := by
  unfold clampSec
  dsimp only
  split <;> split <;> omega

theorem clamped_instant (tm : Tm) :
    tm.clamped.instant = (tm.requested (clampSec tm.sec.toInt)).seconds := by
  have hbounds := clampSec_bounds tm.sec.toInt
  rw [← requested_seconds tm.clamped]
  have hsec : tm.clamped.sec.toInt = clampSec tm.sec.toInt :=
    Int32.toInt_ofInt_of_le (by omega) (by omega)
  rw [hsec]
  rfl

theorem instant_bounds (tm : Tm) : -2 ^ 62 ≤ tm.instant ∧ tm.instant < 2 ^ 62 := by
  rw [← requested_seconds]
  exact (requested_bounded tm (toInt_bounds tm.sec)).seconds_bounds

theorem sec_eq_clampSec {tp : Tm} (hutc : IsUtc tp.clamped.instant tm) :
    tm.sec.toInt = clampSec tp.sec.toInt := by
  have hsec := hutc.fields.time.sec_mem
  have hseconds := hutc.fields.seconds_eq
  have hclamp := clampSec_bounds tp.sec.toInt
  rw [clamped_instant] at hseconds
  unfold Requested.seconds secondsOf seconds Tm.requested at hseconds
  dsimp only at hseconds
  omega

/-- From the clamped second to the requested one. -/
theorem offsetFound_spec (tp : Tm) (t0 guess : Int) (hutc : IsUtc tp.clamped.instant tm) :
    ∃ offset', (∃ tm', IsUtc tp.instant tm' ∧
        offsetFound gmtime64R tp (clampSec tp.sec.toInt) tp.sec.toInt t0
          guess tp.clamped.instant tm =
          some ⟨some tp.instant, tm', offset'⟩) ∨
      (¬Representable tp.instant ∧
        offsetFound gmtime64R tp (clampSec tp.sec.toInt) tp.sec.toInt t0
          guess tp.clamped.instant tm =
          some ⟨none, tp, offset'⟩) := by
  have hclamp := clampSec_bounds tp.sec.toInt
  have hsec := sec_eq_clampSec hutc
  have hinstant : tp.clamped.instant + (tp.sec.toInt - clampSec tp.sec.toInt) = tp.instant := by
    rw [clamped_instant, requested_seconds_sub, requested_seconds]
  unfold offsetFound
  by_cases hsame : tp.sec.toInt = tm.sec.toInt
  · rw [if_pos hsame]
    have heq : tp.clamped.instant = tp.instant := by omega
    rw [heq] at hutc ⊢
    exact ⟨_, .inl ⟨tm, hutc, rfl⟩⟩
  · have hbounds := instant_bounds tp
    have hint := toInt_bounds tp.sec
    have hcond : ofCond (clampSec tp.sec.toInt = 0 ∧ tm.sec.toInt = 60) = 0 := if_neg (by omega)
    have hadjust : long (0 - clampSec tp.sec.toInt + tp.sec.toInt) =
        some (tp.sec.toInt - clampSec tp.sec.toInt) := by
      rw [long_of_bounds (by omega)]
      congr 1
      omega
    have hlong : long tp.instant = some tp.instant := long_of_bounds (by omega)
    rw [if_neg hsame, hcond]
    have hrange : mktimeMin ≤ tp.instant ∧ tp.instant ≤ mktimeMax := by
      unfold mktimeMin mktimeMax
      omega
    refine ⟨Int64.ofInt ((Int64.ofInt (tp.clamped.instant - t0)).toInt - guess), ?_⟩
    rcases gmtime64R_spec (t := tp.instant) (by omega) with ⟨tm', heq, hutc'⟩ | ⟨heq, hout⟩
    · refine .inl ⟨tm', hutc', ?_⟩
      refine bind_long (by omega) (bind_of_eq hadjust ?_)
      rw [hinstant, hlong]
      dsimp only
      rw [if_pos hrange]
      exact bind_of_eq heq rfl
    · refine .inr ⟨hout, ?_⟩
      refine bind_long (by omega) (bind_of_eq hadjust ?_)
      rw [hinstant, hlong]
      dsimp only
      rw [if_pos hrange]
      exact bind_of_eq heq rfl

theorem mktimeInternal_spec (tp : Tm) (hisdst : tp.isdst = 0) (offset : Int64) :
    ∃ offset', (Representable tp.clamped.instant ∧ ∃ tm, IsUtc tp.instant tm ∧
        mktimeInternal gmtime64R tp offset = some ⟨some tp.instant, tm, offset'⟩) ∨
      (¬(Representable tp.clamped.instant ∧ Representable tp.instant) ∧
        mktimeInternal gmtime64R tp offset = some ⟨none, tp, offset'⟩) := by
  have hclamp : -2 ^ 31 ≤ clampSec tp.sec.toInt ∧ clampSec tp.sec.toInt < 2 ^ 31 := by
    have := clampSec_bounds tp.sec.toInt
    omega
  have hbounded := requested_bounded tp hclamp
  have hseconds := clamped_instant tp
  have hepoch : Bounded (EPOCH_YEAR - TM_YEAR_BASE) 0 0 0 (toInt (0 - offset.toInt)) :=
    ⟨by decide, by omega, by omega, by omega, toInt_mem _⟩
  have hrange := hbounded.seconds_bounds
  obtain ⟨t0, hdiff, ht0⟩ := ydhmsDiff_mem hbounded hepoch
  have hzero : tp.isdst.toInt = 0 := by rw [hisdst]; rfl
  rcases improve_spec hbounded (by unfold Requested.seconds; omega) ht0 5 (by omega) t0 t0 0 with
    ⟨tm, hutc, himprove⟩ | ⟨hout, himprove⟩
  · rw [← hseconds] at hutc himprove
    have hdiffer : isdstDiffer 0 tm.isdst.toInt = false := by rw [hutc.isdst]; rfl
    have hrun :
        mktimeInternal gmtime64R tp offset = offsetFound gmtime64R tp (clampSec tp.sec.toInt)
        tp.sec.toInt t0 (toInt (0 - offset.toInt)) tp.clamped.instant tm := by
      unfold mktimeInternal
      rw [hzero]
      refine bind_of_eq (yearAndYday_eq tp) (bind_of_eq hdiff (bind_of_eq himprove ?_))
      dsimp only
      rw [hdiffer]
      rfl
    obtain ⟨offset', ⟨tm', hutc', hfound⟩ | ⟨hout, hfound⟩⟩ :=
      offsetFound_spec tp t0 (toInt (0 - offset.toInt)) hutc
    · exact ⟨offset', .inl ⟨hutc.representable, tm', hutc', hrun.trans hfound⟩⟩
    · exact ⟨offset', .inr ⟨fun h => hout h.2, hrun.trans hfound⟩⟩
  · rw [← hseconds] at hout
    refine ⟨offset, .inr ⟨fun h => hout h.1, ?_⟩⟩
    unfold mktimeInternal
    rw [hzero]
    exact bind_of_eq (yearAndYday_eq tp) (bind_of_eq hdiff (bind_of_eq himprove rfl))

/-- **`timegm` is exact.** Whatever the fields and the offset cache are, no signed operation
overflows, and the result and `*tp` do not depend on the cache. If the requested second and the one
with its seconds in a minute have years that fit, the result is the requested second and `*tp` its
broken-down time; otherwise the function fails and `*tp` is as it was, with the cleared
`tm_isdst`. -/
theorem timegm_exact (tm : Tm) :
    ∃ value tp, (∀ offset, ∃ offset', timegm tm offset = some ⟨value, tp, offset'⟩) ∧
      ((Representable tm.clamped.instant ∧ Representable tm.instant ∧ value = some tm.instant ∧
          IsUtc tm.instant tp) ∨
        (¬(Representable tm.clamped.instant ∧ Representable tm.instant) ∧ value = none ∧
          tp = { tm with isdst := 0 })) := by
  have hspec := mktimeInternal_spec { tm with isdst := 0 } rfl
  by_cases hin : Representable tm.clamped.instant ∧ Representable tm.instant
  · obtain ⟨-, ⟨-, tp, hutc, -⟩ | ⟨hout, -⟩⟩ := hspec 0
    · refine ⟨some tm.instant, tp, ?_, .inl ⟨hin.1, hin.2, rfl, hutc⟩⟩
      intro offset
      obtain ⟨offset', ⟨-, tp', hutc', heq⟩ | ⟨hout, -⟩⟩ := hspec offset
      · rw [hutc'.unique hutc] at heq
        exact ⟨offset', heq⟩
      · exact absurd hin hout
    · exact absurd hin hout
  · refine ⟨none, { tm with isdst := 0 }, ?_, .inr ⟨hin, rfl, rfl⟩⟩
    intro offset
    obtain ⟨offset', ⟨hclamped, tp', hutc', -⟩ | ⟨-, heq⟩⟩ := hspec offset
    · exact absurd ⟨hclamped, hutc'.representable⟩ hin
    · exact ⟨offset', heq⟩

theorem IsUtc.instant_eq (h : IsUtc t tm) : tm.instant = t ∧ tm.clamped.instant = t := by
  obtain ⟨htime, hmon, hdate, hseconds, -, -⟩ := h.fields
  have hlt := hdate.month_lt
  have hsec := htime.sec_mem
  have hclamp : clampSec tm.sec.toInt = tm.sec.toInt := by
    unfold clampSec
    rw [if_neg (by omega), if_neg (by omega)]
  have hinstant : tm.instant = t := by
    rw [Tm.instant, show tm.mon.toInt / 12 = 0 by omega,
      show tm.mon.toInt % 12 = tm.mon.toInt by omega, Int.add_zero, hdate.day_eq, hseconds]
  refine ⟨hinstant, ?_⟩
  rw [clamped_instant, hclamp, requested_seconds, hinstant]

/-- What `gmtime` makes of a second, `timegm` takes back to it and leaves as it is; and what
`timegm` leaves in `*tp`, whatever was there, is what `gmtime` makes of its result. -/
theorem gmtime64R_timegm_inverse (t offset : Int64) (tm : Tm) :
    (gmtime64R t.toInt = some (.ok tm) →
      ∃ offset', timegm tm offset = some ⟨some t.toInt, tm, offset'⟩) ∧
    ∀ tp offset', timegm tp offset = some ⟨some t.toInt, tm, offset'⟩ →
      gmtime64R t.toInt = some (.ok tm) := by
  rw [gmtime64R_eq_ok_iff]
  constructor
  · intro hutc
    have hrep := hutc.representable
    have hsame : { tm with isdst := 0 } = tm := by rw [← hutc.isdst]
    obtain ⟨hinstant, hclamped⟩ := hutc.instant_eq
    obtain ⟨offset', ⟨-, tp, hutc', heq⟩ | ⟨hout, -⟩⟩ := mktimeInternal_spec tm hutc.isdst offset
    · rw [hinstant] at hutc' heq
      rw [hutc'.unique hutc] at heq
      exact ⟨offset', by rw [timegm, hsame, heq]⟩
    · rw [hinstant, hclamped] at hout
      exact absurd ⟨hrep, hrep⟩ hout
  · intro tp offset' h
    obtain ⟨_, ⟨-, tp', hutc, heq⟩ | ⟨-, heq⟩⟩ :=
      mktimeInternal_spec { tp with isdst := 0 } rfl offset
    · have hresult := heq.symm.trans h
      simp only [Option.some.injEq, Result.mk.injEq] at hresult
      obtain ⟨hvalue, rfl, -⟩ := hresult
      rwa [hvalue] at hutc
    · cases heq.symm.trans h

end SafeLibc.Time
