import Mathlib.Tactic.Positivity
import Mathlib.Tactic.Ring

/-!
# Trimming the main arena

`checked_request2size` and `systrim` of `malloc.c`, on 64-bit words, and how `_int_malloc` and
`sysmalloc` cut requests from the top chunk of the main arena and move the break, as long as nothing
is free and no other code moves the break.

A request may leave a top chunk of exactly `MINSIZE` bytes. Its `top_area` is -1, which is the
largest word when it is compared with the pad, so `systrim` asks for one more page and reports
success (`systrim_grows`).
-/

namespace SafeLibc.Malloc

def MINSIZE : Nat := 32

def PTRDIFF_MAX : Nat := 2 ^ 63 - 1

def request2size (req : Nat) : Nat :=
  if req + 8 + 15 < MINSIZE then MINSIZE else (req + 8 + 15) / 16 * 16

def checkedRequest2size (req : Nat) : Nat := if req > PTRDIFF_MAX then 0 else request2size req

/-- The page sizes are powers of two; the huge one is 0 when it is not used. -/
structure Params where
  pagesize : Nat
  thpPagesize : Nat
  topPad : Nat
  mmapThreshold : Nat
  pagesize_dvd : pagesize ∣ 2 ^ 63
  thp_dvd : thpPagesize = 0 ∨ thpPagesize ∣ 2 ^ 63
  pagesize_dvd_thp : pagesize ∣ thpPagesize

/-- The unit in which memory is released. -/
def Params.unit (params : Params) : Nat :=
  if params.thpPagesize ≠ 0 then params.thpPagesize else params.pagesize

structure Arena where
  top : Int
  topSize : Int
  brk : Int
  systemMem : Int

/-- A call of `systrim`: what was asked of `MORECORE`, if it was called, and what was returned. -/
structure Trim where
  asked : Option Int
  arena : Arena
  returned : Nat

/-- `ALIGN_DOWN`, for a power of two. -/
def alignDown (x unit : Int) : Int := x / unit * unit

/-- `granted`: the break moves as asked. -/
def systrim (params : Params) (granted : Bool) (pad : Nat) (av : Arena) : Trim :=
  let topArea := av.topSize - MINSIZE - 1
  -- the comparison converts `top_area` to `size_t`
  if topArea % 2 ^ 64 ≤ pad then ⟨none, av, 0⟩
  else
    let extra := (alignDown ((topArea - pad) % 2 ^ 64) params.unit).bmod (2 ^ 64)
    if extra = 0 then ⟨none, av, 0⟩
    else if av.brk = av.top + av.topSize then
      let newBrk := if granted then av.brk + -extra else av.brk
      let released := av.brk - newBrk
      if released ≠ 0 then
        ⟨some (-extra), ⟨av.top, av.topSize - released, newBrk, av.systemMem - released⟩, 1⟩
      else ⟨some (-extra), av, 0⟩
    else ⟨none, av, 0⟩

/-- A chunk of `nb` bytes from the top, which is first extended where it is too small. -/
def useTop (params : Params) (av : Arena) (nb : Nat) : Arena :=
  if av.topSize ≥ nb + MINSIZE then { av with top := av.top + nb, topSize := av.topSize - nb }
  else if nb ≥ params.mmapThreshold then av
  else
    let size :=
      alignDown (nb + params.topPad + MINSIZE - av.topSize + params.pagesize - 1) params.pagesize
    let top := if av.topSize = 0 then av.brk else av.top
    ⟨top + nb, av.topSize + size - nb, av.brk + size, av.systemMem + size⟩

/-- What a trim that shrinks does. -/
def Trim.Shrinks (params : Params) (pad : Nat) (av : Arena) (r : Trim) : Prop :=
  (∀ n ∈ r.asked, n < 0) ∧
    ((r.arena = av ∧ r.returned = 0) ∨
      ∃ pages : Nat, 0 < pages ∧ r.arena.brk = av.brk - pages * params.pagesize ∧
        r.arena.topSize = av.topSize - pages * params.pagesize ∧
        MINSIZE + pad ≤ r.arena.topSize ∧ r.returned = 1)

namespace Params

variable (params : Params)

theorem pagesize_pos : 0 < params.pagesize :=
  Nat.pos_of_dvd_of_pos params.pagesize_dvd (by decide)

theorem unit_dvd : params.unit ∣ 2 ^ 63 := by
  unfold unit
  split
  · next hne => exact params.thp_dvd.resolve_left hne
  · exact params.pagesize_dvd

theorem unit_pos : 0 < params.unit := Nat.pos_of_dvd_of_pos params.unit_dvd (by decide)

theorem pagesize_dvd_unit : params.pagesize ∣ params.unit := by
  unfold unit
  split
  · exact params.pagesize_dvd_thp
  · exact Nat.dvd_refl _

end Params

/-! ## What is released -/

variable {params : Params} {av : Arena} {pad : Nat} {granted : Bool}

theorem extra_eq {d : Int} (params : Params) (hd : 0 ≤ d) (hlt : d < 2 ^ 63) :
    ∃ pages : Nat, (alignDown (d % 2 ^ 64) params.unit).bmod (2 ^ 64) = pages * params.pagesize ∧
      (pages * params.pagesize : Int) ≤ d := by
  obtain ⟨u, hu⟩ := params.pagesize_dvd_unit
  obtain ⟨q, hq⟩ := Int.eq_ofNat_of_zero_le (Int.ediv_nonneg hd (Int.natCast_nonneg params.unit))
  have hle := Int.ediv_mul_le d (Int.natCast_ne_zero.2 (Nat.ne_of_gt params.unit_pos))
  have hpages : (q : Int) * params.unit = (q * u : Nat) * params.pagesize := by
    rw [hu]
    push_cast
    ring
  rw [hq, hpages] at hle
  have hnonneg : (0 : Int) ≤ (q * u : Nat) * params.pagesize := by positivity
  rw [Int.emod_eq_of_lt hd (by omega), alignDown, hq, hpages]
  exact ⟨q * u, Int.bmod_eq_of_le (by omega) (by omega), hle⟩

theorem shrinks_none : Trim.Shrinks params pad av ⟨none, av, 0⟩ :=
  ⟨fun n hn => (by cases hn), .inl ⟨rfl, rfl⟩⟩

/-- A top larger than `MINSIZE` only shrinks, by whole pages, and keeps `MINSIZE + pad` bytes. -/
theorem systrim_shrinks_of_lt (htop : MINSIZE < av.topSize) (hword : av.topSize < 2 ^ 63) :
    (systrim params granted pad av).Shrinks params pad av := by
  unfold systrim
  dsimp only
  split
  · exact shrinks_none
  · obtain ⟨pages, hextra, hle⟩ := extra_eq (d := av.topSize - MINSIZE - 1 - pad) params
      (by omega) (by omega)
    have hpage := params.pagesize_pos
    rw [hextra]
    split
    · exact shrinks_none
    · next hne =>
      have hpos : 0 < pages := Nat.pos_of_ne_zero (by rintro rfl; simp at hne)
      have hasked : ∀ n ∈ some (-((pages : Int) * params.pagesize)), n < 0 := by
        rintro n ⟨⟩
        have : (0 : Int) < pages * params.pagesize := by positivity
        omega
      split
      · cases granted with
        | false =>
          rw [if_neg (by simp)]
          exact ⟨hasked, .inl ⟨rfl, rfl⟩⟩
        | true =>
          rw [if_pos rfl, if_pos (by omega)]
          refine ⟨hasked, .inr ⟨pages, hpos, ?_⟩⟩
          dsimp only
          omega
      · exact shrinks_none

/-! ## A small top -/

/-- `top_area - pad` of a top of at most `MINSIZE` bytes, as the `size_t` it is computed in. -/
def wrapped (pad : Nat) (av : Arena) : Int := 2 ^ 64 + av.topSize - MINSIZE - 1 - pad

theorem alignDown_lt_iff (params : Params) {x : Int} :
    alignDown x params.unit < 2 ^ 63 ↔ x < 2 ^ 63 := by
  have hpos : (0 : Int) < params.unit := Int.natCast_pos.2 params.unit_pos
  obtain ⟨q, hq⟩ := params.unit_dvd
  have hq' : (2 : Int) ^ 63 = q * params.unit := by
    rw [mul_comm]
    exact_mod_cast hq
  rw [alignDown, hq', Int.mul_lt_mul_right hpos, Int.ediv_lt_iff_lt_mul hpos]

/-- The bytes that a call with a small top takes from the break, as the `long` that holds them. -/
def wrappedExtra (params : Params) (pad : Nat) (av : Arena) : Int :=
  (alignDown (wrapped pad av) params.unit).bmod (2 ^ 64)

theorem wrappedExtra_cases (htop : av.topSize ≤ MINSIZE)
    (hunit : params.unit ≤ wrapped pad av) :
    if wrapped pad av < 2 ^ 63 then 0 < wrappedExtra params pad av
    else wrappedExtra params pad av < 0 := by
  have hpos := params.unit_pos
  have hne : (params.unit : Int) ≠ 0 := by omega
  have hle : alignDown (wrapped pad av) params.unit ≤ wrapped pad av :=
    Int.ediv_mul_le (wrapped pad av) hne
  have hge : params.unit ≤ alignDown (wrapped pad av) params.unit := by
    have hquot : 1 ≤ wrapped pad av / params.unit :=
      (Int.le_ediv_iff_mul_le (by omega)).2 (by omega)
    have hmul := Int.mul_le_mul_of_nonneg_right hquot (Int.natCast_nonneg params.unit)
    rwa [one_mul] at hmul
  have hiff := alignDown_lt_iff params (x := wrapped pad av)
  have hword : wrapped pad av < 2 ^ 64 := by
    unfold wrapped
    have : MINSIZE = 32 := rfl
    omega
  unfold wrappedExtra
  split
  · rw [Int.bmod_eq_of_le (by omega) (by omega)]
    omega
  · rw [Int.bmod_def, Int.emod_eq_of_lt (by omega) (by omega), if_neg (by omega)]
    omega

/-- A call with a small top: nothing happens, or the break is asked to move. -/
theorem systrim_of_le (h0 : 0 ≤ av.topSize) (htop : av.topSize ≤ MINSIZE) :
    systrim params granted pad av =
      if wrapped pad av < params.unit ∨ av.brk ≠ av.top + av.topSize then ⟨none, av, 0⟩
      else if granted then
        ⟨some (-wrappedExtra params pad av),
          ⟨av.top, av.topSize - wrappedExtra params pad av, av.brk - wrappedExtra params pad av,
            av.systemMem - wrappedExtra params pad av⟩, 1⟩
      else ⟨some (-wrappedExtra params pad av), av, 0⟩ := by
  have hmin : (MINSIZE : Int) = 32 := rfl
  have harea : (av.topSize - MINSIZE - 1) % 2 ^ 64 = 2 ^ 64 + (av.topSize - MINSIZE - 1) := by
    omega
  have hpos := params.unit_pos
  rw [systrim, harea]
  by_cases hearly : 2 ^ 64 + (av.topSize - MINSIZE - 1) ≤ pad
  · rw [if_pos hearly, if_pos (.inl (by unfold wrapped; omega))]
  · have hwrap : (av.topSize - MINSIZE - 1 - pad) % 2 ^ 64 = wrapped pad av := by
      unfold wrapped
      omega
    rw [if_neg hearly, hwrap, ← wrappedExtra]
    by_cases hunit : wrapped pad av < params.unit
    · have hextra : wrappedExtra params pad av = 0 := by
        have hdown : wrapped pad av / params.unit = 0 :=
          Int.ediv_eq_zero_of_lt (by unfold wrapped; omega) hunit
        rw [wrappedExtra, alignDown, hdown, zero_mul]
        rfl
      rw [if_pos hextra, if_pos (.inl hunit)]
    · have hcases := wrappedExtra_cases htop (Int.not_lt.1 hunit)
      have hextra : wrappedExtra params pad av ≠ 0 := by
        split at hcases <;> omega
      rw [if_neg hextra]
      by_cases hbrk : av.brk = av.top + av.topSize
      · rw [if_pos hbrk, if_neg (not_or.2 ⟨hunit, not_not.2 hbrk⟩)]
        cases granted with
        | false => simp
        | true =>
          have hreleased : av.brk - (av.brk + -wrappedExtra params pad av) =
              wrappedExtra params pad av := by omega
          simp only [if_true, hreleased, ne_eq, hextra, not_false_eq_true]
          rfl
      · rw [if_neg hbrk, if_pos (.inr hbrk)]

/-! ## When a trim shrinks -/

/-- **A trim only shrinks** if the top is larger than `MINSIZE`. For a smaller one it depends on the
wrapped size: it must not reach a unit, or the break must have been moved by other code, or the size
is positive as a `long` and the break does not follow. -/
theorem systrim_shrinks_iff (params : Params) (granted : Bool) (pad : Nat) {av : Arena}
    (h0 : 0 ≤ av.topSize) (hword : av.topSize < 2 ^ 63) :
    (systrim params granted pad av).Shrinks params pad av ↔
      MINSIZE < av.topSize ∨ wrapped pad av < params.unit ∨ av.brk ≠ av.top + av.topSize ∨
        granted = false ∧ wrapped pad av < 2 ^ 63 := by
  rcases lt_or_ge (MINSIZE : Int) av.topSize with htop | htop
  · exact iff_of_true (systrim_shrinks_of_lt htop hword) (.inl htop)
  rw [systrim_of_le h0 htop, or_iff_right (Int.not_lt.2 htop), ← or_assoc]
  by_cases hquiet : wrapped pad av < params.unit ∨ av.brk ≠ av.top + av.topSize
  · rw [if_pos hquiet]
    exact iff_of_true shrinks_none (.inl hquiet)
  rw [if_neg hquiet, or_iff_right hquiet]
  have hcases := wrappedExtra_cases htop (Int.not_lt.1 (not_or.1 hquiet).1)
  by_cases hsmall : wrapped pad av < 2 ^ 63
  · rw [if_pos hsmall] at hcases
    cases granted with
    | false =>
      refine iff_of_true ⟨?_, .inl ⟨rfl, rfl⟩⟩ ⟨rfl, hsmall⟩
      rintro n ⟨⟩
      omega
    | true =>
      -- the break falls by more than the top
      refine iff_of_false ?_ (by simp)
      rintro ⟨-, ⟨-, hreturned⟩ | ⟨pages, -, -, -, hkeeps, -⟩⟩
      · cases hreturned
      · simp only [if_true] at hkeeps
        omega
  · rw [if_neg hsmall] at hcases
    refine iff_of_false ?_ (fun h => hsmall h.2)
    rintro ⟨hasked, -⟩
    have hneg : -wrappedExtra params pad av < 0 := hasked _ (by cases granted <;> rfl)
    omega

/-- The parameters of x86-64 without huge pages. -/
def x8664 : Params where
  pagesize := 4096
  thpPagesize := 0
  topPad := 128 * 1024
  mmapThreshold := 128 * 1024
  pagesize_dvd := by decide
  thp_dvd := .inl rfl
  pagesize_dvd_thp := by decide

/-- After the first request, and after one that leaves `MINSIZE` bytes, with a pad of all ones. -/
theorem systrim_shrinks_x8664 :
    (systrim x8664 true 0 (useTop x8664 ⟨0, 0, 4096, 0⟩ 656)).Shrinks x8664 0
        (useTop x8664 ⟨0, 0, 4096, 0⟩ 656) ∧
      (systrim x8664 true (2 ^ 64 - 1) ⟨0, 32, 32, 32⟩).Shrinks x8664 (2 ^ 64 - 1)
        ⟨0, 32, 32, 32⟩ :=
  ⟨(systrim_shrinks_iff x8664 true 0 (by decide) (by decide)).2 (.inl (by decide)),
    (systrim_shrinks_iff x8664 true (2 ^ 64 - 1) (by decide) (by decide)).2
      (.inr (.inl (by decide)))⟩

/-- A request of 134472 bytes leaves `MINSIZE` bytes, and `malloc_trim (0)` then raises the
break. -/
theorem systrim_grows :
    let av := ([640, 134472].map checkedRequest2size).foldl (useTop x8664) ⟨0, 0, 4096, 0⟩
    let r := systrim x8664 true 0 av
    av.topSize = MINSIZE ∧ r.asked = some 4096 ∧ r.arena.brk = av.brk + 4096 ∧ r.returned = 1 := by
  decide

end SafeLibc.Malloc
