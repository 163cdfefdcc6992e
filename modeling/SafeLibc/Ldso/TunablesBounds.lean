import Mathlib.Data.List.Forall2
import SafeLibc.Ldso.TunablesText

/-!
# Bounds of the C tunables

`parse_tunables_string` writes one cell for each assignment to a tunable, and nothing keeps it
inside the array: the writes are listed here whether or not their cell exists (`storesFrom`), and
the array is left as soon as there are more of them than tunables. `do_tunable_update_val` keeps
every numeric tunable between its bounds, and the bounds only get narrower, whatever calls are made.
-/

namespace SafeLibc.Ldso

open SafeLibc.Lib List

/-! ## The array of `parse_tunables` -/

section Stores

variable (list : List Tunable)

/-- The writes of the loop from `p` on, whether the array has the cell or not, and whether the loop
gets to the end. -/
def storesFrom (p : List Char) : List TunableToset × Bool :=
  match _h : p.dropWhile notSeparator with
  | [] => ([], false)
  | ':' :: p' => storesFrom p'
  | _ :: value =>
    let p' := value.dropWhile notSeparator
    if p'.head? = some '=' then ([], false)
    else
      let stored := (list.findIdx? fun cur => tunableIsName cur.name p).toList.map fun i =>
        TunableToset.mk i value (value.length - p'.length)
      let after := if p' = [] then ([], true) else storesFrom p'
      (stored ++ after.1, after.2)
termination_by p.length
decreasing_by
  all_goals
    have hp := List.length_dropWhile_le notSeparator p
    rw [_h, List.length_cons] at hp
  · omega
  · have hv := List.length_dropWhile_le notSeparator value
    omega

def parseTunablesStores (valstring : List Char) : List TunableToset × Bool :=
  if valstring = [] then ([], true) else storesFrom list valstring

structure TunableToset.Within (valstring : List Char) (s : TunableToset) : Prop where
  value_suffix : s.value <:+ valstring
  len_le : s.len ≤ s.value.length
  plain : ∀ c ∈ s.value.take s.len, c ≠ '=' ∧ c ≠ ':'

variable {list} {p value : List Char} {c : Char}

theorem within_value (h : p.dropWhile notSeparator = c :: value) (i : Nat) : TunableToset.Within p
      ⟨i, value, value.length - (value.dropWhile notSeparator).length⟩ := by
  have hsplit := takeWhile_append_dropWhile (p := notSeparator) (l := value)
  have hlen := congrArg List.length hsplit
  rw [length_append] at hlen
  refine ⟨?_, Nat.sub_le _ _, ?_⟩
  · exact (suffix_cons c value).trans (h ▸ dropWhile_suffix notSeparator)
  · intro a ha
    have htake := congrArg (take (value.takeWhile notSeparator).length) hsplit
    rw [take_left] at htake
    have hn : value.length - (value.dropWhile notSeparator).length =
        (value.takeWhile notSeparator).length := by omega
    rw [hn, ← htake] at ha
    simpa [notSeparator] using mem_takeWhile_imp ha

theorem TunableToset.Within.mono {valstring : List Char} {s : TunableToset} (h : s.Within p)
    (hp : p <:+ valstring) : s.Within valstring :=
  ⟨h.value_suffix.trans hp, h.len_le, h.plain⟩

/-- All writes, also those before an ill-formed rest, have a piece of the string. -/
theorem storesFrom_within (p : List Char) : ∀ s ∈ (storesFrom list p).1, s.Within p := by
  fun_induction storesFrom list p with
  | case1 p h => simp
  | case2 p p' h ih =>
    intro s hs
    exact (ih s hs).mono ((suffix_cons ':' p').trans (h ▸ dropWhile_suffix _))
  | case3 p c value hc h p' hbad => simp
  | case4 p c value hc h p' hok stored after ih =>
    intro s hs
    rcases mem_append.1 hs with hs | hs
    · obtain ⟨i, -, rfl⟩ := mem_map.1 hs
      exact within_value h i
    · by_cases hend : p' = []
      · simp [after, hend] at hs
      · rw [show after = storesFrom list p' from if_neg hend] at hs
        have hp' : p' <:+ value := dropWhile_suffix _
        exact (ih s hs).mono (hp'.trans
          ((suffix_cons c value).trans (h ▸ dropWhile_suffix _)))

theorem eq_equals_of_dropWhile
    (h : p.dropWhile notSeparator = c :: value) (hc : c = ':' → False) : c = '=' := by
  have hhead := head?_dropWhile_not notSeparator p
  simp only [h, notSeparator] at hhead
  by_contra hne
  apply hc
  simpa [hne] using hhead

/-- The bounded loop makes these writes until one of them misses the array. -/
theorem parseTunablesLoop_stores (p : List Char) (tunables : List TunableToset)
    (hroom : tunables.length ≤ list.length) :
    parseTunablesLoop list p tunables =
      verdict list (storesFrom list p).2 tunables (storesFrom list p).1 := by
  have hgaveUp : ∀ tunables : List TunableToset, tunables.length ≤ list.length →
      some none = verdict list false tunables [] := by
    intro tunables hroom
    rw [verdict, length_nil, if_neg (by omega)]
    rfl
  fun_induction storesFrom list p generalizing tunables with
  | case1 p h => rw [parseTunablesLoop_nil list tunables h, hgaveUp tunables hroom]
  | case2 p p' h ih => rw [parseTunablesLoop_colon list tunables h, ih tunables hroom]
  | case3 p c value hc h p' hbad =>
    obtain rfl := eq_equals_of_dropWhile h hc
    rw [parseTunablesLoop_equals list tunables h, if_pos hbad, hgaveUp tunables hroom]
  | case4 p c value hc h p' hok stored after ih =>
    obtain rfl := eq_equals_of_dropWhile h hc
    have hafter : ∀ tunables : List TunableToset, tunables.length ≤ list.length →
        continueLoop list p' tunables = verdict list after.2 tunables after.1 := by
      intro tunables hroom
      by_cases hend : p' = []
      · have hverdict : verdict list true tunables [] = some (some tunables) := by
          rw [verdict, length_nil, if_neg (by omega), if_pos rfl, append_nil]
        simp [continueLoop, after, hend, hverdict]
      · rw [continueLoop, ih tunables hroom]
        simp [after, hend]
    rw [parseTunablesLoop_equals list tunables h, if_neg hok]
    cases hfind : list.findIdx? fun cur => tunableIsName cur.name p with
    | none =>
      have hstored : stored = [] := by simp [stored, hfind]
      rw [hstored]
      exact hafter tunables hroom
    | some i =>
      have hstored : stored = [⟨i, value, value.length - p'.length⟩] := by simp [stored, hfind]
      rw [hstored]
      dsimp only
      split
      · next hlt =>
        rw [hafter _ (by rw [length_append]; exact hlt)]
        simp [verdict, add_assoc, add_comm 1, p']
      · next hfull => rw [verdict, length_append, length_singleton, if_pos (by omega)]

/-- The array is left exactly if more assignments to tunables are read than there are tunables. -/
theorem length_stores_le_iff (hlist : ∀ cur ∈ list, '=' ∉ cur.name) (valstring : List Char) :
    (storesFrom list valstring).1.length ≤ list.length ↔
      (recordedFrom list valstring).length ≤ list.length := by
  obtain ⟨tosets, hrec, hloop⟩ := parseTunablesLoop_eq hlist valstring [] (Nat.zero_le _)
  rw [parseTunablesLoop_stores valstring [] (Nat.zero_le _)] at hloop
  have hnone : ∀ (ok : Bool) (stores : List TunableToset),
      stores.length ≤ list.length ↔ verdict list ok [] stores ≠ none := by
    intro ok stores
    rw [verdict, length_nil, zero_add, ← not_lt]
    split
    · next hlt => simp [hlt]
    · next hlt => cases ok <;> simp [hlt]
  rw [hnone (storesFrom list valstring).2, hloop, ← hnone, hrec.length_eq]

/-- **The array has room** for a string with at most as many assignments to tunables as there are
tunables: the call returns, its writes are the cells from the first on, and each has a piece of the
string. -/
theorem parseTunablesString_stores (hlist : ∀ cur ∈ list, '=' ∉ cur.name) {valstring : List Char}
    (hcount : (recordedFrom list valstring).length ≤ list.length) :
    let (stores, ok) := parseTunablesStores list valstring
    stores.length ≤ list.length ∧
      parseTunablesString list valstring = some (if ok then some stores else none) ∧
      ∀ s ∈ stores, s.Within valstring := by
  by_cases hempty : valstring = []
  · simp [parseTunablesStores, parseTunablesString, hempty]
  · have hroom := (length_stores_le_iff hlist valstring).2 hcount
    rw [parseTunablesStores, if_neg hempty, parseTunablesString, if_neg hempty,
      parseTunablesLoop_stores valstring [] (Nat.zero_le _), verdict, length_nil,
      if_neg (by omega)]
    refine ⟨hroom, ?_, storesFrom_within valstring⟩
    cases (storesFrom list valstring).2 <;> rfl

end Stores

def mallocCheck : Tunable := ⟨"glibc.malloc.check".toList, ⟨.int32, 0, 3⟩, .num 0, false, []⟩

/-- An unknown name and a name without a value are passed over. -/
theorem parseTunablesString_stores_check :
    (parseTunablesStores [mallocCheck] "x=1:y:glibc.malloc.check=3".toList).1.length ≤ 1 :=
  (parseTunablesString_stores (by decide)
    (by decide +kernel : (recordedFrom [mallocCheck] "x=1:y:glibc.malloc.check=3".toList).length ≤
      1)).1

/-- A name that is given once more than there are tunables is written behind the array. -/
theorem parseTunablesString_overflows :
    let valstring := "glibc.malloc.check=1:glibc.malloc.check=2".toList
    parseTunablesString [mallocCheck] valstring = none ∧
      1 < (parseTunablesStores [mallocCheck] valstring).1.length := by
  intro valstring
  have hmany : ¬ (storesFrom [mallocCheck] valstring).1.length ≤ 1 := by
    decide +kernel
  have hne : valstring ≠ [] := by decide
  rw [parseTunablesString, parseTunablesStores, if_neg hne,
    parseTunablesLoop_stores valstring [] (Nat.zero_le _), verdict, length_nil,
    length_singleton, if_pos (by omega)]
  exact ⟨rfl, Nat.lt_of_not_le hmany⟩

/-! ## Values and their bounds -/

/-- A value as the comparisons of its type see it. -/
def ordered (unsignedCmp : Bool) (n : Int) : Int := if unsignedCmp then n % 2 ^ 64 else n

theorem tunableValLt_iff (lhs rhs : Int) (unsignedCmp : Bool) :
    tunableValLt lhs rhs unsignedCmp = true ↔
      ordered unsignedCmp lhs < ordered unsignedCmp rhs := by
  cases unsignedCmp <;> simp [tunableValLt, ordered]

theorem tunableValGt_iff (lhs rhs : Int) (unsignedCmp : Bool) :
    tunableValGt lhs rhs unsignedCmp = true ↔
      ordered unsignedCmp rhs < ordered unsignedCmp lhs := by
  cases unsignedCmp <;> simp [tunableValGt, ordered]

def Tunable.key (cur : Tunable) : Int → Int := ordered (unsignedTunableType cur.type.typeCode)

def Tunable.InBounds (cur : Tunable) : Prop :=
  cur.type.typeCode ≠ .string → ∃ n, cur.val = .num n ∧
    cur.key cur.type.min ≤ cur.key n ∧ cur.key n ≤ cur.key cur.type.max

structure Tunable.Narrows (cur cur' : Tunable) : Prop where
  typeCode_eq : cur'.type.typeCode = cur.type.typeCode
  min_le : cur.key cur.type.min ≤ cur.key cur'.type.min
  max_le : cur.key cur'.type.max ≤ cur.key cur.type.max

variable (cur : Tunable)

theorem Tunable.Narrows.refl : cur.Narrows cur := ⟨rfl, Int.le_refl _, Int.le_refl _⟩

theorem Tunable.Narrows.trans {a b c : Tunable} (hab : a.Narrows b) (hbc : b.Narrows c) :
    a.Narrows c := by
  have hkey : b.key = a.key := by rw [key, key, hab.typeCode_eq]
  have hmin := hbc.min_le
  have hmax := hbc.max_le
  rw [hkey] at hmin hmax
  exact ⟨hbc.typeCode_eq.trans hab.typeCode_eq, Int.le_trans hab.min_le hmin,
    Int.le_trans hmax hab.max_le⟩

structure TunableArg where
  numval : Int
  strval : List Char

def TunableArg.read (valp : TunableArg) : TunableTypeCode → TunableVal
  | .string => .str valp.strval
  | _ => .num valp.numval

inductive TunableCall
  /-- `tunable_initialize (cur, strval, len)` -/
  | init (strval : List Char) (len : Nat)
  /-- `__tunable_set_val (id, valp, minp, maxp)` -/
  | setVal (valp : TunableArg) (minp maxp : Option Int)

def TunableCall.apply (cur : Tunable) : TunableCall → Tunable
  | .init strval len => (tunableInitialize cur strval len).2
  | .setVal valp minp maxp => doTunableUpdateVal cur (valp.read cur.type.typeCode) minp maxp

/-- The value that the call has for the tunable, in its type; `none` if the text is no number. -/
def TunableCall.value (cur : Tunable) : TunableCall → Option TunableVal
  | .init strval len =>
    if cur.type.typeCode = .string then some (.str (strval.take len))
    else if strval.length - (dlStrtoul strval).2.length ≠ len then none
    else some (.num (cur.type.typeCode.convert (Int.bmod (dlStrtoul strval).1 (2 ^ 64))))
  | .setVal valp _ _ =>
    if cur.type.typeCode = .string then some (.str valp.strval)
    else some (.num (cur.type.typeCode.convert valp.numval))

def runCalls (list : List Tunable) (calls : List (Nat × TunableCall)) : List Tunable :=
  calls.foldl (fun list call => list.modify call.1 call.2.apply) list

structure Tunable.Updates (cur : Tunable) (value : Option TunableVal) (cur' : Tunable) : Prop where
  inBounds : cur.InBounds → cur'.InBounds
  narrows : cur.Narrows cur'
  cases : cur' = cur ∨ some cur'.val = value ∧ cur'.initialized = true

theorem Tunable.Updates.refl (value : Option TunableVal) : cur.Updates value cur :=
  ⟨id, .refl cur, .inl rfl⟩

theorem updates_str (strval : List Char) (minp maxp : Option Int)
    (hcode : cur.type.typeCode = .string) :
    cur.Updates (some (.str strval)) (doTunableUpdateVal cur (.str strval) minp maxp) := by
  have hupdate : doTunableUpdateVal cur (.str strval) minp maxp =
      { cur with val := .str strval, initialized := true } := by
    simp only [doTunableUpdateVal, hcode]
  rw [hupdate]
  refine ⟨?_, ⟨rfl, Int.le_refl _, Int.le_refl _⟩, .inr ⟨rfl, rfl⟩⟩
  intro _ hne
  exact absurd hcode hne

/-- The bounds of one update: those of the call where they are narrower, unless they cross. -/
theorem bounds_narrow (unsignedCmp : Bool) (curMin curMax min max : Int) :
    let min := if tunableValLt min curMin unsignedCmp then curMin else min
    let max := if tunableValGt max curMax unsignedCmp then curMax else max
    let bounds := if tunableValGt min max unsignedCmp then (curMin, curMax) else (min, max)
    ordered unsignedCmp curMin ≤ ordered unsignedCmp bounds.1 ∧
      ordered unsignedCmp bounds.2 ≤ ordered unsignedCmp curMax := by
  intro min' max' bounds
  have hmin : ordered unsignedCmp curMin ≤ ordered unsignedCmp min' := by
    by_cases h : tunableValLt min curMin unsignedCmp
    · exact Int.le_of_eq (congrArg _ (if_pos h).symm)
    · rw [show min' = min from if_neg h]
      rwa [tunableValLt_iff, Int.not_lt] at h
  have hmax : ordered unsignedCmp max' ≤ ordered unsignedCmp curMax := by
    by_cases h : tunableValGt max curMax unsignedCmp
    · exact Int.le_of_eq (congrArg _ (if_pos h))
    · rw [show max' = max from if_neg h]
      rwa [tunableValGt_iff, Int.not_lt] at h
  by_cases h : tunableValGt min' max' unsignedCmp
  · rw [show bounds = (curMin, curMax) from if_pos h]
    exact ⟨Int.le_refl _, Int.le_refl _⟩
  · rw [show bounds = (min', max') from if_neg h]
    exact ⟨hmin, hmax⟩

theorem updates_num (numval : Int) (minp maxp : Option Int) (hcode : cur.type.typeCode ≠ .string) :
    cur.Updates (some (.num (cur.type.typeCode.convert numval)))
      (doTunableUpdateVal cur (.num numval) minp maxp) := by
  have hnarrow := bounds_narrow (unsignedTunableType cur.type.typeCode) cur.type.min cur.type.max
    (minp.getD cur.type.min) (maxp.getD cur.type.max)
  unfold doTunableUpdateVal
  split
  · contradiction
  · next heq _ => cases heq
  · next n heq _ =>
    cases heq
    dsimp only at hnarrow ⊢
    generalize (if tunableValGt _ _ _ then (cur.type.min, cur.type.max) else _) =
      bounds at hnarrow ⊢
    split
    · exact .refl cur _
    · next hvalid =>
      rw [Bool.or_eq_true, not_or, tunableValLt_iff, tunableValLt_iff, Int.not_lt, Int.not_lt]
        at hvalid
      exact ⟨fun _ _ => ⟨_, rfl, hvalid⟩, ⟨rfl, hnarrow.1, hnarrow.2⟩, .inr ⟨rfl, rfl⟩⟩

/-- What one call can do to its tunable. -/
theorem TunableCall.updates (call : TunableCall) (cur : Tunable) :
    cur.Updates (call.value cur) (call.apply cur) := by
  cases call with
  | init strval len =>
    simp only [value, apply, tunableInitialize]
    by_cases hcode : cur.type.typeCode = .string
    · rw [if_pos hcode, if_neg (not_not_intro hcode)]
      exact updates_str cur _ none none hcode
    · rw [if_neg hcode]
      split
      · exact .refl cur _
      · exact updates_num cur _ none none hcode
  | setVal valp minp maxp =>
    simp only [value, apply]
    by_cases hcode : cur.type.typeCode = .string
    · rw [hcode]
      exact updates_str cur _ minp maxp hcode
    · have hread : valp.read cur.type.typeCode = .num valp.numval := by
        cases hc : cur.type.typeCode <;> simp_all [TunableArg.read]
      rw [if_neg hcode, hread]
      exact updates_num cur _ minp maxp hcode

/-- **The bounds of the tunables over any calls**: every numeric tunable stays between its bounds,
these only get narrower, and a call that does not store its value changes nothing. -/
theorem runCalls_inBounds (list : List Tunable) (hlist : ∀ cur ∈ list, cur.InBounds)
    (calls : List (Nat × TunableCall)) (i : Nat) (cur : Tunable) (hcur : list[i]? = some cur) :
    ∃ cur', (runCalls list calls)[i]? = some cur' ∧ cur'.InBounds ∧ cur.Narrows cur' ∧
      ∀ call : TunableCall, call.apply cur' = cur' ∨
        some (call.apply cur').val = call.value cur' ∧ (call.apply cur').initialized = true := by
  induction calls generalizing list cur with
  | nil =>
    refine ⟨cur, hcur, hlist cur (mem_of_getElem? hcur), .refl cur, ?_⟩
    intro call
    exact (call.updates cur).cases
  | cons call calls ih =>
    have hget : ∀ j, (list.modify call.1 call.2.apply)[j]? =
        list[j]?.map fun old => if call.1 = j then call.2.apply old else old :=
      fun j => getElem?_modify _ _ _ _
    have hstep : ∀ old ∈ list.modify call.1 call.2.apply, old.InBounds := by
      intro old hold
      obtain ⟨j, hj⟩ := mem_iff_getElem?.1 hold
      rw [hget, Option.map_eq_some_iff] at hj
      obtain ⟨before, hbefore, rfl⟩ := hj
      have hin := hlist before (mem_of_getElem? hbefore)
      split
      · exact (call.2.updates before).inBounds hin
      · exact hin
    have hnarrows : cur.Narrows (if call.1 = i then call.2.apply cur else cur) := by
      split
      · exact (call.2.updates cur).narrows
      · exact .refl cur
    obtain ⟨cur', hrun, hin, hlater, hcases⟩ := ih _ hstep _ (by rw [hget, hcur, Option.map_some])
    exact ⟨cur', hrun, hin, hnarrows.trans hlater, hcases⟩

/-- Bounds that get narrower, a value outside of them, and a text that is no number. -/
theorem runCalls_inBounds_check :
    ∃ cur', (runCalls [mallocCheck] [(0, .setVal ⟨2, []⟩ (some 1) none), (0, .init ['0'] 1),
      (0, .init ['x'] 1)])[0]? = some cur' ∧ cur'.InBounds ∧ mallocCheck.Narrows cur' := by
  have hdefault : ∀ cur ∈ [mallocCheck], cur.InBounds := by
    intro cur hcur _
    rw [mem_singleton.1 hcur]
    exact ⟨0, rfl, by decide, by decide⟩
  obtain ⟨cur', hrun, hin, hnarrows, -⟩ := runCalls_inBounds [mallocCheck] hdefault
    [(0, .setVal ⟨2, []⟩ (some 1) none), (0, .init ['0'] 1), (0, .init ['x'] 1)] 0 mallocCheck rfl
  exact ⟨cur', hrun, hin, hnarrows⟩

end SafeLibc.Ldso
