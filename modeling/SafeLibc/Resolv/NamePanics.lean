import SafeLibc.Resolv.Name

/-!
# The slice parsers do not panic

`skip_dns_name_field` and the three validators again, now with a panic of their own for every slice
index, every unchecked subtraction and every array index in their text, so that a failed parse
(`none`) and a panic are different outcomes. Sums go through `checked_add` in the source.

`walkLabels_eq` is the one place that unfolds the loop: inside the message it does what
`Resolv.walkLabels` does. `RootAfter` counts the pointers that are followed until a root label.
-/

namespace SafeLibc.Resolv.Checked

open SafeLibc.Lib

inductive Panic
  | sliceIndex
  | index
  | overflow
  deriving DecidableEq, Repr

/-- `&bytes[start..stop]` -/
def slice (bytes : List UInt8) (start stop : Nat) : Except Panic (List UInt8) :=
  if start ≤ stop ∧ stop ≤ bytes.length then .ok ((bytes.drop start).take (stop - start))
  else .error .sliceIndex

/-- `bytes[i]` -/
def index (bytes : List UInt8) (i : Nat) : Except Panic UInt8 :=
  match bytes[i]? with
  | some b => .ok b
  | none => .error .index

/-- `a - b` -/
def sub (a b : Nat) : Except Panic Nat := if b ≤ a then .ok (a - b) else .error .overflow

/-! ## The parsers -/

def hostnameLabelIsValid (label : List UInt8) : Except Panic Bool :=
  if label.isEmpty then .ok false
  else if label.length > dnsLabelMax then .ok false
  else do
    let first ← index label 0
    if first = dash then .ok false
    else do
      let last ← sub label.length 1
      let final ← index label last
      if final = dash then .ok false
      else .ok (label.all fun b => isAsciiAlphanumeric b || b == dash)

/-- What the two hostname parsers ask of a label; the other two ask nothing. -/
def hostnameLabelAt (message : List UInt8) (start stop : Nat) : Except Panic Bool :=
  slice message start stop >>= hostnameLabelIsValid

inductive Turn
  | done (answer : Option SegmentEnd)
  | label (cursor labels : Nat)

/-- One turn of the `loop` of the four parsers, as in `Resolv.walkLabels`. -/
def turn (message : List UInt8) (limit : Nat) (labelOk : Nat → Nat → Except Panic Bool)
    (cursor labels : Nat) : Except Panic Turn :=
  if limit ≤ cursor then .ok (.done none)
  else match message[cursor]?, checkedAdd 64 cursor 1 with
    | some len, some cursor' =>
      if len &&& dnsLabelMask = 0 then
        let labelLen := len.toNat
        if labelLen > dnsLabelMax then .ok (.done none)
        else if labelLen = 0 then .ok (.done (some (.root cursor')))
        else match checkedAdd 64 labels 1, checkedAdd 64 cursor' labelLen with
          | some labels', some stop =>
            if labels' > dnsMaxLabels then .ok (.done none)
            else if stop > limit then .ok (.done none)
            else match labelOk cursor' stop with
              | .error panic => .error panic
              | .ok false => .ok (.done none)
              | .ok true => .ok (.label stop labels')
          | _, _ => .ok (.done none)
      else if len &&& dnsLabelMask = dnsLabelPointer then
        if limit ≤ cursor' then .ok (.done none)
        else match message[cursor']? with
          | none => .ok (.done none)
          | some next =>
            let target := pointerTarget len next
            if target ≥ message.length then .ok (.done none)
            else .ok (.done ((checkedAdd 64 cursor' 1).map (.pointer target)))
      else .ok (.done none)
    | _, _ => .ok (.done none)

variable {message : List UInt8} {limit cursor labels cursor' labels' offset : Nat}
  {labelOk : Nat → Nat → Except Panic Bool} {valid : List UInt8 → Bool} {stop : SegmentEnd}

theorem turn_label (h : turn message limit labelOk cursor labels = .ok (.label cursor' labels')) :
    cursor < limit ∧ cursor < cursor' := by
  unfold turn at h
  split at h
  · cases h
  · next hlimit =>
    refine ⟨by omega, ?_⟩
    split at h
    · next len next hlen hnext =>
      obtain ⟨rfl, -⟩ := checkedAdd_eq_some.1 hnext
      dsimp only at h
      split at h
      · split at h
        · cases h
        split at h
        · cases h
        split at h
        · next labels₁ stop hlabels hstop =>
          obtain ⟨rfl, -⟩ := checkedAdd_eq_some.1 hstop
          split at h
          · cases h
          split at h
          · cases h
          split at h
          · cases h
          · cases h
          · cases h
            omega
        · cases h
      · split at h
        · split at h
          · cases h
          split at h
          · cases h
          split at h <;> cases h
        · cases h
    · cases h

/-- The `loop`; the labels pass the bytes up to `limit` one after another. -/
def walkLabels (message : List UInt8) (limit : Nat) (labelOk : Nat → Nat → Except Panic Bool)
    (cursor labels : Nat) : Except Panic (Option SegmentEnd) :=
  match _h : turn message limit labelOk cursor labels with
  | .error panic => .error panic
  | .ok (.done answer) => .ok answer
  | .ok (.label cursor' labels') => walkLabels message limit labelOk cursor' labels'
termination_by limit - cursor
decreasing_by
  have := turn_label _h
  omega

theorem walkLabels_done {answer : Option SegmentEnd}
    (h : turn message limit labelOk cursor labels = .ok (.done answer)) :
    walkLabels message limit labelOk cursor labels = .ok answer := by
  rw [walkLabels]
  split <;> simp_all

theorem walkLabels_label
    (h : turn message limit labelOk cursor labels = .ok (.label cursor' labels')) :
    walkLabels message limit labelOk cursor labels =
      walkLabels message limit labelOk cursor' labels' := by
  rw [walkLabels]
  split <;> simp_all

/-- The recursion of the two target validators. -/
def validateTarget (labelOk : Nat → Nat → Except Panic Bool) (message : List UInt8)
    (offset depth : Nat) : Except Panic (Option Unit) :=
  if depth > dnsMaxPointerDepth then .ok none
  else match walkLabels message message.length labelOk offset 0 with
    | .error panic => .error panic
    | .ok none => .ok none
    | .ok (some (.root _)) => .ok (some ())
    | .ok (some (.pointer target _)) =>
      match _hdepth : checkedAdd 64 depth 1 with
      | none => .ok none
      | some depth' => validateTarget labelOk message target depth'
termination_by dnsMaxPointerDepth + 1 - depth
decreasing_by
  have := (checkedAdd_eq_some.1 _hdepth).1
  omega

def validateDnsNameTarget (message : List UInt8) (offset depth : Nat) :
    Except Panic (Option Unit) :=
  validateTarget (fun _ _ => .ok true) message offset depth

def skipDnsNameField (message : List UInt8) (offset : Nat) : Except Panic (Option Nat) :=
  match walkLabels message message.length (fun _ _ => .ok true) offset 0 with
  | .error panic => .error panic
  | .ok none => .ok none
  | .ok (some (.root next)) => .ok (some next)
  | .ok (some (.pointer target next)) =>
    (validateDnsNameTarget message target 0).map fun valid => valid.map fun _ => next

def validateHostnameTarget (message : List UInt8) (offset depth : Nat) :
    Except Panic (Option Unit) :=
  validateTarget (hostnameLabelAt message) message offset depth

def validateHostnameNameField (message : List UInt8) (offset fieldEnd depth : Nat) :
    Except Panic (Option Nat) :=
  if depth > dnsMaxPointerDepth || offset ≥ fieldEnd || fieldEnd > message.length then .ok none
  else match walkLabels message fieldEnd (hostnameLabelAt message) offset 0 with
    | .error panic => .error panic
    | .ok none => .ok none
    | .ok (some (.root next)) => .ok (some next)
    | .ok (some (.pointer target next)) =>
      match checkedAdd 64 depth 1 with
      | none => .ok none
      | some depth' =>
        (validateHostnameTarget message target depth').map fun valid => valid.map fun _ => next

/-! ## No panic -/

/-- A label check that answers on every slice of the message as a check of its bytes. -/
def Decides (message : List UInt8) (labelOk : Nat → Nat → Except Panic Bool)
    (valid : List UInt8 → Bool) : Prop :=
  ∀ start len, start + len ≤ message.length →
    labelOk start (start + len) = .ok (valid ((message.drop start).take len))

theorem decides_any (message : List UInt8) :
    Decides message (fun _ _ => .ok true) fun _ => true := by
  intro start len hle
  rfl

/-- The emptiness test comes before the first index and the subtraction. -/
theorem hostnameLabelIsValid_eq (label : List UInt8) :
    hostnameLabelIsValid label = .ok (Resolv.hostnameLabelIsValid label) := by
  unfold hostnameLabelIsValid Resolv.hostnameLabelIsValid
  cases label with
  | nil => rfl
  | cons first rest =>
    have hlast : (first :: rest)[rest.length]? = (first :: rest).getLast? := by
      rw [List.getLast?_eq_getElem?]
      rfl
    obtain ⟨final, hfinal⟩ : ∃ final, (first :: rest).getLast? = some final :=
      ⟨_, List.getLast?_eq_some_getLast (List.cons_ne_nil first rest)⟩
    rw [hfinal] at hlast
    by_cases hlen : (first :: rest).length > dnsLabelMax
    · rw [if_pos hlen, decide_eq_false (by omega)]
      simp
    · rw [if_neg hlen, decide_eq_true (by omega)]
      have hsub : sub (first :: rest).length 1 = .ok rest.length := by
        rw [sub, if_pos (by simp), List.length_cons, Nat.add_sub_cancel]
      have hfirst : index (first :: rest) 0 = .ok first := rfl
      have hread : index (first :: rest) rest.length = .ok final := by rw [index, hlast]
      simp only [hfirst, hsub, hread, ok_bind, hfinal, List.isEmpty_cons,
        Bool.not_false]
      by_cases hdash : first = dash
      · simp [hdash]
      · by_cases hfinalDash : final = dash
        · simp [hfinalDash]
        · simp [hdash, hfinalDash]

theorem decides_hostname (message : List UInt8) :
    Decides message (hostnameLabelAt message) Resolv.hostnameLabelIsValid := by
  intro start len hle
  rw [hostnameLabelAt, slice, if_pos ⟨Nat.le_add_right _ _, hle⟩, Nat.add_sub_cancel_left, ok_bind,
    hostnameLabelIsValid_eq]

section NoPanic

variable {message : List UInt8} {labelOk : Nat → Nat → Except Panic Bool}
  {valid : List UInt8 → Bool} (hdecides : Decides message labelOk valid)

include hdecides

theorem walkLabels_eq {limit : Nat} (hlimit : limit ≤ message.length) (cursor labels : Nat)
    (hlabels : labels ≤ dnsMaxLabels) :
    walkLabels message limit labelOk cursor labels =
      .ok (Resolv.walkLabels message limit valid cursor labels) := by
  have hmaxLabels : dnsMaxLabels < 2 ^ 63 := by decide
  have hcount : ∀ n, n ≤ dnsMaxLabels → checkedAdd 64 n 1 = some (n + 1) := by
    intro n hn
    exact checkedAdd_eq_some.2 ⟨rfl, by omega⟩
  fun_induction Resolv.walkLabels message limit valid cursor labels with
  | case4 cursor labels hlim len hlen cursor' hcur hmask labelLen hmax =>
    exact absurd ((mask_eq_zero_iff len).1 hmask) (by omega)
  | case5 cursor labels hlim len hlen cursor' hcur hmask labelLen hmax hzero =>
    apply walkLabels_done
    have hpos : ¬dnsLabelMax < 0 := Nat.not_lt_zero _
    simp only [labelLen] at hzero
    simp [turn, hlim, hlen, hcur, hmask, hzero]
  | case6 cursor labels hlim len hlen cursor' hcur hmask labelLen hmax hzero hmany =>
    apply walkLabels_done
    simp only [labelLen] at hmax hzero
    cases hstop : checkedAdd 64 cursor' len.toNat with
    | none =>
      simp [turn, hlen, hcur, hmask, hzero, hstop]
    | some stop =>
      simp [turn, hlen, hcur, hmask, hzero, hcount labels hlabels, hstop, hmany]
  | case7 cursor labels hlim len hlen cursor' hcur hmask labelLen hmax hzero hfew hstop =>
    apply walkLabels_done
    simp [turn, hlen, hcur, hmask, labelLen, hzero, hstop]
  | case8 cursor labels hlim len hlen cursor' hcur hmask labelLen hmax hzero hfew stop hstop hok =>
    obtain ⟨rfl, -⟩ := checkedAdd_eq_some.1 hstop
    apply walkLabels_done
    have hmore : ¬labels + 1 > dnsMaxLabels := hfew
    by_cases hroom : cursor' + labelLen > limit
    · simp [turn, hlen, hcur, hmask, labelLen, hzero, hcount labels hlabels, hstop, hroom]
    · rw [decide_eq_false hroom, Bool.false_or, Bool.not_eq_true'] at hok
      have hread := hdecides cursor' labelLen (by omega)
      rw [hok] at hread
      simp [turn, hlen, hcur, hmask, labelLen, hzero, hcount labels hlabels, hstop, hread]
  | case9 cursor labels hlim len hlen cursor' hcur hmask labelLen hmax hzero
      hfew stop hstop hok ih =>
    obtain ⟨rfl, -⟩ := checkedAdd_eq_some.1 hstop
    simp only [Bool.or_eq_true, decide_eq_true_eq, Bool.not_eq_true', not_or, Bool.not_eq_false]
      at hok
    have hread := hdecides cursor' labelLen (by omega)
    rw [hok.2] at hread
    have hturn : turn message limit labelOk cursor labels =
        .ok (.label (cursor' + labelLen) (labels + 1)) := by
      simp [turn, hlim, hlen, hcur, hmask, labelLen, hmax, hzero, hcount labels hlabels, hstop,
        hfew, hok.1, hread]
    rw [walkLabels_label hturn]
    exact ih (by omega)
  | case12 cursor labels hlim len hlen cursor' hcur hmask hptr hroom next hnext target htarget
  | case13 cursor labels hlim len hlen cursor' hcur hmask hptr hroom next hnext target htarget =>
    apply walkLabels_done
    rw [hptr] at hmask
    simp [turn, hlim, hlen, hcur, hmask, hptr, hroom, hnext, htarget, target]
  | _ =>
    apply walkLabels_done
    simp_all [turn]

theorem validateTarget_eq (offset depth : Nat) :
    validateTarget labelOk message offset depth =
      .ok (Resolv.validateTarget valid message offset depth) := by
  have hmaxDepth : dnsMaxPointerDepth < 2 ^ 63 := by decide
  induction hn : dnsMaxPointerDepth + 1 - depth using Nat.strongRecOn
    generalizing offset depth with
  | ind n ih =>
    rw [validateTarget, Resolv.validateTarget]
    split
    · rfl
    · next hdepth =>
      rw [walkLabels_eq hdecides le_rfl offset 0 (Nat.zero_le _)]
      cases Resolv.walkLabels message message.length valid offset 0 with
      | none => rfl
      | some stop =>
        cases stop with
        | root next => rfl
        | pointer target next =>
          have hnext : checkedAdd 64 depth 1 = some (depth + 1) :=
            checkedAdd_eq_some.2 ⟨rfl, by omega⟩
          dsimp only
          split
          · next hnone =>
            rw [hnext] at hnone
            cases hnone
          · next depth' hsome =>
            rw [hnext] at hsome
            cases hsome
            exact ih _ (by omega) _ _ rfl

end NoPanic

theorem skipDnsNameField_eq (message : List UInt8) (offset : Nat) :
    skipDnsNameField message offset = .ok (Resolv.skipDnsNameField message offset) := by
  unfold skipDnsNameField Resolv.skipDnsNameField
  rw [walkLabels_eq (decides_any message) le_rfl offset 0 (Nat.zero_le _)]
  cases Resolv.walkLabels message message.length (fun _ => true) offset 0 with
  | none => rfl
  | some stop =>
    cases stop with
    | root next => rfl
    | pointer target next =>
      dsimp only
      rw [validateDnsNameTarget, validateTarget_eq (decides_any message)]
      rfl

theorem validateHostnameNameField_eq (message : List UInt8) (offset fieldEnd depth : Nat) :
    validateHostnameNameField message offset fieldEnd depth =
      .ok (Resolv.validateHostnameNameField message offset fieldEnd depth) := by
  have hmaxDepth : dnsMaxPointerDepth < 2 ^ 63 := by decide
  unfold validateHostnameNameField Resolv.validateHostnameNameField
  split
  · rfl
  · next hargs =>
    simp only [Bool.or_eq_true, decide_eq_true_eq] at hargs
    rw [walkLabels_eq (decides_hostname message) (by omega) offset 0 (Nat.zero_le _)]
    cases Resolv.walkLabels message fieldEnd Resolv.hostnameLabelIsValid offset 0 with
    | none => rfl
    | some stop =>
      cases stop with
      | root next => rfl
      | pointer target next =>
        have hnext : checkedAdd 64 depth 1 = some (depth + 1) :=
          checkedAdd_eq_some.2 ⟨rfl, by omega⟩
        rw [hnext]
        dsimp only
        rw [validateHostnameTarget, validateTarget_eq (decides_hostname message)]
        rfl

/-! ## Pointers until the root -/

/-- From `offset`, following `pointers` compression pointers leads to a root label; all labels on
the way are in the message and pass `valid`. -/
inductive RootAfter (message : List UInt8) (valid : List UInt8 → Bool) : Nat → Nat → Prop
  | root {offset next : Nat} {labels : List (List UInt8)}
      (segment : Segment message message.length valid offset labels (.root next)) :
      RootAfter message valid 0 offset
  | pointer {offset target next pointers : Nat} {labels : List (List UInt8)}
      (segment : Segment message message.length valid offset labels (.pointer target next))
      (rest : RootAfter message valid pointers target) :
        RootAfter message valid (pointers + 1) offset

theorem segment_mono {limit' : Nat} {labels : List (List UInt8)} (hle : limit ≤ limit')
    (h : Segment message limit valid cursor labels stop) :
    Segment message limit' valid cursor labels stop := by
  induction h with
  | root hlim hlen => exact .root (lt_of_lt_of_le hlim hle) hlen
  | label hlim hlen hpos hmax hok hrest ih =>
    exact .label (le_trans hlim hle) hlen hpos hmax hok ih
  | pointer hlim hlen hptr hnext htarget =>
    exact .pointer (lt_of_lt_of_le hlim hle) hlen hptr hnext htarget

/-- Each pointer takes one level of the depth. -/
theorem rootAfter_of_validateTarget {depth : Nat}
    (h : Resolv.validateTarget valid message offset depth = some ()) :
    ∃ pointers, depth + pointers ≤ dnsMaxPointerDepth ∧
      RootAfter message valid pointers offset := by
  fun_induction Resolv.validateTarget valid message offset depth with
  | case3 offset depth hdepth next hwalk =>
    obtain ⟨labels, segment⟩ := walkLabels_segment hwalk
    exact ⟨0, by omega, .root segment⟩
  | case4 offset depth hdepth target next hwalk ih =>
    obtain ⟨labels, segment⟩ := walkLabels_segment hwalk
    obtain ⟨pointers, hle, hrest⟩ := ih h
    exact ⟨pointers + 1, by omega, .pointer segment hrest⟩
  | _ => cases h

/-- A name that is accepted when its pointer, if it ends in one, leads to an accepted target. -/
theorem rootAfter_of_walk (depth : Nat) (hlimit : limit ≤ message.length)
    (h : Option.isSome (match Resolv.walkLabels message limit valid offset 0 with
      | none => none
      | some (.root next) => some next
      | some (.pointer target next) =>
        (Resolv.validateTarget valid message target depth).map fun _ => next)) :
    ∃ pointers ≤ dnsMaxPointerDepth + 1, RootAfter message valid pointers offset := by
  cases hwalk : Resolv.walkLabels message limit valid offset 0 with
  | none =>
    rw [hwalk] at h
    cases h
  | some stop =>
    rw [hwalk] at h
    obtain ⟨labels, segment⟩ := walkLabels_segment hwalk
    have segment := segment_mono hlimit segment
    cases stop with
    | root next => exact ⟨0, Nat.zero_le _, .root segment⟩
    | pointer target next =>
      rw [Option.isSome_map] at h
      obtain ⟨⟨⟩, hunit⟩ := Option.isSome_iff_exists.1 h
      obtain ⟨pointers, hle, hrest⟩ := rootAfter_of_validateTarget hunit
      exact ⟨pointers + 1, by omega, .pointer segment hrest⟩

/-- The parser returns, and what it accepts leads to a root label by few pointers. -/
def Answers {α : Type} (message : List UInt8) (valid : List UInt8 → Bool) (offset : Nat)
    (run : Except Panic (Option α)) : Prop :=
  ∃ answer, run = .ok answer ∧ (answer.isSome = true →
    ∃ pointers ≤ dnsMaxPointerDepth + 1, RootAfter message valid pointers offset)

theorem answers_validateTarget (hdecides : Decides message labelOk valid) (offset depth : Nat) :
    Answers message valid offset (validateTarget labelOk message offset depth) := by
  refine ⟨_, validateTarget_eq hdecides offset depth, ?_⟩
  intro haccepted
  obtain ⟨⟨⟩, hunit⟩ := Option.isSome_iff_exists.1 haccepted
  obtain ⟨pointers, hle, hroot⟩ := rootAfter_of_validateTarget hunit
  exact ⟨pointers, by omega, hroot⟩

theorem answers_skipDnsNameField (message : List UInt8) (offset : Nat) :
    Answers message (fun _ => true) offset (skipDnsNameField message offset) :=
  ⟨_, skipDnsNameField_eq message offset, rootAfter_of_walk 0 le_rfl⟩

theorem answers_validateHostnameNameField (message : List UInt8) (offset fieldEnd depth : Nat) :
    Answers message Resolv.hostnameLabelIsValid offset
      (validateHostnameNameField message offset fieldEnd depth) := by
  refine ⟨_, validateHostnameNameField_eq message offset fieldEnd depth, ?_⟩
  intro haccepted
  unfold Resolv.validateHostnameNameField at haccepted
  split at haccepted
  · cases haccepted
  · next hargs =>
    simp only [Bool.or_eq_true, decide_eq_true_eq] at hargs
    exact rootAfter_of_walk (depth + 1) (by omega) haccepted

/-- **The four parsers return on every message**, at every offset, limit and depth, without a panic,
and what they accept leads to a root label by few pointers. -/
theorem parsers_answer (message : List UInt8) (offset fieldEnd depth : Nat) :
    Answers message (fun _ => true) offset (skipDnsNameField message offset) ∧
      Answers message (fun _ => true) offset (validateDnsNameTarget message offset depth) ∧
      Answers message Resolv.hostnameLabelIsValid offset
        (validateHostnameNameField message offset fieldEnd depth) ∧
      Answers message Resolv.hostnameLabelIsValid offset
        (validateHostnameTarget message offset depth) := by
  refine ⟨answers_skipDnsNameField message offset, ?_, ?_, ?_⟩
  · exact answers_validateTarget (decides_any message) offset depth
  · exact answers_validateHostnameNameField message offset fieldEnd depth
  · exact answers_validateTarget (decides_hostname message) offset depth

-- a pointer to itself is followed until the depth is used up, and refused
example : skipDnsNameField [0xc0, 0x00] 0 = .ok none := by decide +kernel

end SafeLibc.Resolv.Checked
