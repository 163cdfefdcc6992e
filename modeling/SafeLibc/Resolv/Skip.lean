import SafeLibc.Resolv.Name

/-!
# Skipping a compressed name: three walkers

`ns_name_skip` exists twice, in C and in Rust, both on raw pointers into a buffer; the slice parser
`skip_dns_name_field` does the same job with checked indexing and further checks on the labels and
on the target of a pointer. The pointer walkers read the buffer without a length, so their models
are partial in the outer `Option`: `none` is a read outside the buffer, which happens when the end
of message lies outside it. The inner `Option` is the walkers' own answer.

The pointer walkers stop where any run of labels stops (`skipDnsName_of_segment`), hence where the
slice parser does.
-/

namespace SafeLibc.Resolv

open SafeLibc.Lib

/-! ## The Rust walker -/

/-- `bytes_until`: the distance to the end of the message, if the cursor is not past it. -/
def bytesUntil (cursor eom : Nat) : Option Nat :=
  if cursor > eom then none else some (eom - cursor)

def skipDnsName (buf : List UInt8) (cursor eom : Nat) : Option (Option Nat) :=
  if cursor ≥ eom then some none
  else match buf[cursor]? with
    | none => none
    | some len =>
      let cursor' := cursor + 1
      if len &&& dnsLabelMask = 0 then
        let labelLen := len.toNat
        if labelLen > dnsLabelMax then some none
        else if labelLen = 0 then some (some cursor')
        else match bytesUntil cursor' eom with
          | none => some none
          | some left =>
            if left < labelLen then some none else skipDnsName buf (cursor' + labelLen) eom
      else if len &&& dnsLabelMask = dnsLabelPointer then
        match bytesUntil cursor' eom with
        | none => some none
        | some left =>
          if left < dnsPointerSize - 1 then some none else some (some (cursor' + 1))
      else some none
termination_by eom - cursor

/-- A pointer argument; `none` is NULL. -/
abbrev Ptr := Option Nat

/-- `ns_name_skip`: the status and the pointer left in `*ptrptr` (`ptrptr` itself may be NULL). -/
def nsNameSkip (buf : List UInt8) (ptrptr : Option Ptr) (eom : Ptr) :
    Option (Int × Option Ptr) :=
  match ptrptr, eom with
  | some (some start), some eom =>
    if start > eom then some (-1, ptrptr)
    else match skipDnsName buf start eom with
      | none => none
      | some (some next) => some (0, some (some next))
      | some none => some (-1, ptrptr)
  | _, _ => some (-1, ptrptr)

/-! ## The C walker -/

/-- The `while (cp < eom)` loop of `___ns_name_skip`; `some none` is `goto malformed`. -/
def cNsNameSkipLoop (buf : List UInt8) (cp eom : Nat) : Option (Option Nat) :=
  if cp < eom then
    match buf[cp]? with
    | none => none
    | some b =>
      let n := b.toNat
      let cp' := cp + 1
      if n = 0 then some (some cp')
      else if n &&& 0xc0 = 0 then
        if eom - cp' < n then some none else cNsNameSkipLoop buf (cp' + n) eom
      else if n &&& 0xc0 = 0xc0 then
        if cp' = eom then some none else some (some (cp' + 1))
      else some none
  else some none
termination_by eom - cp

/-- `___ns_name_skip`: the return value and the final `*ptrptr`. -/
def cNsNameSkip (buf : List UInt8) (start eom : Nat) : Option (Int × Nat) :=
  match cNsNameSkipLoop buf start eom with
  | none => none
  | some (some cp) => some (0, cp)
  | some none => some (-1, start)

/-! ## Agreement -/

theorem land_eq_zero_iff (b : UInt8) : b.toNat &&& 0xc0 = 0 ↔ b.toNat ≤ dnsLabelMax := by
  rw [← mask_eq_zero_iff, ← UInt8.toNat_inj]
  rfl

theorem land_eq_pointer_iff (b : UInt8) : b.toNat &&& 0xc0 = 0xc0 ↔ 192 ≤ b.toNat := by
  rw [← mask_eq_pointer_iff, ← UInt8.toNat_inj]
  rfl

variable {eom cp cursor : Nat} {buf message : List UInt8}

/-- One turn of the C loop, with the header byte classified by its size. -/
theorem cNsNameSkipLoop_step {b : UInt8} (hlt : cp < eom) (hb : buf[cp]? = some b) :
    cNsNameSkipLoop buf cp eom =
      if b.toNat = 0 then some (some (cp + 1))
      else if b.toNat ≤ dnsLabelMax then
        if eom < cp + 1 + b.toNat then some none else cNsNameSkipLoop buf (cp + 1 + b.toNat) eom
      else if 192 ≤ b.toNat then
        if cp + 1 = eom then some none else some (some (cp + 2))
      else some none := by
  rw [cNsNameSkipLoop]
  simp only [hlt, ↓reduceIte, hb, land_eq_zero_iff, land_eq_pointer_iff]
  have hroom : eom - (cp + 1) < b.toNat ↔ eom < cp + 1 + b.toNat := by omega
  simp only [hroom]

theorem not_le_of_pointer {len : UInt8} (h : 192 ≤ len.toNat) : ¬ len.toNat ≤ dnsLabelMax := by
  simp only [dnsLabelMax]
  omega

theorem bytesUntil_of_le (h : cursor ≤ eom) : bytesUntil cursor eom = some (eom - cursor) := by
  rw [bytesUntil, if_neg (by omega)]

/-- One turn of the Rust loop, in the same terms. -/
theorem skipDnsName_step {b : UInt8} (hlt : cp < eom) (hb : buf[cp]? = some b) :
    skipDnsName buf cp eom =
      if b.toNat = 0 then some (some (cp + 1))
      else if b.toNat ≤ dnsLabelMax then
        if eom < cp + 1 + b.toNat then some none else skipDnsName buf (cp + 1 + b.toNat) eom
      else if 192 ≤ b.toNat then
        if cp + 1 = eom then some none else some (some (cp + 2))
      else some none := by
  have hroom : eom - (cp + 1) < b.toNat ↔ eom < cp + 1 + b.toNat := by omega
  have hlast : eom - (cp + 1) < 1 ↔ cp + 1 = eom := by omega
  rw [skipDnsName]
  simp only [hb, mask_eq_zero_iff, mask_eq_pointer_iff, bytesUntil_of_le hlt, dnsPointerSize, hlast]
  split_ifs <;> first | rfl | omega

/-- The two pointer loops agree on every buffer, start and end of message. -/
theorem skipDnsName_eq_cNsNameSkipLoop (buf : List UInt8) (cursor eom : Nat) :
    skipDnsName buf cursor eom = cNsNameSkipLoop buf cursor eom := by
  induction hm : eom - cursor using Nat.strong_induction_on generalizing cursor with
  | _ m ih =>
    by_cases hlt : cursor < eom
    · rcases hread : buf[cursor]? with - | b
      · rw [skipDnsName, cNsNameSkipLoop, if_neg (not_le.2 hlt), if_pos hlt, hread]
      · rw [skipDnsName_step hlt hread, cNsNameSkipLoop_step hlt hread, ih _ (by omega) _ rfl]
    · rw [skipDnsName, cNsNameSkipLoop, if_pos (not_lt.1 hlt), if_neg hlt]

/-- Inside the buffer the C loop always answers. -/
theorem cNsNameSkipLoop_ne_none (h : eom ≤ buf.length) : cNsNameSkipLoop buf cp eom ≠ none := by
  fun_induction cNsNameSkipLoop buf cp eom with
  | case1 cp hlt hread =>
    have := List.getElem?_eq_none_iff.1 hread
    omega
  | case4 cp hlt b hread n cp' hzero hmask hroom ih => exact ih
  | _ => exact Option.some_ne_none _

/-- Where a run of labels ends, as the pointer walkers report it. -/
def SegmentEnd.next : SegmentEnd → Nat
  | .root next => next
  | .pointer _ next => next

/-- The C loop stops at the end of every run of labels of the message. -/
theorem cNsNameSkipLoop_of_segment {labelOk : List UInt8 → Bool} {labels : List (List UInt8)}
    {stop : SegmentEnd} (h : Segment message message.length labelOk cursor labels stop) :
    cNsNameSkipLoop message cursor message.length = some (some stop.next) := by
  induction h with
  | root hlim hlen =>
    rw [cNsNameSkipLoop_step hlim hlen]
    rfl
  | label hlim hlen hpos hmax hok hrest ih =>
    rw [cNsNameSkipLoop_step (by omega) hlen, if_neg (by omega), if_pos hmax, if_neg (by omega), ih]
  | pointer hlim hlen hptr hnext htarget =>
    rw [cNsNameSkipLoop_step (by omega) hlen, if_neg (by omega), if_neg (not_le_of_pointer hptr),
      if_pos hptr, if_neg (by omega)]
    rfl

/-- A name accepted by the slice parser is a run of labels ending where the parser says. -/
theorem skipDnsNameField_segment {offset k : Nat} (h : skipDnsNameField message offset = some k) :
    ∃ labels stop, Segment message message.length (fun _ => true) offset labels stop ∧
      stop.next = k := by
  unfold skipDnsNameField at h
  split at h
  · cases h
  · next next hwalk =>
    obtain ⟨labels, hseg⟩ := walkLabels_segment hwalk
    exact ⟨labels, _, hseg, Option.some.inj h⟩
  · next target next hwalk =>
    obtain ⟨labels, hseg⟩ := walkLabels_segment hwalk
    obtain ⟨-, -, hnext⟩ := Option.map_eq_some_iff.1 h
    exact ⟨labels, _, hseg, hnext⟩

/-- **Skipping a name.** On every buffer, start and end of message the Rust and the C walkers give
the same answer (a read outside the buffer included, and none inside it), a failure leaves the
pointer where it was, and whatever the slice parser accepts both of them skip to the same place. -/
theorem nsNameSkip_agree (buf : List UInt8) (start eom : Nat) :
    skipDnsName buf start eom = cNsNameSkipLoop buf start eom ∧
    nsNameSkip buf (some (some start)) (some eom) =
      (cNsNameSkip buf start eom).map (fun r => (r.1, some (some r.2))) ∧
    (eom ≤ buf.length → ∃ status p, cNsNameSkip buf start eom = some (status, p) ∧
      (status = 0 ∨ status = -1 ∧ p = start)) ∧
    (∀ k, skipDnsNameField buf start = some k →
      skipDnsName buf start buf.length = some (some k) ∧
      nsNameSkip buf (some (some start)) (some buf.length) = some (0, some (some k)) ∧
      cNsNameSkip buf start buf.length = some (0, k)) := by
  have hns : ∀ eom, nsNameSkip buf (some (some start)) (some eom) =
      (cNsNameSkip buf start eom).map (fun r => (r.1, some (some r.2))) := by
    intro eom
    simp only [nsNameSkip, cNsNameSkip, skipDnsName_eq_cNsNameSkipLoop]
    by_cases hstart : start > eom
    · have hend : cNsNameSkipLoop buf start eom = some none := by
        rw [cNsNameSkipLoop, if_neg (by omega)]
      simp [hend]
    · simp only [hstart]
      rcases cNsNameSkipLoop buf start eom with - | - | next <;> rfl
  refine ⟨skipDnsName_eq_cNsNameSkipLoop buf start eom, hns eom, ?_, ?_⟩
  · intro heom
    unfold cNsNameSkip
    rcases hloop : cNsNameSkipLoop buf start eom with - | - | next
    · exact absurd hloop (cNsNameSkipLoop_ne_none heom)
    · exact ⟨-1, start, rfl, .inr ⟨rfl, rfl⟩⟩
    · exact ⟨0, next, rfl, .inl rfl⟩
  · intro k hk
    obtain ⟨labels, stop, hseg, rfl⟩ := skipDnsNameField_segment hk
    have hloop := cNsNameSkipLoop_of_segment hseg
    have hc : cNsNameSkip buf start buf.length = some (0, stop.next) := by
      unfold cNsNameSkip
      rw [hloop]
    exact ⟨by rw [skipDnsName_eq_cNsNameSkipLoop, hloop], by rw [hns, hc]; rfl, hc⟩

end SafeLibc.Resolv
