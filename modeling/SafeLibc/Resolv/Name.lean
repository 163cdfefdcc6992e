import SafeLibc.Lib.Bytes
import SafeLibc.Lib.Machine
import Mathlib.Data.List.Basic

/-!
# Walking compressed domain names

A domain name in a DNS message is a run of labels (a length byte below 64 and that many bytes)
that ends in a zero byte or in a two-byte compression pointer to another run.

* The Rust slice parsers of `network-identity` (`skip_dns_name_field`, `validate_dns_name_target`,
  `validate_hostname_name_field`, `validate_hostname_target`) are one label loop, `walkLabels`, at
  different limits and label checks.
* `Segment` is the derivation behind a successful loop, and `walkLabels_segment` the only place
  that unfolds the loop.

Positions are offsets from the start of the message. `usize` has 64 bits.
-/

namespace SafeLibc.Resolv

open SafeLibc.Lib

/-! ## Constants -/

def dnsLabelPointer : UInt8 := 0xc0
def dnsLabelMask : UInt8 := 0xc0
def dnsLabelMax : Nat := 63
def dnsPointerSize : Nat := 2
def dnsHeaderLen : Nat := 12
def dnsRrFixedLen : Nat := 10
def dnsQFixedLen : Nat := 4
def dnsTypePtr : Nat := 12
def dnsClassIn : Nat := 1
def dnsMaxPointerDepth : Nat := 16
def dnsMaxLabels : Nat := 128

/-! ## Bytes of a label header -/

/-- The offset in a compression pointer. -/
def pointerTarget (len next : UInt8) : Nat :=
  ((len &&& ~~~dnsLabelMask).toNat <<< 8) ||| next.toNat

/-- The two high bits of a header byte tell a label from a pointer by its size alone. -/
theorem mask_eq_zero_iff (len : UInt8) : len &&& dnsLabelMask = 0 ↔ len.toNat ≤ dnsLabelMax := by
  revert len
  exact forall_byte (by decide +kernel)

theorem mask_eq_pointer_iff (len : UInt8) :
    len &&& dnsLabelMask = dnsLabelPointer ↔ 192 ≤ len.toNat := by
  revert len
  exact forall_byte (by decide +kernel)

theorem toNat_eq_zero_iff (len : UInt8) : len.toNat = 0 ↔ len = 0 := by
  rw [← UInt8.toNat_inj]
  rfl

/-! ## The label loop of the slice parsers -/

/-- A run of labels ends after the root's zero byte or at a pointer, with the offset behind it. -/
inductive SegmentEnd
  | root (next : Nat)
  | pointer (target next : Nat)
  deriving DecidableEq, Repr

/-- The `loop` of the four slice parsers. Labels may not reach past `limit` and must pass
`labelOk`; where the source bounds by `message.len()` the first test is the `?` of `get`. -/
def walkLabels (message : List UInt8) (limit : Nat) (labelOk : List UInt8 → Bool)
    (cursor labels : Nat) : Option SegmentEnd :=
  if limit ≤ cursor then none
  else match _hlen : message[cursor]? with
    | none => none
    | some len =>
      match _hcur : checkedAdd 64 cursor 1 with
      | none => none
      | some cursor' =>
        if len &&& dnsLabelMask = 0 then
          let labelLen := len.toNat
          if labelLen > dnsLabelMax then none
          else if labelLen = 0 then some (.root cursor')
          -- `labels` stays at most 129, so its own checked addition cannot fail
          else if labels + 1 > dnsMaxLabels then none
          else match hend : checkedAdd 64 cursor' labelLen with
            | none => none
            | some stop =>
              if stop > limit || !labelOk ((message.drop cursor').take labelLen) then none
              else walkLabels message limit labelOk stop (labels + 1)
        else if len &&& dnsLabelMask = dnsLabelPointer then
          if limit ≤ cursor' then none
          else match message[cursor']? with
            | none => none
            | some next =>
              let target := pointerTarget len next
              if target ≥ message.length then none
              else (checkedAdd 64 cursor' 1).map (.pointer target)
        else none
termination_by message.length - cursor
decreasing_by
  have hlt := (List.getElem?_eq_some_iff.1 _hlen).1
  have := (checkedAdd_eq_some.1 _hcur).1
  have := (checkedAdd_eq_some.1 hend).1
  omega

/-- The recursion of the two target validators: each pointer restarts the loop one level deeper. -/
def validateTarget (labelOk : List UInt8 → Bool) (message : List UInt8) (offset depth : Nat) :
    Option Unit :=
  if depth > dnsMaxPointerDepth then none
  else match walkLabels message message.length labelOk offset 0 with
    | none => none
    | some (.root _) => some ()
    | some (.pointer target _) => validateTarget labelOk message target (depth + 1)
termination_by dnsMaxPointerDepth + 1 - depth

def validateDnsNameTarget (message : List UInt8) (offset depth : Nat) : Option Unit :=
  validateTarget (fun _ => true) message offset depth

/-- The end of the name; what a pointer in it leads to is checked. -/
def skipDnsNameField (message : List UInt8) (offset : Nat) : Option Nat :=
  match walkLabels message message.length (fun _ => true) offset 0 with
  | none => none
  | some (.root next) => some next
  | some (.pointer target next) => (validateDnsNameTarget message target 0).map fun _ => next

def isAsciiAlphanumeric (b : UInt8) : Bool :=
  (48 ≤ b && b ≤ 57) || (65 ≤ b && b ≤ 90) || (97 ≤ b && b ≤ 122)

def dash : UInt8 := 45

/-- Letters, digits and dashes, no dash at either end. -/
def hostnameLabelIsValid (label : List UInt8) : Bool :=
  !label.isEmpty && label.length ≤ dnsLabelMax && label.head? != some dash &&
    label.getLast? != some dash && label.all fun b => isAsciiAlphanumeric b || b == dash

def validateHostnameTarget (message : List UInt8) (offset depth : Nat) : Option Unit :=
  validateTarget hostnameLabelIsValid message offset depth

def validateHostnameNameField (message : List UInt8) (offset fieldEnd depth : Nat) : Option Nat :=
  if depth > dnsMaxPointerDepth || offset ≥ fieldEnd || fieldEnd > message.length then none
  else match walkLabels message fieldEnd hostnameLabelIsValid offset 0 with
    | none => none
    | some (.root next) => some next
    | some (.pointer target next) =>
      (validateHostnameTarget message target (depth + 1)).map fun _ => next

/-! ## Derivations of a run of labels -/

/-- `Segment message limit labelOk cursor labels stop`: from `cursor` the bytes are the given
labels, all within `limit` and passing `labelOk`, and then the end `stop`. -/
inductive Segment (message : List UInt8) (limit : Nat) (labelOk : List UInt8 → Bool) :
    Nat → List (List UInt8) → SegmentEnd → Prop
  | root {cursor : Nat} (hlim : cursor < limit) (hlen : message[cursor]? = some 0) :
      Segment message limit labelOk cursor [] (.root (cursor + 1))
  | label {cursor : Nat} {len : UInt8} {labels : List (List UInt8)} {stop : SegmentEnd}
      (hlim : cursor + 1 + len.toNat ≤ limit) (hlen : message[cursor]? = some len)
      (hpos : 0 < len.toNat) (hmax : len.toNat ≤ dnsLabelMax)
      (hok : labelOk ((message.drop (cursor + 1)).take len.toNat) = true)
      (hrest : Segment message limit labelOk (cursor + 1 + len.toNat) labels stop) :
      Segment message limit labelOk cursor
        ((message.drop (cursor + 1)).take len.toNat :: labels) stop
  | pointer {cursor : Nat} {len next : UInt8} (hlim : cursor + 1 < limit)
      (hlen : message[cursor]? = some len) (hptr : 192 ≤ len.toNat)
      (hnext : message[cursor + 1]? = some next)
      (htarget : pointerTarget len next < message.length) :
      Segment message limit labelOk cursor [] (.pointer (pointerTarget len next) (cursor + 2))

/-- A successful loop has a derivation. -/
theorem walkLabels_segment {message : List UInt8} {limit : Nat} {labelOk : List UInt8 → Bool}
    {cursor labels : Nat} {stop : SegmentEnd}
    (h : walkLabels message limit labelOk cursor labels = some stop) :
    ∃ ls, Segment message limit labelOk cursor ls stop := by
  fun_induction walkLabels message limit labelOk cursor labels with
  | case5 cursor labels hlim len hlen cursor' hcur hmask labelLen hmax hzero =>
    obtain ⟨rfl, -⟩ := checkedAdd_eq_some.1 hcur
    obtain rfl := (toNat_eq_zero_iff len).1 hzero
    cases h
    exact ⟨[], .root (by omega) hlen⟩
  | case9 cursor labels hlim len hlen cursor' hcur hmask labelLen hmax hzero hcount stop' hend hok
      ih =>
    obtain ⟨rfl, -⟩ := checkedAdd_eq_some.1 hcur
    obtain ⟨rfl, -⟩ := checkedAdd_eq_some.1 hend
    obtain ⟨ls, hls⟩ := ih h
    simp only [Bool.or_eq_true, decide_eq_true_eq, Bool.not_eq_true', not_or,
      not_lt, Bool.not_eq_false] at hok
    exact ⟨_, .label hok.1 hlen (by omega) (by omega) hok.2 hls⟩
  | case13 cursor labels hlim len hlen cursor' hcur hmask hptr hlim' next hnext target htarget =>
    obtain ⟨rfl, -⟩ := checkedAdd_eq_some.1 hcur
    obtain ⟨next', hnext', rfl⟩ := Option.map_eq_some_iff.1 h
    obtain ⟨rfl, -⟩ := checkedAdd_eq_some.1 hnext'
    exact ⟨[], .pointer (by omega) hlen ((mask_eq_pointer_iff len).1 hptr) hnext (by omega)⟩
  | _ => cases h

end SafeLibc.Resolv
