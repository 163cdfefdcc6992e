import SafeLibc.Resolv.NamePton

/-!
# `___ns_name_ntop` of `resolv/ns_name_ntop.c`

The text of a wire name escapes the bytes that a zone file gives a meaning and those that are not
visible. `nameText` is that text, `ntopLoop_labels` says that the function writes it, and
`ptonLoop_labels` that `___ns_name_pton` reads it back: one byte of a label after the other,
whatever its escape, then one label after the other.
-/

namespace SafeLibc.Resolv.NsName

open SafeLibc.Lib List

/-! ## The model -/

/-- The end of the function before its last line. -/
inductive Stop
  | fault (f : Fault)
  /-- the return of -1, with the buffer as it is then -/
  | failed (dst : List UInt8)
  deriving DecidableEq, Repr

/-- The variables of `___ns_name_ntop`: the buffer and the position `dn` in it. -/
structure Printer where
  dst : List UInt8
  dn : Nat
  deriving DecidableEq, Repr

/-- `*dn++ = …` for each of the bytes. -/
def Printer.puts : List UInt8 → Printer → Except Stop Printer
  | [], s => .ok s
  | b :: bs, s =>
    match store s.dst s.dn b with
    | .ok dst => puts bs ⟨dst, s.dn + 1⟩
    | .error f => .error (.fault f)

/-- The bytes, if `eom - dn` is not less than `room`. -/
def Printer.putIf (s : Printer) (room : Nat) (bytes : List UInt8) : Except Stop Printer :=
  if s.dst.length - s.dn < room then .error (.failed s.dst) else s.puts bytes

def special (ch : UInt8) : Bool :=
  ch = byte '"' || ch = byte '.' || ch = byte ';' || ch = byte '\\' || ch = byte '(' ||
    ch = byte ')' || ch = byte '@' || ch = byte '$'

def printable (ch : UInt8) : Bool := ch > 0x20 && ch < 0x7f

def byteText (c : UInt8) : List UInt8 :=
  if special c then [byte '\\', c]
  else if !printable c then
    [byte '\\', byte '0' + c / 100, byte '0' + c % 100 / 10, byte '0' + c % 10]
  else [c]

def byteRoom (c : UInt8) : Nat :=
  if special c then 2 else if !printable c then 4 else 2

/-- `if (dn != dst)`: the dot between labels. -/
def Printer.separate (s : Printer) : Except Stop Printer :=
  if s.dn ≠ 0 then s.putIf 1 [byte '.'] else .ok s

/-- `if (dn == dst)`: the root as a dot. -/
def Printer.root (s : Printer) : Except Stop Printer :=
  if s.dn = 0 then s.putIf 1 [byte '.'] else .ok s

/-- Both loops: `l` bytes of the current label are left, and a length octet comes next after
them. -/
def ntopLoop : List UInt8 → Nat → Printer → Except Stop Printer
  | [], _, _ => .error (.fault .read)
  | b :: cp, 0, s =>
    if b = 0 then .ok s
    else if b ≥ 64 then .error (.failed s.dst)
    else do
      let s ← s.separate
      ntopLoop cp b.toNat s
  | c :: cp, l + 1, s => do
    let s ← s.putIf (byteRoom c) (byteText c)
    ntopLoop cp l s

def Printer.finish (s : Printer) : Except Stop Printer := do
  let s ← s.root
  s.putIf 1 [0]

/-- `___ns_name_ntop`: the return value and the buffer. -/
def nsNameNtop (src dst : List UInt8) : Except Fault (Int × List UInt8) :=
  match ntopLoop src 0 ⟨dst, 0⟩ >>= Printer.finish with
  | .ok s => .ok (s.dn, s.dst)
  | .error (.failed dst) => .ok (-1, dst)
  | .error (.fault f) => .error f

/-! ## Stores -/

def printed (dst₀ text : List UInt8) : Printer := ⟨text ++ dst₀.drop text.length, text.length⟩

variable {dst₀ text : List UInt8}

@[simp] theorem printed_dn : (printed dst₀ text).dn = text.length := rfl

theorem length_printed (h : text.length ≤ dst₀.length) :
    (printed dst₀ text).dst.length = dst₀.length := by
  rw [printed, length_append, length_drop]
  omega

theorem puts_printed (bytes : List UInt8) (h : text.length + bytes.length ≤ dst₀.length) :
    (printed dst₀ text).puts bytes = .ok (printed dst₀ (text ++ bytes)) := by
  induction bytes generalizing text with
  | nil => rw [append_nil]; rfl
  | cons b bs ih =>
    rw [length_cons] at h
    have hin : text.length < dst₀.length := by omega
    obtain ⟨y, hy⟩ := drop_of_lt hin
    have hstore : store (printed dst₀ text).dst (printed dst₀ text).dn b =
        .ok (printed dst₀ (text ++ [b])).dst := by
      rw [store_ok (by rw [length_printed (le_of_lt hin)]; exact hin)]
      simp only [printed, hy, set_append_cons _ _ _ rfl, length_append, length_singleton,
        append_assoc, singleton_append]
    have hnext : (printed dst₀ (text ++ [b])).puts bs = .ok (printed dst₀ (text ++ [b] ++ bs)) :=
      ih (by rw [length_append, length_singleton]; omega)
    rw [append_assoc, singleton_append] at hnext
    rw [Printer.puts, hstore, ← hnext]
    simp [printed]

variable {room : Nat} {bytes label : List UInt8} {c : UInt8}

theorem putIf_printed (h : text.length ≤ dst₀.length) (hroom : bytes.length ≤ room) :
    (printed dst₀ text).putIf room bytes =
      if dst₀.length - text.length < room then .error (.failed (printed dst₀ text).dst)
      else .ok (printed dst₀ (text ++ bytes)) := by
  rw [Printer.putIf, length_printed h, printed_dn]
  by_cases hfull : dst₀.length - text.length < room
  · rw [if_pos hfull, if_pos hfull]
  · rw [if_neg hfull, if_neg hfull, puts_printed bytes (by omega)]

theorem putOne_printed (h : text.length < dst₀.length) (b : UInt8) :
    (printed dst₀ text).putIf 1 [b] = .ok (printed dst₀ (text ++ [b])) := by
  rw [putIf_printed (le_of_lt h) (le_refl 1), if_neg (by omega)]

/-- What a run can end in: a text in the buffer, -1, or a read past the source. -/
inductive Ended (dst₀ : List UInt8) : Except Stop Printer → Prop
  | ok {text : List UInt8} (h : text.length ≤ dst₀.length) : Ended dst₀ (.ok (printed dst₀ text))
  | failed {dst : List UInt8} (h : dst.length = dst₀.length) : Ended dst₀ (.error (.failed dst))
  | read : Ended dst₀ (.error (.fault .read))

theorem Ended.bind {r : Except Stop Printer} (h : Ended dst₀ r)
    {next : Printer → Except Stop Printer}
    (hnext : ∀ text : List UInt8, text.length ≤ dst₀.length →
      Ended dst₀ (next (printed dst₀ text))) :
    Ended dst₀ (r >>= next) := by
  cases h with
  | ok h => exact hnext _ h
  | failed h => exact .failed h
  | read => exact .read

theorem Ended.putIf (h : text.length ≤ dst₀.length) (hroom : bytes.length ≤ room) :
    Ended dst₀ ((printed dst₀ text).putIf room bytes) := by
  rw [putIf_printed h hroom]
  split
  · exact .failed (length_printed h)
  · exact .ok (by rw [length_append]; omega)

theorem Ended.putOne (h : text.length ≤ dst₀.length) (b : UInt8) :
    Ended dst₀ ((printed dst₀ text).putIf 1 [b]) := Ended.putIf h (le_refl 1)

/-- The room that is asked for is that of the text, or one more for the null byte. -/
theorem length_byteText (c : UInt8) :
    (0 < (byteText c).length ∧ (byteText c).length ≤ 4) ∧ (byteText c).length ≤ byteRoom c ∧
      byteRoom c ≤ (byteText c).length + 1 := by
  rw [byteText, byteRoom]
  split
  · simp
  · split <;> simp

theorem ntopLoop_ended (cp : List UInt8) (l : Nat) (h : text.length ≤ dst₀.length) :
    Ended dst₀ (ntopLoop cp l (printed dst₀ text)) := by
  induction cp generalizing l text with
  | nil => exact .read
  | cons b cp ih =>
    cases l with
    | zero =>
      rw [ntopLoop]
      split
      · exact .ok h
      · split
        · exact .failed (length_printed h)
        · refine Ended.bind ?_ fun text htext => ih _ htext
          rw [Printer.separate]
          split
          · exact Ended.putOne h _
          · exact .ok h
    | succ l =>
      exact (Ended.putIf h (length_byteText b).2.1).bind fun text htext => ih _ htext

theorem finish_ended (h : text.length ≤ dst₀.length) : Ended dst₀ (printed dst₀ text).finish := by
  refine Ended.bind ?_ fun text htext => Ended.putOne htext _
  rw [Printer.root]
  split
  · exact Ended.putOne h _
  · exact .ok h

variable (src : List UInt8) (labels : List (List UInt8)) (name : DomainName) (dst : List UInt8)

/-- **No store outside the buffer**, whatever the source holds and whatever the size. -/
theorem nsNameNtop_stores : nsNameNtop src dst ≠ .error .store := by
  have hloop : Ended dst (ntopLoop src 0 (printed dst [])) := ntopLoop_ended src 0 (Nat.zero_le _)
  have h : Ended dst (ntopLoop src 0 ⟨dst, 0⟩ >>= Printer.finish) :=
    hloop.bind fun text htext => finish_ended htext
  rw [nsNameNtop]
  generalize ntopLoop src 0 ⟨dst, 0⟩ >>= Printer.finish = r at h
  cases h <;> simp

/-! ## The text of a name -/

def labelText (label : List UInt8) : List UInt8 := label.flatMap byteText

def labelsText (labels : List (List UInt8)) : List UInt8 :=
  labels.flatMap fun label => byte '.' :: labelText label

/-- The text of a name; the root is a dot. -/
def nameText : List (List UInt8) → List UInt8
  | [] => [byte '.']
  | label :: labels => labelText label ++ labelsText labels

theorem labelText_cons (c : UInt8) (label : List UInt8) :
    labelText (c :: label) = byteText c ++ labelText label := flatMap_cons

theorem ntopLoop_label (label cp : List UInt8)
    (h : text.length + (labelText label).length < dst₀.length) :
    ntopLoop (label ++ cp) label.length (printed dst₀ text) =
      ntopLoop cp 0 (printed dst₀ (text ++ labelText label)) := by
  induction label generalizing text with
  | nil => simp [labelText]
  | cons c label ih =>
    rw [labelText_cons, length_append] at h
    have hroom := (length_byteText c).2
    rw [cons_append, length_cons, ntopLoop,
      putIf_printed (by omega) hroom.1, if_neg (by omega), ok_bind,
      ih (by rw [length_append]; omega), labelText_cons, append_assoc]

theorem separate_first : (printed dst₀ []).separate = .ok (printed dst₀ []) := rfl

theorem separate_next (htext : text ≠ []) (h : text.length < dst₀.length) :
    (printed dst₀ text).separate = .ok (printed dst₀ (text ++ [byte '.'])) := by
  rw [Printer.separate, printed_dn, if_pos (mt length_eq_zero_iff.1 htext), putOne_printed h]

theorem ntopLoop_octet (hlabel : 0 < label.length ∧ label.length ≤ dnsLabelMax) (cp : List UInt8)
    {s : Printer} (hsep : s.separate = .ok (printed dst₀ text))
    (h : text.length + (labelText label).length < dst₀.length) :
    ntopLoop (UInt8.ofNat label.length :: (label ++ cp)) 0 s =
      ntopLoop cp 0 (printed dst₀ (text ++ labelText label)) := by
  obtain ⟨hpos, hmax⟩ := hlabel
  rw [dnsLabelMax] at hmax
  have hoctet : (UInt8.ofNat label.length).toNat = label.length := by
    rw [UInt8.toNat_ofNat']
    omega
  have hzero : UInt8.ofNat label.length ≠ 0 := by
    rw [Ne, ← UInt8.toNat_inj, hoctet]
    exact Nat.pos_iff_ne_zero.1 hpos
  have hsmall : ¬ UInt8.ofNat label.length ≥ 64 := by
    rw [ge_iff_le, UInt8.le_iff_toNat_le, hoctet]
    exact not_le.2 (Nat.lt_succ_of_le hmax)
  rw [ntopLoop, if_neg hzero, if_neg hsmall, hsep, ok_bind, hoctet, ntopLoop_label label cp h]

theorem ntopLoop_labels
    (hlabels : ∀ l ∈ labels, 0 < l.length ∧ l.length ≤ dnsLabelMax) (rest : List UInt8)
    (htext : text ≠ []) (h : text.length + (labelsText labels).length < dst₀.length) :
    ntopLoop (wireLabels labels ++ 0 :: rest) 0 (printed dst₀ text) =
      .ok (printed dst₀ (text ++ labelsText labels)) := by
  induction labels generalizing text with
  | nil => simp [wireLabels, labelsText, ntopLoop]
  | cons label labels ih =>
    have hcons :
        labelsText (label :: labels) = [byte '.'] ++ labelText label ++ labelsText labels := by
      simp [labelsText]
    rw [hcons, length_append, length_append, length_singleton] at h
    have hfits : (text ++ [byte '.']).length + (labelText label).length < dst₀.length := by
      rw [length_append, length_singleton]
      omega
    rw [wireLabels_cons, cons_append, append_assoc,
      ntopLoop_octet (hlabels label mem_cons_self) _ (separate_next htext (by omega)) hfits,
      ih (fun l hl => hlabels l (mem_cons_of_mem _ hl)) (by simp)
        (by rw [length_append, length_append, length_singleton]; omega), hcons]
    simp

theorem labelText_ne_nil (h : 0 < label.length) : labelText label ≠ [] := by
  obtain ⟨c, label, rfl⟩ := exists_cons_of_length_pos h
  have := (length_byteText c).1.1
  intro hnil
  rw [(append_eq_nil_iff.1 hnil).1] at this
  exact absurd this (by decide)

theorem finish_next (htext : text ≠ []) (h : text.length < dst₀.length) :
    (printed dst₀ text).finish = .ok (printed dst₀ (text ++ [0])) := by
  rw [Printer.finish, Printer.root, printed_dn, if_neg (mt length_eq_zero_iff.1 htext), ok_bind,
    putOne_printed h]

theorem finish_root (h : 1 < dst₀.length) :
    (printed dst₀ []).finish = .ok (printed dst₀ [byte '.', 0]) := by
  have hfirst : ([] : List UInt8).length < dst₀.length := Nat.lt_of_succ_lt h
  have hsecond : ([] ++ [byte '.']).length < dst₀.length := h
  rw [Printer.finish, Printer.root, printed_dn, if_pos length_nil, putOne_printed hfirst, ok_bind,
    putOne_printed hsecond]
  rfl

theorem ntop_labels
    (hlabels : ∀ l ∈ labels, 0 < l.length ∧ l.length ≤ dnsLabelMax) (rest : List UInt8)
    (h : (nameText labels).length < dst₀.length) :
    ntopLoop (wireLabels labels ++ 0 :: rest) 0 (printed dst₀ []) >>= Printer.finish =
      .ok (printed dst₀ (nameText labels ++ [0])) := by
  cases labels with
  | nil => exact finish_root h
  | cons label labels =>
    have hlabel := hlabels label mem_cons_self
    have hne := labelText_ne_nil hlabel.1
    rw [nameText, length_append] at h
    rw [wireLabels_cons, cons_append, append_assoc,
      ntopLoop_octet hlabel _ separate_first (by rw [length_nil]; omega), nil_append,
      ntopLoop_labels labels (fun l hl => hlabels l (mem_cons_of_mem _ hl)) rest hne h, ok_bind,
      finish_next (append_ne_nil_of_left_ne_nil hne _) (by rw [length_append]; exact h), nameText]

/-- **The text of a name**, in every buffer that it fits in with its null byte. -/
theorem nsNameNtop_name (rest dst : List UInt8) (h : (nameText name.labels).length < dst.length) :
    nsNameNtop (name.wire ++ rest) dst = .ok ((nameText name.labels).length + 1,
      nameText name.labels ++ 0 :: dst.drop ((nameText name.labels).length + 1)) := by
  have hsrc : name.wire ++ rest = wireLabels name.labels ++ 0 :: rest := by simp [DomainName.wire]
  have hstart : (⟨dst, 0⟩ : Printer) = printed dst [] := rfl
  rw [nsNameNtop, hsrc, hstart, ntop_labels name.labels name.label_length rest h]
  simp [printed]

/-! ## Reading the text -/

theorem digits_byte (c : UInt8) :
    isDigit (byte '0' + c / 100) = true ∧ isDigit (byte '0' + c % 100 / 10) = true ∧
      isDigit (byte '0' + c % 10) = true ∧
      digit (byte '0' + c / 100) * 100 + digit (byte '0' + c % 100 / 10) * 10 +
        digit (byte '0' + c % 10) = c.toNat := by
  revert c
  exact forall_byte (by decide +kernel)

theorem special_not_digit (h : special c = true) : isDigit c = false := by
  revert c
  exact @forall_byte _ (by decide +kernel)

theorem plain_of_not_special (h : special c = false) : c ≠ byte '\\' ∧ c ≠ byte '.' := by
  revert c
  exact @forall_byte _ (by decide +kernel)

theorem ptonLoop_escape (s : Encoder) :
    ptonLoop (byte '\\' :: src) false s = ptonLoop src true s := by
  rw [ptonLoop, if_pos rfl]

/-- The text of a byte is read as that byte, whatever its escape. -/
theorem ptonLoop_byteText (c : UInt8) (src : List UInt8) (s : Encoder) :
    ptonLoop (byteText c ++ src) false s = s.after (s.put c) fun s => ptonLoop src false s := by
  rw [byteText]
  split
  case isTrue hspecial =>
    rw [cons_append, singleton_append, ptonLoop_escape]
    rw [ptonLoop.eq_def]
    simp only [special_not_digit hspecial, Bool.false_eq_true, if_false]
  case isFalse hspecial =>
    split
    · obtain ⟨hd₁, hd₂, hd₃, hvalue⟩ := digits_byte c
      have hbyte : ¬ c.toNat > 255 := not_lt.2 (Nat.lt_succ_iff.1 c.toNat_lt)
      rw [cons_append, ptonLoop_escape, cons_append, cons_append, singleton_append,
        ptonLoop, if_pos hd₁]
      simp only [hd₂, hd₃, hvalue, hbyte, UInt8.ofNat_toNat]
      rfl
    · obtain ⟨hescape, hdot⟩ := plain_of_not_special (Bool.eq_false_iff.2 hspecial)
      rw [singleton_append, ptonLoop, if_neg hescape, if_neg hdot]

section ReadBack

variable {cur : List UInt8} {done : List (List UInt8)} {s : Encoder}

theorem ptonLoop_labelText (label : List UInt8) (h : Encoded dst₀ done cur s)
    (hroom : s.bp + label.length ≤ dst₀.length) :
    ∃ s', Encoded dst₀ done (cur ++ label) s' ∧
      ∀ src, ptonLoop (labelText label ++ src) false s = ptonLoop src false s' := by
  induction label generalizing cur s with
  | nil => exact ⟨s, by rwa [append_nil], fun src => rfl⟩
  | cons c label ih =>
    rw [length_cons] at hroom
    obtain ⟨s₁, hput, henc⟩ := h.put (by rw [h.size]; omega) c
    have hbp : s₁.bp = s.bp + 1 := by
      rw [henc.bp, h.bp, henc.label, h.label, length_append, length_singleton]
      omega
    obtain ⟨s₂, henc₂, hloop⟩ := ih henc (by omega)
    refine ⟨s₂, by rwa [append_assoc] at henc₂, fun src => ?_⟩
    rw [labelText_cons, append_assoc, ptonLoop_byteText, Encoder.after_some hput, hloop]

theorem head?_byteText (c : UInt8) (src : List UInt8) :
    (byteText c ++ src).head? ≠ some (byte '.') := by
  rw [byteText]
  split
  · exact fun h => absurd (Option.some.inj h) (by decide)
  case isFalse hspecial =>
    split
    · exact fun h => absurd (Option.some.inj h) (by decide)
    · exact fun h => (plain_of_not_special (Bool.eq_false_iff.2 hspecial)).2 (Option.some.inj h)

theorem ptonLoop_dot (h : Encoded dst₀ done cur s) (hcur : cur ≠ [])
    (hmax : cur.length ≤ dnsLabelMax)
    (hin : s.label < s.dst.length) {src : List UInt8} (hsrc : src ≠ [])
    (hhead : src.head? ≠ some (byte '.')) :
    ∃ s', Encoded dst₀ (done ++ [cur]) [] s' ∧
      ptonLoop (byte '.' :: src) false s = ptonLoop src false s' := by
  refine ⟨_, h.next hin, ?_⟩
  have hlength : s.labelLength ≠ 0 := by
    rw [h.labelLength (lt_of_le_of_lt hmax (by decide))]
    exact mt length_eq_zero_iff.1 hcur
  rw [ptonLoop, if_neg (by decide), if_pos rfl, if_neg (by simpa using hsrc),
    Encoder.after_some (h.putLabel hmax hin), if_neg]
  simp only [hhead, Bool.or_eq_true, decide_eq_true_eq, or_false]
  exact hlength

theorem ptonLoop_labels (h : Encoded dst₀ done cur s)
    (hlabels : ∀ l ∈ cur :: labels, 0 < l.length ∧ l.length ≤ dnsLabelMax)
    (hroom : wireLength (done ++ cur :: labels) ≤ dst₀.length)
    (hlimit : wireLength (done ++ cur :: labels) ≤ nsMaxcdname) :
    ptonLoop (labelsText labels) false s = .ok (0, named dst₀ (done ++ cur :: labels)) := by
  induction labels generalizing done cur s with
  | nil =>
    obtain ⟨hpos, hmax⟩ := hlabels cur mem_cons_self
    have hlast : lastLabels done cur = done ++ [cur] := if_neg (length_pos_iff.1 hpos)
    have hclose := h.close hmax (hlast ▸ hroom) 0
    rw [hlast, if_neg (not_lt.2 hlimit)] at hclose
    exact hclose
  | cons label labels ih =>
    obtain ⟨hpos, hmax⟩ := hlabels cur mem_cons_self
    obtain ⟨c, rest, hlabel⟩ := exists_cons_of_length_pos
      (hlabels label (mem_cons_of_mem _ mem_cons_self)).1
    have hmove : done ++ cur :: label :: labels = (done ++ [cur]) ++ label :: labels := by simp
    rw [hmove] at hroom hlimit ⊢
    have hlength : (wireLabels (done ++ [cur])).length + (label.length + 1) + 1 ≤ dst₀.length := by
      rw [wireLength, wireLabels_append, length_append, wireLabels_cons, length_cons,
        length_append] at hroom
      omega
    have hbp : s.bp = (wireLabels (done ++ [cur])).length := by
      rw [h.bp, h.label, wireLabels_concat, length_append, length_cons]
      omega
    have hbefore := h.bp
    have hhead : (labelText label ++ labelsText labels).head? ≠ some (byte '.') := by
      rw [hlabel, labelText_cons, append_assoc]
      exact head?_byteText c _
    have hne : labelText label ++ labelsText labels ≠ [] :=
      append_ne_nil_of_left_ne_nil (labelText_ne_nil (by rw [hlabel]; simp)) _
    -- the dot closes the label before, and then the text of the next one is read
    obtain ⟨s₁, henc₁, hdot⟩ := ptonLoop_dot h (length_pos_iff.1 hpos) hmax
      (by rw [h.size]; omega) hne hhead
    obtain ⟨s₂, henc₂, hread⟩ := ptonLoop_labelText label henc₁
      (by rw [henc₁.bp, henc₁.label, length_nil]; omega)
    have hcons :
        labelsText (label :: labels) = byte '.' :: (labelText label ++ labelsText labels) := by
      simp [labelsText]
    rw [hcons, hdot, hread]
    exact ih henc₂ (fun l hl => hlabels l (mem_cons_of_mem _ hl)) hroom hlimit

theorem nsNamePton_nameText (hroom : wireLength name.labels ≤ dst.length) :
    ∃ ret : Int, 0 ≤ ret ∧
      nsNamePton (nameText name.labels) dst = .ok (ret, named dst name.labels) := by
  obtain ⟨labels, hlabels, hlimit⟩ := name
  cases labels with
  | nil =>
    have hclose := (Encoded.start dst).close (Nat.zero_le _) hroom 1
    exact ⟨1, by decide, hclose⟩
  | cons label labels =>
    have hroom' : wireLength (label :: labels) ≤ dst.length := hroom
    have hlength : label.length + 2 ≤ dst.length := by
      rw [wireLength, wireLabels_cons, length_cons, length_append] at hroom'
      omega
    obtain ⟨s, henc, hread⟩ := ptonLoop_labelText label (Encoded.start dst) (by simp only; omega)
    refine ⟨0, by decide, ?_⟩
    rw [nsNamePton, nameText, hread]
    exact ptonLoop_labels labels henc hlabels hroom hlimit

end ReadBack

/-! ## The length of the text -/

theorem length_labelText_le (label : List UInt8) : (labelText label).length ≤ 4 * label.length := by
  induction label with
  | nil => exact le_rfl
  | cons c label ih =>
    have := (length_byteText c).1.2
    rw [labelText_cons, length_append, length_cons]
    omega

theorem length_labelsText_le :
    (labelsText labels).length ≤ 4 * (wireLabels labels).length := by
  induction labels with
  | nil => exact le_rfl
  | cons label labels ih =>
    have hlabel := length_labelText_le label
    simp only [labelsText, flatMap_cons, length_append, length_cons] at ih ⊢
    rw [wireLabels_cons, length_cons, length_append]
    omega

def nsMaxdname : Nat := 1025

theorem length_nameText_lt : (nameText name.labels).length < nsMaxdname := by
  obtain ⟨labels, -, hlimit⟩ := name
  simp only
  cases labels with
  | nil => decide
  | cons label labels =>
    have hlabels := length_labelsText_le labels
    have hlabel := length_labelText_le label
    rw [wireLength, wireLabels_cons, length_cons, length_append, nsMaxcdname] at hlimit
    rw [nameText, length_append, nsMaxdname]
    omega

theorem zero_not_mem_byteText (c : UInt8) : 0 ∉ byteText c := by
  revert c
  exact forall_byte (by decide +kernel)

theorem zero_not_mem_labelText (label : List UInt8) : 0 ∉ labelText label := by
  rw [labelText, mem_flatMap]
  rintro ⟨c, -, hc⟩
  exact zero_not_mem_byteText c hc

/-- The text is a string: its first null byte is the one after it. -/
theorem zero_not_mem_nameText : 0 ∉ nameText labels := by
  cases labels with
  | nil => decide
  | cons label labels =>
    rw [nameText, mem_append, labelsText, mem_flatMap]
    rintro (h | ⟨next, -, h⟩)
    · exact zero_not_mem_labelText label h
    · rcases mem_cons.1 h with h | h
      · exact absurd h (by decide)
      · exact zero_not_mem_labelText next h

/-! ## Wire to text to wire -/

theorem named_eq :
    named dst name.labels = name.wire ++ dst.drop name.wire.length := by
  simp [named, DomainName.wire, wireLength]

/-- A name that is printed into a buffer that is large enough, and read from there, is the same; a
text that is read without an error leaves a domain name at the start of the buffer, for every text
and every size; and no store of either function is outside of its buffer. -/
theorem nsName_text :
    (∀ name : DomainName, ∃ text : List UInt8, 0 ∉ text ∧ text.length < nsMaxdname ∧
      (∀ rest dst, text.length < dst.length → nsNameNtop (name.wire ++ rest) dst =
        .ok (text.length + 1, text ++ 0 :: dst.drop (text.length + 1))) ∧
      ∀ dst, dst.length = 255 → ∃ ret : Int, 0 ≤ ret ∧
        nsNamePton text dst = .ok (ret, name.wire ++ dst.drop name.wire.length)) ∧
    (∀ text dst, ∃ ret out, nsNamePton text dst = .ok (ret, out) ∧ out.length = dst.length ∧
      (ret ≠ -1 → ∃ name : DomainName, name.wire <+: out)) ∧
    ∀ src dst, nsNameNtop src dst ≠ .error .store := by
  refine ⟨fun name => ⟨nameText name.labels, zero_not_mem_nameText _, length_nameText_lt name,
    fun rest dst h => nsNameNtop_name name rest dst h, fun dst hdst => ?_⟩, fun text dst => ?_,
    nsNameNtop_stores⟩
  · rw [← named_eq]
    exact nsNamePton_nameText name dst (hdst ▸ name.wire_length)
  · obtain ⟨ret, out, hrun, hsize, hname⟩ := nsNamePton_outcome text dst
    refine ⟨ret, out, hrun, hsize, fun hret => ?_⟩
    obtain ⟨name, rfl⟩ := hname.resolve_left hret
    exact ⟨name, named_eq name dst ▸ prefix_append _ _⟩

/-- A name with a dot inside a label, printed and read back. -/
theorem nsName_text_dot :
    let name : DomainName := ⟨[bytesOf "a.b", bytesOf "org"], by decide, by decide⟩
    ∃ text : List UInt8, text.length < 1025 ∧
      nsNameNtop (name.wire ++ []) (replicate 1025 0) =
        .ok (text.length + 1, text ++ 0 :: (replicate 1025 0).drop (text.length + 1)) ∧
      ∃ ret : Int, 0 ≤ ret ∧ nsNamePton text (replicate 255 0) =
        .ok (ret, name.wire ++ (replicate 255 0).drop name.wire.length) := by
  intro name
  obtain ⟨text, -, hlength, hntop, hpton⟩ := nsName_text.1 name
  refine ⟨text, hlength, hntop [] _ ?_, hpton _ length_replicate⟩
  rw [length_replicate]
  exact hlength

end SafeLibc.Resolv.NsName
