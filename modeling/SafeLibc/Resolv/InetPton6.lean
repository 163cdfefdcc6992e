import SafeLibc.Resolv.InetPton

/-!
# What `inet_pton6` accepts

The parser is related to the standard forms in both directions. While it reads, `Read6` splits what
it has read into complete groups and the digits of the group it is in; in the other direction each
piece of a form is one lemma about the scan.
-/

namespace SafeLibc.Resolv.Inet

open SafeLibc.Lib List

/-! ## The standard forms -/

def hexValue (ch : UInt8) : Nat := (hexDigitValue ch).getD 0

/-- One to four hexadecimal digits, and the two bytes they stand for. -/
structure HexGroup (text bytes : List UInt8) : Prop where
  nonempty : text ≠ []
  length : text.length ≤ 4
  digits : ∀ ch ∈ text, (hexDigitValue ch).isSome = true
  bytes : bytes = wordBytes (valueOf 16 (text.map hexValue))

/-- Groups separated by colons; there may be none. -/
def GroupsText (text bytes : List UInt8) : Prop :=
  ∃ parts groups, List.Forall₂ HexGroup parts groups ∧ text = [byte ':'].intercalate parts ∧
    bytes = groups.flatten

/-- Groups separated by colons, the last of which may be a dotted quad for four bytes. -/
def TailText (text bytes : List UInt8) : Prop :=
  GroupsText text bytes ∨
    ∃ parts groups quad four, List.Forall₂ HexGroup parts groups ∧ Quad quad four ∧
      text = [byte ':'].intercalate (parts ++ [quad]) ∧ bytes = groups.flatten ++ four

/-- Sixteen bytes written out, or with one `::` in the place of zeros for at least one group. -/
def Address6 (text bytes : List UInt8) : Prop :=
  TailText text bytes ∧ bytes.length = 16 ∨
    ∃ left right leftBytes rightBytes,
      text = left ++ [byte ':', byte ':'] ++ right ∧ GroupsText left leftBytes ∧
      TailText right rightBytes ∧ leftBytes.length + rightBytes.length < 16 ∧
      bytes = leftBytes ++ List.replicate (16 - leftBytes.length - rightBytes.length) 0 ++
        rightBytes

/-! ## Digits -/

variable {bytes text src four part : List UInt8} {ch : UInt8} {parts groups : List (List UInt8)}
  {d : Nat} {r : Option Scan6}

theorem hexDigitValue_lt (h : hexDigitValue ch = some d) : d < 16 :=
  forall_byte (P := fun ch => ∀ d ∈ hexDigitValue ch, d < 16) (by decide +kernel) ch d h

theorem hexDigitValue_colon : hexDigitValue (byte ':') = none := by decide

theorem hexDigitValue_of_isDigit (h : isDigit ch = true) : (hexDigitValue ch).isSome = true := by
  have hrange : (byte '0' ≤ ch && ch ≤ byte '9') = true := h
  simp [hexDigitValue, hrange]

theorem shiftLeft_or {val digit : Nat} (h : digit < 16) :
    (val <<< 4) ||| digit = val * 16 + digit := by
  rw [← Nat.shiftLeft_add_eq_or_of_lt (by simpa using h), Nat.shiftLeft_eq]

theorem digit6_eq {s : Scan6} {digit : Nat} (hdigit : digit < 16) (hroom : s.xdigits < 4)
    (hval : s.val * 16 + digit ≤ 0xffff) :
    s.digit digit = some { s with val := s.val * 16 + digit, xdigits := s.xdigits + 1 } := by
  unfold Scan6.digit
  simp only [shiftLeft_or hdigit]
  rw [if_neg (by omega), if_neg (by omega)]

/-! ## What is accepted has the form -/

/-- The digits of the group that is being read. -/
structure Digits6 (digits rest : List UInt8) (s : Scan6) : Prop where
  length : digits.length = s.xdigits
  room : digits.length ≤ 4
  hex : ∀ ch ∈ digits, (hexDigitValue ch).isSome = true
  value : valueOf 16 (digits.map hexValue) = s.val
  curtok : s.curtok = digits ++ rest

/-- What `inet_pton6` has read when no `::` has been seen: groups, each with its colon, and digits.
There is text left after a colon, and the first character is none. -/
def Plain6 (read digits rest : List UInt8) (s : Scan6) : Prop :=
  ∃ parts groups, List.Forall₂ HexGroup parts groups ∧ s.out = groups.flatten ∧
    read = parts.flatMap (· ++ [byte ':']) ++ digits ∧
    (digits = [] → rest ≠ []) ∧
    (digits = [] → parts = [] → rest.head? ≠ some (byte ':'))

/-- What has been read when a `::` has been seen. -/
def Gapped6 (read digits rest : List UInt8) (s : Scan6) (colonp : Nat) : Prop :=
  ∃ left leftBytes parts groups, GroupsText left leftBytes ∧ leftBytes.length = colonp ∧
    List.Forall₂ HexGroup parts groups ∧ s.out = leftBytes ++ groups.flatten ∧
    read = left ++ [byte ':', byte ':'] ++ (parts.flatMap (· ++ [byte ':']) ++ digits) ∧
    (digits = [] → rest = [] → parts = [])

structure Read6 (read rest : List UInt8) (s : Scan6) : Prop where
  room : s.out.length ≤ 16
  split : ∃ digits, Digits6 digits rest s ∧
    match s.colonp with
    | none => Plain6 read digits rest s
    | some colonp => Gapped6 read digits rest s colonp

/-- A text that has been read to its end, before the `::` is expanded. -/
def Final6 (text out : List UInt8) : Option Nat → Prop
  | none => TailText text out
  | some colonp => ∃ left right leftBytes rightBytes,
      text = left ++ [byte ':', byte ':'] ++ right ∧ GroupsText left leftBytes ∧
      TailText right rightBytes ∧ out = leftBytes ++ rightBytes ∧ leftBytes.length = colonp

variable {read rest digits : List UInt8} {s s' : Scan6}

theorem Digits6.group (h : Digits6 digits rest s) (hne : digits ≠ []) :
    HexGroup digits (wordBytes s.val) :=
  ⟨hne, h.room, h.hex, by rw [h.value]⟩

theorem Digits6.snoc (h : Digits6 digits (ch :: rest) s) (hch : hexDigitValue ch = some d)
    (hstep : s.digit d = some s') :
    Digits6 (digits ++ [ch]) rest s' ∧ s'.out = s.out ∧ s'.colonp = s.colonp := by
  unfold Scan6.digit at hstep
  simp only [shiftLeft_or (hexDigitValue_lt hch)] at hstep
  split at hstep
  · cases hstep
  · next hfull =>
    split at hstep
    · cases hstep
    · cases hstep
      have hlength := h.length
      have hroom := h.room
      refine ⟨⟨by simp [h.length], ?_, ?_, ?_, by simp [h.curtok]⟩, rfl, rfl⟩
      · simp only [length_append, length_singleton]
        omega
      · intro c hc
        rcases mem_append.1 hc with hc | hc
        · exact h.hex c hc
        · rw [mem_singleton.1 hc, hch]
          rfl
      · rw [map_append, map_singleton, valueOf_append_singleton, h.value]
        simp [hexValue, hch]

theorem Read6.digit (h : Read6 read (ch :: rest) s) (hch : hexDigitValue ch = some d)
    (hstep : s.digit d = some s') : Read6 (read ++ [ch]) rest s' := by
  obtain ⟨hroom, digits, hdigits, hsplit⟩ := h
  obtain ⟨hdigits', hout, hcolonp⟩ := hdigits.snoc hch hstep
  refine ⟨hout ▸ hroom, digits ++ [ch], hdigits', ?_⟩
  rw [hcolonp]
  cases hcolon : s.colonp with
  | none =>
    rw [hcolon] at hsplit
    obtain ⟨parts, groups, hparts, hgroups, rfl, -, -⟩ := hsplit
    exact ⟨parts, groups, hparts, hout ▸ hgroups, by rw [append_assoc], by simp, by simp⟩
  | some colonp =>
    rw [hcolon] at hsplit
    obtain ⟨left, leftBytes, parts, groups, hleft, hlength, hparts, hgroups, rfl, -⟩ := hsplit
    exact ⟨left, leftBytes, parts, groups, hleft, hlength, hparts, hout ▸ hgroups,
      by simp [append_assoc], by simp⟩

/-- Groups with their colons and one more colon are groups and a `::`. -/
theorem flatMap_colon (h : parts ≠ []) : parts.flatMap (· ++ [byte ':']) ++ [byte ':']
      = [byte ':'].intercalate parts ++ [byte ':', byte ':'] := by
  obtain ⟨init, last, rfl⟩ := (eq_nil_or_concat' parts).resolve_left h
  rw [intercalate_append_singleton]
  simp [append_assoc]

theorem length_wordBytes (val : Nat) : (wordBytes val).length = 2 := rfl

theorem Read6.colon (h : Read6 read (byte ':' :: rest) s) (hstep : s.colon rest = some s') :
    Read6 (read ++ [byte ':']) rest s' := by
  obtain ⟨hroom, digits, hdigits, hsplit⟩ := h
  unfold Scan6.colon at hstep
  by_cases hnone : s.xdigits = 0
  · -- the second colon of a `::`
    rw [if_pos hnone] at hstep
    obtain rfl : digits = [] := length_eq_zero_iff.1 (hdigits.length.trans hnone)
    cases hcolon : s.colonp with
    | some colonp => simp [hcolon] at hstep
    | none =>
      rw [hcolon] at hsplit hstep
      simp only [Option.isSome_none, Bool.false_eq_true, if_false, Option.some.injEq] at hstep
      subst hstep
      obtain ⟨parts, groups, hparts, hgroups, rfl, -, hfirst⟩ := hsplit
      have hne : parts ≠ [] := fun hnil => hfirst rfl hnil rfl
      refine ⟨hroom, [], ⟨hdigits.length, hdigits.room, hdigits.hex, hdigits.value, rfl⟩, ?_⟩
      refine ⟨_, _, [], [], ⟨parts, groups, hparts, rfl, rfl⟩,
        by rw [hgroups], .nil, ?_, ?_, fun _ _ => rfl⟩
      · simpa using hgroups
      · simpa using flatMap_colon hne
  · rw [if_neg hnone] at hstep
    split at hstep
    · cases hstep
    · next hmore =>
      split at hstep
      · cases hstep
      · next hspace =>
        cases hstep
        have hne : digits ≠ [] := by
          rintro rfl
          exact hnone hdigits.length.symm
        have hgroup := hdigits.group hne
        refine ⟨?_, [], ⟨rfl, by simp, fun c hc => (nomatch hc), rfl, rfl⟩, ?_⟩
        · simp only [length_append, length_wordBytes]
          omega
        · cases hcolon : s.colonp with
          | none =>
            rw [hcolon] at hsplit
            obtain ⟨parts, groups, hparts, hgroups, rfl, -, -⟩ := hsplit
            refine ⟨parts ++ [digits], groups ++ [wordBytes s.val],
              rel_append hparts (.cons hgroup .nil), ?_, ?_, fun _ => hmore, fun _ h => ?_⟩
            · simp [hgroups]
            · simp
            · simp at h
          | some colonp =>
            rw [hcolon] at hsplit
            obtain ⟨left, leftBytes, parts, groups, hleft, hlength, hparts, hgroups, rfl, -⟩ :=
              hsplit
            refine ⟨left, leftBytes, parts ++ [digits], groups ++ [wordBytes s.val], hleft, hlength,
              rel_append hparts (.cons hgroup .nil), ?_, ?_, fun _ h => absurd h hmore⟩
            · simp [hgroups]
            · simp [append_assoc]

theorem groupsText_append (h : List.Forall₂ HexGroup parts groups) {last : List UInt8}
    (hlast : HexGroup last bytes) :
    GroupsText (parts.flatMap (· ++ [byte ':']) ++ last) (groups.flatten ++ bytes) :=
  ⟨parts ++ [last], groups ++ [bytes], rel_append h (.cons hlast .nil),
    (intercalate_append_singleton _ _ _).symm, by simp⟩

theorem tailText_quad (h : List.Forall₂ HexGroup parts groups) {quad : List UInt8}
    (hquad : Quad quad four) :
    TailText (parts.flatMap (· ++ [byte ':']) ++ quad) (groups.flatten ++ four) :=
  .inr ⟨parts, groups, quad, four, h, hquad, (intercalate_append_singleton _ _ _).symm, rfl⟩

theorem Read6.final (h : Read6 read [] s) (hlast : s.last = some s') :
    Final6 read s'.out s'.colonp ∧ s'.out.length ≤ 16 := by
  obtain ⟨hroom, digits, hdigits, hsplit⟩ := h
  unfold Scan6.last at hlast
  by_cases hnone : s.xdigits > 0
  · rw [if_pos hnone] at hlast
    split at hlast
    · cases hlast
    · next hspace =>
      cases hlast
      have hne : digits ≠ [] := by
        rintro rfl
        rw [← hdigits.length] at hnone
        exact lt_irrefl 0 hnone
      have hgroup := hdigits.group hne
      refine ⟨?_, by simp only [length_append, length_wordBytes]; omega⟩
      cases hcolon : s.colonp with
      | none =>
        rw [hcolon] at hsplit
        obtain ⟨parts, groups, hparts, hgroups, rfl, -, -⟩ := hsplit
        simp only [hgroups]
        exact .inl (groupsText_append hparts hgroup)
      | some colonp =>
        rw [hcolon] at hsplit
        obtain ⟨left, leftBytes, parts, groups, hleft, hlength, hparts, hgroups, rfl, -⟩ := hsplit
        simp only [hgroups]
        exact ⟨left, _, leftBytes, _, rfl, hleft, .inl (groupsText_append hparts hgroup),
          by rw [append_assoc], hlength⟩
  · rw [if_neg hnone] at hlast
    cases hlast
    obtain rfl : digits = [] :=
      length_eq_zero_iff.1 (hdigits.length.trans (Nat.eq_zero_of_not_pos hnone))
    refine ⟨?_, hroom⟩
    cases hcolon : s.colonp with
    | none =>
      rw [hcolon] at hsplit
      obtain ⟨_, _, -, -, -, hmore, -⟩ := hsplit
      exact absurd rfl (hmore rfl)
    | some colonp =>
      rw [hcolon] at hsplit
      obtain ⟨left, leftBytes, parts, groups, hleft, hlength, hparts, hgroups, rfl, hempty⟩ :=
        hsplit
      obtain rfl := hempty rfl rfl
      cases hparts
      exact ⟨left, [], leftBytes, [],
        by simp, hleft, .inl ⟨[], [], .nil, rfl, rfl⟩, hgroups, hlength⟩

/-- A dotted quad ends the text. -/
theorem Read6.quad (h : Read6 read rest s) (hquad : Quad s.curtok four) :
    ∃ text, read ++ rest = text ∧ Final6 text (s.out ++ four) s.colonp := by
  obtain ⟨hroom, digits, hdigits, hsplit⟩ := h
  refine ⟨_, rfl, ?_⟩
  rw [hdigits.curtok] at hquad
  cases hcolon : s.colonp with
  | none =>
    rw [hcolon] at hsplit
    obtain ⟨parts, groups, hparts, hgroups, rfl, -, -⟩ := hsplit
    rw [hgroups, append_assoc]
    exact tailText_quad hparts hquad
  | some colonp =>
    rw [hcolon] at hsplit
    obtain ⟨left, leftBytes, parts, groups, hleft, hlength, hparts, hgroups, rfl, -⟩ := hsplit
    refine ⟨left, _, leftBytes, _, ?_, hleft, tailText_quad hparts hquad, ?_, hlength⟩
    · simp [append_assoc]
    · rw [hgroups, append_assoc]

theorem Quad.length (h : Quad text bytes) : bytes.length = 4 := by
  obtain ⟨_, -, hlength, -⟩ := h
  exact hlength

/-- The scan never leaves an array, and the text that it accepts has the form. -/
theorem scan6_sound (rest : List UInt8) (h : Read6 read rest s) :
    ∃ r, scan6 rest s = .ok r ∧ ∀ s' s'', r = some s' → s'.last = some s'' →
      Final6 (read ++ rest) s''.out s''.colonp ∧ s''.out.length ≤ 16 := by
  induction rest generalizing read s with
  | nil =>
    refine ⟨some s, rfl, ?_⟩
    rintro s' s'' ⟨⟩ hlast
    rw [append_nil]
    exact h.final hlast
  | cons ch rest ih =>
    rw [scan6]
    have hassoc : read ++ ch :: rest = (read ++ [ch]) ++ rest := by simp
    have hnone : ∃ r, (.ok none : Except Fault (Option Scan6)) = .ok r ∧
        ∀ s' s'', r = some s' → s'.last = some s'' →
          Final6 (read ++ ch :: rest) s''.out s''.colonp ∧ s''.out.length ≤ 16 :=
      ⟨none, rfl, fun _ _ h => (nomatch h)⟩
    cases hch : hexDigitValue ch with
    | some d =>
      cases hstep : s.digit d with
      | none => simp [hstep]
      | some s' =>
        simp only [hstep]
        rw [hassoc]
        exact ih (h.digit hch hstep)
    | none =>
      by_cases hcolon : ch = byte ':'
      · subst hcolon
        cases hstep : s.colon rest with
        | none => exact hnone
        | some s' =>
          rw [hassoc]
          exact ih (h.colon hstep)
      · simp only [if_neg hcolon]
        by_cases hdot : ch = byte '.' ∧ s.out.length + 4 ≤ 16
        · rw [if_pos hdot]
          obtain ⟨r, hrun, hsound⟩ := inetPton4_sound s.curtok
          rw [hrun]
          cases r with
          | none => exact hnone
          | some four =>
            refine ⟨_, rfl, ?_⟩
            rintro s' s'' ⟨⟩ hlast
            have hquad := hsound four rfl
            obtain ⟨_, rfl, hfinal⟩ := h.quad hquad
            have hlength := hquad.length
            simp only [Scan6.last, lt_irrefl, if_false, Option.some.injEq] at hlast
            subst hlast
            refine ⟨hfinal, ?_⟩
            simp only [length_append]
            omega
        · rw [if_neg hdot]
          exact hnone

theorem Final6.expand (h : Final6 text s.out s.colonp) (hroom : s.out.length ≤ 16)
    (hexpand : s.expand = some bytes) : Address6 text bytes := by
  unfold Scan6.expand at hexpand
  cases hcolon : s.colonp with
  | none =>
    rw [hcolon] at h hexpand
    simp only [ite_not] at hexpand
    split at hexpand
    · next hlength =>
      cases hexpand
      exact .inl ⟨h, hlength⟩
    · cases hexpand
  | some colonp =>
    rw [hcolon] at h hexpand
    obtain ⟨left, right, leftBytes, rightBytes, htext, hleft, hright, hout, rfl⟩ := h
    simp only at hexpand
    split at hexpand
    · cases hexpand
    · next hlength =>
      cases hexpand
      rw [hout, length_append] at hroom hlength
      refine .inr ⟨left, right, leftBytes, rightBytes, htext, hleft, hright, by omega, ?_⟩
      rw [hout, take_left, drop_left]
      congr 3
      omega

theorem Read6.start (h : ch ≠ byte ':') : Read6 [] (ch :: src) ⟨[], none, ch :: src, 0, 0⟩ where
  room := by simp
  split := ⟨[], ⟨rfl, by simp, fun c hc => (nomatch hc), rfl, rfl⟩, [], [], .nil, rfl, rfl,
    fun _ => cons_ne_nil _ _, fun _ _ hcolon => h (Option.some.inj hcolon)⟩

theorem Read6.startGap (src : List UInt8) :
    Read6 [byte ':', byte ':'] src ⟨[], some 0, src, 0, 0⟩ where
  room := by simp
  split := ⟨[], ⟨rfl, by simp, fun c hc => (nomatch hc), rfl, rfl⟩, [], [], [], [],
    ⟨[], [], .nil, rfl, rfl⟩, rfl, .nil, rfl, rfl, fun _ _ => rfl⟩

/-- The second colon of a leading `::`. -/
theorem scan6_startGap (src : List UInt8) :
    scan6 (byte ':' :: src) ⟨[], none, byte ':' :: src, 0, 0⟩ =
      scan6 src ⟨[], some 0, src, 0, 0⟩ := by
  rfl

theorem finish6_sound (h : ∀ s' s'', r = some s' → s'.last = some s'' →
      Final6 src s''.out s''.colonp ∧ s''.out.length ≤ 16)
    (hbytes : r.bind (fun s => s.last.bind Scan6.expand) = some bytes) : Address6 src bytes := by
  obtain ⟨s', rfl, hlast⟩ := Option.bind_eq_some_iff.1 hbytes
  obtain ⟨s'', hlast, hexpand⟩ := Option.bind_eq_some_iff.1 hlast
  obtain ⟨hfinal, hroom⟩ := h s' s'' rfl hlast
  exact hfinal.expand hroom hexpand

theorem inetPton6_eq {start : List UInt8} (hstart : skipLeading src = some start)
    (hrun : scan6 start ⟨[], none, start, 0, 0⟩ = .ok r) :
    inetPton6 src = .ok (r.bind fun s => s.last.bind Scan6.expand) := by
  rw [inetPton6, hstart]
  simp only [hrun]
  cases r <;> rfl

theorem inetPton6_sound (src : List UInt8) :
    ∃ r, inetPton6 src = .ok r ∧ ∀ bytes, r = some bytes → Address6 src bytes := by
  cases hstart : skipLeading src with
  | none => exact ⟨none, by rw [inetPton6, hstart], fun _ h => (nomatch h)⟩
  | some start =>
    cases src with
    | nil => cases hstart
    | cons ch src =>
      by_cases hcolon : ch = byte ':'
      · subst hcolon
        cases src with
        | nil => cases hstart
        | cons ch' src =>
          by_cases hcolon' : ch' = byte ':'
          · subst hcolon'
            obtain rfl : byte ':' :: src = start := by simpa [skipLeading] using hstart
            obtain ⟨r, hrun, hsound⟩ := scan6_sound src (Read6.startGap src)
            exact ⟨_, inetPton6_eq hstart hrun, fun bytes => finish6_sound hsound⟩
          · simp [skipLeading, hcolon'] at hstart
      · obtain rfl : ch :: src = start := by simpa [skipLeading, hcolon] using hstart
        obtain ⟨r, hrun, hsound⟩ := scan6_sound (ch :: src) (Read6.start hcolon)
        exact ⟨_, inetPton6_eq hstart hrun, fun bytes => finish6_sound hsound⟩

/-! ## What has the form is accepted -/

def fresh (out : List UInt8) (colonp : Option Nat) (text : List UInt8) : Scan6 :=
  ⟨out, colonp, text, 0, 0⟩

theorem scan6_digits (ds rest : List UInt8) (s : Scan6)
    (hds : ∀ ch ∈ ds, (hexDigitValue ch).isSome = true) (hroom : s.xdigits + ds.length ≤ 4)
    (hval : s.val < 16 ^ s.xdigits) :
    scan6 (ds ++ rest) s = scan6 rest { s with
      xdigits := s.xdigits + ds.length
      val := (ds.map hexValue).foldl (fun v d => v * 16 + d) s.val } := by
  induction ds generalizing s with
  | nil => simp
  | cons ch ds ih =>
    obtain ⟨d, hd⟩ := Option.isSome_iff_exists.1 (hds ch mem_cons_self)
    rw [length_cons] at hroom
    have hlt := hexDigitValue_lt hd
    have hnext : s.val * 16 + d < 16 ^ (s.xdigits + 1) := by
      omega
    have hsmall : s.val * 16 + d ≤ 0xffff := by
      have : 16 ^ (s.xdigits + 1) ≤ 16 ^ 4 := Nat.pow_le_pow_right (by decide) (by omega)
      omega
    have hvalue : hexValue ch = d := by simp [hexValue, hd]
    rw [cons_append, scan6, hd]
    simp only [digit6_eq hlt (by omega : s.xdigits < 4) hsmall]
    rw [ih _ (fun c hc => hds c (mem_cons_of_mem _ hc)) (by simp only; omega) hnext]
    simp only [length_cons, map_cons, hvalue]
    congr 2
    omega

theorem scan6_group (h : HexGroup text bytes) (rest out : List UInt8) (colonp : Option Nat)
    (curtok : List UInt8) :
    ∃ val, bytes = wordBytes val ∧ scan6 (text ++ rest) (fresh out colonp curtok)
      = scan6 rest ⟨out, colonp, curtok, text.length, val⟩ := by
  refine ⟨_, h.bytes, ?_⟩
  rw [scan6_digits text rest (fresh out colonp curtok) h.digits
    (by simpa [fresh] using h.length) (by simp [fresh])]
  simp [fresh, valueOf]

theorem scan6_groups (h : List.Forall₂ HexGroup parts groups) {rest : List UInt8}
    (hrest : rest ≠ []) (out : List UInt8) (colonp : Option Nat)
    (hroom : out.length + groups.flatten.length ≤ 16) :
    scan6 (parts.flatMap (· ++ [byte ':']) ++ rest)
        (fresh out colonp (parts.flatMap (· ++ [byte ':']) ++ rest))
      = scan6 rest (fresh (out ++ groups.flatten) colonp rest) := by
  induction h generalizing out with
  | nil => simp
  | @cons text bytes parts groups hgroup _ ih =>
    rw [flatMap_cons, append_assoc, append_assoc]
    rw [flatten_cons, length_append] at hroom
    generalize htail : parts.flatMap (· ++ [byte ':']) ++ rest = tail at ih ⊢
    have hne : tail ≠ [] := by
      rw [← htail]
      simp [hrest]
    obtain ⟨val, rfl, hscan⟩ := scan6_group hgroup ([byte ':'] ++ tail) out colonp
      (text ++ ([byte ':'] ++ tail))
    rw [length_wordBytes] at hroom
    have hlength : text.length ≠ 0 := fun h0 => hgroup.nonempty (length_eq_zero_iff.1 h0)
    rw [hscan, singleton_append, scan6, hexDigitValue_colon]
    simp only [if_true, Scan6.colon, hlength, hne, if_false]
    rw [if_neg (by omega)]
    have hnext := ih (out ++ wordBytes val) (by
      rw [length_append, length_wordBytes]
      omega)
    simpa [fresh] using hnext

theorem DecimalPart.length_le {v : UInt8} (h : DecimalPart text v) : text.length ≤ 3 := by
  obtain ⟨c, cs, rfl⟩ := exists_cons_of_ne_nil h.nonempty
  have hc := h.digits c mem_cons_self
  by_cases hzero : decimalValue c = 0
  · obtain rfl := h.leading cs (by rw [eq_zero_of_decimalValue hc hzero])
    simp
  · have hpow := pow_le_valueOf 10 hzero (cs.map decimalValue)
    rw [← map_cons, h.value, length_map] at hpow
    have hv := v.toNat_lt
    rw [length_cons]
    by_contra hlong
    have : 10 ^ 3 ≤ 10 ^ cs.length := Nat.pow_le_pow_right (by decide) (by omega)
    omega

theorem Quad.split (h : Quad text bytes) :
    ∃ part v rest, DecimalPart part v ∧ text = part ++ byte '.' :: rest := by
  obtain ⟨parts, hparts, hlength, rfl⟩ := h
  match bytes, hlength, hparts with
  | [_, _, _, _], _, .cons (a := p₀) h₀ (.cons (a := p₁) h₁ (.cons (a := p₂) h₂
      (.cons (a := p₃) h₃ .nil))) =>
    refine ⟨p₀, _, [byte '.'].intercalate [p₁, p₂, p₃], h₀, ?_⟩
    simp

/-- A dotted quad at the end: the digits before the first dot are read, and then the whole token is
parsed again. -/
theorem scan6_quad (h : Quad text four) (out : List UInt8) (colonp : Option Nat)
    (hroom : out.length + four.length ≤ 16) :
    ∃ s, scan6 text (fresh out colonp text) = .ok (some s) ∧
      s.last = some s ∧ s.out = out ++ four ∧ s.colonp = colonp := by
  obtain ⟨part, v, rest, hpart, htext⟩ := h.split
  have hcomplete := inetPton4_complete h
  have hdigits : ∀ ch ∈ part, (hexDigitValue ch).isSome = true :=
    fun ch hch => hexDigitValue_of_isDigit (hpart.digits ch hch)
  have hlength := hpart.length_le
  rw [h.length] at hroom
  have hscan := scan6_digits part (byte '.' :: rest) (fresh out colonp text) hdigits
    (by simp only [fresh]; omega) (by simp [fresh])
  rw [← htext] at hscan
  rw [hscan, scan6]
  have hnot : ¬ byte '.' = byte ':' := by decide
  simp only [fresh, true_and, if_pos hroom, hcomplete]
  exact ⟨_, rfl, rfl, rfl, rfl⟩

theorem forall₂_concat {α β : Type} {R : α → β → Prop} {xs : List α} {x : α} {zs : List β}
    (h : List.Forall₂ R (xs ++ [x]) zs) :
    ∃ ys y, zs = ys ++ [y] ∧ List.Forall₂ R xs ys ∧ R x y := by
  induction xs generalizing zs with
  | nil =>
    cases h with
    | cons hx hnil =>
      cases hnil
      exact ⟨[], _, rfl, .nil, hx⟩
  | cons a xs ih =>
    cases h with
    | cons ha hrest =>
      obtain ⟨ys, y, rfl, hxs, hx⟩ := ih hrest
      exact ⟨_ :: ys, y, rfl, .cons ha hxs, hx⟩

theorem scan6_tail (h : TailText text bytes) (out : List UInt8) (colonp : Option Nat)
    (hroom : out.length + bytes.length ≤ 16) :
    ∃ s s', scan6 text (fresh out colonp text) = .ok (some s) ∧ s.last = some s' ∧
      s'.out = out ++ bytes ∧ s'.colonp = colonp := by
  rcases h with
    ⟨parts, groups, hparts, rfl, rfl⟩ | ⟨parts, groups, quad, four, hparts, hquad, rfl, rfl⟩
  · rcases eq_nil_or_concat' parts with rfl | ⟨init, last, rfl⟩
    · cases hparts
      exact ⟨fresh out colonp [], fresh out colonp [], rfl, rfl, by simp [fresh], rfl⟩
    · obtain ⟨groups, bytes, rfl, hinit, hlast⟩ := forall₂_concat hparts
      obtain ⟨val, rfl, hscan⟩ := scan6_group hlast [] (out ++ groups.flatten) colonp last
      rw [append_nil] at hscan
      simp only [flatten_append, flatten_cons, flatten_nil,
        length_append, length_wordBytes] at hroom
      rw [intercalate_append_singleton, scan6_groups hinit hlast.nonempty out colonp (by omega),
        hscan]
      refine ⟨_, ⟨out ++ groups.flatten ++ wordBytes val, colonp, last, last.length, val⟩, rfl, ?_,
        by simp, rfl⟩
      have hpos : last.length > 0 := length_pos_iff.2 hlast.nonempty
      have hfits : ¬ (out ++ groups.flatten).length + 2 > 16 := by
        rw [length_append]
        omega
      simp only [Scan6.last, hpos, if_true, if_neg hfits]
  · rw [intercalate_append_singleton]
    rw [length_append] at hroom
    have hne : quad ≠ [] := by
      obtain ⟨part, v, rest, -, rfl⟩ := hquad.split
      simp
    rw [scan6_groups hparts hne out colonp (by omega)]
    obtain ⟨s, hrun, hlast, hout, hcolon⟩ := scan6_quad hquad (out ++ groups.flatten) colonp
      (by rw [length_append]; omega)
    exact ⟨s, s, hrun, hlast, by rw [hout, append_assoc], hcolon⟩

theorem head?_intercalate (sep : List UInt8) (h : part ≠ []) (parts : List (List UInt8)) :
    (sep.intercalate (part :: parts)).head? = part.head? := by
  cases parts with
  | nil => simp [intercalate]
  | cons next parts =>
    rw [intercalate_cons_of_ne_nil (cons_ne_nil _ _), append_assoc,
      head?_append_of_ne_nil _ h]

theorem skipLeading_of_digit (hne : part ≠ [])
    (hdigits : ∀ ch ∈ part, (hexDigitValue ch).isSome = true) (htext : text.head? = part.head?) :
    skipLeading text = some text := by
  obtain ⟨ch, cs, rfl⟩ := exists_cons_of_ne_nil hne
  cases text with
  | nil => simp at htext
  | cons c text =>
    obtain rfl : c = ch := by simpa using htext
    have hdigit := hdigits c mem_cons_self
    have hcolon : c ≠ byte ':' := by
      rintro rfl
      cases hdigit
    simp [skipLeading, hcolon]

theorem TailText.skipLeading (h : TailText text bytes) (hne : bytes ≠ []) :
    skipLeading text = some text := by
  rcases h with
    ⟨parts, groups, hparts, rfl, rfl⟩ | ⟨parts, groups, quad, four, hparts, hquad, rfl, rfl⟩
  · cases hparts with
    | nil => exact absurd rfl hne
    | cons hgroup _ =>
      exact skipLeading_of_digit hgroup.nonempty hgroup.digits
        (head?_intercalate _ hgroup.nonempty _)
  · cases hparts with
    | nil =>
      obtain ⟨part, v, rest, hpart, rfl⟩ := hquad.split
      refine skipLeading_of_digit hpart.nonempty
        (fun ch hch => hexDigitValue_of_isDigit (hpart.digits ch hch)) ?_
      simp [intercalate, head?_append_of_ne_nil _ hpart.nonempty]
    | cons hgroup _ =>
      exact skipLeading_of_digit hgroup.nonempty hgroup.digits
        (head?_intercalate _ hgroup.nonempty _)

theorem scan6_gap {left right leftBytes rightBytes : List UInt8} (hleft : GroupsText left leftBytes)
    (hright : TailText right rightBytes) (hroom : leftBytes.length + rightBytes.length < 16) :
    ∃ start s s', Inet.skipLeading (left ++ [byte ':', byte ':'] ++ right) = some start ∧
      scan6 start (fresh [] none start) = .ok (some s) ∧ s.last = some s' ∧
      s'.out = leftBytes ++ rightBytes ∧ s'.colonp = some leftBytes.length := by
  obtain ⟨parts, groups, hparts, rfl, rfl⟩ := hleft
  obtain ⟨s, s', hrun, hlast, hout, hcolon⟩ :=
    scan6_tail hright groups.flatten (some groups.flatten.length) (le_of_lt hroom)
  cases hparts with
  | nil =>
    refine ⟨byte ':' :: right, s, s', by simp [Inet.skipLeading], ?_, hlast, hout, hcolon⟩
    exact (scan6_startGap right).trans hrun
  | @cons part group parts groups hgroup hrest =>
    have hparts : List.Forall₂ HexGroup (part :: parts) (group :: groups) := .cons hgroup hrest
    have htext : [byte ':'].intercalate (part :: parts) ++ [byte ':', byte ':'] ++ right
        = (part :: parts).flatMap (· ++ [byte ':']) ++ byte ':' :: right := by
      rw [← flatMap_colon (cons_ne_nil _ _), append_assoc]
      rfl
    have hfirst :
        Inet.skipLeading ([byte ':'].intercalate (part :: parts) ++ [byte ':', byte ':'] ++ right)
        = some ([byte ':'].intercalate (part :: parts) ++ [byte ':', byte ':'] ++ right) := by
      refine skipLeading_of_digit hgroup.nonempty hgroup.digits ?_
      rw [append_assoc, head?_append, head?_intercalate _ hgroup.nonempty]
      obtain ⟨ch, cs, rfl⟩ := exists_cons_of_ne_nil hgroup.nonempty
      rfl
    refine ⟨_, s, s', hfirst, ?_, hlast, hout, hcolon⟩
    rw [htext, scan6_groups hparts (cons_ne_nil _ _) [] none (by simp only [length_nil]; omega),
      scan6]
    exact hrun

theorem inetPton6_complete (h : Address6 src bytes) : inetPton6 src = .ok (some bytes) := by
  rcases h with
    ⟨htail, hlength⟩ | ⟨left, right, leftBytes, rightBytes, rfl, hleft, hright, hroom, rfl⟩
  · have hne : bytes ≠ [] := by
      rintro rfl
      cases hlength
    obtain ⟨s, s', hrun, hlast, hout, hcolon⟩ := scan6_tail htail [] none (by simp [hlength])
    rw [inetPton6_eq (htail.skipLeading hne) hrun]
    simp [hlast, Scan6.expand, hcolon, hout, hlength]
  · obtain ⟨start, s, s', hstart, hrun, hlast, hout, hcolon⟩ := scan6_gap hleft hright hroom
    rw [inetPton6_eq hstart hrun]
    have hlength : ¬ leftBytes.length + rightBytes.length = 16 := by omega
    simp only [Option.bind_some, hlast, Scan6.expand, hcolon, hout, length_append, hlength,
      if_false, take_left, drop_left]
    have hcount : 16 - rightBytes.length - leftBytes.length
        = 16 - leftBytes.length - rightBytes.length := by omega
    rw [hcount]

end SafeLibc.Resolv.Inet
