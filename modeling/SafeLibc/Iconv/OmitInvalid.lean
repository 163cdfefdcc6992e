import SafeLibc.Iconv.Pivot

/-!
# Conversion of invalid input

With `omit_invalid` a conversion never fails, its result is well-formed, and on input that converts
anyway it changes nothing. For UTF-8 the text that is left is given on its own terms (`Salvages`):
characters are read one after another, and where none can be read the maximal subpart of an
ill-formed sequence is passed over, the longest beginning of a character's bytes or one byte.
-/

namespace SafeLibc.Iconv

open SafeLibc.Lib List

variable {bytes x y : List UInt8} {text : List Char} {c : Char}

/-! ## Ill-formed sequences -/

def StartsChar (bytes : List UInt8) : Prop := ∃ c, bytes <+: String.utf8EncodeChar c

/-- Length of the maximal subpart at the start of an ill-formed sequence. -/
structure IsMaximalSubpart (bytes : List UInt8) (n : Nat) : Prop where
  pos : 0 < n
  le : n ≤ bytes.length
  starts : n = 1 ∨ StartsChar (bytes.take n)
  maximal : ∀ m, n < m → m ≤ bytes.length → ¬ StartsChar (bytes.take m)

/-- The characters that are found in the bytes when each ill-formed sequence is passed over. -/
inductive Salvages : List UInt8 → List Char → Prop
  | nil : Salvages [] []
  | char {bytes : List UInt8} {c : Char} {text : List Char} (hfirst : firstUtf8 bytes = some c)
      (h : Salvages (bytes.drop c.utf8Size) text) : Salvages bytes (c :: text)
  | skip {bytes : List UInt8} {n : Nat} {text : List Char} (hfirst : firstUtf8 bytes = none)
      (hn : IsMaximalSubpart bytes n) (h : Salvages (bytes.drop n) text) : Salvages bytes text

variable {a b d : UInt8} {rest : List UInt8} {m : Nat} {error : Utf8Error}

theorem IsMaximalSubpart.unique {n : Nat} (hn : IsMaximalSubpart bytes n)
    (hm : IsMaximalSubpart bytes m) : n = m := by
  have key : ∀ {n m : Nat}, IsMaximalSubpart bytes n → IsMaximalSubpart bytes m → ¬ n < m := by
    intro n m hn hm hlt
    rcases hm.starts with rfl | hstarts
    · exact absurd hn.pos (by omega)
    · exact hn.maximal m hlt hm.le hstarts
  have h1 := key hn hm
  have h2 := key hm hn
  omega

theorem Salvages.unique {text text' : List Char} (h : Salvages bytes text)
    (h' : Salvages bytes text') : text = text' := by
  induction h generalizing text' with
  | nil =>
    cases h' with
    | nil => rfl
    | char hfirst _ => exact absurd (length_drop_lt_of_firstUtf8 hfirst) (Nat.not_lt_zero _)
    | skip _ hn _ => exact absurd hn.le (not_le.2 hn.pos)
  | @char bytes c text hfirst _ ih =>
    cases h' with
    | nil => exact absurd (length_drop_lt_of_firstUtf8 hfirst) (Nat.not_lt_zero _)
    | char hfirst' h' =>
      obtain rfl : c = _ := Option.some.inj (hfirst.symm.trans hfirst')
      rw [ih h']
    | skip hfirst' => cases hfirst.symm.trans hfirst'
  | @skip bytes n text hfirst hn _ ih =>
    cases h' with
    | nil => exact absurd hn.le (not_le.2 hn.pos)
    | char hfirst' => cases hfirst.symm.trans hfirst'
    | skip _ hn' h' =>
      obtain rfl := hn.unique hn'
      exact ih h'

theorem secondByteOk_iff (a b : UInt8) : secondByteOk a b = true ↔
    (0x80 ≤ b.toNat ∧ b.toNat ≤ 0xbf) ∧ (a.toNat = 0xe0 → 0xa0 ≤ b.toNat) ∧
      (a.toNat = 0xed → b.toNat ≤ 0x9f) ∧ (a.toNat = 0xf0 → 0x90 ≤ b.toNat) ∧
      (a.toNat = 0xf4 → b.toNat ≤ 0x8f) := by
  simp only [secondByteOk, ← UInt8.toNat_inj, UInt8.reduceToNat]
  split_ifs <;> simp [UInt8.le_iff_toNat_le] <;> omega

theorem isContinuation_iff (b : UInt8) :
    isContinuation b = true ↔ 0x80 ≤ b.toNat ∧ b.toNat ≤ 0xbf := by
  simp [isContinuation, UInt8.le_iff_toNat_le]

/-- The bytes of a character: their number and the range of the second one follow from the first. -/
theorem utf8EncodeChar_cases (c : Char) :
    (∃ a, String.utf8EncodeChar c = [a]) ∨
      (∃ a b, String.utf8EncodeChar c = [a, b] ∧ 0xc2 ≤ a.toNat ∧ a.toNat ≤ 0xdf) ∨
      (∃ a b d, String.utf8EncodeChar c = [a, b, d] ∧ (0xe0 ≤ a.toNat ∧ a.toNat ≤ 0xef) ∧
        secondByteOk a b = true) ∨
      ∃ a b d e, String.utf8EncodeChar c = [a, b, d, e] ∧ (0xf0 ≤ a.toNat ∧ a.toNat ≤ 0xf4) ∧
        secondByteOk a b = true ∧ isContinuation d = true := by
  have hvalid : c.val.toNat < 0xd800 ∨ 0xdfff < c.val.toNat ∧ c.val.toNat < 0x110000 := c.valid
  simp only [String.utf8EncodeChar, secondByteOk_iff, isContinuation_iff]
  split_ifs
  · exact .inl ⟨_, rfl⟩
  · refine .inr (.inl ⟨_, _, rfl, ?_⟩)
    simp only [UInt8.toNat_ofNat']
    omega
  · refine .inr (.inr (.inl ⟨_, _, _, rfl, ?_⟩))
    simp only [UInt8.toNat_ofNat']
    omega
  · refine .inr (.inr (.inr ⟨_, _, _, _, rfl, ?_⟩))
    simp only [UInt8.toNat_ofNat']
    omega

theorem startsChar_four (ha : 0xf0 ≤ a.toNat ∧ a.toNat ≤ 0xf4) (hb : secondByteOk a b = true)
    (hd : isContinuation d = true) : StartsChar [a, b, d] := by
  rw [secondByteOk_iff] at hb
  rw [isContinuation_iff] at hd
  let n := (a.toNat - 0xf0) * 0x40000 + (b.toNat - 0x80) * 0x1000 + (d.toNat - 0x80) * 0x40
  have hn : (Char.ofNat n).val.toNat = n := toNat_ofNat_of_valid (.inr ⟨by omega, by omega⟩)
  have ha' : UInt8.ofNat (n / 262144 % 8 + 240) = a := ofNat_eq_of_mod (by omega)
  have hb' : UInt8.ofNat (n / 4096 % 64 + 128) = b := ofNat_eq_of_mod (by omega)
  have hd' : UInt8.ofNat (n / 64 % 64 + 128) = d := ofNat_eq_of_mod (by omega)
  refine ⟨Char.ofNat n, ?_⟩
  simp only [String.utf8EncodeChar, hn]
  rw [if_neg (by omega), if_neg (by omega), if_neg (by omega), ha', hb', hd']
  exact ⟨[_], rfl⟩

theorem startsChar_three (ha : 0xe0 ≤ a.toNat ∧ a.toNat ≤ 0xef) (hb : secondByteOk a b = true) :
    StartsChar [a, b] := by
  rw [secondByteOk_iff] at hb
  let n := (a.toNat - 0xe0) * 0x1000 + (b.toNat - 0x80) * 0x40
  have hn : (Char.ofNat n).val.toNat = n := by
    apply toNat_ofNat_of_valid
    omega
  have ha' : UInt8.ofNat (n / 4096 % 16 + 224) = a := ofNat_eq_of_mod (by omega)
  have hb' : UInt8.ofNat (n / 64 % 64 + 128) = b := ofNat_eq_of_mod (by omega)
  refine ⟨Char.ofNat n, ?_⟩
  simp only [String.utf8EncodeChar, hn]
  rw [if_neg (by omega), if_neg (by omega), if_pos (by omega), ha', hb']
  exact ⟨[_], rfl⟩

theorem StartsChar.of_cons_append (h : StartsChar [a, b, d]) : StartsChar [a, b] := by
  obtain ⟨c, hc⟩ := h
  exact ⟨c, (prefix_append [a, b] [d]).trans hc⟩

/-- Where no character can be read, a beginning of one that is longer than a byte lacks its end. -/
theorem startsChar_take (hfirst : firstUtf8 bytes = none) (hm : m ≤ bytes.length) (htwo : 2 ≤ m)
    (h : StartsChar (bytes.take m)) : ∃ a b rest, bytes = a :: b :: rest ∧ secondByteOk a b = true ∧
      ((0xe0 ≤ a.toNat ∧ a.toNat ≤ 0xef) ∧ m = 2 ∨ (0xf0 ≤ a.toNat ∧ a.toNat ≤ 0xf4) ∧
        (m = 2 ∨ m = 3 ∧ ∃ d rest', rest = d :: rest' ∧ isContinuation d = true)) := by
  obtain ⟨c, hc⟩ := h
  have hlen := hc.length_le
  rw [length_take, min_eq_left hm] at hlen
  have hlt : m < (String.utf8EncodeChar c).length := by
    apply Nat.lt_of_le_of_ne hlen
    intro heq
    have htake := hc.eq_of_length (by rw [length_take, min_eq_left hm, heq])
    have hread := firstUtf8_append c (bytes.drop m)
    rw [← htake, take_append_drop, hfirst] at hread
    cases hread
  rcases bytes with _ | ⟨a, _ | ⟨b, rest⟩⟩
  · exact absurd hm (by simp; omega)
  · exact absurd hm (by simp; omega)
  refine ⟨a, b, rest, rfl, ?_⟩
  obtain ⟨m, rfl⟩ : ∃ k, m = k + 2 := ⟨m - 2, by omega⟩
  rw [take_succ_cons, take_succ_cons] at hc
  rcases utf8EncodeChar_cases c with ⟨a', he⟩ | ⟨a', b', he, -⟩ | ⟨a', b', d, he, ha, hb⟩ |
      ⟨a', b', d, e, he, ha, hb, hd⟩
  · simp [he] at hlt
  · exact absurd hlt (by simp [he])
  · rw [he] at hc hlt
    simp only [cons_prefix_cons] at hc
    obtain ⟨rfl, rfl, -⟩ := hc
    exact ⟨hb, .inl ⟨ha, by simp at hlt; omega⟩⟩
  · rw [he] at hc hlt
    simp only [cons_prefix_cons] at hc
    obtain ⟨rfl, rfl, hc⟩ := hc
    refine ⟨hb, .inr ⟨ha, ?_⟩⟩
    rcases Nat.eq_zero_or_pos m with rfl | hpos
    · exact .inl rfl
    · obtain rfl : m = 1 := by simp at hlt; omega
      rcases rest with _ | ⟨d', rest⟩
      · simp at hm
      · obtain ⟨rfl, -⟩ := cons_prefix_cons.1 hc
        exact .inr ⟨rfl, _, _, rfl, hd⟩

theorem isMaximalSubpart_of_not_second (hfirst : firstUtf8 (a :: b :: rest) = none)
    (h : 0xe0 ≤ a.toNat ∧ a.toNat ≤ 0xf4 → secondByteOk a b = false) :
    IsMaximalSubpart (a :: b :: rest) 1 := by
  refine ⟨one_pos, by simp, .inl rfl, ?_⟩
  intro m hm hle hstarts
  obtain ⟨a', b', rest', heq, hok, hcases⟩ := startsChar_take hfirst hle hm hstarts
  cases heq
  rw [h (by omega)] at hok
  cases hok

theorem isMaximalSubpart_singleton (a : UInt8) : IsMaximalSubpart [a] 1 :=
  ⟨one_pos, le_rfl, .inl rfl, fun _ hm hle => absurd hle (not_le.2 hm)⟩

theorem isMaximalSubpart_two (hfirst : firstUtf8 (a :: b :: rest) = none)
    (hok : secondByteOk a b = true)
    (h : (0xe0 ≤ a.toNat ∧ a.toNat ≤ 0xef) ∨ (0xf0 ≤ a.toNat ∧ a.toNat ≤ 0xf4) ∧
      ∀ d ∈ rest.head?, isContinuation d = false) : IsMaximalSubpart (a :: b :: rest) 2 := by
  have hstarts : StartsChar [a, b] := by
    rcases h with ha | ⟨ha, -⟩
    · exact startsChar_three ha hok
    · exact (startsChar_four (d := 0x80) ha hok rfl).of_cons_append
  refine ⟨Nat.two_pos, by simp, .inr hstarts, ?_⟩
  intro m hm hle hmore
  obtain ⟨a', b', rest', heq, -, hcases⟩ := startsChar_take hfirst hle (le_of_lt hm) hmore
  cases heq
  rcases hcases with ⟨-, rfl⟩ | ⟨ha, rfl | ⟨rfl, d, rest', rfl, hd⟩⟩
  · exact absurd hm (lt_irrefl 2)
  · exact absurd hm (lt_irrefl 2)
  · rcases h with ha' | ⟨-, hnot⟩
    · omega
    · rw [hnot d rfl] at hd
      cases hd

theorem isMaximalSubpart_three (hfirst : firstUtf8 (a :: b :: d :: rest) = none)
    (ha : 0xf0 ≤ a.toNat ∧ a.toNat ≤ 0xf4) (hok : secondByteOk a b = true)
    (hd : isContinuation d = true) : IsMaximalSubpart (a :: b :: d :: rest) 3 := by
  refine ⟨by decide, by simp, .inr (startsChar_four ha hok hd), ?_⟩
  intro m hm hle hmore
  obtain ⟨a', b', rest', heq, -, hcases⟩ := startsChar_take hfirst hle (by omega) hmore
  omega

/-- **`error_len` is the maximal subpart**; without one it is all that is left. -/
theorem isMaximalSubpart_errorLen (hfirst : firstUtf8 bytes = none) (hne : bytes ≠ []) :
    IsMaximalSubpart bytes ((utf8ErrorLen bytes).getD bytes.length) := by
  have hrange : ∀ a b : UInt8, a ≤ b ↔ a.toNat ≤ b.toNat := fun a b => UInt8.le_iff_toNat_le
  obtain ⟨a, rest, rfl⟩ := exists_cons_of_ne_nil hne
  rcases rest with _ | ⟨b, rest⟩
  · have hlen : (utf8ErrorLen [a]).getD 1 = 1 := by
      simp only [utf8ErrorLen]
      split_ifs <;> rfl
    rw [length_singleton, hlen]
    exact isMaximalSubpart_singleton a
  simp only [utf8ErrorLen, hrange, UInt8.reduceToNat]
  by_cases h2 : 0xc2 ≤ a.toNat ∧ a.toNat ≤ 0xdf
  · rw [if_pos h2]
    exact isMaximalSubpart_of_not_second hfirst (by omega)
  rw [if_neg h2]
  by_cases h3 : 0xe0 ≤ a.toNat ∧ a.toNat ≤ 0xef
  · rw [if_pos h3]
    cases hok : secondByteOk a b with
    | false =>
      have hone := isMaximalSubpart_of_not_second hfirst fun _ => hok
      cases rest <;> simpa [hok] using hone
    | true =>
      have htwo := isMaximalSubpart_two hfirst hok (.inl h3)
      cases rest <;> simpa [hok] using htwo
  rw [if_neg h3]
  by_cases h4 : 0xf0 ≤ a.toNat ∧ a.toNat ≤ 0xf4
  · rw [if_pos h4]
    cases hok : secondByteOk a b with
    | false =>
      have hone := isMaximalSubpart_of_not_second hfirst fun _ => hok
      rcases rest with _ | ⟨d, _ | ⟨e, rest⟩⟩ <;> simpa [hok] using hone
    | true =>
      rcases rest with _ | ⟨d, rest⟩
      · simpa [hok] using isMaximalSubpart_two hfirst hok (.inr ⟨h4, by simp⟩)
      · cases hd : isContinuation d with
        | false =>
          have htwo := isMaximalSubpart_two hfirst hok (.inr ⟨h4, by simpa using hd⟩)
          cases rest <;> simpa [hok, hd] using htwo
        | true =>
          have hthree := isMaximalSubpart_three hfirst h4 hok hd
          cases rest <;> simpa [hok, hd] using hthree
  rw [if_neg h4]
  exact isMaximalSubpart_of_not_second hfirst (by omega)

/-! ## The loop over UTF-8 -/

theorem firstUtf8_validUtf8 (bytes : List UInt8) : firstUtf8 (validUtf8 bytes).2 = none := by
  fun_induction validUtf8 bytes with
  | case1 bytes h => exact h
  | case2 bytes c h text rest hval ih => rwa [hval] at ih

/-- The well-formed beginning is kept, whatever is done with the rest. -/
theorem salvages_validUtf8 (h : Salvages (validUtf8 bytes).2 text) :
    Salvages bytes ((validUtf8 bytes).1 ++ text) := by
  fun_induction validUtf8 bytes with
  | case1 bytes _ => exact h
  | case2 bytes c hfirst valid rest hval ih =>
    rw [hval] at ih
    exact .char hfirst (ih h)

theorem salvages_of_validUtf8 (h : validUtf8 bytes = (text, [])) : Salvages bytes text := by
  have hrest : Salvages (validUtf8 bytes).2 [] := by
    rw [h]
    exact .nil
  simpa [h] using salvages_validUtf8 hrest

theorem fromUtf8_error (h : fromUtf8 bytes = .error error) :
    (validUtf8 bytes).2 ≠ [] ∧ error.errorLen = utf8ErrorLen (validUtf8 bytes).2 ∧
      bytes.drop error.validUpTo = (validUtf8 bytes).2 ∧
      fromUtf8 (bytes.take error.validUpTo) = .ok (validUtf8 bytes).1 := by
  have hbytes := encodeUtf8_validUtf8 bytes
  unfold fromUtf8 at h
  split at h
  · cases h
  · next valid rest hrest hval =>
    cases h
    rw [hval] at hbytes ⊢
    dsimp only at hbytes ⊢
    have hlen : bytes.length - rest.length = (encodeUtf8 valid).length := by
      rw [← hbytes, length_append]
      omega
    refine ⟨by simpa using hrest, rfl, ?_, ?_⟩
    · rw [hlen, ← hbytes, drop_left]
    · rw [hlen, ← hbytes, take_left, fromUtf8_eq_ok_iff, validUtf8_encodeUtf8]

/-- The next turn starts behind the maximal subpart. -/
theorem fromUtf8_advance (h : fromUtf8 bytes = .error error) :
    ∃ n, IsMaximalSubpart (validUtf8 bytes).2 n ∧
      min (error.validUpTo + error.errorLen.getD (bytes.length - error.validUpTo)) bytes.length =
        error.validUpTo + n := by
  obtain ⟨hne, hlen, hdrop, -⟩ := fromUtf8_error h
  have hsub := isMaximalSubpart_errorLen (firstUtf8_validUtf8 bytes) hne
  have hrest := congrArg List.length hdrop
  rw [length_drop] at hrest
  refine ⟨_, hsub, ?_⟩
  rw [hlen, hrest]
  have hle := hsub.le
  have hpos := length_pos_of_ne_nil hne
  omega

/-- **The loop ends with the characters that can be found**, each turn gets past an ill-formed
sequence. -/
theorem decodeUtf8Omit_salvages (remaining : List UInt8) (output : List Char) :
    ∃ text, decodeUtf8Omit remaining output = .ok (output ++ text) ∧ Salvages remaining text := by
  fun_induction decodeUtf8Omit remaining output with
  | case1 output => exact ⟨[], by rw [append_nil], .nil⟩
  | case2 remaining output _ valid hvalid =>
    exact ⟨valid, rfl, salvages_of_validUtf8 (fromUtf8_eq_ok_iff.1 hvalid)⟩
  | case3 remaining output _ error herror error' herror' =>
    rw [(fromUtf8_error herror).2.2.2] at herror'
    cases herror'
  | case4 remaining output _ error herror valid hvalid advance next hnext =>
    obtain ⟨n, hn, hnext'⟩ := fromUtf8_advance herror
    have hpos := hn.pos
    omega
  | case5 remaining output _ error herror valid hvalid advance next hnext ih =>
    obtain ⟨-, -, hdrop, htake⟩ := fromUtf8_error herror
    obtain ⟨n, hn, hnext'⟩ := fromUtf8_advance herror
    obtain ⟨text, htext, hsalvages⟩ := ih
    obtain rfl : _ = valid := Except.ok.inj (htake.symm.trans hvalid)
    refine ⟨(validUtf8 remaining).1 ++ text, ?_, ?_⟩
    · rw [htext, append_assoc]
    · rw [show next = error.validUpTo + n from hnext', ← drop_drop, hdrop] at hsalvages
      exact salvages_validUtf8 (.skip (firstUtf8_validUtf8 remaining) hn hsalvages)

/-! ## Every encoding -/

def omitting : ConversionOptions := ⟨true⟩

theorem decodeAscii_true (x : List UInt8) :
    decodeAscii x true = .ok ((x.filter fun b => b.toNat ≤ 0x7f).map byteChar) := by
  induction x with
  | nil => rfl
  | cons b x ih =>
    unfold decodeAscii
    split
    · next hb =>
      have hle : b.toNat ≤ 0x7f := Nat.le_of_lt_succ hb
      simp [ih, hle, Except.map]
    · next hb =>
      have hle : ¬ b.toNat ≤ 0x7f := fun h => hb (Nat.lt_succ_of_le h)
      simpa [hle] using ih

theorem encodeSingleByte_true (limit : Nat) (charset : String) (text : List Char) :
    encodeSingleByte limit charset true text =
      .ok ((text.filter fun c => c.toNat ≤ limit).map fun c => UInt8.ofNat c.toNat) := by
  induction text with
  | nil => rfl
  | cons c text ih =>
    unfold encodeSingleByte
    split
    · next hc => simp [ih, hc, Except.map]
    · next hc => simpa [hc] using ih

theorem collectUtf16_true (items : List (Except UInt16 Char)) :
    collectUtf16 true items = .ok (items.filterMap Except.toOption) := by
  induction items with
  | nil => rfl
  | cons item items ih =>
    cases item with
    | error u => exact ih
    | ok c =>
      rw [collectUtf16, ih]
      rfl

theorem decodeUtf16Bytes_true (x : List UInt8) (littleEndian : Bool) :
    decodeUtf16Bytes x littleEndian true =
      .ok ((decodeUtf16 (readUnits littleEndian x).1).filterMap Except.toOption) := by
  rw [← collectUtf16_true]
  simp [decodeUtf16Bytes]

theorem decodeUtf16Bytes_of_strict {littleEndian : Bool}
    (h : decodeUtf16Bytes x littleEndian false = .ok text) :
    decodeUtf16Bytes x littleEndian true = .ok text := by
  rw [decodeUtf16Bytes_eq_ok_iff, encodeUtf16Bytes, ← readUnits_eq_iff] at h
  rw [decodeUtf16Bytes_true, h, decodeUtf16_eq_map_ok_iff.2 rfl]
  simp [Function.comp_def, Except.toOption]

theorem decodeToString_omitting (x : List UInt8) (e : Encoding) :
    ∃ text, decodeToString x e omitting = .ok text := by
  cases e with
  | utf8 =>
    obtain ⟨text, htext, -⟩ := decodeUtf8Omit_salvages x []
    exact ⟨text, htext⟩
  | ascii => exact ⟨_, decodeAscii_true x⟩
  | latin1 => exact ⟨_, rfl⟩
  | utf16Le => exact ⟨_, decodeUtf16Bytes_true x true⟩
  | utf16Be => exact ⟨_, decodeUtf16Bytes_true x false⟩

theorem decodeToString_of_strict {e : Encoding} (h : decodeToString x e strict = .ok text) :
    decodeToString x e omitting = .ok text := by
  cases e with
  | utf8 =>
    obtain ⟨text', htext', hsalvages⟩ := decodeUtf8Omit_salvages x []
    have hval := validUtf8_eq_iff.2 (decodeUtf8_eq_ok_iff.1 h)
    obtain rfl : text = text' := (salvages_of_validUtf8 hval).unique hsalvages
    exact htext'
  | ascii =>
    obtain ⟨rfl, hall⟩ := decodeAscii_eq_ok_iff.1 h
    change decodeAscii x true = _
    rw [decodeAscii_true, filter_eq_self.2 fun b hb => decide_eq_true (hall b hb)]
  | latin1 => exact h
  | utf16Le | utf16Be => exact decodeUtf16Bytes_of_strict h

/-- What an encoder writes without the characters that it lacks. -/
theorem encodeFromString_omitting (text : List Char) (e : Encoding) :
    ∃ y kept, encodeFromString text e omitting = .ok y ∧
      encodeFromString kept e strict = .ok y ∧
      ∀ z, encodeFromString text e strict = .ok z → kept = text := by
  have hsingle : ∀ (limit : Nat) (charset : String), limit ≤ 0xff →
      ∃ y kept, encodeSingleByte limit charset true text = .ok y ∧
        encodeSingleByte limit charset false kept = .ok y ∧
        ∀ z, encodeSingleByte limit charset false text = .ok z → kept = text := by
    intro limit charset hlimit
    have hkept : ∀ c ∈ text.filter fun c => c.toNat ≤ limit, c.toNat ≤ limit := fun c hc =>
      of_decide_eq_true (mem_filter.1 hc).2
    refine ⟨_, text.filter fun c => c.toNat ≤ limit, encodeSingleByte_true limit charset text,
      (encodeSingleByte_eq_ok_iff hlimit).2 ⟨?_, ?_⟩, ?_⟩
    · rw [map_map]
      conv_rhs => rw [← map_id (text.filter _)]
      exact map_congr_left fun c hc =>
        byteChar_ofNat_toNat (le_trans (hkept c hc) hlimit)
    · intro b hb
      obtain ⟨c, hc, rfl⟩ := mem_map.1 hb
      exact le_trans (Nat.mod_le _ _) (hkept c hc)
    · intro z hz
      obtain ⟨rfl, hall⟩ := (encodeSingleByte_eq_ok_iff hlimit).1 hz
      refine filter_eq_self.2 fun c hc => ?_
      obtain ⟨b, hb, rfl⟩ := mem_map.1 hc
      rw [toNat_byteChar]
      exact decide_eq_true (hall b hb)
  cases e with
  | utf8 | utf16Le => exact ⟨_, text, rfl, rfl, fun _ _ => rfl⟩
  | ascii => exact hsingle 0x7f _ (by decide)
  | latin1 => exact hsingle 0xff _ (by decide)
  | utf16Be => exact ⟨_, text, rfl, rfl, fun _ _ => rfl⟩

/-! ## Conversions -/

theorem convertBytes_omitting {a b : List Char} {ea eb : Encoding} (ha : parseEncoding a = .ok ea)
    (hb : parseEncoding b = .ok eb) (hne : ea ≠ eb) (x : List UInt8) (opts : ConversionOptions) :
    convertBytes x a b opts = (decodeToString x ea opts).bind (encodeFromString · eb opts) := by
  simp only [convertBytes, ha, hb, hne, bind, Except.bind, if_false]

/-- **Conversion with `omit_invalid`** between distinct encodings: it succeeds, as the strict one
does where that succeeds, its result decodes, and from UTF-8 exactly the ill-formed sequences are
gone. -/
theorem convertBytes_omit {a b : List Char} {ea eb : Encoding} (ha : parseEncoding a = .ok ea)
    (hb : parseEncoding b = .ok eb) (hne : ea ≠ eb) (x : List UInt8) :
    ∃ y, convertBytes x a b ⟨true⟩ = .ok y ∧
      (∀ z, convertBytes x a b ⟨false⟩ = .ok z → z = y) ∧
      (∃ text, decodeToString y eb ⟨false⟩ = .ok text) ∧
      (ea = .utf8 → ∃ text, decodeToString x .utf8 ⟨true⟩ = .ok text ∧
        encodeFromString text eb ⟨true⟩ = .ok y ∧ ∀ t, Salvages x t ↔ t = text) := by
  obtain ⟨text, htext⟩ := decodeToString_omitting x ea
  obtain ⟨y, kept, hy, hkept, hall⟩ := encodeFromString_omitting text eb
  simp only [convertBytes_omitting ha hb hne]
  refine ⟨y, ?_, ?_, ⟨kept, (decodeToString_eq_ok_iff eb).2 hkept⟩, ?_⟩
  · rw [show decodeToString x ea ⟨true⟩ = .ok text from htext]
    exact hy
  · intro z hz
    cases hstrict : decodeToString x ea ⟨false⟩ with
    | error e =>
      rw [hstrict] at hz
      cases hz
    | ok text' =>
      obtain rfl : text' = text :=
        Except.ok.inj ((decodeToString_of_strict hstrict).symm.trans htext)
      rw [hstrict] at hz
      obtain rfl := hall z hz
      exact Except.ok.inj (Eq.trans (Eq.symm hz) hkept)
  · rintro rfl
    obtain ⟨text', htext', hsalvages⟩ := decodeUtf8Omit_salvages x []
    obtain rfl : text' = text := Except.ok.inj (htext'.symm.trans htext)
    refine ⟨text', htext, hy, fun t => ⟨fun ht => ht.unique hsalvages, ?_⟩⟩
    rintro rfl
    exact hsalvages

theorem convertBytes_omit_ascii :
    ∃ y, convertBytes [0x61, 0xf0, 0x28, 0x8c, 0x28, 0x62] "UTF-8".toList "ASCII".toList ⟨true⟩ =
      .ok y := by
  have hsource : parseEncoding "UTF-8".toList = .ok .utf8 := by decide +kernel
  have htarget : parseEncoding "ASCII".toList = .ok .ascii := by decide +kernel
  obtain ⟨y, hy, -⟩ :=
    convertBytes_omit hsource htarget (by decide) [0x61, 0xf0, 0x28, 0x8c, 0x28, 0x62]
  exact ⟨y, hy⟩

/-- **The shortcut for equal encodings** is the general path exactly on the input that decodes. -/
theorem convertBytes_same_iff {a b : List Char} {e : Encoding} (ha : parseEncoding a = .ok e)
    (hb : parseEncoding b = .ok e) (x : List UInt8) (opts : ConversionOptions) :
    convertBytes x a b opts = (decodeToString x e opts).bind (encodeFromString · e opts) ↔
      ∃ text, decodeToString x e ⟨false⟩ = .ok text := by
  have hshort : convertBytes x a b opts = .ok x := by
    simp only [convertBytes, ha, hb]
    exact if_pos rfl
  rw [hshort]
  obtain ⟨omitInvalid⟩ := opts
  constructor
  · intro h
    cases hdecode : decodeToString x e ⟨omitInvalid⟩ with
    | error error =>
      rw [hdecode] at h
      cases h
    | ok text =>
      rw [hdecode] at h
      cases omitInvalid with
      | false => exact ⟨text, hdecode⟩
      | true =>
        obtain ⟨y, kept, hy, hkept, -⟩ := encodeFromString_omitting text e
        obtain rfl : x = y := Except.ok.inj (h.trans hy)
        exact ⟨kept, (decodeToString_eq_ok_iff e).2 hkept⟩
  · rintro ⟨text, htext⟩
    have hencode := (decodeToString_eq_ok_iff e).1 htext
    cases omitInvalid with
    | false =>
      rw [htext]
      exact hencode.symm
    | true =>
      obtain ⟨y, kept, hy, hkept, hall⟩ := encodeFromString_omitting text e
      obtain rfl := hall x hencode
      rw [show decodeToString x e ⟨true⟩ = .ok kept from decodeToString_of_strict htext]
      exact hencode.symm.trans (hkept.trans hy.symm)

/-- Characters of two, three and four bytes. -/
theorem convertBytes_same_iff_utf8 :
    let bytes : List UInt8 := [0xc3, 0xa9, 0xe2, 0x82, 0xac, 0xf0, 0x9f, 0x98, 0x80]
    decodeToString bytes .utf8 ⟨false⟩ = .ok ['é', '€', '😀'] ∧
      convertBytes bytes "UTF-8".toList "utf8".toList ⟨true⟩ =
        (decodeToString bytes .utf8 ⟨true⟩).bind (encodeFromString · .utf8 ⟨true⟩) := by
  intro bytes
  have hsource : parseEncoding "UTF-8".toList = .ok .utf8 := by decide +kernel
  have htarget : parseEncoding "utf8".toList = .ok .utf8 := by decide +kernel
  have hdecode : decodeToString bytes .utf8 ⟨false⟩ = .ok ['é', '€', '😀'] := by decide +kernel
  exact ⟨hdecode, (convertBytes_same_iff hsource htarget bytes ⟨true⟩).2 ⟨_, hdecode⟩⟩

/-- A byte that is no UTF-8 passes from UTF-8 to UTF-8, where the general path refuses it, or drops
it. -/
theorem convertBytes_same_invalid :
    (∀ omitInvalid, convertBytes [0xff] "UTF-8".toList "utf8".toList ⟨omitInvalid⟩ = .ok [0xff]) ∧
      (decodeToString [0xff] .utf8 ⟨false⟩).isOk = false ∧
      (decodeToString [0xff] .utf8 ⟨true⟩).bind (encodeFromString · .utf8 ⟨true⟩) = .ok [] := by
  decide +kernel

end SafeLibc.Iconv
