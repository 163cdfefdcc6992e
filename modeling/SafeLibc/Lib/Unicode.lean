import Mathlib.Tactic.Ring

/-!
# UTF-8 and UTF-16 over lists

A text is a list of scalar values. UTF-8 is the standard library's per-character codec, iterated:
`validUtf8 bytes` is the text of the longest well-formed beginning, with the bytes it stops at.
UTF-16 is written and read unit by unit; a lone surrogate reads as an error that carries it.
Each reader accepts exactly what the writer of its form produces (`validUtf8_eq_iff`,
`decodeUtf16_eq_map_ok_iff`). A `Codec` is such a pair of a reader and a writer.
-/

namespace SafeLibc.Lib

open List

/-! ## UTF-8 -/

def encodeUtf8 (text : List Char) : List UInt8 :=
  text.flatMap String.utf8EncodeChar

def firstUtf8 (bytes : List UInt8) : Option Char :=
  bytes.toByteArray.utf8DecodeChar? 0

theorem firstUtf8_append (c : Char) (bytes : List UInt8) :
    firstUtf8 (String.utf8EncodeChar c ++ bytes) = some c := by
  rw [firstUtf8, toByteArray_append]
  exact ByteArray.utf8DecodeChar?_utf8EncodeChar_append

variable {bytes : List UInt8} {c : Char} {text : List Char} {u : UInt16} {units : List UInt16}

theorem eq_append_of_firstUtf8 (h : firstUtf8 bytes = some c) :
    bytes = String.utf8EncodeChar c ++ bytes.drop c.utf8Size := by
  obtain ⟨rest, hrest⟩ := ByteArray.exists_of_utf8DecodeChar?_eq_some h
  have hlist := congrArg (fun b => b.data.toList) hrest
  simp only [data_toByteArray, ByteArray.data_append, Array.toList_append] at hlist
  have hdrop : bytes.drop c.utf8Size = rest.data.toList := by
    rw [hlist, ← String.length_utf8EncodeChar c, drop_left]
  rw [hdrop, hlist]

theorem length_drop_lt_of_firstUtf8 (h : firstUtf8 bytes = some c) :
    (bytes.drop c.utf8Size).length < bytes.length := by
  have hlen := congrArg List.length (eq_append_of_firstUtf8 h)
  rw [length_append, String.length_utf8EncodeChar] at hlen
  have hpos := c.utf8Size_pos
  omega

/-- The longest beginning of `bytes` that is well-formed UTF-8, as text, and the bytes after it. -/
def validUtf8 (bytes : List UInt8) : List Char × List UInt8 :=
  match _h : firstUtf8 bytes with
  | none => ([], bytes)
  | some c =>
    let (text, rest) := validUtf8 (bytes.drop c.utf8Size)
    (c :: text, rest)
termination_by bytes.length
decreasing_by exact length_drop_lt_of_firstUtf8 ‹_›

theorem validUtf8_none (h : firstUtf8 bytes = none) : validUtf8 bytes = ([], bytes) := by
  rw [validUtf8]
  split <;> simp_all

theorem validUtf8_some (h : firstUtf8 bytes = some c) : validUtf8 bytes =
      (c :: (validUtf8 (bytes.drop c.utf8Size)).1, (validUtf8 (bytes.drop c.utf8Size)).2) := by
  rw [validUtf8]
  split <;> simp_all

theorem validUtf8_encodeUtf8 (text : List Char) : validUtf8 (encodeUtf8 text) = (text, []) := by
  induction text with
  | nil => exact validUtf8_none rfl
  | cons c text ih =>
    have hfirst : firstUtf8 (encodeUtf8 (c :: text)) = some c := firstUtf8_append c _
    have hdrop : (encodeUtf8 (c :: text)).drop c.utf8Size = encodeUtf8 text := by
      rw [encodeUtf8, flatMap_cons, ← String.length_utf8EncodeChar c, drop_left]
      rfl
    rw [validUtf8_some hfirst, hdrop, ih]

/-- The text that was read, written again, gives the bytes that were read. -/
theorem encodeUtf8_validUtf8 (bytes : List UInt8) :
    encodeUtf8 (validUtf8 bytes).1 ++ (validUtf8 bytes).2 = bytes := by
  fun_induction validUtf8 bytes with
  | case1 bytes h => rfl
  | case2 bytes c h text rest hval ih =>
    rw [hval] at ih
    change (String.utf8EncodeChar c ++ encodeUtf8 text) ++ rest = bytes
    rw [append_assoc, ih]
    exact (eq_append_of_firstUtf8 h).symm

theorem validUtf8_eq_iff : validUtf8 bytes = (text, []) ↔ encodeUtf8 text = bytes := by
  constructor
  · intro h
    have hbytes := encodeUtf8_validUtf8 bytes
    rwa [h, append_nil] at hbytes
  · rintro rfl
    exact validUtf8_encodeUtf8 text

/-! ## UTF-16 -/

/-- The units of one character: itself, or a surrogate pair. -/
def utf16EncodeChar (c : Char) : List UInt16 :=
  if c.toNat < 0x10000 then [UInt16.ofNat c.toNat]
  else
    let code := c.toNat - 0x10000
    [UInt16.ofNat (0xd800 + code / 0x400), UInt16.ofNat (0xdc00 + code % 0x400)]

def encodeUtf16 (text : List Char) : List UInt16 :=
  text.flatMap utf16EncodeChar

/-- The characters of a sequence of units, and its lone surrogates, in order. -/
def decodeUtf16 : List UInt16 → List (Except UInt16 Char)
  | [] => []
  | u :: [] =>
    if 0xd800 ≤ u.toNat ∧ u.toNat ≤ 0xdfff then [.error u] else [.ok (Char.ofNat u.toNat)]
  | u :: u2 :: units =>
    if ¬(0xd800 ≤ u.toNat ∧ u.toNat ≤ 0xdfff) then
      .ok (Char.ofNat u.toNat) :: decodeUtf16 (u2 :: units)
    else if 0xdc00 ≤ u.toNat then .error u :: decodeUtf16 (u2 :: units)
    -- a high surrogate takes the next unit only if that is a low one
    else if u2.toNat < 0xdc00 ∨ 0xdfff < u2.toNat then .error u :: decodeUtf16 (u2 :: units)
    else
      .ok (Char.ofNat ((u.toNat % 0x400) * 0x400 + u2.toNat % 0x400 + 0x10000)) ::
        decodeUtf16 units

theorem toNat_ofNat_of_valid {n : Nat} (h : n.isValidChar) : (Char.ofNat n).toNat = n := by
  rw [Char.ofNat, dif_pos h]
  rfl

/-- A character is read back from its units, and the units after them are read on their own. -/
theorem decodeUtf16_append (c : Char) (units : List UInt16) :
    decodeUtf16 (utf16EncodeChar c ++ units) = .ok c :: decodeUtf16 units := by
  have hvalid : c.toNat < 0xd800 ∨ 0xdfff < c.toNat ∧ c.toNat < 0x110000 := c.valid
  unfold utf16EncodeChar
  split
  · next hsmall =>
    have hunit : (UInt16.ofNat c.toNat).toNat = c.toNat := by
      rw [UInt16.toNat_ofNat']
      omega
    have hplain : ¬(0xd800 ≤ c.toNat ∧ c.toNat ≤ 0xdfff) := by omega
    cases units with
    | nil | cons u units => simp [decodeUtf16, hunit, hplain]
  · next hlarge =>
    have hhigh : (UInt16.ofNat (0xd800 + (c.toNat - 0x10000) / 0x400)).toNat =
        0xd800 + (c.toNat - 0x10000) / 0x400 := by
      rw [UInt16.toNat_ofNat']
      omega
    have hlow : (UInt16.ofNat (0xdc00 + (c.toNat - 0x10000) % 0x400)).toNat =
        0xdc00 + (c.toNat - 0x10000) % 0x400 := by
      rw [UInt16.toNat_ofNat']
      omega
    have hcode : (0xd800 + (c.toNat - 0x10000) / 0x400) % 0x400 * 0x400 +
        (0xdc00 + (c.toNat - 0x10000) % 0x400) % 0x400 + 0x10000 = c.toNat := by
      omega
    simp only [cons_append, nil_append, decodeUtf16, hhigh, hlow, hcode, Char.ofNat_toNat]
    rw [if_neg (by omega), if_neg (by omega), if_neg (by omega)]

theorem decodeUtf16_encodeUtf16 (text : List Char) :
    decodeUtf16 (encodeUtf16 text) = text.map .ok := by
  induction text with
  | nil => rfl
  | cons c text ih =>
    rw [encodeUtf16, flatMap_cons, decodeUtf16_append]
    exact congrArg _ ih

theorem utf16EncodeChar_ofNat (h : ¬(0xd800 ≤ u.toNat ∧ u.toNat ≤ 0xdfff)) :
    utf16EncodeChar (Char.ofNat u.toNat) = [u] := by
  have hu : u.toNat < 0x10000 := u.toNat_lt
  have hvalid : u.toNat.isValidChar := by
    omega
  rw [utf16EncodeChar, toNat_ofNat_of_valid hvalid, if_pos hu, UInt16.ofNat_toNat]

theorem utf16EncodeChar_pair {u2 : UInt16} (hu : 0xd800 ≤ u.toNat ∧ u.toNat < 0xdc00)
    (hu2 : 0xdc00 ≤ u2.toNat ∧ u2.toNat ≤ 0xdfff) :
    utf16EncodeChar (Char.ofNat ((u.toNat % 0x400) * 0x400 + u2.toNat % 0x400 + 0x10000)) =
      [u, u2] := by
  have hvalid : ((u.toNat % 0x400) * 0x400 + u2.toNat % 0x400 + 0x10000).isValidChar := by
    omega
  have hhigh : 0xd800 + ((u.toNat % 0x400) * 0x400 + u2.toNat % 0x400 + 0x10000 - 0x10000) / 0x400 =
      u.toNat := by omega
  have hlow : 0xdc00 + ((u.toNat % 0x400) * 0x400 + u2.toNat % 0x400 + 0x10000 - 0x10000) % 0x400 =
      u2.toNat := by omega
  rw [utf16EncodeChar, toNat_ofNat_of_valid hvalid, if_neg (by omega)]
  simp only [hhigh, hlow, UInt16.ofNat_toNat]

/-- Units without a lone surrogate are the units of the text they read as. -/
theorem encodeUtf16_of_decodeUtf16 (h : decodeUtf16 units = text.map .ok) :
    encodeUtf16 text = units := by
  fun_induction decodeUtf16 units generalizing text with
  | case1 =>
    obtain rfl := map_eq_nil_iff.mp h.symm
    rfl
  | case2 u hu => cases text <;> simp at h
  | case3 u hu =>
    obtain ⟨c, rest, rfl, hc, hrest⟩ := map_eq_cons_iff.mp h.symm
    obtain rfl := map_eq_nil_iff.mp hrest
    rw [← Except.ok.inj hc.symm]
    exact (append_nil _).trans (utf16EncodeChar_ofNat hu)
  | case4 u u2 units hu ih =>
    obtain ⟨c, rest, rfl, hc, hrest⟩ := map_eq_cons_iff.mp h.symm
    rw [encodeUtf16, flatMap_cons, ← Except.ok.inj hc.symm, utf16EncodeChar_ofNat hu]
    exact congrArg _ (ih hrest.symm)
  | case5 u u2 units hu hlow ih => cases text <;> simp at h
  | case6 u u2 units hu hlow hnext ih => cases text <;> simp at h
  | case7 u u2 units hu hlow hnext ih =>
    obtain ⟨c, rest, rfl, hc, hrest⟩ := map_eq_cons_iff.mp h.symm
    rw [encodeUtf16, flatMap_cons, ← Except.ok.inj hc.symm,
      utf16EncodeChar_pair (by omega) (by omega)]
    exact congrArg (fun l => u :: u2 :: l) (ih hrest.symm)

theorem decodeUtf16_eq_map_ok_iff :
    decodeUtf16 units = text.map .ok ↔ encodeUtf16 text = units := by
  constructor
  · exact encodeUtf16_of_decodeUtf16
  · rintro rfl
    exact decodeUtf16_encodeUtf16 text

/-! ## Codecs -/

/-- A reader and a writer that are two views of one relation; either may fail. -/
structure Codec (β τ ε : Type*) where
  decode : β → Except ε τ
  encode : τ → Except ε β
  decode_eq_ok_iff : ∀ {x : β} {t : τ}, decode x = .ok t ↔ encode t = .ok x

namespace Codec

variable {β τ ε : Type*}

/-- Read with one codec and write with the other. -/
def convert (a c : Codec β τ ε) (x : β) : Except ε β :=
  (a.decode x).bind c.encode

theorem convert_eq_ok_iff {a c : Codec β τ ε} {x y : β} :
    a.convert c x = .ok y ↔ ∃ t, a.decode x = .ok t ∧ c.decode y = .ok t := by
  unfold convert
  cases a.decode x with
  | error e => simp [Except.bind]
  | ok t => simp [Except.bind, c.decode_eq_ok_iff]

/-- A readable representation is its own conversion. -/
theorem convert_self {a : Codec β τ ε} {x : β} {t : τ} (h : a.decode x = .ok t) :
    a.convert a x = .ok x :=
  convert_eq_ok_iff.mpr ⟨t, h, h⟩

/-- A conversion that succeeded can be continued from its output. -/
theorem convert_pivot {a b : Codec β τ ε} (c : Codec β τ ε) {x y : β}
    (h : a.convert b x = .ok y) : b.convert c y = a.convert c x := by
  obtain ⟨t, hx, hy⟩ := convert_eq_ok_iff.mp h
  simp [convert, hx, hy]

end Codec

end SafeLibc.Lib
