import SafeLibc.Iconv.Convert

/-!
# Conversion through a pivot

Without `omit_invalid`, each of the five encodings is a codec in the sense of `Lib.Codec`: bytes
decode to a text exactly when the text encodes to the bytes (`Encoding.codec`). The shortcut of
`convert_bytes` for equal encodings skips the check that the bytes decode at all, so it is a case of
its own; with it, **a successful conversion can be continued from its output**
(`convertBytes_pivot`).
-/

namespace SafeLibc.Iconv

open SafeLibc.Lib List

/-! ## The encodings as codecs -/

variable {text a b c : List Char} {bytes x y : List UInt8} {ea : Encoding} {littleEndian : Bool}

theorem fromUtf8_eq_ok_iff : fromUtf8 bytes = .ok text ↔ validUtf8 bytes = (text, []) := by
  unfold fromUtf8
  split
  · next text' hvalid => simp [hvalid]
  · next text' rest hrest hvalid =>
    constructor
    · intro h
      cases h
    · intro h
      exact absurd (congrArg Prod.snd (hvalid.symm.trans h)) (by simpa using hrest)

theorem decodeUtf8_eq_ok_iff : decodeUtf8 bytes false = .ok text ↔ encodeUtf8 text = bytes := by
  rw [← validUtf8_eq_iff, ← fromUtf8_eq_ok_iff, decodeUtf8]
  cases fromUtf8 bytes <;> simp [Except.mapError]

theorem toNat_byteChar (byte : UInt8) : (byteChar byte).toNat = byte.toNat := by
  have h : byte.toNat < 256 := byte.toNat_lt
  exact toNat_ofNat_of_valid (.inl (by omega))

theorem ofNat_toNat_byteChar (byte : UInt8) : UInt8.ofNat (byteChar byte).toNat = byte := by
  rw [toNat_byteChar, UInt8.ofNat_toNat]

theorem byteChar_ofNat_toNat {c : Char} (h : c.toNat ≤ 0xff) :
    byteChar (UInt8.ofNat c.toNat) = c := by
  have hmod : c.toNat % 2 ^ 8 = c.toNat := by omega
  rw [byteChar, UInt8.toNat_ofNat', hmod, Char.ofNat_toNat]

/-- A single-byte encoder writes `bytes` exactly for the text of their characters, all of them
within its limit. -/
theorem encodeSingleByte_eq_ok_iff {limit : Nat} (hlimit : limit ≤ 0xff) {charset : String} :
    encodeSingleByte limit charset false text = .ok bytes ↔
      bytes.map byteChar = text ∧ ∀ b ∈ bytes, b.toNat ≤ limit := by
  induction text generalizing bytes with
  | nil => cases bytes <;> simp [encodeSingleByte]
  | cons c text ih =>
    unfold encodeSingleByte
    split
    · next hc =>
      cases bytes with
      | nil => cases encodeSingleByte limit charset false text <;> simp [Except.map]
      | cons b bytes =>
        have hb : UInt8.ofNat c.toNat = b ↔ byteChar b = c := by
          constructor
          · rintro rfl
            exact byteChar_ofNat_toNat (by omega)
          · rintro rfl
            exact ofNat_toNat_byteChar b
        have hhead : byteChar b = c → b.toNat ≤ limit := by
          rintro rfl
          rwa [← toNat_byteChar]
        have hmap : (encodeSingleByte limit charset false text).map (UInt8.ofNat c.toNat :: ·) =
            .ok (b :: bytes) ↔
              byteChar b = c ∧ encodeSingleByte limit charset false text = .ok bytes := by
          cases encodeSingleByte limit charset false text <;> simp [Except.map, hb]
        rw [hmap, ih]
        simp only [map_cons, List.cons.injEq, forall_mem_cons]
        tauto
    · next hc =>
      cases bytes with
      | nil => simp
      | cons b bytes =>
        have hhead : byteChar b = c → ¬ b.toNat ≤ limit := by
          rintro rfl
          rwa [← toNat_byteChar]
        simp only [Bool.not_false, map_cons, List.cons.injEq, forall_mem_cons]
        constructor
        · intro h
          cases h
        · rintro ⟨⟨hb, -⟩, hle, -⟩
          exact absurd hle (hhead hb)

theorem decodeAscii_eq_ok_iff : decodeAscii bytes false = .ok text ↔
      bytes.map byteChar = text ∧ ∀ b ∈ bytes, b.toNat ≤ 0x7f := by
  induction bytes generalizing text with
  | nil => simp [decodeAscii]
  | cons b bytes ih =>
    unfold decodeAscii
    split
    · next hb =>
      have hmap : (decodeAscii bytes false).map (byteChar b :: ·) = .ok text ↔
          ∃ rest, decodeAscii bytes false = .ok rest ∧ byteChar b :: rest = text := by
        cases decodeAscii bytes false <;> simp [Except.map]
      have hle : b.toNat ≤ 0x7f := by omega
      simp only [hmap, ih, forall_mem_cons, hle, true_and]
      constructor
      · rintro ⟨rest, ⟨rfl, hrest⟩, rfl⟩
        exact ⟨rfl, hrest⟩
      · rintro ⟨rfl, hrest⟩
        exact ⟨_, ⟨rfl, hrest⟩, rfl⟩
    · next hb =>
      have hle : ¬ b.toNat ≤ 0x7f := by omega
      simp [hle]

theorem readUnit_writeUnit (littleEndian : Bool) (word : UInt16) :
    ∃ b0 b1, writeUnit littleEndian word = [b0, b1] ∧ readUnit littleEndian b0 b1 = word := by
  have hword : word.toNat < 256 ^ 2 := by simpa using word.toNat_lt
  cases littleEndian with
  | true =>
    refine ⟨UInt8.ofNat word.toNat, UInt8.ofNat (word.toNat / 256), rfl, ?_⟩
    change UInt16.ofNat (leNat (leBytes 2 word.toNat)) = word
    rw [leNat_leBytes hword, UInt16.ofNat_toNat]
  | false =>
    refine ⟨UInt8.ofNat (word.toNat / 256), UInt8.ofNat word.toNat, rfl, ?_⟩
    change UInt16.ofNat (beNat (beBytes 2 word.toNat)) = word
    rw [beNat_beBytes hword, UInt16.ofNat_toNat]

theorem writeUnit_readUnit (littleEndian : Bool) (b0 b1 : UInt8) :
    writeUnit littleEndian (readUnit littleEndian b0 b1) = [b0, b1] := by
  cases littleEndian with
  | true =>
    have hlt : leNat [b0, b1] < 2 ^ 16 := by simpa using leNat_lt [b0, b1]
    simp only [writeUnit, readUnit, if_true, UInt16.toNat_ofNat', Nat.mod_eq_of_lt hlt]
    exact leBytes_leNat [b0, b1]
  | false =>
    have hlt : beNat [b0, b1] < 2 ^ 16 := by simpa using beNat_lt [b0, b1]
    simp only [writeUnit, readUnit, Bool.false_eq_true, if_false, UInt16.toNat_ofNat',
      Nat.mod_eq_of_lt hlt]
    exact beBytes_beNat [b0, b1]

theorem readUnits_flatMap (littleEndian : Bool) (words : List UInt16) :
    readUnits littleEndian (words.flatMap (writeUnit littleEndian)) = (words, []) := by
  induction words with
  | nil => rfl
  | cons word words ih =>
    obtain ⟨b0, b1, hwrite, hread⟩ := readUnit_writeUnit littleEndian word
    rw [flatMap_cons, hwrite]
    simp [readUnits, ih, hread]

theorem flatMap_readUnits (littleEndian : Bool) (bytes : List UInt8) :
    (readUnits littleEndian bytes).1.flatMap (writeUnit littleEndian) ++
      (readUnits littleEndian bytes).2 = bytes := by
  fun_induction readUnits littleEndian bytes with
  | case1 b0 b1 input words remainder hread ih =>
    rw [hread] at ih
    simp only [flatMap_cons, writeUnit_readUnit, append_assoc, ih]
    rfl
  | case2 remainder => rfl

/-- Bytes are read as the words that are written as them. -/
theorem readUnits_eq_iff {words : List UInt16} : readUnits littleEndian bytes = (words, []) ↔
      words.flatMap (writeUnit littleEndian) = bytes := by
  constructor
  · intro h
    have hbytes := flatMap_readUnits littleEndian bytes
    rwa [h, append_nil] at hbytes
  · rintro rfl
    exact readUnits_flatMap littleEndian words

theorem collectUtf16_eq_ok_iff {items : List (Except UInt16 Char)} :
    collectUtf16 false items = .ok text ↔ items = text.map .ok := by
  induction items generalizing text with
  | nil => simp [collectUtf16]
  | cons item items ih =>
    cases item with
    | error u => cases text <;> simp [collectUtf16]
    | ok c =>
      have hmap : (collectUtf16 false items).map (c :: ·) = .ok text ↔
          ∃ rest, collectUtf16 false items = .ok rest ∧ c :: rest = text := by
        cases collectUtf16 false items <;> simp [Except.map]
      simp only [collectUtf16, hmap, ih]
      constructor
      · rintro ⟨rest, rfl, rfl⟩
        rfl
      · intro h
        obtain ⟨d, rest, rfl, hd, hrest⟩ := map_eq_cons_iff.mp h.symm
        exact ⟨rest, hrest.symm, by rw [Except.ok.inj hd]⟩

theorem decodeUtf16Bytes_eq_ok_iff : decodeUtf16Bytes bytes littleEndian false = .ok text ↔
      encodeUtf16Bytes text littleEndian = bytes := by
  rw [encodeUtf16Bytes, ← readUnits_eq_iff, decodeUtf16Bytes]
  obtain ⟨words, remainder⟩ := readUnits littleEndian bytes
  cases remainder with
  | nil =>
    have hcollect : collectUtf16 false (decodeUtf16 words) = .ok text ↔ encodeUtf16 text = words :=
      collectUtf16_eq_ok_iff.trans decodeUtf16_eq_map_ok_iff
    simpa [eq_comm] using hcollect
  | cons b remainder => simp

def strict : ConversionOptions := ⟨false⟩

/-- Reading and writing are one relation. -/
theorem decodeToString_eq_ok_iff (encoding : Encoding) :
    decodeToString bytes encoding strict = .ok text ↔
      encodeFromString text encoding strict = .ok bytes := by
  cases encoding with
  | utf8 => simpa [decodeToString, encodeFromString, strict] using decodeUtf8_eq_ok_iff
  | ascii =>
    simp only [decodeToString, encodeFromString, encodeAscii, strict]
    rw [decodeAscii_eq_ok_iff, encodeSingleByte_eq_ok_iff (by decide)]
  | latin1 =>
    simp only [decodeToString, encodeFromString, encodeLatin1, strict, decodeLatin1]
    rw [encodeSingleByte_eq_ok_iff le_rfl]
    have hbyte : ∀ b ∈ bytes, b.toNat ≤ 0xff := fun b _ => Nat.le_of_lt_succ b.toNat_lt
    simpa using fun _ => hbyte
  | utf16Le
  | utf16Be => simpa [decodeToString, encodeFromString, strict] using decodeUtf16Bytes_eq_ok_iff

/-- An encoding without `omit_invalid` as a codec. -/
def Encoding.codec (encoding : Encoding) : Codec (List UInt8) (List Char) IconvError where
  decode bytes := decodeToString bytes encoding strict
  encode text := encodeFromString text encoding strict
  decode_eq_ok_iff := decodeToString_eq_ok_iff encoding

/-! ## Conversions -/

/-- The shortcut for equal encodings apart, a conversion is that of the codecs. -/
theorem convertBytes_eq {ec : Encoding} (ha : parseEncoding a = .ok ea)
    (hc : parseEncoding c = .ok ec) :
    convertBytes x a c strict = if ea = ec then .ok x else ea.codec.convert ec.codec x := by
  simp only [convertBytes, ha, hc]
  rfl

theorem convertBytes_eq_ok (h : convertBytes x a b strict = .ok y) :
    ∃ ea eb, parseEncoding a = .ok ea ∧ parseEncoding b = .ok eb ∧
      (ea = eb ∧ x = y ∨ ea ≠ eb ∧ ea.codec.convert eb.codec x = .ok y) := by
  cases ha : parseEncoding a with
  | error e => simp [convertBytes, ha, bind, Except.bind] at h
  | ok ea =>
    cases hb : parseEncoding b with
    | error e => simp [convertBytes, ha, hb, bind, Except.bind] at h
    | ok eb =>
      rw [convertBytes_eq ha hb] at h
      refine ⟨ea, eb, rfl, rfl, ?_⟩
      split at h
      · next heq => exact .inl ⟨heq, Except.ok.inj h⟩
      · next hne => exact .inr ⟨hne, h⟩

/-- A conversion to the same encoding. -/
theorem convertBytes_self (ha : parseEncoding a = .ok ea) : convertBytes x a a strict = .ok x := by
  rw [convertBytes_eq ha ha, if_pos rfl]

theorem convertBytes_unknown {e : IconvError} (ha : parseEncoding a = .ok ea)
    (hc : parseEncoding c = .error e) : convertBytes x a c strict = .error e := by
  simp only [convertBytes, ha, hc]
  rfl

theorem convertBytes_continue (c : List Char) (h : convertBytes x a b strict = .ok y) :
    convertBytes y b c strict = convertBytes x a c strict := by
  obtain ⟨ea, eb, ha, hb, hconv⟩ := convertBytes_eq_ok h
  cases hc : parseEncoding c with
  | error e => rw [convertBytes_unknown hb hc, convertBytes_unknown ha hc]
  | ok ec =>
    rw [convertBytes_eq hb hc, convertBytes_eq ha hc]
    obtain ⟨rfl, rfl⟩ | ⟨hne, hconv⟩ := hconv
    · rfl
    · have hpivot := Codec.convert_pivot ec.codec hconv
      by_cases hbc : eb = ec
      · subst hbc
        rw [if_pos rfl, if_neg hne, hconv]
      · rw [if_neg hbc, hpivot]
        split
        · next hac =>
          -- the shortcut from `a` to itself agrees, since `x` did decode
          obtain ⟨t, ht, -⟩ := Codec.convert_eq_ok_iff.mp hconv
          rw [← hac, Codec.convert_self ht]
        · rfl

/-- **Pivot composition.** Whatever the pivot `b`, a conversion of `x` that succeeded continues from
its output to any target `c` with the result, or the error, of the direct conversion; back to the
source encoding it returns `x`. -/
theorem convertBytes_pivot {x y : List UInt8} {a b : List Char}
    (h : convertBytes x a b ⟨false⟩ = .ok y) :
    (∀ c, convertBytes y b c ⟨false⟩ = convertBytes x a c ⟨false⟩) ∧
      convertBytes y b a ⟨false⟩ = .ok x := by
  obtain ⟨ea, eb, ha, -, -⟩ := convertBytes_eq_ok h
  exact ⟨fun c => convertBytes_continue c h,
    (convertBytes_continue a h).trans (convertBytes_self ha)⟩

/-- U+1F600 from UTF-16LE to UTF-8. -/
theorem convertBytes_pivot_surrogates :
    convertBytes [0x3d, 0xd8, 0x00, 0xde] "UTF-16LE".toList "utf-8".toList ⟨false⟩ =
        .ok [0xf0, 0x9f, 0x98, 0x80] ∧
      convertBytes [0xf0, 0x9f, 0x98, 0x80] "utf-8".toList "UTF-16LE".toList ⟨false⟩ =
        .ok [0x3d, 0xd8, 0x00, 0xde] :=
  have h : convertBytes [0x3d, 0xd8, 0x00, 0xde] "UTF-16LE".toList "utf-8".toList ⟨false⟩ =
      .ok [0xf0, 0x9f, 0x98, 0x80] := by decide +kernel
  ⟨h, (convertBytes_pivot h).2⟩

end SafeLibc.Iconv
