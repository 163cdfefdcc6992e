import SafeLibc.Resolv.InetPton6

/-!
# `inet_ntop` of `resolv/inet_ntop.c`

The text of an IPv6 address abbreviates the leftmost longest run of two or more groups of zeros
(`bestRun_spec`), and writes the last 32 bits as a dotted quad where all before them is zero or the
prefix of the mapped IPv4 addresses. In all cases the text has one of the standard forms
(`address6_of_abbreviates`), so that `inet_pton` reads it back.
-/

namespace SafeLibc.Resolv.Inet

open SafeLibc.Lib List

/-! ## The model -/

/-- `sprintf` with `%u` -/
def decimalText (n : Nat) : List UInt8 :=
  (numeral 10 n).map fun d => UInt8.ofNat ((byte '0').toNat + d)

def hexChar (d : Nat) : UInt8 :=
  if d < 10 then UInt8.ofNat ((byte '0').toNat + d) else UInt8.ofNat ((byte 'a').toNat + (d - 10))

/-- `sprintf` with `%x` -/
def hexText (n : Nat) : List UInt8 := (numeral 16 n).map hexChar

/-- `sprintf` with `%u.%u.%u.%u` of the first four bytes -/
def quadText (src : List UInt8) : List UInt8 :=
  [byte '.'].intercalate ((src.take 4).map fun b => decimalText b.toNat)

/-- `inet_ntop4`: the text, or `none` for a null pointer with `errno` set to `ENOSPC`. -/
def inetNtop4 (src : List UInt8) (size : Nat) : Option (List UInt8) :=
  if (quadText src).length ≥ size then none else some (quadText src)

/-- `words[i / 2] = (src[i] << 8) | src[i + 1]` -/
def wordsOf : List UInt8 → List Nat
  | hi :: lo :: src => ((hi.toNat <<< 8) ||| lo.toNat) :: wordsOf src
  | _ => []

/-- A run of zero words; a base of -1 is `none`. -/
structure ZeroRun where
  base : Nat
  len : Nat
  deriving DecidableEq, Repr

/-- `if (best.base == -1 || cur.len > best.len) best = cur;` -/
def better (best : Option ZeroRun) (cur : ZeroRun) : Option ZeroRun :=
  match best with
  | none => some cur
  | some best => if cur.len > best.len then some cur else some best

/-- The search for the longest run: `best` and `cur` after the words from index `i` on. -/
def runLoop : List Nat → Nat → Option ZeroRun → Option ZeroRun → Option ZeroRun × Option ZeroRun
  | [], _, best, cur => (best, cur)
  | word :: words, i, best, cur =>
    if word = 0 then
      match cur with
      | none => runLoop words (i + 1) best (some ⟨i, 1⟩)
      | some cur => runLoop words (i + 1) best (some { cur with len := cur.len + 1 })
    else
      match cur with
      | some cur => runLoop words (i + 1) (better best cur) none
      | none => runLoop words (i + 1) best none

def bestRun (words : List Nat) : Option ZeroRun :=
  let (best, cur) := runLoop words 0 none none
  let best := match cur with
    | some cur => better best cur
    | none => best
  best.filter fun best => 2 ≤ best.len

/-- `best.base != -1 && i >= best.base && i < best.base + best.len` -/
def inRun (best : Option ZeroRun) (i : Nat) : Bool :=
  best.any fun best => best.base ≤ i && i < best.base + best.len

def encapsulated (words : List Nat) (best : Option ZeroRun) : Bool :=
  best.any fun best => best.base = 0 && (best.len = 6 || (best.len = 5 && words[5]? = some 0xffff))

/-- `sizeof "ffff:ffff:ffff:ffff:ffff:ffff:255.255.255.255"` -/
def tmpSize : Nat := 46

/-- The formatting loop, from index `i` on; `text` is what `tmp` holds so far. -/
def formatLoop (src : List UInt8) (best : Option ZeroRun) (encaps : Bool) :
    List Nat → Nat → List UInt8 → Option (List UInt8)
  | [], _, text => some text
  | word :: words, i, text =>
    if inRun best i then
      let text := if best.any fun best => i = best.base then text ++ [byte ':'] else text
      formatLoop src best encaps words (i + 1) text
    else
      let text := if i ≠ 0 then text ++ [byte ':'] else text
      if i = 6 && encaps then
        match inetNtop4 (src.drop 12) (tmpSize - text.length) with
        | none => none
        | some quad => some (text ++ quad)
      else formatLoop src best encaps words (i + 1) (text ++ hexText word)

/-- `inet_ntop6`: the text, or `none` for a null pointer with `errno` set to `ENOSPC`. -/
def inetNtop6 (src : List UInt8) (size : Nat) : Option (List UInt8) :=
  let words := wordsOf src
  let best := bestRun words
  match formatLoop src best (encapsulated words best) words 0 [] with
  | none => none
  | some text =>
    let text := if best.any fun best => best.base + best.len = 8 then text ++ [byte ':'] else text
    if text.length + 1 > size then none else some text

/-- `inet_ntop`; an unknown family gives a null pointer, with `errno` set to `EAFNOSUPPORT`. -/
def inetNtop (af : Family) (src : List UInt8) (size : Nat) : Option (List UInt8) :=
  match af with
  | .inet => inetNtop4 src size
  | .inet6 => inetNtop6 src size
  | .other => none

/-! ## Numbers as text -/

theorem decimalDigit_spec : ∀ d < 10, isDigit (UInt8.ofNat ((byte '0').toNat + d)) = true ∧
    decimalValue (UInt8.ofNat ((byte '0').toNat + d)) = d := by
  decide

theorem hexChar_spec : ∀ d < 16, hexDigitValue (hexChar d) = some d := by
  decide

theorem map_map_eq_self {f : Nat → UInt8} {g : UInt8 → Nat} {ds : List Nat}
    (h : ∀ d ∈ ds, g (f d) = d) : (ds.map f).map g = ds := by
  rw [map_map]
  exact (map_congr_left h).trans (map_id ds)

theorem decimalPart_decimalText (v : UInt8) : DecimalPart (decimalText v.toNat) v := by
  have hdigit : ∀ d ∈ numeral 10 v.toNat, d < 10 := fun d hd => numeral_lt (by decide) hd
  have hback : (decimalText v.toNat).map decimalValue = numeral 10 v.toNat :=
    map_map_eq_self fun d hd => (decimalDigit_spec d (hdigit d hd)).2
  refine ⟨?_, ?_, fun rest hrest => ?_, ?_⟩
  · simpa [decimalText] using numeral_ne_nil 10 v.toNat
  · intro ch hch
    obtain ⟨d, hd, rfl⟩ := mem_map.1 hch
    exact (decimalDigit_spec d (hdigit d hd)).1
  · rw [hrest] at hback
    exact map_eq_nil_iff.1 (eq_nil_of_numeral_eq hback.symm)
  · rw [hback, valueOf_numeral]

variable {base len word : Nat} {text a src : List UInt8}

theorem hexGroup_hexText (h : word < 2 ^ 16) : HexGroup (hexText word) (wordBytes word) := by
  have hdigit : ∀ d ∈ numeral 16 word, d < 16 := fun d hd => numeral_lt (by decide) hd
  have hback : (hexText word).map hexValue = numeral 16 word :=
    map_map_eq_self fun d hd => by simp [hexValue, hexChar_spec d (hdigit d hd)]
  refine ⟨?_, ?_, ?_, ?_⟩
  · simpa [hexText] using numeral_ne_nil 16 word
  · rw [hexText, length_map]
    exact length_numeral_le (by decide) (by decide) h
  · intro ch hch
    obtain ⟨d, hd, rfl⟩ := mem_map.1 hch
    rw [hexChar_spec d (hdigit d hd)]
    rfl
  · rw [hback, valueOf_numeral]

theorem quad_quadText (h : src.length = 4) : Quad (quadText src) src := by
  refine ⟨src.map fun b => decimalText b.toNat, ?_, h, ?_⟩
  · rw [forall₂_map_left_iff, forall₂_same]
    exact fun v _ => decimalPart_decimalText v
  · rw [quadText, take_of_length_le (le_of_eq h)]

/-! ## Words -/

theorem word_eq (hi lo : UInt8) : (hi.toNat <<< 8) ||| lo.toNat = hi.toNat * 256 + lo.toNat := by
  rw [← Nat.shiftLeft_add_eq_or_of_lt lo.toNat_lt, Nat.shiftLeft_eq]

theorem wordBytes_word (hi lo : UInt8) : wordBytes ((hi.toNat <<< 8) ||| lo.toNat) = [hi, lo] := by
  have hhi := hi.toNat_lt
  have hlo := lo.toNat_lt
  rw [word_eq, wordBytes]
  congr 1
  · exact ofNat_eq_of_mod (by omega)
  · congr 1
    exact ofNat_eq_of_mod (by omega)

theorem wordsOf_spec (n : Nat) (src : List UInt8) (h : src.length = 2 * n) :
    (wordsOf src).length = n ∧ (wordsOf src).flatMap wordBytes = src ∧
      ∀ word ∈ wordsOf src, word < 2 ^ 16 := by
  induction n generalizing src with
  | zero =>
    obtain rfl := length_eq_zero_iff.1 h
    exact ⟨rfl, rfl, fun word hword => (nomatch hword)⟩
  | succ n ih =>
    match src, h with
    | hi :: lo :: src, h =>
      obtain ⟨hlength, hbytes, hlt⟩ := ih src (by simp only [length_cons] at h; omega)
      refine ⟨by rw [wordsOf, length_cons, hlength], ?_, ?_⟩
      · rw [wordsOf, flatMap_cons, wordBytes_word, hbytes]
        rfl
      · intro word hword
        rcases mem_cons.1 hword with rfl | hword
        · have := hi.toNat_lt
          have := lo.toNat_lt
          rw [word_eq]
          omega
        · exact hlt word hword

/-! ## The leftmost longest run -/

def Zeros (words : List Nat) (base len : Nat) : Prop :=
  base + len ≤ words.length ∧ ∀ i, base ≤ i → i < base + len → words[i]? = some 0

def ZeroRun.Beats (run : ZeroRun) (base len : Nat) : Prop :=
  len < run.len ∨ len = run.len ∧ run.base ≤ base

structure Leftmost (words : List Nat) (run : ZeroRun) : Prop where
  pos : 0 < run.len
  zeros : Zeros words run.base run.len
  beats : ∀ base len, Zeros words base len → run.Beats base len

def Best (words : List Nat) : Option ZeroRun → Prop
  | none => ∀ base len, Zeros words base len → len = 0
  | some run => Leftmost words run

/-- The run at the end of the words that have been read: it starts after a word that is not zero. -/
structure Current (words : List Nat) (run : ZeroRun) : Prop where
  pos : 0 < run.len
  last : run.base + run.len = words.length
  zeros : Zeros words run.base run.len
  start : ∀ i, i + 1 = run.base → words[i]? ≠ some 0

variable {words : List Nat} {best : Option ZeroRun} {run : ZeroRun}

theorem Zeros.of_append {rest : List Nat} (h : Zeros (words ++ rest) base len)
    (hle : base + len ≤ words.length) : Zeros words base len := by
  refine ⟨hle, fun i hi hlt => ?_⟩
  have := h.2 i hi hlt
  rwa [getElem?_append_left (by omega)] at this

theorem Zeros.append (h : Zeros words base len) (rest : List Nat) :
    Zeros (words ++ rest) base len := by
  refine ⟨by rw [length_append]; exact le_trans h.1 (Nat.le_add_right _ _), fun i hi hlt => ?_⟩
  rw [getElem?_append_left (lt_of_lt_of_le hlt h.1)]
  exact h.2 i hi hlt

/-- A run of zeros lies before the current run or within it. -/
theorem Current.before_or_within (h : Current words run) (hz : Zeros words base len) :
    Zeros (words.take run.base) base len ∨ run.base ≤ base ∧ base + len ≤ run.base + run.len := by
  have hlast := h.last
  by_cases hpast : run.base < base + len
  · refine .inr ⟨?_, hlast ▸ hz.1⟩
    by_contra hless
    obtain ⟨i, hi⟩ : ∃ i, i + 1 = run.base := ⟨run.base - 1, by omega⟩
    exact h.start i hi (hz.2 i (by omega) (by omega))
  · left
    rw [← take_append_drop run.base words] at hz
    refine hz.of_append ?_
    rw [length_take]
    omega

/-- When the current run ends, it is compared with the best of the words before it. -/
theorem Current.better (h : Current words run) (hbest : Best (words.take run.base) best) :
    Best words (better best run) := by
  cases best with
  | none =>
    refine ⟨h.pos, h.zeros, fun base len hz => ?_⟩
    rcases h.before_or_within hz with hbefore | hwithin
    · exact .inl (by rw [hbest base len hbefore]; exact h.pos)
    · rw [ZeroRun.Beats]
      omega
  | some found =>
    have hleft : found.base + found.len ≤ run.base :=
      le_trans hbest.zeros.1 (length_take_le ..)
    rw [Inet.better]
    split
    · refine ⟨h.pos, h.zeros, fun base len hz => ?_⟩
      rcases h.before_or_within hz with hbefore | hwithin
      · have := hbest.beats base len hbefore
        rw [ZeroRun.Beats] at this ⊢
        omega
      · rw [ZeroRun.Beats]
        omega
    · refine ⟨hbest.pos, ?_, fun base len hz => ?_⟩
      · rw [← take_append_drop run.base words]
        exact hbest.zeros.append _
      · rcases h.before_or_within hz with hbefore | hwithin
        · exact hbest.beats base len hbefore
        · rw [ZeroRun.Beats]
          omega

theorem Zeros.of_concat (h : Zeros (words ++ [word]) base len) (hword : word ≠ 0) :
    len = 0 ∨ Zeros words base len := by
  by_cases hle : base + len ≤ words.length
  · exact .inr (h.of_append hle)
  · by_contra hlen
    have hlt := h.1
    rw [length_append, length_singleton] at hlt
    have := h.2 words.length (by omega) (by omega)
    rw [getElem?_concat_length] at this
    exact hword (Option.some.inj this)

theorem Best.concat (h : Best words best) (hword : word ≠ 0) : Best (words ++ [word]) best := by
  cases best with
  | none => exact fun base len hz => (hz.of_concat hword).elim id (h base len)
  | some found =>
    refine ⟨h.pos, h.zeros.append _, fun base len hz => ?_⟩
    rcases hz.of_concat hword with rfl | hz
    · exact .inl h.pos
    · exact h.beats base len hz

def Searched (words : List Nat) (best : Option ZeroRun) : Option ZeroRun → Prop
  | none => Best words best ∧ ∀ i, i + 1 = words.length → words[i]? ≠ some 0
  | some cur => Best (words.take cur.base) best ∧ Current words cur

theorem Searched.nonzero {cur : Option ZeroRun} (h : Searched words best cur) (hword : word ≠ 0) :
    Searched (words ++ [word]) (cur.elim best (better best)) none := by
  refine ⟨?_, fun i hi => ?_⟩
  · cases cur with
    | none => exact h.1.concat hword
    | some cur => exact (h.2.better h.1).concat hword
  · rw [length_append, length_singleton] at hi
    obtain rfl : i = words.length := by omega
    rw [getElem?_concat_length]
    exact fun h0 => hword (Option.some.inj h0)

theorem Searched.zero_start (h : Searched words best none) :
    Searched (words ++ [0]) best (some ⟨words.length, 1⟩) := by
  refine ⟨?_, one_pos, by rw [length_append]; rfl, ⟨?_, fun i hi hlt => ?_⟩, fun i hi => ?_⟩
  · rw [take_left]
    exact h.1
  · rw [length_append]
    exact le_rfl
  · obtain rfl : i = words.length := le_antisymm (Nat.lt_succ_iff.1 hlt) hi
    exact getElem?_concat_length
  · rw [getElem?_append_left (Nat.lt_of_succ_le (le_of_eq hi))]
    exact h.2 i hi

theorem Searched.zero_next {cur : ZeroRun} (h : Searched words best (some cur)) :
    Searched (words ++ [0]) best (some { cur with len := cur.len + 1 }) := by
  obtain ⟨hbest, hcur⟩ := h
  have hlast := hcur.last
  have hlength : cur.base + (cur.len + 1) = (words ++ [0]).length := by
    rw [length_append, ← hlast]
    rfl
  refine ⟨?_, Nat.succ_pos _, hlength, ⟨le_of_eq hlength, fun i hi hlt => ?_⟩, fun i hi => ?_⟩
  · have hle : cur.base ≤ words.length := by omega
    rw [take_append_of_le_length hle]
    exact hbest
  · by_cases hend : i = words.length
    · subst hend
      exact getElem?_concat_length
    · have hlt' : i < cur.base + (cur.len + 1) := hlt
      exact (hcur.zeros.append [0]).2 i hi (by omega)
  · have hi' : i + 1 = cur.base := hi
    rw [getElem?_append_left (by omega)]
    exact hcur.start i hi

theorem runLoop_searched (rest : List Nat) (best cur : Option ZeroRun)
    (h : Searched words best cur) :
    Searched (words ++ rest) (runLoop rest words.length best cur).1
      (runLoop rest words.length best cur).2 := by
  induction rest generalizing words best cur with
  | nil => simpa [runLoop] using h
  | cons word rest ih =>
    -- the word that is read moves to the words that have been read
    have hmove : words ++ word :: rest = (words ++ [word]) ++ rest := by simp
    have hlength : words.length + 1 = (words ++ [word]).length := by simp
    rw [hmove]
    by_cases hword : word = 0
    · cases cur with
      | none =>
        rw [runLoop, if_pos hword, hlength]
        exact ih _ _ (hword ▸ h.zero_start)
      | some cur =>
        rw [runLoop, if_pos hword, hlength]
        exact ih _ _ (hword ▸ h.zero_next)
    · have hnext := h.nonzero hword
      cases cur with
      | none | some cur =>
        rw [runLoop, if_neg hword, hlength]
        exact ih _ _ hnext

/-- The run to abbreviate: the leftmost among the longest, if these have two words or more. -/
def Abbreviated (words : List Nat) : Option ZeroRun → Prop
  | none => ∀ base len, Zeros words base len → len < 2
  | some run => 2 ≤ run.len ∧ Leftmost words run

theorem bestRun_spec (words : List Nat) : Abbreviated words (bestRun words) := by
  have hstart : Searched [] none none :=
    ⟨fun base len hz => Nat.eq_zero_of_add_eq_zero_left (Nat.le_zero.1 hz.1),
      fun i hi => (nomatch hi)⟩
  have hfound := runLoop_searched words none none hstart
  obtain ⟨best, hbest, hdef⟩ : ∃ best, Best words best ∧
      bestRun words = best.filter fun best => 2 ≤ best.len := by
    rw [bestRun]
    generalize runLoop words 0 none none = found at hfound
    obtain ⟨best, cur⟩ := found
    cases cur with
    | none => exact ⟨_, hfound.1, rfl⟩
    | some cur => exact ⟨_, hfound.2.better hfound.1, rfl⟩
  rw [hdef]
  cases best with
  | none => exact fun base len hz => by rw [hbest base len hz]; decide
  | some run =>
    rw [Option.filter_some]
    split
    case isTrue h => exact ⟨of_decide_eq_true h, hbest⟩
    case isFalse h =>
      intro base len hz
      have hbeats := hbest.beats base len hz
      have hshort : ¬ 2 ≤ run.len := fun hle => h (decide_eq_true hle)
      rw [ZeroRun.Beats] at hbeats
      omega

/-! ## The text -/

def groupsText (words : List Nat) : List UInt8 := [byte ':'].intercalate (words.map hexText)

def colonGroups (words : List Nat) : List UInt8 :=
  words.flatMap fun word => byte ':' :: hexText word

theorem groupsText_cons (word : Nat) (words : List Nat) :
    groupsText (word :: words) = hexText word ++ colonGroups words := by
  induction words generalizing word with
  | nil => simp [groupsText, colonGroups]
  | cons next words ih =>
    have hstep : groupsText (word :: next :: words) =
        hexText word ++ byte ':' :: groupsText (next :: words) := by
      simp [groupsText]
    rw [hstep, ih, colonGroups, colonGroups, flatMap_cons, cons_append]

/-- The text shows the run as `::`: before it stand the groups to its left, after it those to its
right, which may end in a dotted quad. Where there is no run, all groups are written out. -/
def Abbreviates (text : List UInt8) (words : List Nat) : Option ZeroRun → Prop
  | none => text = groupsText words
  | some run => ∃ right, text = groupsText (words.take run.base) ++ [byte ':', byte ':'] ++ right ∧
      TailText right ((words.drop (run.base + run.len)).flatMap wordBytes)

section Loop

variable {src text : List UInt8} {best : Option ZeroRun} {encaps : Bool} {rest words : List Nat}

variable {i word : Nat}

/-- The step on a word outside of the run that is not the start of a dotted quad. -/
theorem formatLoop_group (hout : inRun best i = false)
    (hquad : (decide (i = 6) && encaps) = false) :
    formatLoop src best encaps (word :: rest) i text = formatLoop src best encaps rest (i + 1)
      ((if i ≠ 0 then text ++ [byte ':'] else text) ++ hexText word) := by
  rw [formatLoop, if_neg (by rw [hout]; decide), if_neg (by rw [hquad]; decide)]

theorem formatLoop_groups (words : List Nat) (hi : i ≠ 0) (h : ∀ j, i ≤ j → j < i + words.length →
      inRun best j = false ∧ (decide (j = 6) && encaps) = false) :
    formatLoop src best encaps (words ++ rest) i text =
      formatLoop src best encaps rest (i + words.length) (text ++ colonGroups words) := by
  induction words generalizing i text with
  | nil => simp [colonGroups]
  | cons word words ih =>
    simp only [length_cons] at h
    have hhere := h i le_rfl (by omega)
    rw [cons_append, formatLoop_group hhere.1 hhere.2, if_pos hi,
      ih (i := i + 1) (Nat.succ_ne_zero i) fun j hj hlt => h j (by omega) (by omega),
      add_assoc, add_comm 1]
    simp [colonGroups]

theorem formatLoop_start (words : List Nat)
    (h : ∀ j < words.length, inRun best j = false ∧ (decide (j = 6) && encaps) = false) :
    formatLoop src best encaps (words ++ rest) 0 [] =
      formatLoop src best encaps rest words.length (groupsText words) := by
  cases words with
  | nil => rfl
  | cons word words =>
    simp only [length_cons] at h
    have hhere := h 0 (Nat.succ_pos _)
    rw [cons_append, formatLoop_group hhere.1 hhere.2, if_neg (by simp),
      formatLoop_groups words (by simp) fun j hj hlt => h j (by omega), groupsText_cons,
      length_cons, add_comm, nil_append]

variable {run : ZeroRun}

theorem inRun_some :
    inRun (some run) i = true ↔ run.base ≤ i ∧ i < run.base + run.len := by
  simp [inRun]

theorem inRun_out (h : i < run.base ∨ run.base + run.len ≤ i) :
    inRun (some run) i = false := by
  rw [Bool.eq_false_iff, Ne, inRun_some]
  omega

theorem formatLoop_within (hi : run.base < i) (words : List Nat)
    (h : i + words.length ≤ run.base + run.len) :
    formatLoop src (some run) encaps (words ++ rest) i text =
      formatLoop src (some run) encaps rest (i + words.length) text := by
  induction words generalizing i with
  | nil => rfl
  | cons word words ih =>
    rw [length_cons] at h
    have hin : inRun (some run) i = true := inRun_some.2 (by omega)
    have hlater : ¬ ((some run).any fun best => decide (i = best.base)) = true := by
      simp only [Option.any_some, decide_eq_true_eq]
      omega
    rw [cons_append, formatLoop, if_pos hin]
    simp only [if_neg hlater]
    rw [ih (by omega) (by omega), length_cons, add_assoc, add_comm 1]

theorem formatLoop_run (words : List Nat) (hlen : words.length = run.len) (hpos : 0 < run.len) :
    formatLoop src (some run) encaps (words ++ rest) run.base text =
      formatLoop src (some run) encaps rest (run.base + run.len) (text ++ [byte ':']) := by
  match words, hlen with
  | [], hlen => exact absurd hlen.symm (Nat.pos_iff_ne_zero.1 hpos)
  | word :: words, hlen =>
    rw [length_cons] at hlen
    have hin : inRun (some run) run.base = true := inRun_some.2 (by omega)
    have hfirst : ((some run).any fun best => decide (run.base = best.base)) = true := by
      simp
    rw [cons_append, formatLoop, if_pos hin]
    simp only [if_pos hfirst]
    rw [formatLoop_within (i := run.base + 1) (Nat.lt_succ_self _) words (by omega), ← hlen,
      add_assoc, add_comm 1]

theorem formatLoop_quad (hout : inRun best 6 = false)
    (hroom : text.length + 1 + (quadText (src.drop 12)).length < tmpSize) :
    formatLoop src best true (word :: rest) 6 text =
      some (text ++ [byte ':'] ++ quadText (src.drop 12)) := by
  have hfits : ¬ (quadText (src.drop 12)).length ≥ tmpSize - (text ++ [byte ':']).length := by
    rw [length_append, length_singleton]
    omega
  rw [formatLoop, if_neg (by rw [hout]; decide), if_pos (by simp : (6 : Nat) ≠ 0)]
  simp only [decide_true, Bool.and_true, if_true, inetNtop4, if_neg hfits]

end Loop

/-! ## The size of the text -/

theorem length_colonGroups_le {words : List Nat} (h : ∀ word ∈ words, word < 2 ^ 16) :
    (colonGroups words).length ≤ 5 * words.length := by
  induction words with
  | nil => exact le_rfl
  | cons word words ih =>
    have hword := (hexGroup_hexText (h word mem_cons_self)).length
    have hwords := ih fun w hw => h w (mem_cons_of_mem _ hw)
    simp only [colonGroups, flatMap_cons, length_append, length_cons] at hwords ⊢
    omega

theorem length_groupsText_le {words : List Nat} (h : ∀ word ∈ words, word < 2 ^ 16) :
    (groupsText words).length ≤ 5 * words.length := by
  cases words with
  | nil => exact le_rfl
  | cons word words =>
    have hword := (hexGroup_hexText (h word mem_cons_self)).length
    have hwords := length_colonGroups_le fun w hw => h w (mem_cons_of_mem word hw)
    rw [groupsText_cons, length_append, length_cons]
    omega

theorem length_quadText_le (h : src.length = 4) : (quadText src).length ≤ 15 := by
  have hpart : ∀ v : UInt8, (decimalText v.toNat).length ≤ 3 := fun v =>
    (decimalPart_decimalText v).length_le
  match src, h with
  | [a, b, c, d], _ =>
    have ha := hpart a
    have hb := hpart b
    have hc := hpart c
    have hd := hpart d
    simp only [quadText, take, map, intercalate_cons_cons, intercalate_singleton,
      length_append, length_singleton]
    omega

/-! ## The form of the text -/

theorem groupsText_form {words : List Nat} (h : ∀ word ∈ words, word < 2 ^ 16) :
    GroupsText (groupsText words) (words.flatMap wordBytes) := by
  refine ⟨words.map hexText, words.map wordBytes, ?_, rfl, flatMap_def ..⟩
  rw [forall₂_map_left_iff, forall₂_map_right_iff, forall₂_same]
  exact fun word hword => hexGroup_hexText (h word hword)

theorem Zeros.split {words : List Nat} (h : Zeros words base len) :
    words = words.take base ++ (replicate len 0 ++ words.drop (base + len)) := by
  have hzero : (words.drop base).take len = replicate len 0 := by
    refine eq_replicate_iff.2 ⟨?_, fun word hword => ?_⟩
    · have := h.1
      rw [length_take, length_drop]
      omega
    · obtain ⟨i, hi, rfl⟩ := mem_iff_getElem.1 hword
      rw [length_take] at hi
      have := h.2 (base + i) (by omega) (by omega)
      rw [getElem_take, getElem_drop]
      exact (List.getElem?_eq_some_iff.1 this).2
  rw [← hzero, ← drop_drop, take_append_drop, take_append_drop]

theorem flatMap_wordBytes_zeros (len : Nat) :
    (replicate len 0).flatMap wordBytes = replicate (2 * len) 0 := by
  induction len with
  | zero => rfl
  | succ len ih => rw [replicate_succ, flatMap_cons, ih]; rfl

theorem length_flatMap_wordBytes (words : List Nat) :
    (words.flatMap wordBytes).length = 2 * words.length := by
  induction words with
  | nil => rfl
  | cons word words ih =>
    rw [flatMap_cons, length_append, length_wordBytes, length_cons]
    omega

/-- A text that abbreviates a run has a standard form, for the address with zeros in the run. -/
theorem address6_of_abbreviates {words : List Nat} {best : Option ZeroRun}
    (hwords : words.length = 8) (hlt : ∀ word ∈ words, word < 2 ^ 16)
    (hbest : Abbreviated words best) (h : Abbreviates text words best) :
    Address6 text (words.flatMap wordBytes) := by
  cases best with
  | none =>
    obtain rfl : text = groupsText words := h
    exact .inl ⟨.inl (groupsText_form hlt), by rw [length_flatMap_wordBytes, hwords]⟩
  | some run =>
    obtain ⟨htwo, -, hzeros, -⟩ := hbest
    obtain ⟨right, rfl, hright⟩ := h
    have hlast := hzeros.1
    have hleft : ((words.take run.base).flatMap wordBytes).length = 2 * run.base := by
      rw [length_flatMap_wordBytes, length_take]
      omega
    have hafter : ((words.drop (run.base + run.len)).flatMap wordBytes).length =
        2 * (8 - (run.base + run.len)) := by
      rw [length_flatMap_wordBytes, length_drop, hwords]
    refine .inr ⟨_, right, _, _, rfl,
      groupsText_form fun word hword => hlt word (mem_of_mem_take hword), hright, ?_, ?_⟩
    · omega
    · have hgap : 16 - 2 * run.base - 2 * (8 - (run.base + run.len)) = 2 * run.len := by omega
      rw [hleft, hafter, hgap, ← flatMap_wordBytes_zeros, ← flatMap_append,
        ← flatMap_append, append_assoc, ← hzeros.split]

/-! ## The text of `inet_ntop6` -/

section Text

variable {src : List UInt8} {words : List Nat} {run : ZeroRun}

variable {i : Nat}

theorem encapsulated_some : encapsulated words (some run) = true ↔
    run.base = 0 ∧ (run.len = 6 ∨ run.len = 5 ∧ words[5]? = some 0xffff) := by
  simp [encapsulated]

theorem formatLoop_none (src : List UInt8) (words : List Nat) :
    formatLoop src none (encapsulated words none) words 0 [] = some (groupsText words) := by
  have h : formatLoop src none false (words ++ []) 0 [] = _ :=
    formatLoop_start words fun j _ => ⟨rfl, Bool.and_false _⟩
  rwa [append_nil] at h

/-- The part of the text before the words to the right of the run. -/
theorem formatLoop_left (hlast : run.base + run.len ≤ words.length) (hpos : 0 < run.len) :
    formatLoop src (some run) (encapsulated words (some run)) words 0 [] =
      formatLoop src (some run) (encapsulated words (some run)) (words.drop (run.base + run.len))
        (run.base + run.len) (groupsText (words.take run.base) ++ [byte ':']) := by
  have hbase : (words.take run.base).length = run.base := by
    rw [length_take]
    omega
  have hlen : ((words.drop run.base).take run.len).length = run.len := by
    rw [length_take, length_drop]
    omega
  have hwords : words.take run.base ++ ((words.drop run.base).take run.len ++
      words.drop (run.base + run.len)) = words := by
    rw [← drop_drop, take_append_drop, take_append_drop]
  have hquiet : ∀ j < (words.take run.base).length, inRun (some run) j = false ∧
      (decide (j = 6) && encapsulated words (some run)) = false := by
    intro j hj
    rw [hbase] at hj
    refine ⟨inRun_out (.inl hj),
      Bool.and_eq_false_iff.2 (.inr (Bool.eq_false_iff.2 fun hencaps => ?_))⟩
    -- a dotted quad needs the run to start at the first word
    have := (encapsulated_some.1 hencaps).1
    omega
  calc formatLoop src (some run) (encapsulated words (some run)) words 0 []
      = formatLoop src (some run) (encapsulated words (some run)) (words.take run.base ++
          ((words.drop run.base).take run.len ++ words.drop (run.base + run.len))) 0 [] := by
        rw [hwords]
    _ = _ := by rw [formatLoop_start _ hquiet, hbase, formatLoop_run _ hlen hpos]

/-- The rest of the text where it is all groups. -/
theorem formatLoop_right_groups (hencaps : encapsulated words (some run) = false)
    {text : List UInt8} (hpos : 0 < run.len) :
    formatLoop src (some run) (encapsulated words (some run)) (words.drop (run.base + run.len))
      (run.base + run.len) text = some (text ++ colonGroups (words.drop (run.base + run.len))) := by
  have h : formatLoop src (some run) false (words.drop (run.base + run.len) ++ [])
      (run.base + run.len) text = _ :=
    formatLoop_groups (words.drop (run.base + run.len)) (by omega) fun j hj _ =>
      ⟨inRun_out (.inr hj), Bool.and_false _⟩
  rwa [append_nil, ← hencaps] at h

/-- The rest of the text where it ends in a dotted quad. -/
theorem formatLoop_right_quad (hsrc : src.length = 16) (hwords : words.length = 8)
    (hencaps : encapsulated words (some run) = true) :
    formatLoop src (some run) (encapsulated words (some run)) (words.drop (run.base + run.len))
      (run.base + run.len) [byte ':'] =
      some ([byte ':'] ++ colonGroups ((words.drop (run.base + run.len)).take (6 - run.len)) ++
        [byte ':'] ++ quadText (src.drop 12)) := by
  have hquad : (quadText (src.drop 12)).length ≤ 15 :=
    length_quadText_le (by rw [length_drop, hsrc])
  obtain ⟨word, rest, hsix⟩ : ∃ word rest, words.drop 6 = word :: rest :=
    exists_cons_of_ne_nil (drop_eq_nil_iff.not.2 (by omega))
  obtain ⟨hbase, hcases⟩ := encapsulated_some.1 hencaps
  rw [hencaps, hbase]
  rcases hcases with hlen | ⟨hlen, hffff⟩
  · have hroom : [byte ':'].length + 1 + (quadText (src.drop 12)).length < tmpSize := by
      rw [length_singleton, tmpSize]
      omega
    rw [hlen, hsix, formatLoop_quad (inRun_out (by omega)) hroom]
    simp [colonGroups]
  · have hfive : words.drop 5 = 0xffff :: words.drop 6 := by
      obtain ⟨hlt, hword⟩ := List.getElem?_eq_some_iff.1 hffff
      rw [drop_eq_getElem_cons hlt, hword]
    have hroom : ([byte ':'] ++ [byte ':'] ++ hexText 0xffff).length + 1 +
        (quadText (src.drop 12)).length < tmpSize := by
      have := (hexGroup_hexText (show 0xffff < 2 ^ 16 by decide)).length
      simp only [length_append, length_singleton, tmpSize]
      omega
    rw [hlen, hfive, formatLoop_group (inRun_out (by omega)) rfl, if_pos (by simp : (5 : Nat) ≠ 0),
      hsix, formatLoop_quad (inRun_out (by omega)) hroom]
    simp [colonGroups]

variable (text : List UInt8)

theorem close_groups (words : List Nat) {last : Nat} (h : last = 8 ↔ words = []) :
    (if last = 8 then text ++ colonGroups words ++ [byte ':'] else text ++ colonGroups words) =
      text ++ [byte ':'] ++ groupsText words := by
  cases words with
  | nil => simp [h, colonGroups, groupsText]
  | cons word words =>
    rw [if_neg (by simp [h]), groupsText_cons]
    simp [colonGroups]

theorem drop_wordsOf {src : List UInt8} (k : Nat) :
    (wordsOf src).drop k = wordsOf (src.drop (2 * k)) := by
  induction k generalizing src with
  | zero => rfl
  | succ k ih =>
    match src with
    | [] => rfl
    | [b] =>
      have hnil : [b].drop (2 * (k + 1)) = [] := drop_eq_nil_of_le (by rw [length_singleton]; omega)
      rfl
    | hi :: lo :: src =>
      rw [wordsOf, drop_succ_cons, ih, Nat.mul_succ, drop_succ_cons, drop_succ_cons]

theorem colonGroups_append_colon (words : List Nat) :
    colonGroups words ++ [byte ':'] =
      byte ':' :: (words.map hexText).flatMap (· ++ [byte ':']) := by
  induction words with
  | nil => rfl
  | cons word words ih =>
    rw [map_cons, flatMap_cons, append_assoc, singleton_append, ← ih]
    simp [colonGroups]

theorem tailText_quadText {parts : List Nat} (hparts : ∀ word ∈ parts, word < 2 ^ 16)
    (hsrc : src.length = 4) :
    TailText ([byte ':'].intercalate (parts.map hexText ++ [quadText src]))
      (parts.flatMap wordBytes ++ src) := by
  refine .inr ⟨parts.map hexText, parts.map wordBytes, _, src, ?_, quad_quadText hsrc, rfl, ?_⟩
  · rw [forall₂_map_left_iff, forall₂_map_right_iff, forall₂_same]
    exact fun word hword => hexGroup_hexText (hparts word hword)
  · rw [flatMap_def]

/-- The text for a run, before the size of the destination is looked at. -/
theorem format_run (hsrc : src.length = 16) (hbest : Abbreviated (wordsOf src) (some run)) :
    ∃ text right,
      formatLoop src (some run) (encapsulated (wordsOf src) (some run)) (wordsOf src) 0 []
        = some text ∧
      (if run.base + run.len = 8 then text ++ [byte ':'] else text) =
        groupsText ((wordsOf src).take run.base) ++ [byte ':', byte ':'] ++ right ∧
      TailText right (((wordsOf src).drop (run.base + run.len)).flatMap wordBytes) ∧
      right.length + 5 * run.base ≤ 30 := by
  obtain ⟨hwords, -, hlt⟩ := wordsOf_spec 8 src hsrc
  obtain ⟨htwo, -, hzeros, -⟩ := hbest
  have hlast := hzeros.1
  have hright : ∀ word ∈ (wordsOf src).drop (run.base + run.len), word < 2 ^ 16 :=
    fun word hword => hlt word (mem_of_mem_drop hword)
  rw [formatLoop_left hlast (by omega)]
  cases hencaps : encapsulated (wordsOf src) (some run) with
  | false =>
    have hnil : run.base + run.len = 8 ↔ (wordsOf src).drop (run.base + run.len) = [] := by
      rw [drop_eq_nil_iff]
      omega
    refine ⟨_, groupsText ((wordsOf src).drop (run.base + run.len)),
      hencaps ▸ formatLoop_right_groups hencaps (by omega), ?_, .inl (groupsText_form hright), ?_⟩
    · rw [close_groups _ _ hnil]
      simp
    · have := length_groupsText_le hright
      rw [length_drop] at this
      omega
  | true =>
    have hfour : (src.drop 12).length = 4 := by rw [length_drop, hsrc]
    obtain ⟨hbase, hcases⟩ := encapsulated_some.1 hencaps
    have htext := formatLoop_right_quad hsrc hwords hencaps
    rw [hencaps, hbase, zero_add] at htext
    rw [hbase, zero_add] at hright ⊢
    -- the words to the right of the run are at most one group, and the quad
    obtain ⟨parts, hdef⟩ : ∃ parts, ((wordsOf src).drop run.len).take (6 - run.len) = parts :=
      ⟨_, rfl⟩
    rw [hdef] at htext
    have hsplit : (wordsOf src).drop run.len = parts ++ wordsOf (src.drop 12) := by
      have hsix : (wordsOf src).drop 6 = ((wordsOf src).drop run.len).drop (6 - run.len) := by
        rw [drop_drop]
        congr 1
        omega
      rw [← hdef, ← drop_wordsOf 6, hsix, take_append_drop]
    have hparts : ∀ word ∈ parts, word < 2 ^ 16 := fun word hword =>
      hright word (hsplit ▸ mem_append_left _ hword)
    refine ⟨_, [byte ':'].intercalate (parts.map hexText ++ [quadText (src.drop 12)]), htext, ?_,
      ?_, ?_⟩
    · rw [if_neg (by omega), intercalate_append_singleton,
        append_assoc [byte ':'], colonGroups_append_colon]
      simp [groupsText]
    · rw [hsplit, flatMap_append, (wordsOf_spec 2 _ hfour).2.1]
      exact tailText_quadText hparts hfour
    · have hquad := length_quadText_le hfour
      have hgroups := length_colonGroups_le hparts
      have hcolon := congrArg List.length (colonGroups_append_colon parts)
      have hshort : parts.length ≤ 1 := by
        rw [← hdef, length_take]
        omega
      rw [length_append, length_singleton, length_cons] at hcolon
      rw [intercalate_append_singleton, length_append]
      omega

/-- The test on the size of the destination counts the null byte. -/
theorem fits (size : Nat) :
    (if text.length + 1 > size then none else some text) =
      if text.length < size then some text else none := by
  by_cases h : text.length < size
  · rw [if_pos h, if_neg (by omega)]
  · rw [if_neg h, if_pos (by omega)]

/-- The text of an address, and the sizes of the destination that it fits in. -/
theorem inetNtop6_text (hsrc : src.length = 16) :
    ∃ text, Abbreviates text (wordsOf src) (bestRun (wordsOf src)) ∧ text.length < tmpSize ∧
      ∀ size, inetNtop6 src size = if text.length < size then some text else none := by
  obtain ⟨hwords, -, hlt⟩ := wordsOf_spec 8 src hsrc
  have hbest := bestRun_spec (wordsOf src)
  cases hrun : bestRun (wordsOf src) with
  | none =>
    refine ⟨groupsText (wordsOf src), rfl, ?_, fun size => ?_⟩
    · have := length_groupsText_le hlt
      rw [tmpSize]
      omega
    · have hformat := formatLoop_none src (wordsOf src)
      rw [inetNtop6]
      simp only [hrun, hformat, Option.any_none, Bool.false_eq_true]
      exact fits _ _
  | some run =>
    rw [hrun] at hbest
    obtain ⟨text, right, hformat, hclosed, hright, hlength⟩ := format_run hsrc hbest
    refine ⟨_, ⟨right, rfl, hright⟩, ?_, fun size => ?_⟩
    · have htake : ∀ word ∈ (wordsOf src).take run.base, word < 2 ^ 16 :=
        fun word hword => hlt word (mem_of_mem_take hword)
      have hleft := length_groupsText_le htake
      rw [length_take] at hleft
      simp only [length_append, length_cons, length_nil, tmpSize]
      omega
    · rw [inetNtop6, hrun]
      simp only [hformat, Option.any_some, decide_eq_true_eq, hclosed]
      exact fits _ _

end Text

/-! ## Text and address -/

/-- `inet_pton` accepts the texts of the form, and stores the bytes they stand for; for all other
texts it returns 0 and leaves the destination as it is. -/
def AcceptsExactly (af : Family) (Form : List UInt8 → List UInt8 → Prop) : Prop :=
  ∀ src dst, (∃ bytes, Form src bytes ∧
      inetPton af src dst = .ok (1, bytes ++ dst.drop bytes.length)) ∨
    (¬ ∃ bytes, Form src bytes) ∧ inetPton af src dst = .ok (0, dst)

def ReadsBack (af : Family) (a text : List UInt8) : Prop :=
  ∀ dst : List UInt8, dst.length = a.length → inetPton af text dst = .ok (1, a)

theorem accepts_of {af : Family} {Form : List UInt8 → List UInt8 → Prop}
    {parse : List UInt8 → Except Fault (Option (List UInt8))}
    (hsome : ∀ src dst bytes, parse src = .ok (some bytes) →
      inetPton af src dst = .ok (1, bytes ++ dst.drop bytes.length))
    (hnone : ∀ src dst, parse src = .ok none → inetPton af src dst = .ok (0, dst))
    (hsound : ∀ src, ∃ r, parse src = .ok r ∧ ∀ bytes, r = some bytes → Form src bytes)
    (hcomplete : ∀ {src bytes}, Form src bytes → parse src = .ok (some bytes)) :
    AcceptsExactly af Form ∧ ∀ {text a}, Form text a → ReadsBack af a text := by
  refine ⟨fun src dst => ?_, fun h dst hdst => ?_⟩
  · obtain ⟨r, hr, hform⟩ := hsound src
    cases r with
    | some bytes => exact .inl ⟨bytes, hform bytes rfl, hsome src dst bytes hr⟩
    | none =>
      refine .inr ⟨fun ⟨bytes, h⟩ => ?_, hnone src dst hr⟩
      have := hcomplete h
      rw [hr] at this
      nomatch this
  · rw [hsome _ _ _ (hcomplete h), ← hdst, drop_length, append_nil]

theorem accepts_inet :
    AcceptsExactly .inet Quad ∧ ∀ {text a}, Quad text a → ReadsBack .inet a text :=
  accepts_of (fun src dst bytes h => by rw [inetPton, h]; rfl)
    (fun src dst h => by rw [inetPton, h]; rfl) inetPton4_sound inetPton4_complete

theorem accepts_inet6 :
    AcceptsExactly .inet6 Address6 ∧ ∀ {text a}, Address6 text a → ReadsBack .inet6 a text :=
  accepts_of (fun src dst bytes h => by rw [inetPton, h]; rfl)
    (fun src dst h => by rw [inetPton, h]; rfl) inetPton6_sound inetPton6_complete

theorem inetNtop4_text (h : a.length = 4) : (quadText a).length < 16 ∧
      ∀ size, inetNtop4 a size =
        if (quadText a).length < size then some (quadText a) else none := by
  refine ⟨Nat.lt_succ_of_le (length_quadText_le h), fun size => ?_⟩
  by_cases hsize : (quadText a).length < size
  · rw [inetNtop4, if_neg (Nat.not_le_of_lt hsize), if_pos hsize]
  · rw [inetNtop4, if_pos (Nat.le_of_not_lt hsize), if_neg hsize]

/-- `inet_pton` accepts the standard forms of addresses and no other text; what `inet_ntop` writes
for an address is read back as that address; and for an IPv6 address the text abbreviates the
leftmost of the longest runs of two or more groups of zeros. -/
theorem inetPton_inetNtop :
    AcceptsExactly .inet Quad ∧ AcceptsExactly .inet6 Address6 ∧
      (∀ src dst, inetPton .other src dst = .ok (-1, dst)) ∧
      (∀ a : List UInt8, a.length = 4 → ∃ text : List UInt8, text.length < 16 ∧
        (∀ size, inetNtop .inet a size = if text.length < size then some text else none) ∧
        ReadsBack .inet a text) ∧
      ∀ a : List UInt8, a.length = 16 → ∃ text best, text.length < tmpSize ∧
        (∀ size, inetNtop .inet6 a size = if text.length < size then some text else none) ∧
        ReadsBack .inet6 a text ∧
        Abbreviated (wordsOf a) best ∧ Abbreviates text (wordsOf a) best := by
  refine ⟨accepts_inet.1, accepts_inet6.1, fun _ _ => rfl, fun a ha => ?_, fun a ha => ?_⟩
  · obtain ⟨hlength, htext⟩ := inetNtop4_text ha
    exact ⟨quadText a, hlength, htext, accepts_inet.2 (quad_quadText ha)⟩
  · obtain ⟨text, habbr, hlength, htext⟩ := inetNtop6_text ha
    obtain ⟨hwords, hbytes, hlt⟩ := wordsOf_spec 8 a ha
    have hbest := bestRun_spec (wordsOf a)
    have hform := address6_of_abbreviates hwords hlt hbest habbr
    rw [hbytes] at hform
    exact ⟨text, _, hlength, htext, accepts_inet6.2 hform, hbest, habbr⟩

/-- The loopback address is written as `::1`, and read back. -/
theorem inetPton_inetNtop_loopback :
    let a := replicate 15 (0 : UInt8) ++ [1]
    a.length = 16 ∧ inetNtop .inet6 a 46 = some (bytesOf "::1") ∧
      ReadsBack .inet6 a (bytesOf "::1") := by
  intro a
  have htext : inetNtop .inet6 a 46 = some (bytesOf "::1") := by decide +kernel
  obtain ⟨text, -, hlength, hntop, hback, -⟩ := inetPton_inetNtop.2.2.2.2 a (by decide)
  have heq : some text = some (bytesOf "::1") := by
    rw [← htext, hntop 46]
    exact (if_pos hlength).symm
  exact ⟨by decide, htext, Option.some.inj heq ▸ hback⟩

end SafeLibc.Resolv.Inet
