import SafeLibc.Iconv.Utf7Decode

/-!
# Round trips through UTF-7

The encoder holds back up to four bits of a character, so the decoder is behind it by a character:
`Sync` relates the state of the encoder to that of a decoder that has read its output, and the
character between them. `Sync.step` is one character: which bytes it is written as, whatever the
room, and that the decoder reads them. From it follow, by induction over the text, that the bytes do
not depend on the pieces of the output (`toLoop_spec`) and that they are read back
(`reads_encodeRest`).
-/

namespace SafeLibc.Iconv.Utf7

open SafeLibc.Lib List

/-! ## Reading -/

/-- The decoder reads `bytes` as `out`, whatever follows them. -/
def Reads (var : Variant) (s : FromState) (bytes : List UInt8) (out : List Nat) (s' : FromState) :
    Prop :=
  ∀ ignoreErrors rest room, 4 * out.length + 4 ≤ room →
    fromLoop var ignoreErrors s (bytes ++ rest) room =
      (fromLoop var ignoreErrors s' rest (room - 4 * out.length)).after out

section Reads

variable {var : Variant} {s s' s'' : FromState} {ch : UInt8} {bytes bytes' : List UInt8}
  {out out' : List Nat}

theorem Reads.refl (s : FromState) : Reads var s [] [] s := by
  intro ignoreErrors rest room _
  rfl

theorem Reads.trans (h : Reads var s bytes out s') (h' : Reads var s' bytes' out' s'') :
    Reads var s (bytes ++ bytes') (out ++ out') s'' := by
  intro ignoreErrors rest room hroom
  rw [length_append] at hroom ⊢
  rw [append_assoc, h ignoreErrors _ room (by omega), h' ignoreErrors rest _ (by omega)]
  simp only [FromCall.after, append_assoc, mul_add, Nat.sub_sub]

/-- A turn that reads a byte and the bytes `bytes` after it. -/
theorem Reads.of_next (h : ∀ rest, fromBody var s ch (bytes ++ rest) = .next rest out s') :
    Reads var s (ch :: bytes) out s' := by
  intro ignoreErrors rest room hroom
  rw [cons_append, fromLoop_next (h rest) ignoreErrors (by omega)]

/-- A turn that reads at most the first byte, before those that are read in the new state. -/
theorem Reads.of_turn {left : List UInt8}
    (hturn : ∀ rest, fromBody var s ch (bytes ++ rest) = .next (left ++ rest) [] s')
    (h : Reads var s' left out s'') : Reads var s (ch :: bytes) out s'' := by
  intro ignoreErrors rest room hroom
  rw [cons_append, fromLoop_next (hturn rest) ignoreErrors (by omega)]
  rw [length_nil, Nat.sub_zero, h ignoreErrors rest room hroom]
  rfl

end Reads

def char64 (var : Variant) (i : Nat) : UInt8 := (base64 i var).getD 0

theorem base64_eq (var : Variant) : ∀ i < 64, base64 i var = some (char64 var i) ∧
    digit var (char64 var i).toNat = some i ∧ char64 var i ≠ byte '-' := by
  cases var <;> decide +kernel

variable {k ch d count : Nat} {var : Variant} {b b' : Bits} {bytes : List UInt8}
  {pending out : List Nat} {s : FromState} {e : Encoding}

theorem putBase64_eq {values : List Nat} (h : ∀ i ∈ values, i < 64) :
    putBase64 var bytes values count = .next (bytes ++ values.map (char64 var)) count := by
  have hmap : (values.mapM fun i => base64 i var) = some (values.map (char64 var)) := by
    induction values with
    | nil => rfl
    | cons i values ih =>
      rw [mapM_cons, (base64_eq var i (h i mem_cons_self)).1,
        ih fun j hj => h j (mem_cons_of_mem _ hj)]
      rfl
  rw [putBase64, hmap]

/-! ## Bits of a character -/

def Scalar (ch : Nat) : Prop := ch < 0xd800 ∨ 0xe000 ≤ ch ∧ ch < 0x110000

def width (ch : Nat) : Nat := if ch < 0x10000 then 16 else 32

def code (ch : Nat) : Nat := if ch < 0x10000 then ch else surrogates ch

def firstBits (ch n : Nat) : Bits := ⟨n, code ch / 2 ^ (width ch - n)⟩

/-- The values of the next `count` base64 characters after the first `n` bits. -/
def sextets (ch n : Nat) : Nat → List Nat
  | 0 => []
  | count + 1 => code ch / 2 ^ (width ch - n - 6) % 64 :: sextets ch (n + 6) count

def Bits.pushes (b : Bits) : List Nat → Option (List Nat × Bits)
  | [] => some ([], b)
  | i :: values =>
    match b.push i with
    | none => none
    | some (out, b') =>
      match b'.pushes values with
      | none => none
      | some (out', b'') => some (out ++ out', b'')

variable {i : Nat} (x : Nat) (wch : Nat)

theorem pushes_cons {b'' : Bits} {values out' : List Nat} (h : b.push i = some (out, b'))
    (h' : b'.pushes values = some (out', b'')) :
    b.pushes (i :: values) = some (out ++ out', b'') := by
  simp only [Bits.pushes, h, h']

theorem reads_values (var : Variant) (hb : b.Ok) {values : List Nat}
    (hvalues : ∀ i ∈ values, i < 64) (h : b.pushes values = some (out, b')) :
    Reads var b.state (values.map (char64 var)) out b'.state := by
  induction values generalizing b out with
  | nil =>
    cases h
    exact Reads.refl _
  | cons i values ih =>
    have hi := hvalues i mem_cons_self
    rw [Bits.pushes] at h
    split at h
    · cases h
    · next out₁ b₁ hpush =>
      split at h
      · cases h
      · next out₂ b₂ hpushes =>
        cases h
        have hactive : ¬b.state.count >>> 3 = 0 := by
          have hle := hb.le
          rw [count_state]
          omega
        have hfirst : Reads var b.state [char64 var i] out₁ b₁.state := by
          apply Reads.of_next
          intro rest
          rw [fromBody.eq_def, if_neg hactive, (base64_eq var i hi).2.1]
          dsimp only
          rw [accumulate_bits hb hi, hpush]
          rfl
        exact hfirst.trans
          (ih (hb.push hi hpush) (fun j hj => hvalues j (mem_cons_of_mem _ hj)) hpushes)

/-! ### The pieces of a character -/

theorem surrogates_eq : surrogates ch =
      (0xd800 + (ch - 0x10000) / 2 ^ 10) * 2 ^ 16 + (0xdc00 + (ch - 0x10000) % 2 ^ 10) := by
  have hlow : 0xdc00 + (ch - 0x10000) % 2 ^ 10 < 2 ^ 16 := by omega
  unfold surrogates
  rw [show 0x3ff = 2 ^ 10 - 1 from rfl, Nat.and_two_pow_sub_one_eq_mod,
    ← Nat.shiftLeft_add_eq_or_of_lt hlow, Nat.shiftLeft_eq, Nat.shiftRight_eq_div_pow]

section Character

variable {ch : Nat}

theorem Scalar.code_lt (h : Scalar ch) : code ch < 2 ^ width ch := by
  unfold Scalar at h
  unfold code width
  split
  · omega
  · rw [surrogates_eq]
    omega

theorem Scalar.halves (h : Scalar ch) (hwidth : width ch = 32) :
    isHigh (code ch / 2 ^ 16) ∧ code ch / 2 ^ 10 % 64 = 0x37 ∧ pairChar (code ch) = ch := by
  have hlarge : ¬ch < 0x10000 := by
    intro hsmall
    rw [width, if_pos hsmall] at hwidth
    cases hwidth
  unfold Scalar at h
  rw [code, if_neg hlarge, surrogates_eq]
  unfold isHigh pairChar
  omega

theorem code_of_width (hwidth : width ch = 16) : code ch = ch := by
  unfold width at hwidth
  unfold code
  split
  · rfl
  · next hlarge =>
    rw [if_neg hlarge] at hwidth
    cases hwidth

theorem Scalar.not_high (h : Scalar ch) : ¬isHigh ch := by
  unfold Scalar at h
  unfold isHigh
  omega

theorem width_cases (ch : Nat) : width ch = 16 ∨ width ch = 32 := by
  unfold width
  split
  · exact .inl rfl
  · exact .inr rfl

theorem div_append (m : Nat) : x / 2 ^ (m + 6) * 64 + x / 2 ^ m % 64 = x / 2 ^ m := by
  rw [pow_add, ← Nat.div_div_eq_div_mul]
  omega

variable {n k count : Nat}

/-- **Inside of a character**: six bits more of it wait. -/
theorem push_firstBits (h : Scalar ch) (hn : n + 6 < width ch) :
    (firstBits ch n).push (code ch / 2 ^ (width ch - n - 6) % 64) =
      some ([], firstBits ch (n + 6)) := by
  have happend : code ch / 2 ^ (width ch - n) * 64 + code ch / 2 ^ (width ch - n - 6) % 64 =
      code ch / 2 ^ (width ch - (n + 6)) := by
    rw [show width ch - n = width ch - (n + 6) + 6 by omega,
      show width ch - (n + 6) + 6 - 6 = width ch - (n + 6) by omega, div_append]
  unfold firstBits Bits.push
  dsimp only
  rw [happend]
  split
  · rfl
  · next h10 =>
    -- only a surrogate pair is longer than this
    have hwidth : width ch = 32 := (width_cases ch).resolve_left (by omega)
    obtain ⟨hhigh, hlow, -⟩ := h.halves hwidth
    rw [hwidth] at hn ⊢
    split
    · rw [Nat.div_div_eq_div_mul, ← pow_add, show 32 - (n + 6) + (n - 10) = 16 by omega,
        if_pos hhigh]
    split
    · rw [Nat.div_div_eq_div_mul, ← pow_add, show 32 - (n + 6) + (n - 16) = 10 by omega,
        if_pos hlow]
    · rw [if_pos (by omega)]

/-- **The end of a character**: its last bits with the first ones, `t`, of what follows. -/
theorem push_flush (h : Scalar ch) {t : Nat} (hpos : 0 < k) (hk : k ≤ 6) (ht : t < 2 ^ (6 - k)) :
    (firstBits ch (width ch - k)).push (code ch % 2 ^ k * 2 ^ (6 - k) + t) =
      some ([ch], ⟨6 - k, t⟩) := by
  have hwidth := width_cases ch
  have hpow : 2 ^ k * 2 ^ (6 - k) = 64 := by
    rw [← Nat.pow_add, show k + (6 - k) = 6 by omega]
  have happend : code ch / 2 ^ k * 64 + (code ch % 2 ^ k * 2 ^ (6 - k) + t) =
      code ch * 2 ^ (6 - k) + t := by
    rw [← hpow, ← Nat.mul_assoc, ← Nat.add_assoc, ← Nat.add_mul, Nat.mul_comm (_ / _),
      Nat.div_add_mod]
  have hdiv : (code ch * 2 ^ (6 - k) + t) / 2 ^ (6 - k) = code ch := by
    rw [Nat.mul_comm, Nat.mul_add_div (Nat.two_pow_pos _), Nat.div_eq_of_lt ht, Nat.add_zero]
  have hmod : (code ch * 2 ^ (6 - k) + t) % 2 ^ (6 - k) = t := by
    rw [Nat.mul_comm, Nat.mul_add_mod, Nat.mod_eq_of_lt ht]
  unfold firstBits Bits.push
  dsimp only
  rw [show width ch - (width ch - k) = k by omega, happend]
  rcases hwidth with hwidth | hwidth
  · rw [hwidth, if_neg (by omega), if_pos (by omega), show 16 - k - 10 = 6 - k by omega, hdiv, hmod,
      code_of_width hwidth, if_neg h.not_high]
  · rw [hwidth, if_neg (by omega), if_neg (by omega), if_neg (by omega), if_neg (by omega),
      show 32 - k - 26 = 6 - k by omega, hdiv, hmod, (h.halves hwidth).2.2]

theorem firstBits_ok (h : Scalar ch) (hk : k = 2 ∨ k = 4) : (firstBits ch (width ch - k)).Ok := by
  have hlt := h.code_lt
  rcases width_cases ch with hwidth | hwidth
  · rw [hwidth] at hlt
    refine ⟨?_, ?_, ?_, ?_, ?_⟩ <;> simp only [firstBits, hwidth]
    · omega
    · omega
    · rcases hk with rfl | rfl <;> omega
    · intro hn
      omega
    · intro hn
      omega
  · obtain ⟨hhigh, hlow, -⟩ := h.halves hwidth
    rw [hwidth] at hlt
    refine ⟨?_, ?_, ?_, ?_, ?_⟩ <;> simp only [firstBits, hwidth]
    · omega
    · omega
    · rcases hk with rfl | rfl <;> omega
    · intro _
      rwa [Nat.div_div_eq_div_mul, ← pow_add, show 32 - (32 - k) + (32 - k - 16) = 16 by omega]
    · intro _
      rwa [Nat.div_div_eq_div_mul, ← pow_add, show 32 - (32 - k) + (32 - k - 22) = 10 by omega]

theorem sextets_lt (n count : Nat) : ∀ i ∈ sextets ch n count, i < 64 := by
  induction count generalizing n with
  | zero => exact fun i hi => absurd hi not_mem_nil
  | succ count ih =>
    exact forall_mem_cons.2 ⟨Nat.mod_lt _ (by decide), ih _⟩

theorem length_sextets (n count : Nat) : (sextets ch n count).length = count := by
  induction count generalizing n with
  | zero => rfl
  | succ count ih => rw [sextets, length_cons, ih]

theorem pushes_sextets (h : Scalar ch) (hpos : 0 < k) (hn : n + 6 * count + k = width ch) :
    (firstBits ch n).pushes (sextets ch n count) = some ([], firstBits ch (width ch - k)) := by
  induction count generalizing n with
  | zero => rw [show width ch - k = n by omega]; rfl
  | succ count ih =>
    exact pushes_cons (push_firstBits h (by omega)) (ih (by omega))

theorem pushes_sextets_last (h : Scalar ch) (hpos : 0 < count) (hn : n + 6 * count = width ch) :
    (firstBits ch n).pushes (sextets ch n count) = some ([ch], ⟨0, 0⟩) := by
  induction count generalizing n with
  | zero => cases hpos
  | succ count ih =>
    cases count with
    | zero =>
      have hlast := push_flush h (k := 6) (t := 0) (by decide) (le_refl 6) (by decide)
      rw [show width ch - 6 = n by omega] at hlast
      rw [sextets, show width ch - n - 6 = 0 by omega]
      simpa using pushes_cons hlast rfl
    | succ count => exact pushes_cons (push_firstBits h (by omega)) (ih (by omega) (by omega))

end Character

/-! ## The encoder -/

/-- The state inside base64 in which the `k` bits of `d` wait. -/
def activeCount (k d : Nat) : Nat :=
  if k = 0 then 1 <<< 3 else if k = 2 then d <<< 7 ||| 2 <<< 3 else d <<< 5 ||| 3 <<< 3

def Held (k d : Nat) : Prop := k = 0 ∧ d = 0 ∨ k = 2 ∧ d < 4 ∨ k = 4 ∧ d < 16

theorem Held.spec (h : Held k d) :
    activeCount k d &&& 0x18 ≠ 0 ∧ (activeCount k d &&& 0x18 ≥ 0x10 ↔ k ≠ 0) ∧
      (if activeCount k d &&& 0x18 ≥ 0x10 then 3 else 2) = (16 + k) / 6 ∧
      (if activeCount k d &&& 0x18 ≥ 0x18 then 6 else 5) = (32 + k) / 6 ∧
      activeCount k d >>> 3 &&& 3 = k / 2 + 1 ∧ waiting (activeCount k d) = d * 2 ^ (6 - k) := by
  obtain ⟨rfl, rfl⟩ | ⟨rfl, hd⟩ | ⟨rfl, hd⟩ := h
  · decide
  · revert d
    decide
  · revert d
    decide

def values (k d ch : Nat) : List Nat :=
  if k = 0 then sextets ch 0 (width ch / 6)
  else (d * 2 ^ (6 - k) + code ch / 2 ^ (width ch - (6 - k))) ::
    sextets ch (6 - k) ((width ch + k - 6) / 6)

def heldAfter (k ch : Nat) : Nat := (width ch + k) % 6

def countAfter (k ch : Nat) : Nat := activeCount (heldAfter k ch) (code ch % 2 ^ heldAfter k ch)

theorem and_63 : x &&& 0x3f = x % 64 := Nat.and_two_pow_sub_one_eq_mod x 6

theorem and_15 : x &&& 15 = x % 16 := Nat.and_two_pow_sub_one_eq_mod x 4

theorem and_3 : x &&& 3 = x % 4 := Nat.and_two_pow_sub_one_eq_mod x 2

theorem mul_or (d : Nat) {s x : Nat} (hx : x < 2 ^ s) : d * 2 ^ s ||| x = d * 2 ^ s + x := by
  rw [← Nat.shiftLeft_eq, Nat.shiftLeft_add_eq_or_of_lt hx]

theorem toBodyUnit_eq (h : Held k d) (hch : ch < 0x10000) : toBodyUnit var (activeCount k d) ch =
      putBase64 var [] (values k d ch) (countAfter k ch) := by
  obtain ⟨-, -, -, -, hshift, hwaiting⟩ := h.spec
  have hwidth : width ch = 16 := if_pos hch
  have hcode : code ch = ch := if_pos hch
  unfold toBodyUnit
  rw [hshift, hwaiting]
  obtain ⟨rfl, rfl⟩ | ⟨rfl, hd⟩ | ⟨rfl, hd⟩ := h
  · simp only [values, countAfter, heldAfter, sextets, hwidth, hcode, and_63, and_15,
      Nat.shiftRight_eq_div_pow]
    congr 2
    omega
  · simp only [values, countAfter, heldAfter, sextets, hwidth, hcode, and_63,
      Nat.shiftRight_eq_div_pow]
    rw [mul_or d (by omega)]
    congr 2
    simp
  · simp only [values, countAfter, heldAfter, sextets, hwidth, hcode, and_63, and_3,
      Nat.shiftRight_eq_div_pow]
    rw [mul_or d (by omega)]
    congr 2

theorem toBodyPair_eq (h : Held k d) (hch : ¬ch < 0x10000) (hscalar : Scalar ch) :
    toBodyPair var (activeCount k d) (surrogates ch) =
      putBase64 var [] (values k d ch) (countAfter k ch) := by
  obtain ⟨-, -, -, -, hshift, hwaiting⟩ := h.spec
  have hwidth : width ch = 32 := if_neg hch
  have hlt := hscalar.code_lt
  rw [hwidth] at hlt
  rw [show surrogates ch = code ch from (if_neg hch).symm]
  unfold toBodyPair
  rw [hshift, hwaiting]
  obtain ⟨rfl, rfl⟩ | ⟨rfl, hd⟩ | ⟨rfl, hd⟩ := h
  · simp only [values, countAfter, heldAfter, sextets, hwidth, and_63, and_3,
      Nat.shiftRight_eq_div_pow]
    congr 2
    omega
  · simp only [values, countAfter, heldAfter, sextets, hwidth, and_63, and_15,
      Nat.shiftRight_eq_div_pow]
    rw [mul_or d (by omega)]
    congr 2
  · simp only [values, countAfter, heldAfter, sextets, hwidth, and_63, Nat.shiftRight_eq_div_pow]
    rw [mul_or d (by omega)]
    congr 2
    simp

theorem values_lt (h : Held k d) (hch : Scalar ch) : ∀ i ∈ values k d ch, i < 64 := by
  have hlt := hch.code_lt
  intro i hi
  unfold values at hi
  split at hi
  · exact sextets_lt _ _ i hi
  · next hk =>
    rcases mem_cons.1 hi with rfl | hi
    · obtain ⟨rfl, -⟩ | ⟨rfl, hd⟩ | ⟨rfl, hd⟩ := h
      · exact absurd rfl hk
      · rcases width_cases ch with hwidth | hwidth <;> rw [hwidth] at hlt ⊢ <;> omega
      · rcases width_cases ch with hwidth | hwidth <;> rw [hwidth] at hlt ⊢ <;> omega
    · exact sextets_lt _ _ i hi

theorem heldAfter_cases (h : Held k d) (ch : Nat) :
    heldAfter k ch = 0 ∨ heldAfter k ch = 2 ∨ heldAfter k ch = 4 := by
  unfold Held at h
  unfold heldAfter
  rcases width_cases ch with hwidth | hwidth <;> rw [hwidth] <;> omega

theorem length_values (k d ch : Nat) : (values k d ch).length = (width ch + k) / 6 := by
  unfold values
  split
  · next hk => rw [length_sextets, hk, add_zero]
  · rw [length_cons, length_sextets]
    rcases width_cases ch with hwidth | hwidth <;> rw [hwidth] <;> omega

/-! ## The decoder behind the encoder -/

/-- The states of the encoder and of a decoder that has read its output, with the character that is
between them. -/
inductive Sync : Nat → List Nat → FromState → Prop
  | direct (wch : Nat) : Sync 0 [] ⟨0, wch⟩
  | aligned : Sync (activeCount 0 0) [] (Bits.state ⟨0, 0⟩)
  | lagging {k prev : Nat} (hk : k = 2 ∨ k = 4) (hprev : Scalar prev) :
    Sync (activeCount k (code prev % 2 ^ k)) [prev] (firstBits prev (width prev - k)).state

/-- What is in sync inside base64: the held bits, and the bits that the decoder has. -/
structure Behind (k d : Nat) (pending : List Nat) (b : Bits) : Prop where
  held : Held k d
  ok : b.Ok
  /-- The next value completes the pending character and begins with `t` the next one. -/
  push_eq : k ≠ 0 → ∀ t < 2 ^ (6 - k), b.push (d * 2 ^ (6 - k) + t) = some (pending, ⟨6 - k, t⟩)
  nil_of_zero : k = 0 → pending = [] ∧ b = ⟨0, 0⟩

theorem behind_nil : Behind 0 0 [] ⟨0, 0⟩ :=
  ⟨.inl ⟨rfl, rfl⟩, Bits.ok_nil, fun h => absurd rfl h, fun _ => ⟨rfl, rfl⟩⟩

theorem Sync.cases {count : Nat} {pending : List Nat} (h : Sync count pending s) :
    (count = 0 ∧ pending = [] ∧ ∃ wch, s = ⟨0, wch⟩) ∨
      ∃ k d b, count = activeCount k d ∧ s = b.state ∧ Behind k d pending b := by
  cases h with
  | direct wch => exact .inl ⟨rfl, rfl, wch, rfl⟩
  | aligned => exact .inr ⟨0, 0, ⟨0, 0⟩, rfl, rfl, behind_nil⟩
  | @lagging k prev hk hprev =>
    refine .inr ⟨k, code prev % 2 ^ k, firstBits prev (width prev - k), rfl, rfl, ?_,
      firstBits_ok hprev hk, ?_, ?_⟩
    · rcases hk with rfl | rfl
      · exact .inr (.inl ⟨rfl, Nat.mod_lt _ (by decide)⟩)
      · exact .inr (.inr ⟨rfl, Nat.mod_lt _ (by decide)⟩)
    · intro hzero t ht
      exact push_flush hprev (by omega) (by omega) ht
    · intro hzero
      omega

/-- The values of a character from its first bits on leave it pending or complete. -/
theorem pushes_rest (hch : Scalar ch) {n m : Nat} (hm : 0 < m) (hk : k = 0 ∨ k = 2 ∨ k = 4)
    (hn : n + 6 * m + k = width ch) :
    ∃ out pending b, (firstBits ch n).pushes (sextets ch n m) = some (out, b) ∧
      Sync (activeCount k (code ch % 2 ^ k)) pending b.state ∧ out ++ pending = [ch] := by
  rcases hk with rfl | hk
  · refine ⟨[ch], [], ⟨0, 0⟩, pushes_sextets_last hch hm hn, ?_, rfl⟩
    exact .aligned
  · exact ⟨[], [ch], _, pushes_sextets hch (by omega) hn, .lagging hk hch, rfl⟩

/-- **A character inside base64**: its values complete the pending one, and leave it pending or
complete. -/
theorem Behind.pushes (h : Behind k d pending b) (hch : Scalar ch) :
    ∃ out pending' b', b.pushes (values k d ch) = some (out, b') ∧
      Sync (countAfter k ch) pending' b'.state ∧ out ++ pending' = pending ++ [ch] := by
  have hheld := h.held
  have hafter := heldAfter_cases hheld ch
  have hwidth := width_cases ch
  unfold values countAfter
  by_cases hk : k = 0
  · obtain ⟨rfl, rfl⟩ := h.nil_of_zero hk
    have hzero : firstBits ch 0 = ⟨0, 0⟩ := by
      rw [firstBits, Nat.sub_zero, Nat.div_eq_of_lt hch.code_lt]
    rw [if_pos hk, ← hzero]
    apply pushes_rest hch (by omega) hafter
    unfold heldAfter
    omega
  · have hk24 : k = 2 ∨ k = 4 := by
      unfold Held at hheld
      omega
    have ht : code ch / 2 ^ (width ch - (6 - k)) < 2 ^ (6 - k) := by
      rw [Nat.div_lt_iff_lt_mul (Nat.two_pow_pos _), ← pow_add,
        show 6 - k + (width ch - (6 - k)) = width ch by omega]
      exact hch.code_lt
    obtain ⟨out, pending', b', hpushes, hsync, hout⟩ := pushes_rest (n := 6 - k)
      (m := (width ch + k - 6) / 6) hch (by omega) hafter (by unfold heldAfter; omega)
    rw [if_neg hk]
    exact ⟨pending ++ out, pending', b', pushes_cons (h.push_eq hk _ ht) hpushes, hsync,
      by rw [append_assoc, hout]⟩

/-! ## Direct characters -/

theorem isdirect_lt (h : isdirect ch var = true) : ch < 128 := by
  cases var <;> simp only [isdirect, between, Char.reduceToNat, Bool.or_eq_true, Bool.and_eq_true,
    decide_eq_true_eq, beq_iff_eq] at h <;> omega

theorem toNat_ofNat_lt (h : ch < 128) : (UInt8.ofNat ch).toNat = ch := by
  rw [UInt8.toNat_ofNat', Nat.mod_eq_of_lt (by omega)]

theorem digit_of_not_needsExplicitShift : ∀ ch < 128, isdirect ch .utf7 = true →
    needsExplicitShift ch = false →
    digit .utf7 (UInt8.ofNat ch).toNat = none ∧ UInt8.ofNat ch ≠ byte '-' := by
  decide +kernel

theorem shiftCharacter_spec (var : Variant) :
    isxdirect (shiftCharacter var) var = false ∧ isdirect (shiftCharacter var) var = false ∧
      shiftCharacter var < 128 := by
  cases var <;> decide

section Direct

variable {var : Variant} {ch : Nat}

theorem reads_direct (h : isdirect ch var = true) (wch : Nat) :
    Reads var ⟨0, wch⟩ [UInt8.ofNat ch] [ch] ⟨0, wch⟩ := by
  apply Reads.of_next
  intro rest
  have hxdirect : isxdirect ch var = true := by
    rw [isxdirect, if_pos h]
  rw [fromBody.eq_def, if_pos (Nat.zero_shiftRight 3), toNat_ofNat_lt (isdirect_lt h),
    if_pos hxdirect]
  rfl

theorem reads_shift :
    Reads var ⟨0, wch⟩ [UInt8.ofNat (shiftCharacter var), byte '-'] [shiftCharacter var]
      ⟨0, wch⟩ := by
  obtain ⟨hxdirect, -, hlt⟩ := shiftCharacter_spec var
  apply Reads.of_next
  intro rest
  rw [fromBody.eq_def, if_pos (Nat.zero_shiftRight 3), toNat_ofNat_lt hlt,
    if_neg (by simp [hxdirect]), if_pos rfl]
  rfl

/-- The shift into base64, which is followed by a value. -/
theorem reads_enter (hi : i < 64) {values out : List Nat} (wch : Nat)
    (h : Reads var (Bits.state ⟨0, 0⟩) ((i :: values).map (char64 var)) out s) :
    Reads var ⟨0, wch⟩ (UInt8.ofNat (shiftCharacter var) :: (i :: values).map (char64 var)) out
      s := by
  obtain ⟨hxdirect, -, hlt⟩ := shiftCharacter_spec var
  refine Reads.of_turn (fun rest => ?_) h
  rw [fromBody.eq_def, if_pos (Nat.zero_shiftRight 3), toNat_ofNat_lt hlt,
    if_neg (by simp [hxdirect]), if_pos rfl]
  rw [map_cons, cons_append]
  dsimp only
  rw [if_neg (base64_eq var i hi).2.2]
  rfl

variable {n : Nat}

/-- Where less than six bits wait and all are zero, base64 may end. -/
theorem zero_state (hn : n < 6) :
    ¬(Bits.state ⟨n, 0⟩).count >>> 3 = 0 ∧ ¬(Bits.state ⟨n, 0⟩).count >>> 3 ≤ 26 ∧
      (Bits.state ⟨n, 0⟩).wch = 0 := by
  rw [count_state]
  dsimp only
  exact ⟨by omega, by omega, Nat.zero_shiftLeft _⟩

/-- The end of base64 at a `-`; the bits that wait are zero. -/
theorem reads_exit (hn : n < 6) : Reads var (Bits.state ⟨n, 0⟩) [byte '-'] [] ⟨0, 0⟩ := by
  obtain ⟨hactive, hcount, hwch⟩ := zero_state hn
  have hdigit : digit var (byte '-').toNat = none := by
    cases var <;> decide
  apply Reads.of_next
  intro rest
  rw [fromBody.eq_def, if_neg hactive, hdigit]
  rw [if_neg (not_or.2 ⟨not_not.2 hwch, not_or.2 ⟨hcount, fun h => h.2 rfl⟩⟩), hwch]
  rfl

/-- The end of base64 at a direct character, which is then read as such. -/
theorem reads_exit_direct (hn : n < 6) (h : isdirect ch .utf7 = true)
    (hshift : needsExplicitShift ch = false) :
    Reads .utf7 (Bits.state ⟨n, 0⟩) [UInt8.ofNat ch] [ch] ⟨0, 0⟩ := by
  obtain ⟨hactive, hcount, hwch⟩ := zero_state hn
  obtain ⟨hdigit, hminus⟩ := digit_of_not_needsExplicitShift ch (isdirect_lt h) h hshift
  refine Reads.of_turn (fun rest => ?_) (reads_direct h 0)
  rw [fromBody.eq_def, if_neg hactive, hdigit]
  rw [if_neg (not_or.2 ⟨not_not.2 hwch, not_or.2 ⟨hcount, fun h => nomatch h.1⟩⟩), if_neg hminus,
    hwch]
  rfl

end Direct

def flushed (var : Variant) (k d : Nat) : List UInt8 :=
  if k = 0 then [] else [char64 var (d * 2 ^ (6 - k))]

theorem Held.waiting_lt (h : Held k d) : d * 2 ^ (6 - k) < 64 := by
  obtain ⟨rfl, rfl⟩ | ⟨rfl, hd⟩ | ⟨rfl, hd⟩ := h <;> omega

theorem Behind.flush (h : Behind k d pending b) (var : Variant) :
    ∃ n < 6, Reads var b.state (flushed var k d) pending (Bits.state ⟨n, 0⟩) := by
  unfold flushed
  split
  · next hk =>
    obtain ⟨rfl, rfl⟩ := h.nil_of_zero hk
    exact ⟨0, by decide, Reads.refl _⟩
  · next hk =>
    refine ⟨6 - k, by omega, ?_⟩
    have hpush := h.push_eq hk 0 (Nat.two_pow_pos _)
    have hvalue : ∀ i ∈ [d * 2 ^ (6 - k)], i < 64 := by
      intro i hi
      rw [mem_singleton.1 hi]
      exact h.held.waiting_lt
    have hread := reads_values var h.ok hvalue (pushes_cons hpush rfl)
    rwa [append_nil] at hread

theorem Held.base64_waiting (h : Held k d) (var : Variant) :
    (if activeCount k d &&& 0x18 ≥ 0x10 then (base64 (waiting (activeCount k d)) var).map ([·])
      else some []) = some (flushed var k d) ∧
      (decide (activeCount k d &&& 0x18 ≥ 0x10)).toNat = (flushed var k d).length := by
  obtain ⟨-, hflush, -, -, -, hwaiting⟩ := h.spec
  unfold flushed
  by_cases hk : k = 0
  · have hnot : ¬activeCount k d &&& 0x18 ≥ 0x10 := fun hge => hflush.1 hge hk
    rw [if_neg hnot, if_pos hk, decide_eq_false hnot]
    exact ⟨rfl, rfl⟩
  · have hge := hflush.2 hk
    rw [if_pos hge, if_neg hk, decide_eq_true hge, hwaiting, (base64_eq var _ h.waiting_lt).1]
    exact ⟨rfl, rfl⟩

/-! ## One character, and the reset -/

/-- What a turn of the encoder writes, whatever the room, and what the decoder makes of it. -/
structure Step (var : Variant) (count ch : Nat) (pending : List Nat) (s : FromState)
    (bytes : List UInt8) (count' : Nat) : Prop where
  bytes_pos : 1 ≤ bytes.length
  bytes_le : bytes.length ≤ 6
  toBody_eq : ∀ room, 1 ≤ room →
    toBody var count ch room = if room < bytes.length then .full else .next bytes count'
  reads : ∃ out pending' s', Reads var s bytes out s' ∧ Sync count' pending' s' ∧
    out ++ pending' = pending ++ [ch]

section Step

variable {var : Variant} {ch : Nat}

theorem step_direct (h : isdirect ch var = true) (wch : Nat) :
    Step var 0 ch [] ⟨0, wch⟩ [UInt8.ofNat ch] 0 where
  bytes_pos := le_refl 1
  bytes_le := by simp
  toBody_eq room hroom := by
    rw [toBody, if_pos (Nat.zero_and _), toBodyInactive, if_pos h, length_singleton,
      if_neg (not_lt.2 hroom)]
  reads := ⟨[ch], [], _, reads_direct h wch, .direct wch, rfl⟩

theorem step_shift :
    Step var 0 (shiftCharacter var) [] ⟨0, wch⟩
      [UInt8.ofNat (shiftCharacter var), byte '-'] 0 where
  bytes_pos := by simp
  bytes_le := by simp
  toBody_eq room _ := by
    rw [toBody, if_pos (Nat.zero_and _), toBodyInactive,
      if_neg (by simp [(shiftCharacter_spec var).2.1])]
    rw [if_pos rfl]
    rfl
  reads := ⟨[shiftCharacter var], [], _, reads_shift wch, .direct wch, rfl⟩

section

variable (hch : Scalar ch) (hdirect : ¬isdirect ch var = true) (hshift : ch ≠ shiftCharacter var)
include hch hdirect hshift

theorem toBodyInactive_values (room : Nat) :
    toBodyInactive var 0 ch room =
      if room < 1 + (values 0 0 ch).length then .full
      else putBase64 var [UInt8.ofNat (shiftCharacter var)] (values 0 0 ch) (countAfter 0 ch) := by
  have hlt := hch.code_lt
  have hrange : ch < 0x110000 := by
    unfold Scalar at hch
    omega
  rw [toBodyInactive, if_neg hdirect]
  rw [if_neg hshift]
  by_cases hsmall : ch < 0x10000
  · have hwidth : width ch = 16 := if_pos hsmall
    have hcode : code ch = ch := if_pos hsmall
    rw [if_pos hsmall]
    simp only [values, countAfter, heldAfter, sextets, hwidth, hcode, and_63, and_15,
      Nat.shiftRight_eq_div_pow]
    congr 3
    omega
  · have hwidth : width ch = 32 := if_neg hsmall
    rw [hwidth] at hlt
    rw [if_neg hsmall, if_pos hrange, show surrogates ch = code ch from (if_neg hsmall).symm]
    simp only [values, countAfter, heldAfter, sextets, hwidth, and_63, and_3,
      Nat.shiftRight_eq_div_pow]
    congr 3
    omega

theorem step_enter (wch : Nat) :
    Step var 0 ch [] ⟨0, wch⟩
      (UInt8.ofNat (shiftCharacter var) :: (values 0 0 ch).map (char64 var)) (countAfter 0 ch) := by
  have hvalues := values_lt behind_nil.held hch
  have hlen : (values 0 0 ch).length ≤ 5 ∧ 2 ≤ (values 0 0 ch).length := by
    rw [length_values]
    rcases width_cases ch with hwidth | hwidth <;> rw [hwidth] <;> decide
  obtain ⟨out, pending, b, hpushes, hsync, hout⟩ := behind_nil.pushes hch
  refine ⟨?_, ?_, ?_, out, pending, b.state, ?_, hsync, hout⟩
  · rw [length_cons]
    omega
  · rw [length_cons, length_map]
    omega
  · intro room _
    rw [toBody, toBodyInactive_values hch hdirect hshift,
      putBase64_eq hvalues, length_cons, length_map, add_comm]
    rfl
  · have hread := reads_values var Bits.ok_nil hvalues hpushes
    cases hlist : values 0 0 ch with
    | nil =>
      rw [hlist] at hlen
      exact absurd hlen.2 (by decide)
    | cons i is =>
      rw [hlist] at hread hvalues
      exact reads_enter (hvalues i mem_cons_self) wch hread

end

def exitBytes (var : Variant) (ch : Nat) : List UInt8 :=
  (if (decide (var = .utf7Imap) || needsExplicitShift ch) = true then [byte '-'] else []) ++
    [UInt8.ofNat ch] ++
    if (decide (var = .utf7Imap ∧ ch = '&'.toNat)) = true then [byte '-'] else []

theorem reads_exitBytes {n : Nat} (hn : n < 6)
    (h : (var = .utf7Imap ∧ ch = '&'.toNat) ∨ isdirect ch var = true) :
    Reads var (Bits.state ⟨n, 0⟩) (exitBytes var ch) [ch] ⟨0, 0⟩ := by
  unfold exitBytes
  cases var with
  | utf7 =>
    have hdirect : isdirect ch .utf7 = true := h.resolve_left (fun h => nomatch h.1)
    split
    · exact (reads_exit hn).trans (reads_direct hdirect 0)
    · next hexplicit => exact reads_exit_direct hn hdirect (by simpa using hexplicit)
  | utf7Imap =>
    simp only [decide_true, Bool.true_or, true_and, decide_eq_true_eq]
    by_cases hamp : ch = '&'.toNat
    · rw [hamp]
      exact (reads_exit hn).trans (reads_shift 0)
    · have hdirect : isdirect ch .utf7Imap = true := h.resolve_left fun h => hamp h.2
      rw [if_neg hamp]
      exact (reads_exit hn).trans (reads_direct hdirect 0)

theorem length_exitBytes (var : Variant) (ch : Nat) :
    (exitBytes var ch).length = (decide (var = .utf7Imap) || needsExplicitShift ch).toNat +
      (decide (var = .utf7Imap ∧ ch = '&'.toNat)).toNat + 1 := by
  unfold exitBytes
  cases decide (var = .utf7Imap) || needsExplicitShift ch <;>
    cases decide (var = .utf7Imap ∧ ch = '&'.toNat) <;> rfl

variable {pending : List Nat} {k d count : Nat} {b : Bits} {s : FromState}

theorem step_exit (h : Behind k d pending b)
    (hch : (var = .utf7Imap ∧ ch = '&'.toNat) ∨ isdirect ch var = true) :
    Step var (activeCount k d) ch pending b.state (flushed var k d ++ exitBytes var ch) 0 := by
  obtain ⟨n, hn, hflush⟩ := h.flush var
  obtain ⟨hpending, hflushlen⟩ := h.held.base64_waiting var
  have hlen := length_exitBytes var ch
  have hflushle : (flushed var k d).length ≤ 1 := by
    unfold flushed
    split <;> simp
  have hle : ∀ b : Bool, b.toNat ≤ 1 := by decide
  have hle₁ := hle (decide (var = .utf7Imap) || needsExplicitShift ch)
  have hle₂ := hle (decide (var = .utf7Imap ∧ ch = '&'.toNat))
  refine ⟨?_, ?_, ?_, pending ++ [ch], [], ⟨0, 0⟩, hflush.trans (reads_exitBytes hn hch), .direct 0,
    append_nil _⟩
  · rw [length_append]
    omega
  · rw [length_append]
    omega
  · intro room _
    rw [toBody, if_neg h.held.spec.1, toBodyActive, if_pos hch, toBodyDeactivate]
    simp only [hflushlen, decide_eq_true_eq, hpending, length_append]
    rw [show (flushed var k d).length + (exitBytes var ch).length = (flushed var k d).length +
      (decide (var = .utf7Imap) || needsExplicitShift ch).toNat +
      (decide (var = .utf7Imap ∧ ch = '&'.toNat)).toNat + 1 by omega]
    simp only [exitBytes, append_assoc, decide_eq_true_eq]

theorem step_values (h : Behind k d pending b) (hch : Scalar ch)
    (hexit : ¬((var = .utf7Imap ∧ ch = '&'.toNat) ∨ isdirect ch var = true)) :
    Step var (activeCount k d) ch pending b.state ((values k d ch).map (char64 var))
      (countAfter k ch) := by
  have hheld := h.held
  have hvalues := values_lt hheld hch
  obtain ⟨hactive, -, hunit, hpair, -, -⟩ := hheld.spec
  obtain ⟨out, pending', b', hpushes, hsync, hout⟩ := h.pushes hch
  have hlen := length_values k d ch
  have hk : k = 0 ∨ k = 2 ∨ k = 4 := by
    unfold Held at hheld
    omega
  refine ⟨?_, ?_, ?_, out, pending', b'.state, reads_values var h.ok hvalues hpushes, hsync, hout⟩
  · rw [length_map, hlen]
    rcases width_cases ch with hwidth | hwidth <;> rw [hwidth] <;> omega
  · rw [length_map, hlen]
    rcases width_cases ch with hwidth | hwidth <;> rw [hwidth] <;> omega
  · intro room _
    rw [toBody, if_neg hactive, toBodyActive, if_neg hexit, length_map, hlen]
    by_cases hsmall : ch < 0x10000
    · have hwidth : width ch = 16 := if_pos hsmall
      rw [if_pos hsmall, hunit, hwidth, toBodyUnit_eq hheld hsmall, putBase64_eq hvalues]
      rfl
    · have hwidth : width ch = 32 := if_neg hsmall
      have hrange : ch < 0x110000 := by
        unfold Scalar at hch
        omega
      rw [if_neg hsmall, if_pos hrange, hpair, hwidth, toBodyPair_eq hheld hsmall hch,
        putBase64_eq hvalues]
      rfl

/-- **Every character in every state.** -/
theorem Sync.step (h : Sync count pending s) (var : Variant) (hch : Scalar ch) :
    ∃ bytes count', Step var count ch pending s bytes count' := by
  rcases h.cases with ⟨rfl, rfl, wch, rfl⟩ | ⟨k, d, b, rfl, rfl, hbehind⟩
  · by_cases hdirect : isdirect ch var = true
    · exact ⟨_, _, step_direct hdirect wch⟩
    by_cases hshift : ch = shiftCharacter var
    · subst hshift
      exact ⟨_, _, step_shift wch⟩
    · exact ⟨_, _, step_enter hch hdirect hshift wch⟩
  · by_cases hexit : (var = .utf7Imap ∧ ch = '&'.toNat) ∨ isdirect ch var = true
    · exact ⟨_, _, step_exit hbehind hexit⟩
    · exact ⟨_, _, step_values hbehind hch hexit⟩

/-- The final reset ends base64, and completes the pending character. -/
theorem Sync.reset (h : Sync count pending s) (var : Variant) : ∃ bytes s', bytes.length ≤ 2 ∧
      (∀ room, emitShiftToInit var count room =
        if room < bytes.length then .full else .next bytes 0) ∧
      Reads var s bytes pending s' := by
  rcases h.cases with ⟨rfl, rfl, wch, rfl⟩ | ⟨k, d, b, rfl, rfl, hbehind⟩
  · refine ⟨[], ⟨0, wch⟩, by decide, fun room => ?_, Reads.refl _⟩
    rfl
  · obtain ⟨n, hn, hflush⟩ := hbehind.flush var
    obtain ⟨hpending, hflushlen⟩ := hbehind.held.base64_waiting var
    have hread := hflush.trans (reads_exit hn)
    rw [append_nil] at hread
    refine ⟨flushed var k d ++ [byte '-'], ⟨0, 0⟩, ?_, fun room => ?_, hread⟩
    · unfold flushed
      split <;> simp
    · rw [emitShiftToInit, if_pos hbehind.held.spec.1, hflushlen, hpending, length_append]
      rfl

end Step

/-! ## Texts -/

/-- The bytes of the text from a state of the encoder on, with the final reset. -/
def encodeRest (var : Variant) (count : Nat) : List Nat → List UInt8
  | [] =>
    match emitShiftToInit var count 2 with
    | .next bytes _ => bytes
    | _ => []
  | ch :: text =>
    match toBody var count ch 6 with
    | .next bytes count' => bytes ++ encodeRest var count' text
    | _ => []

theorem encodeRest_cons {count' : Nat} (h : Step var count ch pending s bytes count')
    (text : List Nat) :
    encodeRest var count (ch :: text) = bytes ++ encodeRest var count' text := by
  rw [encodeRest, h.toBody_eq 6 (by decide), if_neg (not_lt.2 h.bytes_le)]

/-- **The round trip**: the bytes of a text are read as the pending character and the text. -/
theorem reads_encodeRest (var : Variant) (text : List Nat) (htext : ∀ ch ∈ text, Scalar ch)
    (h : Sync count pending s) :
    ∃ s', Reads var s (encodeRest var count text) (pending ++ text) s' := by
  induction text generalizing count pending s with
  | nil =>
    obtain ⟨bytes, s', hlen, hreset, hread⟩ := h.reset var
    refine ⟨s', ?_⟩
    rw [encodeRest, hreset, if_neg (not_lt.2 hlen), append_nil]
    exact hread
  | cons ch text ih =>
    obtain ⟨bytes, count', hstep⟩ := h.step var (htext ch mem_cons_self)
    obtain ⟨out, pending', s', hread, hsync, hout⟩ := hstep.reads
    obtain ⟨s'', hrest⟩ := ih (fun c hc => htext c (mem_cons_of_mem _ hc)) hsync
    refine ⟨s'', ?_⟩
    rw [encodeRest_cons hstep, append_cons, ← hout, append_assoc]
    exact hread.trans hrest

def Valid (count : Nat) : Prop := ∃ pending s, Sync count pending s

/-- **A call with any room** writes the next bytes and stops where the rest is written from the
state it leaves. -/
theorem toLoop_spec (var : Variant) (text : List Nat) (htext : ∀ ch ∈ text, Scalar ch)
    (h : Valid count) (room : Nat) : Valid (toLoop var false count text room).count ∧
      (∃ read, text = read ++ (toLoop var false count text room).left) ∧
      (toLoop var false count text room).bytes ++
          encodeRest var (toLoop var false count text room).count
            (toLoop var false count text room).left =
        encodeRest var count text ∧
      (6 ≤ room → text ≠ [] → (toLoop var false count text room).left.length < text.length) := by
  induction text generalizing count room with
  | nil => exact ⟨h, ⟨[], rfl⟩, rfl, fun _ hne => absurd rfl hne⟩
  | cons ch text ih =>
    obtain ⟨pending, s, hsync⟩ := h
    obtain ⟨bytes, count', hstep⟩ := hsync.step var (htext ch mem_cons_self)
    obtain ⟨out, pending', s', -, hsync', -⟩ := hstep.reads
    rw [toLoop]
    by_cases hroom : room < 1
    · rw [if_pos hroom]
      exact ⟨⟨_, _, hsync⟩, ⟨[], rfl⟩, rfl, fun hsix => by omega⟩
    · rw [if_neg hroom, hstep.toBody_eq room (by omega)]
      by_cases hfits : room < bytes.length
      · rw [if_pos hfits]
        have hle := hstep.bytes_le
        exact ⟨⟨_, _, hsync⟩, ⟨[], rfl⟩, rfl, fun hsix => by omega⟩
      · rw [if_neg hfits]
        obtain ⟨hvalid, ⟨read, hread⟩, hbytes, -⟩ :=
          ih (fun c hc => htext c (mem_cons_of_mem _ hc)) ⟨_, _, hsync'⟩ (room - bytes.length)
        refine ⟨hvalid, ⟨ch :: read, congrArg _ hread⟩, ?_, fun _ _ => ?_⟩
        · dsimp only [ToCall.after]
          rw [encodeRest_cons hstep, append_assoc, hbytes]
        · have hlen := congrArg List.length hread
          rw [length_append] at hlen
          dsimp only [ToCall.after]
          rw [length_cons]
          omega

/-! ## Pieces -/

structure Encoding.Ok (var : Variant) (bytes : List UInt8) (e : Encoding) : Prop where
  valid : Valid e.count
  scalars : ∀ ch ∈ e.left, Scalar ch
  bytes_eq : e.bytes ++ (if e.done then [] else encodeRest var e.count e.left) = bytes

/-- How many calls with room for six bytes are still needed. -/
def Encoding.remaining (e : Encoding) : Nat := if e.done then 0 else e.left.length + 1

theorem Encoding.Ok.call (h : e.Ok var bytes) (room : Nat) :
    (e.call var room).Ok var bytes ∧
      (6 ≤ room → (e.call var room).remaining ≤ e.remaining - 1) := by
  unfold Encoding.call
  by_cases hdone : e.done = true
  · rw [if_pos hdone]
    have hzero : e.remaining = 0 := if_pos hdone
    refine ⟨h, fun _ => ?_⟩
    omega
  · rw [if_neg hdone]
    have hbytes := h.bytes_eq
    rw [if_neg hdone] at hbytes
    by_cases hleft : e.left = []
    · obtain ⟨pending, s, hsync⟩ := h.valid
      obtain ⟨last, s', hlen, hreset, -⟩ := hsync.reset var
      rw [if_pos hleft, hreset]
      by_cases hroom : room < last.length
      · rw [if_pos hroom]
        exact ⟨h, fun hsix => by omega⟩
      · rw [if_neg hroom]
        refine ⟨⟨⟨[], ⟨0, 0⟩, .direct 0⟩, h.scalars, ?_⟩, fun _ => ?_⟩
        · rw [hleft, encodeRest, hreset, if_neg (by omega)] at hbytes
          dsimp only at hbytes ⊢
          rw [if_pos rfl, append_nil, hbytes]
        · exact Nat.zero_le _
    · rw [if_neg hleft]
      obtain ⟨hvalid, ⟨read, hread⟩, hrest, hprogress⟩ :=
        toLoop_spec var e.left h.scalars h.valid room
      refine ⟨⟨hvalid, fun c hc => h.scalars c ?_, ?_⟩, fun hsix => ?_⟩
      · rw [hread]
        exact mem_append_right _ hc
      · rw [if_neg hdone, append_assoc, hrest, hbytes]
      · have hlt := hprogress hsix hleft
        simp only [Encoding.remaining, hdone, Bool.false_eq_true, if_false]
        omega

theorem Encoding.Ok.calls (rooms : List Nat) (h : e.Ok var bytes) :
    (rooms.foldl (Encoding.call var) e).Ok var bytes ∧
      ((∀ room ∈ rooms, 6 ≤ room) → e.remaining ≤ rooms.length →
        (rooms.foldl (Encoding.call var) e).done = true) := by
  induction rooms generalizing e with
  | nil =>
    refine ⟨h, fun _ hremaining => ?_⟩
    rw [length_nil, Encoding.remaining] at hremaining
    split at hremaining
    · next hdone => exact hdone
    · cases hremaining
  | cons room rooms ih =>
    obtain ⟨hcall, hprogress⟩ := h.call room
    obtain ⟨hok, hdone⟩ := ih hcall
    refine ⟨hok, fun hrooms hremaining => ?_⟩
    apply hdone fun r hr => hrooms r (mem_cons_of_mem _ hr)
    have hle := hprogress (hrooms room mem_cons_self)
    rw [length_cons] at hremaining
    omega

theorem scalar_toNat (c : Char) : Scalar c.toNat := by
  have hvalid : c.toNat < 0xd800 ∨ 0xdfff < c.toNat ∧ c.toNat < 0x110000 := c.valid
  unfold Scalar
  omega

/-- **UTF-7 and UTF-7-IMAP.** A text has one encoding: in whatever pieces the output is taken, what
was written so far is a beginning of it, and all of it once the reset has been made, which happens
when there are more than enough pieces of six bytes; and it is decoded as the text. The decoder
never aborts, on any bytes, over any calls. -/
theorem utf7_faithful (var : Variant) :
    (∀ text : List Char, ∃ bytes : List UInt8,
      (∀ rooms, (encodePieces var (text.map Char.toNat) rooms).bytes <+: bytes) ∧
      (∀ rooms, (encodePieces var (text.map Char.toNat) rooms).done = true →
        (encodePieces var (text.map Char.toNat) rooms).bytes = bytes) ∧
      (∀ rooms, (∀ room ∈ rooms, 6 ≤ room) → text.length < rooms.length →
        (encodePieces var (text.map Char.toNat) rooms).done = true) ∧
      ∀ ignoreErrors room, 4 * text.length + 4 ≤ room →
        (fromLoop var ignoreErrors .start bytes room).result = .emptyInput ∧
          (fromLoop var ignoreErrors .start bytes room).left = [] ∧
          (fromLoop var ignoreErrors .start bytes room).out = text.map Char.toNat) ∧
    ∀ calls, .aborted ∉ decodeCalls var .start calls := by
  refine ⟨fun text => ?_, no_abort_decodeCalls var (.inl (Nat.zero_shiftRight 3))⟩
  have hscalars : ∀ ch ∈ text.map Char.toNat, Scalar ch := by
    intro ch hch
    obtain ⟨c, -, rfl⟩ := mem_map.1 hch
    exact scalar_toNat c
  have hstart : (Encoding.start (text.map Char.toNat)).Ok var
      (encodeRest var 0 (text.map Char.toNat)) :=
    ⟨⟨[], ⟨0, 0⟩, .direct 0⟩, hscalars, rfl⟩
  refine ⟨encodeRest var 0 (text.map Char.toNat), fun rooms => ?_, fun rooms hdone => ?_,
    fun rooms hrooms hlen => ?_, fun ignoreErrors room hroom => ?_⟩
  · exact ⟨_, (hstart.calls rooms).1.bytes_eq⟩
  · have hbytes := (hstart.calls rooms).1.bytes_eq
    rwa [show (rooms.foldl (Encoding.call var) _).done = true from hdone, if_pos rfl,
      append_nil] at hbytes
  · apply (hstart.calls rooms).2 hrooms
    simp only [Encoding.remaining, Encoding.start, length_map, Bool.false_eq_true, if_false]
    omega
  · obtain ⟨s', hread⟩ := reads_encodeRest var _ hscalars (.direct 0)
    have hloop := hread ignoreErrors [] room (by simpa using hroom)
    rw [append_nil, fromLoop] at hloop
    rw [FromState.start, hloop]
    exact ⟨rfl, rfl, by simp [FromCall.after]⟩

end SafeLibc.Iconv.Utf7
