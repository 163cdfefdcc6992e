import SafeLibc.Iconv.Utf7

/-!
# The bits in the UTF-7 decoder

Inside base64 the decoder holds the first bits of a character: `bits n v` is the state with the `n`
bits of `v`. In these terms a base64 value is appended (`push`), and `accumulate` does nothing else
(`accumulate_bits`). What the bits can be is `Bits.Ok`: sixteen or more of them begin with a high
surrogate, and 22 or more go on as a low one.
-/

namespace SafeLibc.Iconv.Utf7

open SafeLibc.Lib

/-- The first `n` bits of a character, as the number `v`. -/
structure Bits where
  n : Nat
  v : Nat
  deriving DecidableEq, Repr

/-- The decoder's state with these bits: they are the highest of `__wch`, and the shift is what is
free. -/
def Bits.state (b : Bits) : FromState := ⟨(32 - b.n) <<< 3, b.v <<< (32 - b.n)⟩

structure Bits.Ok (b : Bits) : Prop where
  le : b.n ≤ 30
  even : b.n % 2 = 0
  lt : b.v < 2 ^ b.n
  high : 16 ≤ b.n → isHigh (b.v / 2 ^ (b.n - 16))
  low : 22 ≤ b.n → b.v / 2 ^ (b.n - 22) % 64 = 0x37

/-- The character of a surrogate pair, as the number of 32 bits. -/
def pairChar (p : Nat) : Nat := 0x10000 + (p / 2 ^ 16 - 0xd800) * 2 ^ 10 + (p % 2 ^ 16 - 0xdc00)

/-- Six more bits: the characters that are complete and the bits that wait; `none` for a lone high
surrogate. -/
def Bits.push (b : Bits) (i : Nat) : Option (List Nat × Bits) :=
  let v := b.v * 64 + i
  if b.n < 10 then some ([], ⟨b.n + 6, v⟩)
  else if b.n < 16 then
    if isHigh (v / 2 ^ (b.n - 10)) then some ([], ⟨b.n + 6, v⟩)
    else some ([v / 2 ^ (b.n - 10)], ⟨b.n - 10, v % 2 ^ (b.n - 10)⟩)
  else if b.n < 22 then
    if v / 2 ^ (b.n - 16) % 64 = 0x37 then some ([], ⟨b.n + 6, v⟩) else none
  else if b.n < 26 then some ([], ⟨b.n + 6, v⟩)
  else some ([pairChar (v / 2 ^ (b.n - 26))], ⟨b.n - 26, v % 2 ^ (b.n - 26)⟩)

theorem count_state (b : Bits) : b.state.count >>> 3 = 32 - b.n :=
  Nat.shiftLeft_shiftRight _ _

variable {i : Nat} {s : FromState} {b : Bits} {out : List Nat} {var : Variant}

theorem wch_or (b : Bits) (hi : i < 64) (hn : b.n ≤ 26) :
    b.state.wch ||| i <<< (32 - b.n - 6) = (b.v * 64 + i) <<< (26 - b.n) := by
  have hshift : 32 - b.n = 6 + (26 - b.n) := by omega
  have hfree : 32 - b.n - 6 = 26 - b.n := by omega
  rw [Bits.state, hfree]
  rw [hshift, Nat.shiftLeft_add, ← Nat.shiftLeft_or_distrib, ← Nat.shiftLeft_add_eq_or_of_lt hi,
    Nat.shiftLeft_eq b.v]

theorem state_append (b : Bits) (v : Nat) (hn : b.n ≤ 26) :
    (⟨(32 - b.n - 6) <<< 3, v <<< (26 - b.n)⟩ : FromState) = Bits.state ⟨b.n + 6, v⟩ := by
  have hfree : 32 - b.n - 6 = 26 - b.n := by omega
  have hfree' : 32 - (b.n + 6) = 26 - b.n := by omega
  simp only [Bits.state, hfree, hfree']

section Accumulate

variable {b : Bits} {i : Nat}

/-- The bits are not complete, or their second unit has been checked. -/
theorem accumulate_append (hi : i < 64) (hn : b.n < 10 ∨ 22 ≤ b.n ∧ b.n < 26) :
    accumulate b.state i = .ok [] (Bits.state ⟨b.n + 6, b.v * 64 + i⟩) := by
  have hunit : ¬(32 - b.n - 6 ≤ 16 ∧ 32 - b.n - 6 > 10) := by omega
  have hlow : ¬(32 - b.n - 6 ≤ 10 ∧ 32 - b.n - 6 > 4) := by omega
  unfold accumulate
  simp only [count_state, wch_or b hi (by omega), hunit, hlow, if_false]
  rw [if_pos (by omega), state_append b _ (by omega)]

theorem accumulate_unit (hi : i < 64) (hn : b.n = 10 ∨ b.n = 12 ∨ b.n = 14) :
    accumulate b.state i =
      if isHigh ((b.v * 64 + i) / 2 ^ (b.n - 10)) then
        .ok [] (Bits.state ⟨b.n + 6, b.v * 64 + i⟩)
      else
        .ok [(b.v * 64 + i) / 2 ^ (b.n - 10)]
          (Bits.state ⟨b.n - 10, (b.v * 64 + i) % 2 ^ (b.n - 10)⟩) := by
  have hunit : 32 - b.n - 6 ≤ 16 ∧ 32 - b.n - 6 > 10 := by omega
  have hwc : (b.v * 64 + i) <<< (26 - b.n) >>> 16 = (b.v * 64 + i) / 2 ^ (b.n - 10) := by
    rcases hn with hn | hn | hn <;> rw [hn] <;> omega
  have hrest : (⟨(32 - b.n - 6 + 16) <<< 3, (b.v * 64 + i) <<< (26 - b.n) <<< 16 % 2 ^ 32⟩ :
      FromState) = Bits.state ⟨b.n - 10, (b.v * 64 + i) % 2 ^ (b.n - 10)⟩ := by
    simp only [Bits.state, FromState.mk.injEq]
    rcases hn with hn | hn | hn <;> rw [hn] <;> omega
  unfold accumulate
  simp only [count_state, wch_or b hi (by omega), hunit, hwc, hrest, and_self, if_true, ite_not]
  rw [if_pos (by omega), state_append b _ (by omega)]

theorem accumulate_low (hi : i < 64) (hn : b.n = 16 ∨ b.n = 18 ∨ b.n = 20) :
    accumulate b.state i =
      if (b.v * 64 + i) / 2 ^ (b.n - 16) % 64 = 0x37 then
        .ok [] (Bits.state ⟨b.n + 6, b.v * 64 + i⟩)
      else .illegal := by
  have hunit : ¬(32 - b.n - 6 ≤ 16 ∧ 32 - b.n - 6 > 10) := by omega
  have hlow : 32 - b.n - 6 ≤ 10 ∧ 32 - b.n - 6 > 4 := by omega
  have hwc : isLow ((b.v * 64 + i) <<< (26 - b.n) &&& 0xffff) ↔
      (b.v * 64 + i) / 2 ^ (b.n - 16) % 64 = 0x37 := by
    rw [show 0xffff = 2 ^ 16 - 1 from rfl, Nat.and_two_pow_sub_one_eq_mod, isLow]
    rcases hn with hn | hn | hn <;> rw [hn] <;> omega
  unfold accumulate
  simp only [count_state, wch_or b hi (by omega), hunit, hlow, hwc, and_self, if_true, if_false,
    ite_not]
  rw [if_pos (by omega), state_append b _ (by omega)]

/-- A pair is complete, and both of its halves are surrogates. -/
theorem accumulate_pair (hi : i < 64) (h : b.Ok) (hn : b.n = 26 ∨ b.n = 28 ∨ b.n = 30) :
    accumulate b.state i =
      .ok [pairChar ((b.v * 64 + i) / 2 ^ (b.n - 26))]
        (Bits.state ⟨b.n - 26, (b.v * 64 + i) % 2 ^ (b.n - 26)⟩) := by
  have hhigh := h.high (by omega)
  have hlow := h.low (by omega)
  have hwc1 : b.state.wch >>> 16 = b.v / 2 ^ (b.n - 16) := by
    simp only [Bits.state]
    rcases hn with hn | hn | hn <;> rw [hn] <;> omega
  have hwc2 : (b.state.wch &&& 0xffff) ||| i >>> (6 - (32 - b.n)) =
      (b.v * 64 + i) / 2 ^ (b.n - 26) % 2 ^ 16 := by
    -- the low half without its last bits, and these
    have hmask : b.state.wch &&& 0xffff = (b.v % 2 ^ (b.n - 16)) <<< (32 - b.n) := by
      rw [show 0xffff = 2 ^ 16 - 1 from rfl, Nat.and_two_pow_sub_one_eq_mod]
      simp only [Bits.state]
      rcases hn with hn | hn | hn <;> rw [hn] <;> omega
    have hlast : i >>> (6 - (32 - b.n)) < 2 ^ (32 - b.n) := by
      rcases hn with hn | hn | hn <;> rw [hn] <;> omega
    rw [hmask, ← Nat.shiftLeft_add_eq_or_of_lt hlast]
    rcases hn with hn | hn | hn <;> rw [hn] <;> omega
  have hpair : b.v / 2 ^ (b.n - 16) = (b.v * 64 + i) / 2 ^ (b.n - 26) / 2 ^ 16 := by
    rcases hn with hn | hn | hn <;> rw [hn] <;> omega
  have hislow : isLow ((b.v * 64 + i) / 2 ^ (b.n - 26) % 2 ^ 16) := by
    unfold isLow
    rcases hn with hn | hn | hn <;> rw [hn] at hlow ⊢ <;> omega
  have hrest : (⟨(32 - b.n + 26) <<< 3, i <<< (32 - b.n) <<< 26 % 2 ^ 32⟩ : FromState) =
      Bits.state ⟨b.n - 26, (b.v * 64 + i) % 2 ^ (b.n - 26)⟩ := by
    simp only [Bits.state, FromState.mk.injEq]
    rcases hn with hn | hn | hn <;> rw [hn] <;> omega
  have hshift : ¬32 - b.n > 6 := by omega
  unfold accumulate pairChar
  simp only [count_state, hshift, hwc1, hwc2, hhigh, hislow, hrest, not_true_eq_false, if_false]
  rw [← hpair, Nat.shiftLeft_eq]

end Accumulate

/-- **The accumulator appends**: on the bits that can wait, `accumulate` is `push`. -/
theorem accumulate_bits (h : b.Ok) (hi : i < 64) : accumulate b.state i =
      match b.push i with
      | some (out, b') => .ok out b'.state
      | none => .illegal := by
  have hle := h.le
  have heven := h.even
  by_cases h10 : b.n < 10
  · simp only [Bits.push, h10]
    exact accumulate_append hi (by omega)
  by_cases h16 : b.n < 16
  · simp only [Bits.push, h10, h16, if_true, if_false]
    rw [accumulate_unit hi (by omega)]
    by_cases hunit : isHigh ((b.v * 64 + i) / 2 ^ (b.n - 10))
    · simp only [hunit, if_true]
    · simp only [hunit, if_false]
  by_cases h22 : b.n < 22
  · simp only [Bits.push, h10, h16, h22, if_true, if_false]
    rw [accumulate_low hi (by omega)]
    by_cases hlow : (b.v * 64 + i) / 2 ^ (b.n - 16) % 64 = 0x37
    · simp only [hlow, if_true]
    · simp only [hlow, if_false]
  by_cases h26 : b.n < 26
  · simp only [Bits.push, h10, h16, h22, h26]
    exact accumulate_append hi (by omega)
  · simp only [Bits.push, h10, h16, h22, h26]
    exact accumulate_pair hi h (by omega)

theorem Bits.Ok.of_lt {n v : Nat} (hn : n < 16) (heven : n % 2 = 0) (hlt : v < 2 ^ n) :
    Bits.Ok ⟨n, v⟩ :=
  ⟨by dsimp only; omega, heven, hlt, fun h => absurd h (by dsimp only; omega),
    fun h => absurd h (by dsimp only; omega)⟩

theorem Bits.Ok.push {b' : Bits} (h : b.Ok) (hi : i < 64) (hpush : b.push i = some (out, b')) :
    b'.Ok := by
  obtain ⟨n, v⟩ := b
  obtain ⟨hle, heven, hlt, hhigh, hlow⟩ := h
  dsimp only at hle heven hlt hhigh hlow
  have hlt' : v * 64 + i < 2 ^ (n + 6) := by
    rw [pow_add]
    omega
  unfold Bits.push at hpush
  dsimp only at hpush
  split at hpush
  · cases hpush
    exact .of_lt (by omega) (by omega) hlt'
  split at hpush
  · split at hpush
    · next hunit =>
      cases hpush
      refine ⟨by dsimp only; omega, by dsimp only; omega, hlt', fun _ => ?_,
        fun hn => by dsimp only at hn; omega⟩
      rwa [show n + 6 - 16 = n - 10 by omega]
    · cases hpush
      exact .of_lt (by omega) (by omega) (Nat.mod_lt _ (Nat.two_pow_pos _))
  -- the unit in front is not touched by what is appended
  have hfront : 16 ≤ n → (v * 64 + i) / 2 ^ (n + 6 - 16) = v / 2 ^ (n - 16) := by
    intro hn
    rw [show n + 6 - 16 = 6 + (n - 16) by omega, pow_add, ← Nat.div_div_eq_div_mul]
    congr 1
    omega
  split at hpush
  · split at hpush
    · next hchecked =>
      cases hpush
      refine ⟨by dsimp only; omega, by dsimp only; omega, hlt', fun _ => ?_, fun _ => ?_⟩
      · rw [hfront (by omega)]
        exact hhigh (by omega)
      · rwa [show n + 6 - 22 = n - 16 by omega]
    · cases hpush
  split at hpush
  · cases hpush
    refine ⟨by dsimp only; omega, by dsimp only; omega, hlt', fun _ => ?_, fun _ => ?_⟩
    · rw [hfront (by omega)]
      exact hhigh (by omega)
    · rw [show n + 6 - 22 = 6 + (n - 22) by omega, pow_add, ← Nat.div_div_eq_div_mul,
        show (v * 64 + i) / 2 ^ 6 = v by omega]
      exact hlow (by omega)
  · cases hpush
    exact .of_lt (by omega) (by omega) (Nat.mod_lt _ (Nat.two_pow_pos _))

theorem Bits.ok_nil : Bits.Ok ⟨0, 0⟩ := .of_lt (by decide) (by decide) (by decide)

/-! ## Runs -/

def FromState.Ok (s : FromState) : Prop := s.count >>> 3 = 0 ∨ ∃ b : Bits, b.Ok ∧ s = b.state

theorem digit_lt {ch : Nat} (h : digit var ch = some i) : i < 64 := by
  unfold digit at h
  simp only [Char.reduceToNat] at h
  split at h
  · cases h; omega
  split at h
  · cases h; omega
  split at h
  · cases h; omega
  split at h
  · cases h; decide
  split at h
  · cases h; decide
  · cases h

/-- The turns that are made: none aborts, and the loop goes on in a state that is reached. -/
def FromTurn.Ok : FromTurn → Prop
  | .next _ _ s => s.Ok
  | .incomplete => True
  | .illegal ignored => ignored.Ok
  | .aborted => False

theorem FromState.Ok.fromBody (h : s.Ok) (var : Variant) (ch : UInt8) (rest : List UInt8) :
    (fromBody var s ch rest).Ok := by
  have hleft : ∀ wch, FromState.Ok ⟨0, wch⟩ := fun wch => .inl (Nat.zero_shiftRight 3)
  unfold Utf7.fromBody
  split
  · split
    · exact h
    split
    · split
      · exact trivial
      · split
        · exact h
        · exact .inr ⟨⟨0, 0⟩, Bits.ok_nil, rfl⟩
    · exact h
  · next hactive =>
    obtain ⟨b, hb, rfl⟩ := h.resolve_left hactive
    split
    · split
      · exact hleft _
      · exact hleft _
    · next i hdigit =>
      have hi := digit_lt hdigit
      rw [accumulate_bits hb hi]
      cases hpush : b.push i with
      | none => exact hleft _
      | some r => exact .inr ⟨r.2, hb.push hi hpush, rfl⟩

theorem fromLoop_next {s' : FromState} {ch : UInt8} {rest left : List UInt8}
    (h : fromBody var s ch rest = .next left out s') (ignoreErrors : Bool) {room : Nat}
    (hroom : 4 ≤ room) : fromLoop var ignoreErrors s (ch :: rest) room =
      (fromLoop var ignoreErrors s' left (room - 4 * out.length)).after out := by
  rw [fromLoop, if_neg (by omega)]
  split <;> simp_all

theorem FromState.Ok.fromLoop {s : FromState} (h : s.Ok) (var : Variant) (ignoreErrors : Bool)
    (input : List UInt8) (room : Nat) :
    (fromLoop var ignoreErrors s input room).state.Ok ∧
      (fromLoop var ignoreErrors s input room).result ≠ .aborted := by
  fun_induction Utf7.fromLoop var ignoreErrors s input room with
  | case1 s room | case2 s room ch rest hroom => exact ⟨h, GconvResult.noConfusion⟩
  | case3 s room ch rest hroom left out s' hturn ih
  | case5 s room ch rest hroom ignored hturn hignore ih =>
    have hok := h.fromBody var ch rest
    rw [hturn] at hok
    exact ih hok
  | case4 s room ch rest hroom hturn
  | case6 s room ch rest hroom ignored hturn hignore => exact ⟨h, GconvResult.noConfusion⟩
  | case7 s room ch rest hroom hturn =>
    have hok := h.fromBody var ch rest
    rw [hturn] at hok
    exact hok.elim

/-- **No assertion fails and nothing aborts**, over any sequence of calls. -/
theorem no_abort_decodeCalls (var : Variant) (h : s.Ok) (calls : List (Bool × List UInt8 × Nat)) :
    .aborted ∉ decodeCalls var s calls := by
  induction calls generalizing s with
  | nil => exact List.not_mem_nil
  | cons call calls ih =>
    obtain ⟨hstate, hresult⟩ := h.fromLoop var call.1 call.2.1 call.2.2
    exact List.not_mem_cons_of_ne_of_not_mem (Ne.symm hresult) (ih hstate)

end SafeLibc.Iconv.Utf7
