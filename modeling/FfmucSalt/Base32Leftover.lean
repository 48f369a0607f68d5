import FfmucSalt.Base32

/-!
# The left-over bits of base32

Text of 8k + 7 characters has three bits more than its whole bytes.  Neither
decoder looks at them, so encoding the decoded bytes again gives the text with
its last character rounded down to a multiple of eight.
-/

namespace FfmucSalt

/-- The values of text of 8k + 7 characters without the bits left over. -/
def roundLast : List Nat → List Nat
  | [] => []
  | [last] => [last / 8 * 8]
  | value :: next :: rest => value :: roundLast (next :: rest)

theorem roundLast_concat (front : List Nat) (last : Nat) :
    roundLast (front ++ [last]) = front ++ [last / 8 * 8] := by
  induction front with
  | nil => rfl
  | cons value front induction =>
      cases front with
      | nil => rfl
      | cons next front =>
          exact congrArg (value :: ·) induction

/-! ## Groups of bytes -/

private theorem toNat_groupByte (value place : Nat) :
    (value / 256 ^ (4 - place)).toUInt8.toNat =
      value / 256 ^ (4 - place) % 256 := by
  simp

/-- The values of a whole group. -/
private theorem quintets_group {value : Nat} (small : value < 32 ^ 8)
    (rest : Bytes) :
    quintets (groupBytes 5 value ++ rest) =
      value / 32 ^ 7 :: value / 32 ^ 6 % 32 :: value / 32 ^ 5 % 32 ::
        value / 32 ^ 4 % 32 :: value / 32 ^ 3 % 32 :: value / 32 ^ 2 % 32 ::
          value / 32 % 32 :: value % 32 :: quintets rest := by
  simp only [groupBytes, List.range_succ, List.range_zero, List.nil_append,
    List.cons_append, List.map_cons, List.map_nil, quintets, toNat_groupByte,
    List.cons.injEq, and_true]
  simp only [Nat.reducePow, Nat.reduceSub] at small ⊢
  omega

/-- The values of a group that is one byte short. -/
private theorem quintets_last {value : Nat} (small : value < 32 ^ 7) :
    quintets (groupBytes 4 (value * 32)) =
      [value / 32 ^ 6, value / 32 ^ 5 % 32, value / 32 ^ 4 % 32,
        value / 32 ^ 3 % 32, value / 32 ^ 2 % 32, value / 32 % 32,
        value % 32 / 8 * 8] := by
  simp only [groupBytes, List.range_succ, List.range_zero, List.nil_append,
    List.cons_append, List.map_cons, List.map_nil, quintets, toNat_groupByte,
    List.cons.injEq, and_true]
  simp only [Nat.reducePow, Nat.reduceSub] at small ⊢
  omega

private theorem groupValue_digits {a b c d e f g h : Nat}
    (small : ∀ digit ∈ [a, b, c, d, e, f, g, h], digit < 32) :
    let value := groupValue [a, b, c, d, e, f, g, h]
    value < 32 ^ 8 ∧ value / 32 ^ 7 = a ∧ value / 32 ^ 6 % 32 = b ∧
      value / 32 ^ 5 % 32 = c ∧ value / 32 ^ 4 % 32 = d ∧
      value / 32 ^ 3 % 32 = e ∧ value / 32 ^ 2 % 32 = f ∧
      value / 32 % 32 = g ∧ value % 32 = h := by
  simp only [List.mem_cons, List.not_mem_nil, or_false, forall_eq_or_imp,
    forall_eq] at small
  simp only [groupValue, List.foldl_cons, List.foldl_nil, Nat.reducePow]
  omega

private theorem groupValue_last {a b c d e f g : Nat}
    (small : ∀ digit ∈ [a, b, c, d, e, f, g], digit < 32) :
    let value := groupValue [a, b, c, d, e, f, g]
    value < 32 ^ 7 ∧ value / 32 ^ 6 = a ∧ value / 32 ^ 5 % 32 = b ∧
      value / 32 ^ 4 % 32 = c ∧ value / 32 ^ 3 % 32 = d ∧
      value / 32 ^ 2 % 32 = e ∧ value / 32 % 32 = f ∧ value % 32 = g := by
  simp only [List.mem_cons, List.not_mem_nil, or_false, forall_eq_or_imp,
    forall_eq] at small
  simp only [groupValue, List.foldl_cons, List.foldl_nil, Nat.reducePow]
  omega

/-! ## Decoding and encoding again -/

theorem quintets_ofQuintets {values : List Nat} {bytes : Bytes}
    (small : ∀ digit ∈ values, digit < 32) (length : values.length % 8 = 7)
    (holds : ofQuintets values = some bytes) :
    quintets bytes = roundLast values := by
  induction values using ofQuintets.induct generalizing bytes with
  | case1 => cases length
  | case2 a b => cases length
  | case3 a b c d => cases length
  | case4 a b c d e => cases length
  | case5 a b c d e f g =>
      cases holds
      obtain ⟨bounded, isA, isB, isC, isD, isE, isF, isG⟩ :=
        groupValue_last small
      rw [quintets_last bounded, isA, isB, isC, isD, isE, isF, isG]
      rfl
  | case6 a b c d e f g h rest induction =>
      obtain ⟨after, holds, same⟩ := Option.map_eq_some_iff.mp holds
      have longer : rest.length % 8 = 7 := by
        simp only [List.length_cons] at length
        omega
      obtain ⟨bounded, isA, isB, isC, isD, isE, isF, isG, isH⟩ :=
        groupValue_digits fun digit member =>
          small digit (List.mem_append_left rest member)
      have again := induction
        (fun digit member => small digit (by simp [member])) longer holds
      cases rest with
      | nil => cases longer
      | cons next rest =>
          rw [← same, quintets_group bounded, isA, isB, isC, isD, isE, isF, isG,
            isH, again]
          rfl
  | case7 values none pair four five seven group =>
      rw [ofQuintets.eq_7 values none pair four five seven group] at holds
      cases holds

/-! ## Text -/

/-- The character of a five-bit value. -/
def letter (digit : Nat) : UInt8 := luaBase32Alphabet.getD digit 0

theorem letter_injective {first second : Nat} (small : first < 32)
    (alsoSmall : second < 32) (same : letter first = letter second) :
    first = second := by
  have each : ∀ first < 32, ∀ second < 32,
      letter first = letter second → first = second := by
    decide
  exact each first small second alsoSmall same

private theorem of_idxOf {byte : UInt8} {digit : Nat}
    (found : luaBase32Alphabet.idxOf? byte = some digit) :
    digit < 32 ∧ byte = letter digit := by
  have each : ∀ byte ∈ luaBase32Alphabet, ∀ digit,
      luaBase32Alphabet.idxOf? byte = some digit →
        digit < 32 ∧ byte = letter digit := by
    have decided : ∀ byte ∈ luaBase32Alphabet,
        ((luaBase32Alphabet.idxOf? byte).all fun digit =>
          digit < 32 ∧ byte = letter digit) = true := by
      decide +kernel
    intro byte member digit found
    have holds := decided byte member
    rw [found] at holds
    simpa using holds
  refine each byte ?_ digit found
  by_contra foreign
  rw [List.idxOf?_eq_none_iff.mpr foreign] at found
  cases found

/-- The values of a text determine it. -/
theorem of_mapM_idxOf {text : Bytes} {digits : List Nat}
    (read : text.mapM (luaBase32Alphabet.idxOf? ·) = some digits) :
    (∀ digit ∈ digits, digit < 32) ∧ text = digits.map letter := by
  induction text generalizing digits with
  | nil =>
      cases read
      exact ⟨by simp, rfl⟩
  | cons byte text induction =>
      rw [List.mapM_cons] at read
      obtain ⟨digit, isDigit, read⟩ := Option.bind_eq_some_iff.mp read
      obtain ⟨rest, isRest, same⟩ := Option.bind_eq_some_iff.mp read
      cases same
      obtain ⟨small, isLetter⟩ := of_idxOf isDigit
      obtain ⟨allSmall, isText⟩ := induction isRest
      exact ⟨List.forall_mem_cons.mpr ⟨small, allSmall⟩, by
        rw [List.map_cons, ← isLetter, ← isText]⟩

private theorem length_quintetLoop {digits : List Nat} {bits : Nat}
    (value : Nat) (few : bits < 8) :
    (quintetLoop bits value digits).length =
      (bits + 5 * digits.length) / 8 := by
  induction digits generalizing bits value with
  | nil =>
      rw [quintetLoop, List.length_nil, List.length_nil]
      omega
  | cons digit digits induction =>
      rw [quintetLoop]
      split
      · rw [List.length_cons, induction _ (by omega), List.length_cons]
        omega
      · rw [induction _ (by omega), List.length_cons]
        omega

/-- Every eight bits of a text make a byte. -/
theorem length_b32_decode {text bytes : Bytes}
    (decoded : b32_decode text = some bytes) :
    bytes.length = 5 * text.length / 8 := by
  rw [b32_decode_eq] at decoded
  obtain ⟨digits, read, isBytes⟩ := Option.map_eq_some_iff.mp decoded
  rw [← isBytes, length_quintetLoop 0 (by decide), (of_mapM_idxOf read).2,
    List.length_map, Nat.zero_add]

/-- Encoding in lower case, value by value. -/
theorem toLower_b32Encode (bytes : Bytes) :
    toLower (b32Encode bytes) = (quintets bytes).map letter := by
  have each : ∀ digit < 32,
      lowerByte (base32Alphabet.getD digit 0) = letter digit := by
    decide
  rw [toLower, b32Encode, List.map_map]
  exact List.map_congr_left fun digit member =>
    each digit (quintets_lt bytes digit member)

/-- What decoding a text of 8k + 7 characters and encoding the bytes again
makes of its values. -/
theorem b32Encode_of_decode {text bytes : Bytes}
    (length : text.length % 8 = 7) (decoded : b32_decode text = some bytes) :
    ∃ digits, (∀ digit ∈ digits, digit < 32) ∧ text = digits.map letter ∧
      toLower (b32Encode bytes) = (roundLast digits).map letter := by
  rw [b32_decode_eq] at decoded
  obtain ⟨digits, read, isBytes⟩ := Option.map_eq_some_iff.mp decoded
  obtain ⟨small, isText⟩ := of_mapM_idxOf read
  have digitsLength : digits.length % 8 = 7 := by
    rw [isText, List.length_map] at length
    exact length
  have holds : ofQuintets digits = some bytes := by
    rw [ofQuintets_eq small (by simp [digitsLength]), isBytes]
  refine ⟨digits, small, isText, ?_⟩
  rw [toLower_b32Encode, quintets_ofQuintets small digitsLength holds]

end FfmucSalt
