import FfmucSalt.Text

/-!
# Base32

The standard encoding of Go's `encoding/base32` without padding, and the
decoder that `mod_ffmuc_signed_rooms.lua` brings along.
-/

namespace FfmucSalt

/-- The number of a group of five-bit values. -/
def groupValue (values : List Nat) : Nat :=
  values.foldl (fun value digit => value * 32 + digit) 0

/-- The first `count` of the five bytes of a 40-bit group. -/
def groupBytes (count : Nat) (value : Nat) : Bytes :=
  (List.range count).map fun place => (value / 256 ^ (4 - place)).toUInt8

/-- The five-bit values of a byte string; the last one is filled with zeros. -/
def quintets : Bytes → List Nat
  | [] => []
  | [a] => [a.toNat / 8, a.toNat % 8 * 4]
  | [a, b] =>
      [a.toNat / 8, a.toNat % 8 * 4 + b.toNat / 64, b.toNat / 2 % 32,
        b.toNat % 2 * 16]
  | [a, b, c] =>
      [a.toNat / 8, a.toNat % 8 * 4 + b.toNat / 64, b.toNat / 2 % 32,
        b.toNat % 2 * 16 + c.toNat / 16, c.toNat % 16 * 2]
  | [a, b, c, d] =>
      [a.toNat / 8, a.toNat % 8 * 4 + b.toNat / 64, b.toNat / 2 % 32,
        b.toNat % 2 * 16 + c.toNat / 16, c.toNat % 16 * 2 + d.toNat / 128,
        d.toNat / 4 % 32, d.toNat % 4 * 8]
  | a :: b :: c :: d :: e :: rest =>
      a.toNat / 8 :: (a.toNat % 8 * 4 + b.toNat / 64) :: b.toNat / 2 % 32 ::
        (b.toNat % 2 * 16 + c.toNat / 16) ::
        (c.toNat % 16 * 2 + d.toNat / 128) :: d.toNat / 4 % 32 ::
        (d.toNat % 4 * 8 + e.toNat / 32) :: e.toNat % 32 :: quintets rest

/-- The bytes that five-bit values hold, eight values to five bytes.  An
incomplete group stands for as many whole bytes as fit in it; its left-over
bits are dropped. -/
def ofQuintets : List Nat → Option Bytes
  | [] => some []
  | [a, b] => some (groupBytes 1 (groupValue [a, b] * 32 ^ 6))
  | [a, b, c, d] => some (groupBytes 2 (groupValue [a, b, c, d] * 32 ^ 4))
  | [a, b, c, d, e] =>
      some (groupBytes 3 (groupValue [a, b, c, d, e] * 32 ^ 3))
  | [a, b, c, d, e, f, g] =>
      some (groupBytes 4 (groupValue [a, b, c, d, e, f, g] * 32))
  | a :: b :: c :: d :: e :: f :: g :: h :: rest =>
      (ofQuintets rest).map fun bytes =>
        groupBytes 5 (groupValue [a, b, c, d, e, f, g, h]) ++ bytes
  | _ => none

/-- `A` to `Z`, `2` to `7` -/
def base32Alphabet : Bytes := asciiRange 0x41 26 ++ asciiRange 0x32 6

/-- `b32.DecodeString`, with `b32` the standard encoding without padding.
Line breaks are skipped. -/
def b32Decode (text : Bytes) : Option Bytes := do
  let values ← (text.filter fun byte => byte ≠ 0x0A ∧ byte ≠ 0x0D).mapM
    (base32Alphabet.idxOf? ·)
  ofQuintets values

/-- `b32.EncodeToString` -/
def b32Encode (bytes : Bytes) : Bytes :=
  (quintets bytes).map fun group => base32Alphabet.getD group 0

/-- `b32.EncodedLen` -/
def b32Length (length : Nat) : Nat :=
  length / 5 * 8 + (length % 5 * 8 + 4) / 5

/-! ## Lua's decoder -/

/-- `B32` of the Lua module. -/
def luaBase32Alphabet : Bytes := ascii "abcdefghijklmnopqrstuvwxyz234567"

/-- The loop of the Lua module's `b32_decode`: `value` holds the `bits` bits
that are not written out yet.  It stays below 2 ^ 13, where Lua's numbers are
exact. -/
def b32_decodeLoop (bits value : Nat) : Bytes → Option Bytes
  | [] => some []
  | byte :: rest => do
      let digit ← luaBase32Alphabet.idxOf? byte
      let value := value * 32 + digit
      let bits := bits + 5
      if 8 ≤ bits then
        let bits := bits - 8
        let out ← b32_decodeLoop bits (value % 2 ^ bits) rest
        some ((value / 2 ^ bits % 256).toUInt8 :: out)
      else b32_decodeLoop bits (value % 2 ^ bits) rest

/-- `b32_decode` of the Lua module. -/
def b32_decode (text : Bytes) : Option Bytes := b32_decodeLoop 0 0 text

/-! ## Both decoders -/

/-- The loop of `b32_decode` on five-bit values. -/
def quintetLoop (bits value : Nat) : List Nat → Bytes
  | [] => []
  | digit :: rest =>
      let value := value * 32 + digit
      let bits := bits + 5
      if 8 ≤ bits then
        (value / 2 ^ (bits - 8) % 256).toUInt8 ::
          quintetLoop (bits - 8) (value % 2 ^ (bits - 8)) rest
      else quintetLoop bits (value % 2 ^ bits) rest

private theorem b32_decodeLoop_eq (bits value : Nat) (text : Bytes) :
    b32_decodeLoop bits value text =
      (text.mapM (luaBase32Alphabet.idxOf? ·)).map
        (quintetLoop bits value) := by
  induction text generalizing bits value with
  | nil => rfl
  | cons byte text induction =>
      rw [b32_decodeLoop, List.mapM_cons]
      cases luaBase32Alphabet.idxOf? byte with
      | none => rfl
      | some digit =>
          simp only [Option.bind_eq_bind, Option.bind_some, induction]
          cases text.mapM (luaBase32Alphabet.idxOf? ·) with
          | none => simp
          | some digits =>
              simp only [Option.map_some, Option.bind_some, Option.pure_def,
                quintetLoop]
              split <;> rfl

private theorem toUInt8_congr {first second : Nat}
    (same : first % 256 = second % 256) : first.toUInt8 = second.toUInt8 := by
  apply UInt8.toNat_inj.mp
  simpa using same

/-- Eight values give five bytes, and leave nothing over. -/
private theorem quintetLoop_group {a b c d e f g h : Nat} (rest : List Nat)
    (small : ∀ digit ∈ a :: b :: c :: d :: e :: f :: g :: h :: rest,
      digit < 32) :
    quintetLoop 0 0 (a :: b :: c :: d :: e :: f :: g :: h :: rest) =
      groupBytes 5 (groupValue [a, b, c, d, e, f, g, h]) ++
        quintetLoop 0 0 rest := by
  simp only [List.mem_cons, forall_eq_or_imp] at small
  simp only [quintetLoop, groupBytes, groupValue, List.range_succ,
    List.range_zero, List.nil_append, List.cons_append, List.map_cons,
    List.map_nil, List.foldl_cons, List.foldl_nil, Nat.zero_mul, Nat.zero_add,
    Nat.reduceAdd, Nat.reduceLeDiff, if_true, if_false, Nat.reduceSub,
    Nat.reducePow, Nat.div_one, List.cons.injEq, Nat.mod_one]
  refine ⟨toUInt8_congr ?_, toUInt8_congr ?_, toUInt8_congr ?_,
    toUInt8_congr ?_, toUInt8_congr ?_, trivial⟩
  · omega
  · omega
  · omega
  · omega
  · omega

/-- The last values give the bytes that fit. -/
private theorem quintetLoop_last {a b c d e f g : Nat}
    (small : ∀ digit ∈ [a, b, c, d, e, f, g], digit < 32) :
    quintetLoop 0 0 [a, b] = groupBytes 1 (groupValue [a, b] * 32 ^ 6) ∧
    quintetLoop 0 0 [a, b, c, d] =
      groupBytes 2 (groupValue [a, b, c, d] * 32 ^ 4) ∧
    quintetLoop 0 0 [a, b, c, d, e] =
      groupBytes 3 (groupValue [a, b, c, d, e] * 32 ^ 3) ∧
    quintetLoop 0 0 [a, b, c, d, e, f, g] =
      groupBytes 4 (groupValue [a, b, c, d, e, f, g] * 32) := by
  simp only [List.mem_cons, List.not_mem_nil, or_false, forall_eq_or_imp,
    forall_eq] at small
  simp only [quintetLoop, groupBytes, groupValue, List.range_succ,
    List.range_zero, List.nil_append, List.cons_append, List.map_cons,
    List.map_nil, List.foldl_cons, List.foldl_nil, Nat.zero_mul, Nat.zero_add,
    Nat.reduceAdd, Nat.reduceLeDiff, if_true, if_false, Nat.reduceSub,
    Nat.reducePow, List.cons.injEq, and_true]
  refine ⟨toUInt8_congr ?_, ⟨toUInt8_congr ?_, toUInt8_congr ?_⟩,
    ⟨toUInt8_congr ?_, toUInt8_congr ?_, toUInt8_congr ?_⟩,
    toUInt8_congr ?_, toUInt8_congr ?_, toUInt8_congr ?_, toUInt8_congr ?_⟩
  all_goals omega

/-- The loop writes the whole bytes that the values hold. -/
private theorem quintetLoop_of_ofQuintets {values : List Nat} {bytes : Bytes}
    (small : ∀ digit ∈ values, digit < 32)
    (holds : ofQuintets values = some bytes) :
    quintetLoop 0 0 values = bytes := by
  induction values using ofQuintets.induct generalizing bytes with
  | case1 =>
      cases holds
      rfl
  | case2 a b =>
      cases holds
      exact (@quintetLoop_last a b 0 0 0 0 0 (by simpa using small)).1
  | case3 a b c d =>
      cases holds
      exact (@quintetLoop_last a b c d 0 0 0 (by simpa using small)).2.1
  | case4 a b c d e =>
      cases holds
      exact (@quintetLoop_last a b c d e 0 0 (by simpa using small)).2.2.1
  | case5 a b c d e f g =>
      cases holds
      exact (quintetLoop_last small).2.2.2
  | case6 a b c d e f g h rest induction =>
      obtain ⟨tail, isTail, isBytes⟩ := Option.map_eq_some_iff.mp holds
      have last : ∀ digit ∈ rest, digit < 32 := fun digit member =>
        small digit (by simp [member])
      rw [quintetLoop_group rest small, induction last isTail, isBytes]
  | case7 values none pair four five seven group =>
      rw [ofQuintets.eq_7 values none pair four five seven group] at holds
      cases holds

theorem b32_decode_eq (text : Bytes) :
    b32_decode text =
      (text.mapM (luaBase32Alphabet.idxOf? ·)).map (quintetLoop 0 0) :=
  b32_decodeLoop_eq 0 0 text

theorem ofQuintets_isSome (values : List Nat)
    (length : values.length % 8 = 0 ∨ values.length % 8 = 2 ∨
      values.length % 8 = 4 ∨ values.length % 8 = 5 ∨ values.length % 8 = 7) :
    (ofQuintets values).isSome := by
  induction values using ofQuintets.induct with
  | case6 a b c d e f g h rest induction =>
      have shorter : rest.length % 8 = 0 ∨ rest.length % 8 = 2 ∨
          rest.length % 8 = 4 ∨ rest.length % 8 = 5 ∨ rest.length % 8 = 7 := by
        simp only [List.length_cons] at length
        omega
      simpa [ofQuintets] using induction shorter
  | case7 values none pair four five seven group =>
      exfalso
      match values with
      | [] => exact none rfl
      | [_] => simp at length
      | [a, b] => exact pair a b rfl
      | [_, _, _] => simp at length
      | [a, b, c, d] => exact four a b c d rfl
      | [a, b, c, d, e] => exact five a b c d e rfl
      | [_, _, _, _, _, _] => simp at length
      | [a, b, c, d, e, f, g] => exact seven a b c d e f g rfl
      | a :: b :: c :: d :: e :: f :: g :: h :: rest =>
          exact group a b c d e f g h rest rfl
  | _ => rfl

/-- Both decoders read the same bytes, if no value is incomplete. -/
theorem ofQuintets_eq {values : List Nat}
    (small : ∀ digit ∈ values, digit < 32)
    (length : values.length % 8 = 0 ∨ values.length % 8 = 2 ∨
      values.length % 8 = 4 ∨ values.length % 8 = 5 ∨ values.length % 8 = 7) :
    ofQuintets values = some (quintetLoop 0 0 values) := by
  obtain ⟨bytes, holds⟩ :=
    Option.isSome_iff_exists.mp (ofQuintets_isSome values length)
  rw [holds, quintetLoop_of_ofQuintets small holds]

theorem ofQuintets_quintets (bytes : Bytes) :
    ofQuintets (quintets bytes) = some bytes := by
  have restore : ∀ (byte : UInt8) (value : Nat), value % 256 = byte.toNat →
      value.toUInt8 = byte := by
    intro byte value same
    apply UInt8.toNat_inj.mp
    simpa using same
  have bounded : ∀ byte : UInt8, byte.toNat < 256 := fun byte => byte.toNat_lt
  induction bytes using quintets.induct with
  | case1 => rfl
  | case2 a =>
      have := bounded a
      simp only [quintets, ofQuintets, groupBytes, groupValue, List.range_succ,
        List.range_zero, List.nil_append, List.map_cons,
        List.map_nil, List.foldl_cons, List.foldl_nil, Nat.zero_mul,
        Nat.zero_add, Nat.reduceSub, Nat.reducePow, Option.some.injEq,
        List.cons.injEq, and_true]
      exact restore _ _ (by omega)
  | case3 a b =>
      have := bounded a
      have := bounded b
      simp only [quintets, ofQuintets, groupBytes, groupValue, List.range_succ,
        List.range_zero, List.nil_append, List.cons_append, List.map_cons,
        List.map_nil, List.foldl_cons, List.foldl_nil, Nat.zero_mul,
        Nat.zero_add, Nat.reduceSub, Nat.reducePow, Option.some.injEq,
        List.cons.injEq, and_true]
      refine ⟨restore _ _ ?_, restore _ _ ?_⟩
      · omega
      · omega
  | case4 a b c =>
      have := bounded a
      have := bounded b
      have := bounded c
      simp only [quintets, ofQuintets, groupBytes, groupValue, List.range_succ,
        List.range_zero, List.nil_append, List.cons_append, List.map_cons,
        List.map_nil, List.foldl_cons, List.foldl_nil, Nat.zero_mul,
        Nat.zero_add, Nat.reduceSub, Nat.reducePow, Option.some.injEq,
        List.cons.injEq, and_true]
      refine ⟨restore _ _ ?_, restore _ _ ?_, restore _ _ ?_⟩
      · omega
      · omega
      · omega
  | case5 a b c d =>
      have := bounded a
      have := bounded b
      have := bounded c
      have := bounded d
      simp only [quintets, ofQuintets, groupBytes, groupValue, List.range_succ,
        List.range_zero, List.nil_append, List.cons_append, List.map_cons,
        List.map_nil, List.foldl_cons, List.foldl_nil, Nat.zero_mul,
        Nat.zero_add, Nat.reduceSub, Nat.reducePow, Option.some.injEq,
        List.cons.injEq, and_true]
      refine ⟨restore _ _ ?_, restore _ _ ?_, restore _ _ ?_, restore _ _ ?_⟩
      · omega
      · omega
      · omega
      · omega
  | case6 a b c d e rest induction =>
      have := bounded a
      have := bounded b
      have := bounded c
      have := bounded d
      have := bounded e
      simp only [quintets, ofQuintets, induction, Option.map_some, groupBytes,
        groupValue, List.range_succ, List.range_zero, List.nil_append,
        List.cons_append, List.map_cons, List.map_nil, List.foldl_cons,
        List.foldl_nil, Nat.zero_mul, Nat.zero_add, Nat.reduceSub,
        Nat.reducePow, Nat.div_one, Option.some.injEq, List.cons.injEq]
      refine ⟨restore _ _ ?_, restore _ _ ?_, restore _ _ ?_, restore _ _ ?_,
        restore _ _ ?_, trivial⟩
      · omega
      · omega
      · omega
      · omega
      · omega

theorem quintets_lt (bytes : Bytes) : ∀ digit ∈ quintets bytes, digit < 32 := by
  have bounded : ∀ byte : UInt8, byte.toNat < 256 := fun byte => byte.toNat_lt
  induction bytes using quintets.induct with
  | case1 => simp [quintets]
  | case2 a =>
      have := bounded a
      simp only [quintets, List.mem_cons, List.not_mem_nil, or_false,
        forall_eq_or_imp, forall_eq]
      omega
  | case3 a b =>
      have := bounded a
      have := bounded b
      simp only [quintets, List.mem_cons, List.not_mem_nil, or_false,
        forall_eq_or_imp, forall_eq]
      omega
  | case4 a b c =>
      have := bounded a
      have := bounded b
      have := bounded c
      simp only [quintets, List.mem_cons, List.not_mem_nil, or_false,
        forall_eq_or_imp, forall_eq]
      omega
  | case5 a b c d =>
      have := bounded a
      have := bounded b
      have := bounded c
      have := bounded d
      simp only [quintets, List.mem_cons, List.not_mem_nil, or_false,
        forall_eq_or_imp, forall_eq]
      omega
  | case6 a b c d e rest induction =>
      have := bounded a
      have := bounded b
      have := bounded c
      have := bounded d
      have := bounded e
      simp only [quintets, List.mem_cons, forall_eq_or_imp]
      refine ⟨by omega, by omega, by omega, by omega, by omega, by omega,
        by omega, by omega, induction⟩

/-- What Go writes in lower case, Lua reads. -/
theorem b32_decode_b32Encode (bytes : Bytes) :
    b32_decode (toLower (b32Encode bytes)) = some bytes := by
  have values : ∀ digits : List Nat, (∀ digit ∈ digits, digit < 32) →
      (toLower (digits.map fun digit => base32Alphabet.getD digit 0)).mapM
        (luaBase32Alphabet.idxOf? ·) = some digits := by
    intro digits small
    induction digits with
    | nil => rfl
    | cons digit digits induction =>
        have back : ∀ digit < 32, luaBase32Alphabet.idxOf?
            (lowerByte (base32Alphabet.getD digit 0)) = some digit := by
          decide
        have head := back digit (small digit (by simp))
        have tail := induction fun other member => small other (by simp [member])
        rw [toLower] at tail ⊢
        rw [List.map_cons, List.map_cons, List.mapM_cons, head, tail]
        rfl
  have small := quintets_lt bytes
  rw [b32_decode_eq, b32Encode, values _ small, Option.map_some,
    quintetLoop_of_ofQuintets small (ofQuintets_quintets bytes)]

end FfmucSalt
