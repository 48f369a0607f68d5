import FfmucSalt.Text
import Mathlib.Data.List.DropRight
import Mathlib.Data.List.TakeWhile

/-!
# Python's strings

The methods of `str` that the scripts use, on lists of code points.
-/

namespace FfmucSalt.Python

abbrev Str := List Char

/-- The characters of an ASCII text -/
def chars (text : String) : Str :=
  (ascii text).map fun byte => Char.ofNat byte.toNat

/-- `str.isspace` of one character -/
def isSpace (ch : Char) : Bool :=
  (0x09 ≤ ch.toNat && ch.toNat ≤ 0x0D) ||
    (0x1C ≤ ch.toNat && ch.toNat ≤ 0x20) ||
    [0x85, 0xA0, 0x1680, 0x2028, 0x2029, 0x202F, 0x205F, 0x3000].contains
      ch.toNat ||
    (0x2000 ≤ ch.toNat && ch.toNat ≤ 0x200A)

/-- `str.strip` -/
def strip (text : Str) : Str :=
  (text.dropWhile isSpace).rdropWhile isSpace

/-- `str.partition` by one character, without the separator -/
def partition (separator : Char) (text : Str) : Str × Str :=
  (text.takeWhile (· ≠ separator), (text.dropWhile (· ≠ separator)).drop 1)

/-- `str.split` without an argument -/
def words (text : Str) : List Str :=
  (text.splitOnP isSpace).filter (· ≠ [])

/-! ## White space -/

def spaces : List Char :=
  [0x09, 0x0A, 0x0B, 0x0C, 0x0D, 0x1C, 0x1D, 0x1E, 0x1F, 0x20, 0x85, 0xA0,
    0x1680, 0x2000, 0x2001, 0x2002, 0x2003, 0x2004, 0x2005, 0x2006, 0x2007,
    0x2008, 0x2009, 0x200A, 0x2028, 0x2029, 0x202F, 0x205F, 0x3000].map
    Char.ofNat

/-- White space is one of a few characters. -/
theorem mem_spaces_of_isSpace {ch : Char} (space : isSpace ch) :
    ch ∈ spaces := by
  refine List.mem_map.mpr ⟨ch.toNat, ?_, Char.ofNat_toNat ch⟩
  simp only [isSpace, List.contains_cons, List.contains_nil, Bool.or_eq_true, Bool.and_eq_true, decide_eq_true_eq,
    beq_iff_eq, Bool.or_false] at space
  simp only [List.mem_cons, List.not_mem_nil, or_false]
  omega

section Strip

variable {text before rest gap : Str} {ch : Char}

theorem dropWhile_append_cons (word : isSpace ch = false) :
    (before ++ ch :: rest).dropWhile isSpace =
      before.dropWhile isSpace ++ ch :: rest := by
  rw [List.dropWhile_append]
  split
  case isTrue none =>
    rw [List.isEmpty_iff.mp none, List.dropWhile_cons_of_neg (by simp [word])]
    rfl
  case isFalse => rfl

theorem rdropWhile_append_cons (word : isSpace ch = false) :
    (before ++ ch :: rest).rdropWhile isSpace =
      before ++ ch :: rest.rdropWhile isSpace := by
  rw [List.rdropWhile, List.reverse_append, List.reverse_cons,
    List.append_assoc, List.singleton_append, dropWhile_append_cons word]
  simp [List.rdropWhile]

/-- Stripping goes up to a character that is none. -/
theorem strip_append_cons (word : isSpace ch = false) :
    strip (before ++ ch :: rest) =
      before.dropWhile isSpace ++ ch :: rest.rdropWhile isSpace := by
  rw [strip, dropWhile_append_cons word, rdropWhile_append_cons word]

theorem strip_of_gap (isGap : ∀ ch ∈ gap, isSpace ch) : strip gap = [] := by
  rw [strip, List.dropWhile_eq_nil_iff.mpr isGap]
  rfl

/-- A text is white space, or has a first word. -/
theorem gap_or_word (text : Str) : (∀ ch ∈ text, isSpace ch) ∨
    ∃ gap ch rest, text = gap ++ ch :: rest ∧ (∀ ch ∈ gap, isSpace ch) ∧
      isSpace ch = false := by
  induction text with
  | nil => exact .inl (by simp)
  | cons first text induction =>
      by_cases space : isSpace first
      · obtain isGap | ⟨gap, ch, rest, rfl, isGap, word⟩ := induction
        · exact .inl (List.forall_mem_cons.mpr ⟨space, isGap⟩)
        · exact .inr ⟨first :: gap, ch, rest, rfl,
            List.forall_mem_cons.mpr ⟨space, isGap⟩, word⟩
      · exact .inr ⟨[], first, text, rfl, by simp, Bool.eq_false_iff.mpr space⟩

theorem strip_rdropWhile : strip (text.rdropWhile isSpace) = strip text := by
  obtain isGap | ⟨gap, ch, rest, rfl, isGap, word⟩ := gap_or_word text
  · rw [List.rdropWhile_eq_nil_iff.mpr isGap, strip_of_gap isGap]
    rfl
  · rw [rdropWhile_append_cons word, strip_append_cons word,
      strip_append_cons word, List.rdropWhile_idempotent]

theorem strip_strip : strip (strip text) = strip text := by
  have front : strip (strip text) = strip (text.dropWhile isSpace) :=
    strip_rdropWhile
  rw [front, strip, List.dropWhile_idempotent]
  rfl

/-! ## Words -/

theorem words_append_cons (space : isSpace ch) :
    words (before ++ ch :: rest) = words before ++ words rest := by
  rw [words, List.splitOnP_append_cons before rest space, List.filter_append]
  rfl

theorem words_of_gap (isGap : ∀ ch ∈ gap, isSpace ch) : words gap = [] := by
  induction gap with
  | nil => rfl
  | cons ch gap induction =>
      obtain ⟨space, rest⟩ := List.forall_mem_cons.mp isGap
      have split := @words_append_cons [] gap ch space
      rw [List.nil_append, induction rest] at split
      exact split

theorem words_gap_append (isGap : ∀ ch ∈ gap, isSpace ch) :
    words (gap ++ text) = words text := by
  induction gap with
  | nil => rfl
  | cons ch gap induction =>
      obtain ⟨space, rest⟩ := List.forall_mem_cons.mp isGap
      have split := @words_append_cons [] (gap ++ text) ch space
      rw [induction rest] at split
      exact split

theorem words_append_gap (isGap : ∀ ch ∈ gap, isSpace ch) :
    words (text ++ gap) = words text := by
  cases gap with
  | nil => rw [List.append_nil]
  | cons ch gap =>
      obtain ⟨space, rest⟩ := List.forall_mem_cons.mp isGap
      rw [words_append_cons space, words_of_gap rest, List.append_nil]

theorem words_strip : words (strip text) = words text := by
  have front := List.takeWhile_append_dropWhile (p := isSpace) (l := text)
  have back : strip text ++ (text.dropWhile isSpace).rtakeWhile isSpace =
      text.dropWhile isSpace := List.rdropWhile_append_rtakeWhile
  have leading : ∀ ch ∈ text.takeWhile isSpace, isSpace ch :=
    fun _ => List.mem_takeWhile_imp
  have trailing : ∀ ch ∈ (text.dropWhile isSpace).rtakeWhile isSpace,
      isSpace ch := fun _ => List.mem_rtakeWhile_imp
  calc words (strip text)
      = words (strip text ++ (text.dropWhile isSpace).rtakeWhile isSpace) :=
        (words_append_gap trailing).symm
    _ = words (text.dropWhile isSpace) := by rw [back]
    _ = words text := by
        rw [← words_gap_append leading, front]

end Strip

/-! ## Numbers -/

/-- The zeros of Unicode's decimal digits, each with its digits behind it. -/
def zeros : List Nat :=
  [0x30, 0x660, 0x6F0, 0x7C0, 0x966, 0x9E6, 0xA66, 0xAE6, 0xB66, 0xBE6, 0xC66,
    0xCE6, 0xD66, 0xDE6, 0xE50, 0xED0, 0xF20, 0x1040, 0x1090, 0x17E0, 0x1810,
    0x1946, 0x19D0, 0x1A80, 0x1A90, 0x1B50, 0x1BB0, 0x1C40, 0x1C50, 0xA620,
    0xA8D0, 0xA900, 0xA9D0, 0xA9F0, 0xAA50, 0xABF0, 0xFF10, 0x104A0, 0x10D30,
    0x11066, 0x110F0, 0x11136, 0x111D0, 0x112F0, 0x11450, 0x114D0, 0x11650,
    0x116C0, 0x11730, 0x118E0, 0x11950, 0x11C50, 0x11D50, 0x11DA0, 0x16A60,
    0x16AC0, 0x16B50, 0x1D7CE, 0x1D7D8, 0x1D7E2, 0x1D7EC, 0x1D7F6, 0x1E140,
    0x1E2F0, 0x1E950, 0x1FBF0]

/-- The value of a decimal digit -/
def decimal? (ch : Char) : Option Nat :=
  zeros.findSome? fun first =>
    if first ≤ ch.toNat ∧ ch.toNat < first + 10 then some (ch.toNat - first)
    else none

/-- `str.isdecimal` of one character -/
def isDecimal (ch : Char) : Bool := (decimal? ch).isSome

/-- `int` of a text of decimal digits, of which it takes 4300 at most. -/
def int (digits : Str) : Option Nat :=
  if digits = [] ∨ 4300 < digits.length then none
  else digits.foldlM (fun value ch => (10 * value + ·) <$> decimal? ch) 0

/-- The value of a digit up to `f` -/
def hexDigit? (ch : Char) : Option Nat :=
  if '0' ≤ ch ∧ ch ≤ '9' then some (ch.toNat - '0'.toNat)
  else if 'a' ≤ ch ∧ ch ≤ 'f' then some (ch.toNat - 'a'.toNat + 10)
  else if 'A' ≤ ch ∧ ch ≤ 'F' then some (ch.toNat - 'A'.toNat + 10)
  else none

/-- The number that ASCII digits denote -/
def ofDigits (base : Nat) (digits : Str) : Nat :=
  digits.foldl (fun value ch => base * value + (hexDigit? ch).getD 0) 0

/-- The digits of a number, in lower case -/
def toDigits (base value : Nat) : Str := Nat.toDigits base value

theorem hexDigit?_digitChar {value : Nat} (small : value < 16) :
    hexDigit? value.digitChar = some value := by
  have each : ∀ digit < 16, hexDigit? digit.digitChar = some digit := by
    decide
  exact each value small

theorem ofDigits_toDigits {base : Nat} (value : Nat) (large : 1 < base)
    (small : base ≤ 16) : ofDigits base (toDigits base value) = value := by
  induction value using Nat.strongRecOn with
  | ind value induction =>
      by_cases lone : value < base
      · rw [toDigits, Nat.toDigits_of_lt_base lone, ofDigits]
        simp [hexDigit?_digitChar (by omega : value < 16)]
      · have fewer : value / base < value :=
          Nat.div_lt_self (by omega) large
        have digit : value % base < 16 := by
          have := Nat.mod_lt value (by omega : base > 0)
          omega
        have split := induction (value / base) fewer
        rw [ofDigits, toDigits] at split
        rw [toDigits, Nat.toDigits_of_base_le large (by omega), ofDigits,
          List.foldl_append, split]
        simp [hexDigit?_digitChar digit, Nat.div_add_mod]

theorem isSome_hexDigit?_of_mem_toDigits {base value : Nat} {ch : Char}
    (large : 1 < base) (small : base ≤ 16) (member : ch ∈ toDigits base value) :
    (hexDigit? ch).isSome := by
  induction value using Nat.strongRecOn with
  | ind value induction =>
      by_cases lone : value < base
      · rw [toDigits, Nat.toDigits_of_lt_base lone, List.mem_singleton]
          at member
        rw [member, hexDigit?_digitChar (by omega : value < 16)]
        rfl
      · have digit : value % base < 16 := by
          have := Nat.mod_lt value (by omega : base > 0)
          omega
        rw [toDigits, Nat.toDigits_of_base_le large (by omega),
          List.mem_append, List.mem_singleton] at member
        cases member with
        | inl before =>
            exact induction (value / base) (Nat.div_lt_self (by omega) large)
              before
        | inr last =>
            rw [last, hexDigit?_digitChar digit]
            rfl

end FfmucSalt.Python
