import Mathlib.Algebra.Group.Int.Defs
import Mathlib.Algebra.Group.Nat.Defs
import Mathlib.Data.List.Basic

/-!
# Strings as Go and Lua see them

Both programs work on byte strings.  Go additionally reads them as UTF-8 in a
few places: when a loop ranges over a string, and when white space is trimmed.
The definitions here follow the documented behaviour of the standard library
functions whose names they carry.
-/

namespace FfmucSalt

/-- A Go or Lua string. -/
abbrev Bytes := List UInt8

/-- The bytes of a literal. -/
def ascii (text : String) : Bytes := text.toByteArray.data.toList

/-- `count` consecutive characters from `first` on. -/
def asciiRange (first : UInt8) (count : Nat) : Bytes :=
  (List.range count).map fun offset => first + offset.toUInt8

def lowerByte (byte : UInt8) : UInt8 :=
  if 0x41 ≤ byte ∧ byte ≤ 0x5A then byte + 0x20 else byte

/-- `strings.ToLower` on ASCII text. -/
def toLower (text : Bytes) : Bytes := text.map lowerByte

/-! ## UTF-8 -/

/-- The rune that stands for every malformed byte. -/
def runeError : Nat := 0xFFFD

def isContinuation (byte : UInt8) : Bool :=
  0x80 ≤ byte ∧ byte ≤ 0xBF

/-- A rune of `width` bytes whose first byte carries the bits `lead`.
Overlong forms, surrogates and values past U+10FFFF are malformed. -/
def decodeMultibyte (width lead minimum : Nat) (rest : Bytes) : Nat × Nat :=
  let tail := rest.take (width - 1)
  let value :=
    tail.foldl (fun value byte => value * 64 + byte.toNat % 64) lead
  if tail.length = width - 1 ∧ tail.all isContinuation ∧ minimum ≤ value ∧
      value ≤ 0x10FFFF ∧ ¬ (0xD800 ≤ value ∧ value ≤ 0xDFFF) then
    (value, width)
  else
    (runeError, 1)

/-- `utf8.DecodeRune`: the first rune and its width. -/
def decodeRune : Bytes → Nat × Nat
  | [] => (runeError, 0)
  | first :: rest =>
      if first < 0x80 then (first.toNat, 1)
      else if first < 0xC0 then (runeError, 1)
      else if first < 0xE0 then
        decodeMultibyte 2 (first.toNat % 32) 0x80 rest
      else if first < 0xF0 then
        decodeMultibyte 3 (first.toNat % 16) 0x800 rest
      else if first < 0xF8 then
        decodeMultibyte 4 (first.toNat % 8) 0x10000 rest
      else (runeError, 1)

/-- The runes after the next `skip` bytes. -/
def runesFrom : (skip : Nat) → Bytes → List Nat
  | _, [] => []
  | skip + 1, _ :: rest => runesFrom skip rest
  | 0, first :: rest =>
      (decodeRune (first :: rest)).1 ::
        runesFrom ((decodeRune (first :: rest)).2 - 1) rest

/-- What `for _, c := range text` visits. -/
def runes (text : Bytes) : List Nat := runesFrom 0 text

private theorem decodeMultibyte_not_ascii {width lead minimum : Nat}
    {rest : Bytes} (large : 0x80 ≤ minimum) :
    0x80 ≤ (decodeMultibyte width lead minimum rest).1 := by
  unfold decodeMultibyte
  dsimp only
  split
  · rename_i wellFormed
    exact Nat.le_trans large wellFormed.2.2.1
  · decide

/-- A byte outside ASCII starts a rune outside ASCII. -/
theorem decodeRune_not_ascii {first : UInt8} (rest : Bytes)
    (notAscii : ¬ first < 0x80) :
    0x80 ≤ (decodeRune (first :: rest)).1 := by
  simp only [decodeRune, notAscii, if_false]
  split
  · decide
  · split
    · exact decodeMultibyte_not_ascii (by decide)
    · split
      · exact decodeMultibyte_not_ascii (by decide)
      · split
        · exact decodeMultibyte_not_ascii (by decide)
        · decide

/-- Ranging over a string meets only runes of an ASCII set exactly if its
bytes are all in that set. -/
theorem runes_all_iff (accepts : Nat → Bool)
    (asciiOnly : ∀ rune, accepts rune → rune < 0x80) (text : Bytes) :
    (runes text).all accepts ↔ text.all (fun byte => accepts byte.toNat) := by
  unfold runes
  induction text with
  | nil => simp [runesFrom]
  | cons first rest induction =>
      by_cases isAscii : first < 0x80
      · simp only [runesFrom, decodeRune, isAscii, if_true, List.all_cons,
          Bool.and_eq_true]
        exact and_congr_right fun _ => induction
      · have runeLarge := decodeRune_not_ascii rest isAscii
        have byteLarge : 0x80 ≤ first.toNat := by
          simpa [UInt8.lt_iff_toNat_lt] using isAscii
        have runeRefused :
            accepts (decodeRune (first :: rest)).1 = false := by
          by_contra accepted
          have := asciiOnly _ (by simpa using accepted)
          omega
        have byteRefused : accepts first.toNat = false := by
          by_contra accepted
          have := asciiOnly _ (by simpa using accepted)
          omega
        simp [runesFrom, runeRefused, byteRefused]

/-! ## Package `strings` -/

/-- `strings.TrimPrefix` -/
def trimPrefix (text start : Bytes) : Bytes :=
  if start.isPrefixOf text then text.drop start.length else text

theorem trimPrefix_append (start rest : Bytes) :
    trimPrefix (start ++ rest) start = rest := by
  unfold trimPrefix
  simp

/-- `strings.LastIndex` -/
def lastIndex (text marker : Bytes) : Option Nat :=
  match text with
  | [] => if marker = [] then some 0 else none
  | first :: rest =>
      match lastIndex rest marker with
      | some position => some (position + 1)
      | none => if marker.isPrefixOf (first :: rest) then some 0 else none

/-- `strings.Cut` at a separator of one byte -/
def cut (separator : UInt8) : Bytes → Option (Bytes × Bytes)
  | [] => none
  | first :: rest =>
      if first = separator then some ([], rest)
      else (cut separator rest).map fun (before, after) =>
        (first :: before, after)

/-- `strings.IndexAny` for a set of ASCII characters -/
def indexAny (text characters : Bytes) : Option Nat :=
  text.findIdx? (characters.contains ·)

/-- The UTF-8 forms of the characters `unicode.IsSpace` accepts. -/
def spaces : List Bytes :=
  [[0x09], [0x0A], [0x0B], [0x0C], [0x0D], [0x20], [0xC2, 0x85], [0xC2, 0xA0],
    [0xE1, 0x9A, 0x80], [0xE2, 0x80, 0xA8], [0xE2, 0x80, 0xA9],
    [0xE2, 0x80, 0xAF], [0xE2, 0x81, 0x9F], [0xE3, 0x80, 0x80]] ++
  (List.range 11).map fun offset => [0xE2, 0x80, 0x80 + offset.toUInt8]

/-- Drop `skip` bytes, then everything in front that one of `forms` covers. -/
def trimFormsFrom (forms : List Bytes) : (skip : Nat) → Bytes → Bytes
  | _, [] => []
  | skip + 1, _ :: rest => trimFormsFrom forms skip rest
  | 0, first :: rest =>
      match forms.find? (·.isPrefixOf (first :: rest)) with
      | none => first :: rest
      | some form => trimFormsFrom forms (form.length - 1) rest

/-- `strings.TrimSpace` -/
def trimSpace (text : Bytes) : Bytes :=
  let trimmed := trimFormsFrom spaces 0 text
  (trimFormsFrom (spaces.map List.reverse) 0 trimmed.reverse).reverse

theorem lastIndex_eq_none {text marker : Bytes}
    (absent : ¬ marker <:+: text) : lastIndex text marker = none := by
  induction text with
  | nil =>
      have : marker ≠ [] := fun empty => absent (by simp [empty])
      simp [lastIndex, this]
  | cons first rest induction =>
      have notLater : ¬ marker <:+: rest := fun later =>
        absent (later.trans (List.suffix_cons first rest).isInfix)
      have notHere : marker.isPrefixOf (first :: rest) = false := by
        by_contra here
        exact absent (List.isPrefixOf_iff_prefix.mp (by simpa using here)).isInfix
      simp [lastIndex, induction notLater, notHere]

/-- Text is cut at the first separator. -/
theorem cut_eq_some {text before after : Bytes} {separator : UInt8} :
    cut separator text = some (before, after) ↔
      text = before ++ separator :: after ∧ separator ∉ before := by
  induction text generalizing before after with
  | nil => simp [cut]
  | cons first text induction =>
      by_cases found : first = separator
      · rw [cut, if_pos found]
        cases before with
        | nil => simp [found]
        | cons byte before =>
            have notFirst : first = byte → separator ∈ byte :: before :=
              fun same => by simp [← same, found]
            simp only [Option.some.injEq, Prod.mk.injEq, List.nil_eq,
              List.cons_ne_nil, false_and, List.cons_append, List.cons.injEq,
              false_iff]
            rintro ⟨⟨same, -⟩, absent⟩
            exact absent (notFirst same)
      · rw [cut, if_neg found]
        cases before with
        | nil => simp [found]
        | cons byte before =>
            have other : separator = byte ↔ byte = separator := eq_comm
            simp only [Option.map_eq_some_iff, Prod.exists, Prod.mk.injEq,
              List.cons.injEq, induction, List.cons_append, List.mem_cons,
              not_or]
            constructor
            · rintro ⟨front, back, ⟨same, absent⟩, ⟨rfl, rfl⟩, rfl⟩
              exact ⟨⟨rfl, same⟩, Ne.symm found, absent⟩
            · rintro ⟨⟨rfl, same⟩, -, absent⟩
              exact ⟨before, after, ⟨same, absent⟩, ⟨rfl, rfl⟩, rfl⟩

/-- What stands before and after a separator is determined, if the first part
does not contain it. -/
theorem append_separator_inj {first second rest other : Bytes}
    {separator : UInt8} (absent : separator ∉ first)
    (alsoAbsent : separator ∉ second)
    (same : first ++ separator :: rest = second ++ separator :: other) :
    first = second ∧ rest = other := by
  have cutFirst : cut separator (first ++ separator :: rest) =
      some (first, rest) := cut_eq_some.mpr ⟨rfl, absent⟩
  rw [cut_eq_some.mpr ⟨same, alsoAbsent⟩] at cutFirst
  cases cutFirst
  exact ⟨rfl, rfl⟩

theorem indexAny_eq_none {text characters : Bytes}
    (absent : ∀ byte ∈ text, byte ∉ characters) :
    indexAny text characters = none := by
  simpa [indexAny, List.findIdx?_eq_none_iff] using absent

private theorem trimFormsFrom_eq_self {forms : List Bytes} {text : Bytes}
    (notSpace : ∀ form ∈ forms, ∀ first ∈ form.head?, first ∉ text)
    (nonempty : [] ∉ forms) :
    trimFormsFrom forms 0 text = text := by
  cases text with
  | nil => rfl
  | cons first rest =>
      have noForm : forms.find? (·.isPrefixOf (first :: rest)) = none := by
        rw [List.find?_eq_none]
        intro form member isForm
        cases form with
        | nil => exact nonempty member
        | cons head tail =>
            have := List.isPrefixOf_iff_prefix.mp isForm
            have equal : head = first := (List.cons_prefix_cons.mp this).1
            exact notSpace _ member head rfl (by simp [equal])
      simp [trimFormsFrom, noForm]

/-- A string without any byte that can start or end white space stays as it
is. -/
theorem trimSpace_eq_self {text : Bytes}
    (notSpace : ∀ byte ∈ text, 0x20 < byte ∧ byte < 0x80) :
    trimSpace text = text := by
  have front : trimFormsFrom spaces 0 text = text := by
    refine trimFormsFrom_eq_self ?_ (by decide)
    intro form member first isFirst present
    have bounds := notSpace first present
    have : ∀ form ∈ spaces, ∀ first ∈ form.head?,
        ¬ (0x20 < first ∧ first < 0x80) := by decide +kernel
    exact this form member first isFirst bounds
  have back : trimFormsFrom (spaces.map List.reverse) 0 text.reverse =
      text.reverse := by
    refine trimFormsFrom_eq_self ?_ (by decide)
    intro form member last isLast present
    have bounds := notSpace last (by simpa using present)
    have : ∀ form ∈ spaces.map List.reverse, ∀ last ∈ form.head?,
        ¬ (0x20 < last ∧ last < 0x80) := by decide +kernel
    exact this form member last isLast bounds
  simp only [trimSpace, front, back, List.reverse_reverse]

/-! ## Package `strconv` -/

/-- `strconv.FormatUint` -/
def formatUint (base value : Nat) : Bytes :=
  (Nat.toDigits base value).map Char.toUInt8

/-- `strconv.FormatInt` in base 10, and `strconv.Itoa` -/
def formatInt (value : Int) : Bytes :=
  if value < 0 then ascii "-" ++ formatUint 10 value.natAbs
  else formatUint 10 value.natAbs

def isDecimalDigit (byte : UInt8) : Bool :=
  0x30 ≤ byte ∧ byte ≤ 0x39

def decimalValue (digits : Bytes) : Option Nat :=
  if digits ≠ [] ∧ digits.all isDecimalDigit then
    some (digits.foldl (fun value digit => value * 10 + (digit.toNat - 0x30)) 0)
  else none

/-- `strconv.ParseInt` in base 10 with 64 bits -/
def parseInt (text : Bytes) : Option Int := do
  let value ← match text with
    | 0x2D :: digits => (decimalValue digits).map fun value => -(value : Int)
    | 0x2B :: digits => (decimalValue digits).map fun value => (value : Int)
    | digits => (decimalValue digits).map fun value => (value : Int)
  if -(2 ^ 63 : Int) ≤ value ∧ value < 2 ^ 63 then some value else none

private theorem digitChar_injective {first second : Nat}
    (firstSmall : first < 16) (secondSmall : second < 16)
    (equal : (Nat.digitChar first).toUInt8 = (Nat.digitChar second).toUInt8) :
    first = second := by
  have all : ∀ first < 16, ∀ second < 16,
      (Nat.digitChar first).toUInt8 = (Nat.digitChar second).toUInt8 →
        first = second := by decide
  exact all first firstSmall second secondSmall equal

private theorem formatUint_of_lt {base value : Nat} (short : value < base) :
    formatUint base value = [(Nat.digitChar value).toUInt8] := by
  simp [formatUint, Nat.toDigits_of_lt_base short]

private theorem formatUint_of_le {base value : Nat} (large : 1 < base)
    (long : base ≤ value) :
    formatUint base value = formatUint base (value / base) ++
      [(Nat.digitChar (value % base)).toUInt8] := by
  simp [formatUint, Nat.toDigits_of_base_le large long]

theorem formatUint_ne_nil {base value : Nat} : formatUint base value ≠ [] := by
  simp [formatUint, Nat.toDigits_ne_nil]

private theorem one_lt_length_formatUint {base value : Nat} (large : 1 < base)
    (long : base ≤ value) : 1 < (formatUint base value).length := by
  rw [formatUint_of_le large long, List.length_append]
  have : 0 < (formatUint base (value / base)).length :=
    List.length_pos_iff.mpr formatUint_ne_nil
  simpa using this

/-- Different numbers are written differently. -/
theorem formatUint_injective {base : Nat} (large : 1 < base)
    (small : base ≤ 16) : Function.Injective (formatUint base) := by
  intro first
  induction first using Nat.strongRecOn with
  | ind first induction =>
      intro second equal
      have lengths := congrArg List.length equal
      rcases Nat.lt_or_ge first base with firstShort | firstLong <;>
        rcases Nat.lt_or_ge second base with secondShort | secondLong
      · rw [formatUint_of_lt firstShort, formatUint_of_lt secondShort] at equal
        exact digitChar_injective (by omega) (by omega) (List.cons.inj equal).1
      · have := one_lt_length_formatUint large secondLong
        rw [← lengths, formatUint_of_lt firstShort] at this
        simp at this
      · have := one_lt_length_formatUint large firstLong
        rw [lengths, formatUint_of_lt secondShort] at this
        simp at this
      · rw [formatUint_of_le large firstLong,
          formatUint_of_le large secondLong] at equal
        obtain ⟨quotients, remainders⟩ := List.append_inj' equal rfl
        have firstRemainder : first % base < base := Nat.mod_lt _ (by omega)
        have secondRemainder : second % base < base := Nat.mod_lt _ (by omega)
        have sameQuotient : first / base = second / base :=
          induction (first / base) (Nat.div_lt_self (by omega) large) quotients
        have sameRemainder : first % base = second % base :=
          digitChar_injective (by omega) (by omega)
            (List.cons.inj remainders).1
        rw [← Nat.div_add_mod first base, ← Nat.div_add_mod second base,
          sameQuotient, sameRemainder]

/-! ## Numbers read back -/

theorem decimalValue_formatUint (value : Nat) :
    decimalValue (formatUint 10 value) = some value := by
  have digit : ∀ value < 10,
      isDecimalDigit (Nat.digitChar value).toUInt8 ∧
        (Nat.digitChar value).toUInt8.toNat - 0x30 = value := by
    decide
  have both : (formatUint 10 value).all isDecimalDigit ∧
      (formatUint 10 value).foldl
        (fun value digit => value * 10 + (digit.toNat - 0x30)) 0 = value := by
    induction value using Nat.strongRecOn with
    | ind value induction =>
        rcases Nat.lt_or_ge value 10 with short | long
        · rw [formatUint_of_lt short]
          simpa using digit value short
        · obtain ⟨all, quotient⟩ :=
            induction (value / 10) (Nat.div_lt_self (by omega) (by omega))
          obtain ⟨isDigit, remainder⟩ := digit (value % 10)
            (Nat.mod_lt _ (by omega))
          rw [formatUint_of_le (by omega) long, List.all_append,
            List.foldl_append, quotient]
          constructor
          · simp [all, isDigit]
          · rw [List.foldl_cons, List.foldl_nil, remainder]
            omega
  rw [decimalValue, if_pos ⟨formatUint_ne_nil, both.1⟩, both.2]

theorem isDecimalDigit_of_decimalValue {text : Bytes} {value : Nat}
    (read : decimalValue text = some value) :
    ∀ byte ∈ text, isDecimalDigit byte := by
  unfold decimalValue at read
  split at read
  · rename_i digits
    exact List.all_eq_true.mp digits.2
  · cases read

/-- Every digit that is written is one. -/
theorem isDecimalDigit_of_mem_formatUint {value : Nat} {byte : UInt8}
    (member : byte ∈ formatUint 10 value) : isDecimalDigit byte :=
  isDecimalDigit_of_decimalValue (decimalValue_formatUint value) byte member

/-- A text that is read as a number has digits and one sign at most. -/
theorem isDecimalDigit_of_parseInt {text : Bytes} {value : Int}
    (parsed : parseInt text = some value) :
    ∀ byte ∈ text, isDecimalDigit byte ∨ byte = 0x2D ∨ byte = 0x2B := by
  have each : ∃ rest value, decimalValue rest = some value ∧
      (text = rest ∨ text = 0x2D :: rest ∨ text = 0x2B :: rest) := by
    unfold parseInt at parsed
    dsimp only at parsed
    split at parsed
    · rename_i rest
      cases isValue : decimalValue rest with
      | none => simp [isValue] at parsed
      | some value => exact ⟨rest, value, isValue, .inr (.inl rfl)⟩
    · rename_i rest
      cases isValue : decimalValue rest with
      | none => simp [isValue] at parsed
      | some value => exact ⟨rest, value, isValue, .inr (.inr rfl)⟩
    · cases isValue : decimalValue text with
      | none => simp [isValue] at parsed
      | some value => exact ⟨text, value, isValue, .inl rfl⟩
  obtain ⟨rest, value, read, same⟩ := each
  have digits := isDecimalDigit_of_decimalValue read
  rcases same with rfl | rfl | rfl
  · exact fun byte member => .inl (digits byte member)
  · rw [List.forall_mem_cons]
    exact ⟨.inr (.inl rfl), fun byte member => .inl (digits byte member)⟩
  · rw [List.forall_mem_cons]
    exact ⟨.inr (.inr rfl), fun byte member => .inl (digits byte member)⟩

/-- An `int64` that is written is read back. -/
theorem parseInt_formatInt {value : Int} (lower : -(2 ^ 63 : Int) ≤ value)
    (upper : value < 2 ^ 63) : parseInt (formatInt value) = some value := by
  unfold formatInt
  split
  · rename_i negative
    have minus : ascii "-" = [0x2D] := by decide
    have isValue : -(value.natAbs : Int) = value := by omega
    unfold parseInt
    rw [minus, List.singleton_append]
    simp only [decimalValue_formatUint, Option.pure_def, Option.map_some,
      isValue, Option.bind_eq_bind, Option.bind_some]
    rw [if_pos ⟨lower, upper⟩]
  · rename_i notNegative
    have isValue : (value.natAbs : Int) = value := by omega
    unfold parseInt
    have noSign : ∀ {sign : UInt8} {digits : Bytes},
        formatUint 10 value.natAbs = sign :: digits → isDecimalDigit sign :=
      fun written => isDecimalDigit_of_mem_formatUint
        (written ▸ List.mem_cons_self ..)
    split
    · rename_i written
      exact absurd (noSign written) (by decide)
    · rename_i written
      exact absurd (noSign written) (by decide)
    · simp only [decimalValue_formatUint, Option.pure_def, Option.map_some,
        isValue, Option.bind_eq_bind, Option.bind_some]
      rw [if_pos ⟨lower, upper⟩]

end FfmucSalt
