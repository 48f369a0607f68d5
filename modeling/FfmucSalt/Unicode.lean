import FfmucSalt.Text

/-!
# Upper case

`unicode.ToUpper` by the simple case mappings of Unicode 15, and
`strings.ToUpper`.  Two letters outside ASCII have an upper case in ASCII, the
dotless i and the long s.
-/

namespace FfmucSalt

/-! ## Runes -/

/-- Runs of letters with an upper case, as first letter, last letter, distance
of the letters, and the upper case of the first. -/
def upperRuns : List (Nat × Nat × Nat × Nat) :=
  [(0xB5, 0xB5, 1, 0x39C), (0xE0, 0xF6, 1, 0xC0), (0xF8, 0xFE, 1, 0xD8),
    (0xFF, 0xFF, 1, 0x178), (0x101, 0x12F, 2, 0x100), (0x131, 0x131, 1, 0x49),
    (0x133, 0x137, 2, 0x132), (0x13A, 0x148, 2, 0x139),
    (0x14B, 0x177, 2, 0x14A), (0x17A, 0x17E, 2, 0x179), (0x17F, 0x17F, 1, 0x53),
    (0x180, 0x180, 1, 0x243), (0x183, 0x185, 2, 0x182),
    (0x188, 0x188, 1, 0x187), (0x18C, 0x18C, 1, 0x18B),
    (0x192, 0x192, 1, 0x191), (0x195, 0x195, 1, 0x1F6),
    (0x199, 0x199, 1, 0x198), (0x19A, 0x19A, 1, 0x23D),
    (0x19E, 0x19E, 1, 0x220), (0x1A1, 0x1A5, 2, 0x1A0),
    (0x1A8, 0x1A8, 1, 0x1A7), (0x1AD, 0x1AD, 1, 0x1AC),
    (0x1B0, 0x1B0, 1, 0x1AF), (0x1B4, 0x1B6, 2, 0x1B3),
    (0x1B9, 0x1B9, 1, 0x1B8), (0x1BD, 0x1BD, 1, 0x1BC),
    (0x1BF, 0x1BF, 1, 0x1F7), (0x1C5, 0x1C5, 1, 0x1C4),
    (0x1C6, 0x1C6, 1, 0x1C4), (0x1C8, 0x1C8, 1, 0x1C7),
    (0x1C9, 0x1C9, 1, 0x1C7), (0x1CB, 0x1CB, 1, 0x1CA),
    (0x1CC, 0x1CC, 1, 0x1CA), (0x1CE, 0x1DC, 2, 0x1CD),
    (0x1DD, 0x1DD, 1, 0x18E), (0x1DF, 0x1EF, 2, 0x1DE),
    (0x1F2, 0x1F2, 1, 0x1F1), (0x1F3, 0x1F3, 1, 0x1F1),
    (0x1F5, 0x1F5, 1, 0x1F4), (0x1F9, 0x21F, 2, 0x1F8),
    (0x223, 0x233, 2, 0x222), (0x23C, 0x23C, 1, 0x23B),
    (0x23F, 0x240, 1, 0x2C7E), (0x242, 0x242, 1, 0x241),
    (0x247, 0x24F, 2, 0x246), (0x250, 0x250, 1, 0x2C6F),
    (0x251, 0x251, 1, 0x2C6D), (0x252, 0x252, 1, 0x2C70),
    (0x253, 0x253, 1, 0x181), (0x254, 0x254, 1, 0x186),
    (0x256, 0x257, 1, 0x189), (0x259, 0x259, 1, 0x18F),
    (0x25B, 0x25B, 1, 0x190), (0x25C, 0x25C, 1, 0xA7AB),
    (0x260, 0x260, 1, 0x193), (0x261, 0x261, 1, 0xA7AC),
    (0x263, 0x263, 1, 0x194), (0x265, 0x265, 1, 0xA78D),
    (0x266, 0x266, 1, 0xA7AA), (0x268, 0x268, 1, 0x197),
    (0x269, 0x269, 1, 0x196), (0x26A, 0x26A, 1, 0xA7AE),
    (0x26B, 0x26B, 1, 0x2C62), (0x26C, 0x26C, 1, 0xA7AD),
    (0x26F, 0x26F, 1, 0x19C), (0x271, 0x271, 1, 0x2C6E),
    (0x272, 0x272, 1, 0x19D), (0x275, 0x275, 1, 0x19F),
    (0x27D, 0x27D, 1, 0x2C64), (0x280, 0x280, 1, 0x1A6),
    (0x282, 0x282, 1, 0xA7C5), (0x283, 0x283, 1, 0x1A9),
    (0x287, 0x287, 1, 0xA7B1), (0x288, 0x288, 1, 0x1AE),
    (0x289, 0x289, 1, 0x244), (0x28A, 0x28B, 1, 0x1B1),
    (0x28C, 0x28C, 1, 0x245), (0x292, 0x292, 1, 0x1B7),
    (0x29D, 0x29D, 1, 0xA7B2), (0x29E, 0x29E, 1, 0xA7B0),
    (0x345, 0x345, 1, 0x399), (0x371, 0x373, 2, 0x370),
    (0x377, 0x377, 1, 0x376), (0x37B, 0x37D, 1, 0x3FD),
    (0x3AC, 0x3AC, 1, 0x386), (0x3AD, 0x3AF, 1, 0x388),
    (0x3B1, 0x3C1, 1, 0x391), (0x3C2, 0x3C2, 1, 0x3A3),
    (0x3C3, 0x3CB, 1, 0x3A3), (0x3CC, 0x3CC, 1, 0x38C),
    (0x3CD, 0x3CE, 1, 0x38E), (0x3D0, 0x3D0, 1, 0x392),
    (0x3D1, 0x3D1, 1, 0x398), (0x3D5, 0x3D5, 1, 0x3A6),
    (0x3D6, 0x3D6, 1, 0x3A0), (0x3D7, 0x3D7, 1, 0x3CF),
    (0x3D9, 0x3EF, 2, 0x3D8), (0x3F0, 0x3F0, 1, 0x39A),
    (0x3F1, 0x3F1, 1, 0x3A1), (0x3F2, 0x3F2, 1, 0x3F9),
    (0x3F3, 0x3F3, 1, 0x37F), (0x3F5, 0x3F5, 1, 0x395),
    (0x3F8, 0x3F8, 1, 0x3F7), (0x3FB, 0x3FB, 1, 0x3FA),
    (0x430, 0x44F, 1, 0x410), (0x450, 0x45F, 1, 0x400),
    (0x461, 0x481, 2, 0x460), (0x48B, 0x4BF, 2, 0x48A),
    (0x4C2, 0x4CE, 2, 0x4C1), (0x4CF, 0x4CF, 1, 0x4C0),
    (0x4D1, 0x52F, 2, 0x4D0), (0x561, 0x586, 1, 0x531),
    (0x10D0, 0x10FA, 1, 0x1C90), (0x10FD, 0x10FF, 1, 0x1CBD),
    (0x13F8, 0x13FD, 1, 0x13F0), (0x1C80, 0x1C80, 1, 0x412),
    (0x1C81, 0x1C81, 1, 0x414), (0x1C82, 0x1C82, 1, 0x41E),
    (0x1C83, 0x1C84, 1, 0x421), (0x1C85, 0x1C85, 1, 0x422),
    (0x1C86, 0x1C86, 1, 0x42A), (0x1C87, 0x1C87, 1, 0x462),
    (0x1C88, 0x1C88, 1, 0xA64A), (0x1D79, 0x1D79, 1, 0xA77D),
    (0x1D7D, 0x1D7D, 1, 0x2C63), (0x1D8E, 0x1D8E, 1, 0xA7C6),
    (0x1E01, 0x1E95, 2, 0x1E00), (0x1E9B, 0x1E9B, 1, 0x1E60),
    (0x1EA1, 0x1EFF, 2, 0x1EA0), (0x1F00, 0x1F07, 1, 0x1F08),
    (0x1F10, 0x1F15, 1, 0x1F18), (0x1F20, 0x1F27, 1, 0x1F28),
    (0x1F30, 0x1F37, 1, 0x1F38), (0x1F40, 0x1F45, 1, 0x1F48),
    (0x1F51, 0x1F57, 2, 0x1F59), (0x1F60, 0x1F67, 1, 0x1F68),
    (0x1F70, 0x1F71, 1, 0x1FBA), (0x1F72, 0x1F75, 1, 0x1FC8),
    (0x1F76, 0x1F77, 1, 0x1FDA), (0x1F78, 0x1F79, 1, 0x1FF8),
    (0x1F7A, 0x1F7B, 1, 0x1FEA), (0x1F7C, 0x1F7D, 1, 0x1FFA),
    (0x1F80, 0x1F87, 1, 0x1F88), (0x1F90, 0x1F97, 1, 0x1F98),
    (0x1FA0, 0x1FA7, 1, 0x1FA8), (0x1FB0, 0x1FB1, 1, 0x1FB8),
    (0x1FB3, 0x1FB3, 1, 0x1FBC), (0x1FBE, 0x1FBE, 1, 0x399),
    (0x1FC3, 0x1FC3, 1, 0x1FCC), (0x1FD0, 0x1FD1, 1, 0x1FD8),
    (0x1FE0, 0x1FE1, 1, 0x1FE8), (0x1FE5, 0x1FE5, 1, 0x1FEC),
    (0x1FF3, 0x1FF3, 1, 0x1FFC), (0x214E, 0x214E, 1, 0x2132),
    (0x2170, 0x217F, 1, 0x2160), (0x2184, 0x2184, 1, 0x2183),
    (0x24D0, 0x24E9, 1, 0x24B6), (0x2C30, 0x2C5F, 1, 0x2C00),
    (0x2C61, 0x2C61, 1, 0x2C60), (0x2C65, 0x2C65, 1, 0x23A),
    (0x2C66, 0x2C66, 1, 0x23E), (0x2C68, 0x2C6C, 2, 0x2C67),
    (0x2C73, 0x2C73, 1, 0x2C72), (0x2C76, 0x2C76, 1, 0x2C75),
    (0x2C81, 0x2CE3, 2, 0x2C80), (0x2CEC, 0x2CEE, 2, 0x2CEB),
    (0x2CF3, 0x2CF3, 1, 0x2CF2), (0x2D00, 0x2D25, 1, 0x10A0),
    (0x2D27, 0x2D27, 1, 0x10C7), (0x2D2D, 0x2D2D, 1, 0x10CD),
    (0xA641, 0xA66D, 2, 0xA640), (0xA681, 0xA69B, 2, 0xA680),
    (0xA723, 0xA72F, 2, 0xA722), (0xA733, 0xA76F, 2, 0xA732),
    (0xA77A, 0xA77C, 2, 0xA779), (0xA77F, 0xA787, 2, 0xA77E),
    (0xA78C, 0xA78C, 1, 0xA78B), (0xA791, 0xA793, 2, 0xA790),
    (0xA794, 0xA794, 1, 0xA7C4), (0xA797, 0xA7A9, 2, 0xA796),
    (0xA7B5, 0xA7C3, 2, 0xA7B4), (0xA7C8, 0xA7CA, 2, 0xA7C7),
    (0xA7D1, 0xA7D1, 1, 0xA7D0), (0xA7D7, 0xA7D9, 2, 0xA7D6),
    (0xA7F6, 0xA7F6, 1, 0xA7F5), (0xAB53, 0xAB53, 1, 0xA7B3),
    (0xAB70, 0xABBF, 1, 0x13A0), (0xFF41, 0xFF5A, 1, 0xFF21),
    (0x10428, 0x1044F, 1, 0x10400), (0x104D8, 0x104FB, 1, 0x104B0),
    (0x10597, 0x105A1, 1, 0x10570), (0x105A3, 0x105B1, 1, 0x1057C),
    (0x105B3, 0x105B9, 1, 0x1058C), (0x105BB, 0x105BC, 1, 0x10594),
    (0x10CC0, 0x10CF2, 1, 0x10C80), (0x118C0, 0x118DF, 1, 0x118A0),
    (0x16E60, 0x16E7F, 1, 0x16E40), (0x1E922, 0x1E943, 1, 0x1E900)]

/-- `unicode.ToUpper` -/
def upperRune (rune : Nat) : Nat :=
  if rune < 0x80 then
    if 0x61 ≤ rune ∧ rune ≤ 0x7A then rune - 0x20 else rune
  else
    match upperRuns.find? fun run =>
        run.1 ≤ rune ∧ rune ≤ run.2.1 ∧ (rune - run.1) % run.2.2.1 = 0 with
    | some run => run.2.2.2 + (rune - run.1)
    | none => rune

/-- `utf8.AppendRune` -/
def encodeRune (rune : Nat) : Bytes :=
  if rune < 0x80 then [rune.toUInt8]
  else if rune < 0x800 then
    [(0xC0 + rune / 64).toUInt8, (0x80 + rune % 64).toUInt8]
  else if 0x10FFFF < rune ∨ 0xD800 ≤ rune ∧ rune ≤ 0xDFFF then
    [0xEF, 0xBF, 0xBD]
  else if rune < 0x10000 then
    [(0xE0 + rune / 4096).toUInt8, (0x80 + rune / 64 % 64).toUInt8,
      (0x80 + rune % 64).toUInt8]
  else
    [(0xF0 + rune / 262144).toUInt8, (0x80 + rune / 4096 % 64).toUInt8,
      (0x80 + rune / 64 % 64).toUInt8, (0x80 + rune % 64).toUInt8]

/-- `strings.ToUpper` -/
def upperText (text : Bytes) : Bytes :=
  (runes text).flatMap fun rune => encodeRune (upperRune rune)

def dotlessI : Nat := 0x131

def longS : Nat := 0x17F

example : upperText (ascii "stra" ++ [0xC5, 0xBF, 0xC3, 0x9F] ++ ascii "e9") =
    ascii "STRAS" ++ [0xC3, 0x9F] ++ ascii "E9" := by decide +kernel

/-! ## What becomes ASCII -/

private theorem upperRuns_ascii : ∀ run ∈ upperRuns, 0x80 ≤ run.1 ∧
    (0x80 ≤ run.2.2.2 ∨ run = (dotlessI, dotlessI, 1, 0x49) ∨
      run = (longS, longS, 1, 0x53)) := by
  decide +kernel

/-- The letters outside ASCII that have an upper case in ASCII. -/
theorem upperRune_ascii {rune : Nat} (notAscii : 0x80 ≤ rune)
    (becomesAscii : upperRune rune < 0x80) : rune = dotlessI ∨ rune = longS := by
  unfold upperRune at becomesAscii
  rw [if_neg (Nat.not_lt.mpr notAscii)] at becomesAscii
  split at becomesAscii
  · rename_i run found
    have inside := List.find?_some found
    simp only [decide_eq_true_eq] at inside
    obtain ⟨-, high | isDotless | isLong⟩ :=
      upperRuns_ascii run (List.mem_of_find?_eq_some found)
    · omega
    · subst isDotless
      exact .inl (Nat.le_antisymm inside.2.1 inside.1)
    · subst isLong
      exact .inr (Nat.le_antisymm inside.2.1 inside.1)
  · omega

/-! ## Runes and bytes -/

section Runes

variable {text rest : Bytes} {first : UInt8}

private theorem decodeMultibyte_width {width lead minimum : Nat}
    (wide : 2 ≤ width)
    (wellFormed : (decodeMultibyte width lead minimum rest).1 ≠ runeError) :
    2 ≤ (decodeMultibyte width lead minimum rest).2 ∧
      (decodeMultibyte width lead minimum rest).2 - 1 ≤ rest.length := by
  unfold decodeMultibyte at wellFormed ⊢
  dsimp only at wellFormed ⊢
  split
  · rename_i isWellFormed
    have long := isWellFormed.1
    rw [List.length_take] at long
    exact ⟨wide, by dsimp only; omega⟩
  · rename_i malformed
    rw [if_neg malformed] at wellFormed
    exact (wellFormed rfl).elim

/-- A well-formed rune outside ASCII has two bytes or more. -/
theorem decodeRune_width (notAscii : 0x80 ≤ (decodeRune (first :: rest)).1)
    (wellFormed : (decodeRune (first :: rest)).1 ≠ runeError) :
    2 ≤ (decodeRune (first :: rest)).2 ∧
      (decodeRune (first :: rest)).2 - 1 ≤ rest.length := by
  unfold decodeRune at notAscii wellFormed ⊢
  dsimp only at notAscii wellFormed ⊢
  split at notAscii
  · rename_i isAscii
    exact absurd notAscii (Nat.not_le.mpr (UInt8.lt_iff_toNat_lt.mp isAscii))
  rename_i isLead
  rw [if_neg isLead] at wellFormed ⊢
  by_cases continuation : first < 0xC0
  · rw [if_pos continuation] at wellFormed
    exact (wellFormed rfl).elim
  rw [if_neg continuation] at wellFormed ⊢
  by_cases two : first < 0xE0
  · rw [if_pos two] at wellFormed ⊢
    exact decodeMultibyte_width (by decide) wellFormed
  rw [if_neg two] at wellFormed ⊢
  by_cases three : first < 0xF0
  · rw [if_pos three] at wellFormed ⊢
    exact decodeMultibyte_width (by decide) wellFormed
  rw [if_neg three] at wellFormed ⊢
  by_cases four : first < 0xF8
  · rw [if_pos four] at wellFormed ⊢
    exact decodeMultibyte_width (by decide) wellFormed
  · rw [if_neg four] at wellFormed
    exact (wellFormed rfl).elim

private theorem length_runesFrom_le (skip : Nat) (text : Bytes) :
    (runesFrom skip text).length ≤ text.length - skip := by
  induction text generalizing skip with
  | nil => simp [runesFrom]
  | cons first rest induction =>
      cases skip with
      | zero =>
          have shorter := induction ((decodeRune (first :: rest)).2 - 1)
          rw [runesFrom, List.length_cons, List.length_cons]
          omega
      | succ skip =>
          have shorter := induction skip
          rw [runesFrom, List.length_cons]
          omega

private theorem length_runesFrom_lt {rune : Nat} (notAscii : 0x80 ≤ rune)
    (wellFormed : rune ≠ runeError) {skip : Nat}
    (member : rune ∈ runesFrom skip text) :
    (runesFrom skip text).length < text.length - skip := by
  induction text generalizing skip with
  | nil => simp [runesFrom] at member
  | cons first rest induction =>
      cases skip with
      | zero =>
          rw [runesFrom, List.mem_cons] at member
          rw [runesFrom, List.length_cons, List.length_cons]
          rcases member with isFirst | later
          · have shorter := length_runesFrom_le
              ((decodeRune (first :: rest)).2 - 1) rest
            obtain ⟨wide, inside⟩ := decodeRune_width (isFirst ▸ notAscii)
              (isFirst ▸ wellFormed)
            omega
          · have shorter := induction later
            omega
      | succ skip =>
          have shorter := induction member
          rw [runesFrom, List.length_cons]
          omega

/-- A text with a well-formed rune outside ASCII has more bytes than runes. -/
theorem length_runes_lt {rune : Nat} (notAscii : 0x80 ≤ rune)
    (wellFormed : rune ≠ runeError) (member : rune ∈ runes text) :
    (runes text).length < text.length :=
  length_runesFrom_lt notAscii wellFormed member

/-- The runes of ASCII text are its bytes. -/
theorem runes_ascii (isAscii : ∀ byte ∈ text, byte < 0x80) :
    runes text = text.map UInt8.toNat := by
  unfold runes
  induction text with
  | nil => rfl
  | cons first rest induction =>
      obtain ⟨own, others⟩ := List.forall_mem_cons.mp isAscii
      have decoded : decodeRune (first :: rest) = (first.toNat, 1) := if_pos own
      rw [runesFrom, decoded, List.map_cons]
      exact congrArg (first.toNat :: ·) (induction others)

theorem encodeRune_ascii {rune : Nat} (isAscii : rune < 0x80) :
    encodeRune rune = [rune.toUInt8] :=
  if_pos isAscii

/-- Runes outside ASCII start with a byte outside ASCII. -/
theorem encodeRune_not_ascii {rune : Nat} (notAscii : 0x80 ≤ rune) :
    ∃ byte ∈ encodeRune rune, 0x80 ≤ byte := by
  have large : ∀ {number : Nat}, 0x80 ≤ number → number < 256 →
      (0x80 : UInt8) ≤ number.toUInt8 := by
    intro number least small
    rw [UInt8.le_iff_toNat_le]
    change 0x80 ≤ number % 256
    omega
  unfold encodeRune
  rw [if_neg (Nat.not_lt.mpr notAscii)]
  split
  · exact ⟨_, List.mem_cons_self, large (by omega) (by omega)⟩
  split
  · exact ⟨0xEF, List.mem_cons_self, by decide⟩
  split
  · exact ⟨_, List.mem_cons_self, large (by omega) (by omega)⟩
  · exact ⟨_, List.mem_cons_self, large (by omega) (by omega)⟩

end Runes

/-! ## Upper case in ASCII -/

/-- The upper case of an ASCII character. -/
def upperByte (byte : UInt8) : UInt8 :=
  if 0x61 ≤ byte ∧ byte ≤ 0x7A then byte - 0x20 else byte

section UpperText

variable {text : Bytes}

theorem upperText_ascii (isAscii : ∀ byte ∈ text, byte < 0x80) :
    upperText text = text.map upperByte := by
  have each : ∀ number < 0x80,
      encodeRune (upperRune number) = [upperByte number.toUInt8] := by
    decide +kernel
  unfold upperText
  rw [runes_ascii isAscii]
  induction text with
  | nil => rfl
  | cons first rest induction =>
      obtain ⟨own, others⟩ := List.forall_mem_cons.mp isAscii
      rw [List.map_cons, List.flatMap_cons, List.map_cons, induction others,
        each first.toNat (UInt8.lt_iff_toNat_lt.mp own)]
      rw [show first.toNat.toUInt8 = first from UInt8.ofNat_toNat]
      rfl

/-- What has an ASCII upper case has one byte for each rune. -/
theorem length_upperText (isAscii : ∀ byte ∈ upperText text, byte < 0x80) :
    (upperText text).length = (runes text).length ∧
      ∀ rune ∈ runes text, upperRune rune < 0x80 := by
  have small : ∀ rune ∈ runes text, upperRune rune < 0x80 := by
    intro rune member
    apply Nat.lt_of_not_le
    intro notAscii
    obtain ⟨byte, inRune, large⟩ := encodeRune_not_ascii notAscii
    have inText : byte ∈ upperText text :=
      List.mem_flatMap.mpr ⟨rune, member, inRune⟩
    exact UInt8.not_lt.mpr large (isAscii byte inText)
  refine ⟨?_, small⟩
  unfold upperText
  generalize runes text = listed at small
  induction listed with
  | nil => rfl
  | cons rune listed induction =>
      obtain ⟨own, others⟩ := List.forall_mem_cons.mp small
      rw [List.flatMap_cons, List.length_append, induction others,
        encodeRune_ascii own, List.length_singleton, List.length_cons,
        Nat.add_comm]

/-- If the upper case is ASCII, so is the text, unless it has one of the two
letters. -/
theorem ascii_of_upperText (isAscii : ∀ byte ∈ upperText text, byte < 0x80)
    (noDotless : dotlessI ∉ runes text) (noLong : longS ∉ runes text) :
    ∀ byte ∈ text, byte < 0x80 := by
  have all : (runes text).all fun rune => rune < 0x80 := by
    rw [List.all_eq_true]
    intro rune member
    apply decide_eq_true
    apply Nat.lt_of_not_le
    intro notAscii
    rcases upperRune_ascii notAscii ((length_upperText isAscii).2 rune member)
      with isDotless | isLong
    · exact noDotless (isDotless ▸ member)
    · exact noLong (isLong ▸ member)
  rw [runes_all_iff _ (fun _ => of_decide_eq_true), List.all_eq_true] at all
  intro byte member
  exact UInt8.lt_iff_toNat_lt.mpr (of_decide_eq_true (all byte member))

end UpperText

end FfmucSalt
