import FfmucSalt.Base32Leftover
import FfmucSalt.SignedRooms.SameNames

/-!
# Names that share a signature

A v1 name has 127 characters, 635 bits for the 632 bits of payload and
signature.  No decoder looks at the three bits left over, so eight names carry
the same signature.  Only one of them is what the signer once wrote.
-/

namespace FfmucSalt.SignedRooms

open MeetReserve (Server)

/-- The five-bit value of the last character. -/
def lastValue (name : Bytes) : Nat :=
  luaBase32Alphabet.idxOf (name.getLastD 0)

/-- The three bits left over are zero: the last character is `a`, `i`, `q` or
`y`. -/
def Canonical (name : Bytes) : Prop := lastValue name % 8 = 0

instance (name : Bytes) : Decidable (Canonical name) :=
  inferInstanceAs (Decidable (_ = _))

/-- The names differ in the three bits left over at most. -/
def Aliases (first second : Bytes) : Prop :=
  first.dropLast = second.dropLast ∧
    lastValue first / 8 = lastValue second / 8

instance (first second : Bytes) : Decidable (Aliases first second) :=
  inferInstanceAs (Decidable (_ ∧ _))

/-- Payload and signature as `parse_room` reads them. -/
def parsedRaw (name : Bytes) : Option Bytes :=
  b32_decode (name.drop roomPrefix.length)

/-- Payload and signature as `parseLegacyRoom` reads them. -/
def parsedLegacyRaw (name : Bytes) : Option Bytes :=
  b32Decode (MeetReserve.toUpper (name.drop MeetReserve.roomPrefix.length))

/-- The name that the signer once wrote for payload and signature. -/
def writtenName (raw : Bytes) : Bytes :=
  roomPrefix ++ toLower (b32Encode raw)

/-! ## Names that a decoder accepts -/

/-- What every accepted name looks like to Lua's decoder. -/
structure LongName (name raw : Bytes) : Prop where
  signed : isSignedName name
  decoded : parsedRaw name = some raw
  length : raw.length = payloadLen + sigLen

namespace LongName

variable {name raw : Bytes}

/-- The values of a long name, and those of the name written for its bytes. -/
theorem exists_digits (long : LongName name raw) :
    ∃ front last, (∀ digit ∈ front ++ [last], digit < 32) ∧
      name = roomPrefix ++ (front ++ [last]).map letter ∧
      writtenName raw =
        roomPrefix ++ (front ++ [last / 8 * 8]).map letter := by
  have textLength : (name.drop roomPrefix.length).length % 8 = 7 := by
    have bits := length_b32_decode long.decoded
    rw [long.length] at bits
    simp only [payloadLen, sigLen] at bits
    omega
  obtain ⟨digits, small, isText, written⟩ :=
    b32Encode_of_decode textLength long.decoded
  have full : digits ≠ [] := by
    rintro rfl
    rw [isText] at textLength
    cases textLength
  obtain ⟨front, last, isDigits⟩ : ∃ front last, digits = front ++ [last] :=
    ⟨_, _, (List.dropLast_concat_getLast full).symm⟩
  subst isDigits
  refine ⟨front, last, small, ?_, ?_⟩
  · have split := (List.take_append_drop roomPrefix.length name).symm
    rw [beq_iff_eq.mp long.signed, isText] at split
    exact split
  · rw [writtenName, written, roundLast_concat]

end LongName

private theorem lastValue_letter {front : List Nat} {last : Nat}
    (small : last < 32) :
    lastValue (roomPrefix ++ (front ++ [last]).map letter) = last := by
  have each : ∀ last < 32, luaBase32Alphabet.idxOf (letter last) = last := by
    decide
  have isLast : (roomPrefix ++ (front ++ [last]).map letter).getLastD 0 =
      letter last := by
    rw [List.map_append, List.map_singleton, ← List.append_assoc,
      List.getLastD_eq_getLast?, List.getLast?_concat]
    rfl
  rw [lastValue, isLast, each last small]

private theorem dropLast_letter (front : List Nat) (last : Nat) :
    (roomPrefix ++ (front ++ [last]).map letter).dropLast =
      roomPrefix ++ front.map letter := by
  rw [List.map_append, ← List.append_assoc]
  exact List.dropLast_concat

private theorem map_letter_injective {first second : List Nat}
    (small : ∀ digit ∈ first, digit < 32)
    (alsoSmall : ∀ digit ∈ second, digit < 32)
    (same : first.map letter = second.map letter) : first = second := by
  induction first generalizing second with
  | nil => exact (List.map_eq_nil_iff.mp same.symm).symm
  | cons digit first induction =>
      cases second with
      | nil => cases same
      | cons other second =>
          rw [List.forall_mem_cons] at small alsoSmall
          obtain ⟨head, tail⟩ := List.cons.inj same
          rw [letter_injective small.1 alsoSmall.1 head,
            induction small.2 alsoSmall.2 tail]

/-- The signer would write the name again if the bits left over are zero. -/
theorem LongName.writtenName_iff {name raw : Bytes}
    (long : LongName name raw) : writtenName raw = name ↔ Canonical name := by
  obtain ⟨front, last, small, isName, written⟩ := long.exists_digits
  have lastSmall : last < 32 := small last (by simp)
  rw [written, isName, Canonical, lastValue_letter lastSmall,
    List.append_cancel_left_eq, List.map_append, List.map_append,
    List.append_cancel_left_eq, List.map_singleton, List.map_singleton]
  constructor
  · intro same
    have := letter_injective (by omega) lastSmall (List.cons.inj same).1
    omega
  · intro rounded
    have : last / 8 * 8 = last := by omega
    rw [this]

/-- Two names carry the same bytes if they differ in the bits left over
only. -/
theorem LongName.raw_eq_iff {first second raw other : Bytes}
    (long : LongName first raw) (alsoLong : LongName second other) :
    raw = other ↔ Aliases first second := by
  obtain ⟨front, last, small, isFirst, written⟩ := long.exists_digits
  obtain ⟨front', last', small', isSecond, written'⟩ := alsoLong.exists_digits
  have lastSmall : last < 32 := small last (by simp)
  have lastSmall' : last' < 32 := small' last' (by simp)
  have names : raw = other ↔ writtenName raw = writtenName other := by
    refine ⟨congrArg _, fun same => ?_⟩
    have texts := List.append_cancel_left same
    exact Option.some.inj ((b32_decode_b32Encode raw).symm.trans
      ((congrArg b32_decode texts).trans (b32_decode_b32Encode other)))
  rw [names, written, written', isFirst, isSecond, Aliases, dropLast_letter,
    dropLast_letter, lastValue_letter lastSmall, lastValue_letter lastSmall',
    List.append_cancel_left_eq, List.append_cancel_left_eq]
  constructor
  · intro same
    have digits := map_letter_injective
      (by
        intro digit member
        rcases List.mem_append.mp member with inFront | isLast
        · exact small digit (List.mem_append_left _ inFront)
        · rw [List.mem_singleton.mp isLast]
          omega)
      (by
        intro digit member
        rcases List.mem_append.mp member with inFront | isLast
        · exact small' digit (List.mem_append_left _ inFront)
        · rw [List.mem_singleton.mp isLast]
          omega) same
    obtain ⟨fronts, lasts⟩ := List.append_inj' digits rfl
    have rounded := (List.cons.inj lasts).1
    exact ⟨congrArg _ fronts, by omega⟩
  · rintro ⟨fronts, lasts⟩
    rw [List.map_append, List.map_append, fronts, lasts]

/-! ## Both readers of v1 names -/

/-- A name that `parse_room` accepts. -/
theorem longName_of_parseRoom {plugin : Plugin} {name : Bytes}
    {seconds : Seconds} (parsed : plugin.parseRoom name = .ok seconds) :
    ∃ raw, LongName name raw := by
  obtain ⟨signed, raw, key, decoded, length, -⟩ := parseRoom_eq_ok.mp parsed
  exact ⟨raw, signed, decoded, length⟩

/-- A name that `parseLegacyRoom` accepts. -/
theorem longName_of_parseLegacyRoom {server : Server} {name : Bytes}
    {exp : MeetReserve.Time} (parsed : server.parseLegacyRoom name = .ok exp) :
    ∃ raw, LongName name raw ∧ parsedLegacyRaw name = some raw := by
  obtain ⟨isLegacy, raw, decoded, length, -⟩ := parseLegacyRoom_eq_ok.mp parsed
  obtain ⟨⟨signed, long⟩, accepted⟩ := isLegacyName_iff.mp isLegacy
  have bodyLength : (name.drop roomPrefix.length).length = legacyLen := by
    rw [List.length_drop, beq_iff_eq.mp long]
    rfl
  exact ⟨raw, ⟨signed, (b32Decode_toUpper accepted bodyLength).symm.trans decoded,
    length⟩, decoded⟩

/-- A signature names one room among the names whose left-over bits are zero,
and names that differ elsewhere carry different bytes. -/
theorem signature_names_room_iff (plugin : Plugin) (server : Server) :
    (∀ name seconds, plugin.parseRoom name = .ok seconds →
      ((parsedRaw name).map writtenName = some name ↔ Canonical name)) ∧
    (∀ first seconds, plugin.parseRoom first = .ok seconds →
      ∀ second others, plugin.parseRoom second = .ok others →
        (parsedRaw first ≠ parsedRaw second ↔ ¬ Aliases first second)) ∧
    (∀ name exp, server.parseLegacyRoom name = .ok exp →
      ((parsedLegacyRaw name).map writtenName = some name ↔
        Canonical name)) ∧
    ∀ first exp, server.parseLegacyRoom first = .ok exp →
      ∀ second other, server.parseLegacyRoom second = .ok other →
        (parsedLegacyRaw first ≠ parsedLegacyRaw second ↔
          ¬ Aliases first second) := by
  refine ⟨?_, ?_, ?_, ?_⟩
  · intro name seconds parsed
    obtain ⟨raw, long⟩ := longName_of_parseRoom parsed
    rw [long.decoded, Option.map_some, Option.some_inj, long.writtenName_iff]
  · intro first seconds parsed second others alsoParsed
    obtain ⟨raw, long⟩ := longName_of_parseRoom parsed
    obtain ⟨other, alsoLong⟩ := longName_of_parseRoom alsoParsed
    rw [long.decoded, alsoLong.decoded, ne_eq, Option.some_inj,
      long.raw_eq_iff alsoLong]
  · intro name exp parsed
    obtain ⟨raw, long, decoded⟩ := longName_of_parseLegacyRoom parsed
    rw [decoded, Option.map_some, Option.some_inj, long.writtenName_iff]
  · intro first exp parsed second other alsoParsed
    obtain ⟨raw, long, decoded⟩ := longName_of_parseLegacyRoom parsed
    obtain ⟨_, alsoLong, alsoDecoded⟩ := longName_of_parseLegacyRoom alsoParsed
    rw [decoded, alsoDecoded, ne_eq, Option.some_inj, long.raw_eq_iff alsoLong]

namespace Sample

open MeetReserve.Sample (server legacyRoom)

/-- The v1 room with another last character. -/
def aliasRoom : Bytes := legacyRoom.dropLast ++ ascii "j"

/-- The signer would write the name of the v1 room again. -/
theorem signature_names_room_iff_legacyRoom :
    (parsedRaw legacyRoom).map writtenName = some legacyRoom ∧
    (parsedLegacyRaw legacyRoom).map writtenName = some legacyRoom :=
  ⟨((signature_names_room_iff plugin server).1 legacyRoom 1800000000
      (by decide +kernel)).mpr (by decide +kernel),
    ((signature_names_room_iff plugin server).2.2.1 legacyRoom
      (MeetReserve.Time.ofUnix 1800000000) (by decide +kernel)).mpr
        (by decide)⟩

/-- Both programs accept two names with one signature. -/
theorem two_names_one_signature :
    aliasRoom ≠ legacyRoom ∧
    plugin.parseRoom legacyRoom = .ok 1800000000 ∧
    plugin.parseRoom aliasRoom = .ok 1800000000 ∧
    parsedRaw aliasRoom = parsedRaw legacyRoom ∧
    (parsedRaw aliasRoom).map writtenName ≠ some aliasRoom ∧
    server.parseLegacyRoom legacyRoom =
      .ok (MeetReserve.Time.ofUnix 1800000000) ∧
    server.parseLegacyRoom aliasRoom =
      .ok (MeetReserve.Time.ofUnix 1800000000) ∧
    parsedLegacyRaw aliasRoom = parsedLegacyRaw legacyRoom ∧
    (parsedLegacyRaw aliasRoom).map writtenName ≠ some aliasRoom := by
  decide +kernel

end Sample

end FfmucSalt.SignedRooms
