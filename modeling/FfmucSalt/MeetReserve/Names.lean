import FfmucSalt.Base32
import FfmucSalt.MeetReserve.Record
import FfmucSalt.MeetReserve.Server

/-!
# Room names

Short random names, and the long v1 names whose signature carries an expiry.
-/

namespace FfmucSalt.MeetReserve

def roomPrefix : Bytes := ascii "r-"

/-- No vowels, no 0/1/l. -/
def roomAlphabet : Bytes := ascii "bcdfghjkmnpqrstvwxz23456789"

def roomIDLen : Nat := 14

def legacyContext : Bytes := ascii "ffmuc-room-v1\x00"

def legacyVersion : UInt8 := 1

/-- Payload and signature of a v1 name. -/
def legacyRawLen : Nat := 15 + 64

/-- `newRoomName`, given what `rand.Int` draws for each character. -/
def newRoomName (draws : List Nat) : RoomName :=
  roomPrefix ++ draws.map fun draw => roomAlphabet.getD draw 0

def isShortName (room : RoomName) : Bool :=
  if room.length ≠ roomPrefix.length + roomIDLen ∨
      ¬ roomPrefix.isPrefixOf room then
    false
  else
    (runes (room.drop roomPrefix.length)).all fun rune =>
      roomAlphabet.any fun letter => letter.toNat == rune

def isLegacyName (room : RoomName) : Bool :=
  if ¬ roomPrefix.isPrefixOf room ∨
      room.length ≠ roomPrefix.length + b32Length legacyRawLen then
    false
  else
    (runes (room.drop roomPrefix.length)).all fun rune =>
      decide (0x61 ≤ rune ∧ rune ≤ 0x7A ∨ 0x32 ≤ rune ∧ rune ≤ 0x37)

def validRoomName (room : RoomName) : Bool :=
  isShortName room || isLegacyName room

/-- `strings.ToUpper` on ASCII text. -/
def toUpper (text : Bytes) : Bytes :=
  text.map fun byte => if 0x61 ≤ byte ∧ byte ≤ 0x7A then byte - 0x20 else byte

/-- `binary.BigEndian.Uint32` -/
def bigEndian (bytes : Bytes) : Nat :=
  bytes.foldl (fun value byte => value * 256 + byte.toNat) 0

namespace Server

variable (server : Server)

/-- `parseLegacyRoom` verifies a v1 room name and returns its embedded
expiry. -/
def parseLegacyRoom (room : RoomName) : Except Error Time :=
  if ¬ isLegacyName room then .error (.other (ascii "not a reserved room"))
  else
    match b32Decode (toUpper (room.drop roomPrefix.length)) with
    | none => .error (.other (ascii "not a reserved room"))
    | some raw =>
        if raw.length ≠ legacyRawLen ∨ raw[0]? ≠ some legacyVersion ∨
            raw[1]? ≠ some server.cfg.keyID then
          .error (.other (ascii "not a reserved room"))
        else if ¬ server.verifies (legacyContext ++ raw.take 15) (raw.drop 15) then
          .error (.other (ascii "bad room signature"))
        else .ok (Time.ofUnix (bigEndian ((raw.drop 3).take 4)))

def legacyLimit (record : Record) : Int :=
  if ¬ record.legacy then 0
  else
    match server.parseLegacyRoom record.room with
    | .error _ => 0
    | .ok exp => (exp + server.cfg.legacyMaxExt).unix

end Server

theorem isLegacyName_of_parseLegacyRoom {server : Server} {room : RoomName}
    {exp : Time} (parsed : server.parseLegacyRoom room = .ok exp) :
    isLegacyName room := by
  unfold Server.parseLegacyRoom at parsed
  split at parsed
  · cases parsed
  · rename_i notRefused
    exact not_not.mp notRefused

theorem isShortName_length {room : RoomName} (short : isShortName room) :
    room.length = 16 := by
  unfold isShortName at short
  split at short
  · cases short
  · rename_i accepted
    exact not_not.mp (not_or.mp accepted).1

theorem isLegacyName_length {room : RoomName} (legacy : isLegacyName room) :
    room.length = 129 := by
  unfold isLegacyName at legacy
  split at legacy
  · cases legacy
  · rename_i accepted
    exact not_not.mp (not_or.mp accepted).2

/-- No name is both short and long. -/
theorem not_isLegacyName_of_isShortName {room : RoomName}
    (short : isShortName room) : ¬ isLegacyName room := by
  intro legacy
  have shortLength := isShortName_length short
  have legacyLength := isLegacyName_length legacy
  omega

/-- Every name drawn is a valid short name. -/
theorem isShortName_newRoomName {draws : List Nat}
    (complete : draws.length = roomIDLen)
    (inside : ∀ draw ∈ draws, draw < roomAlphabet.length) :
    isShortName (newRoomName draws) := by
  have drawn : ∀ draw < roomAlphabet.length,
      roomAlphabet.getD draw 0 ∈ roomAlphabet ∧
        roomAlphabet.getD draw 0 < 0x80 := by decide
  have letters : ((newRoomName draws).drop roomPrefix.length) =
      draws.map fun draw => roomAlphabet.getD draw 0 := by
    simp [newRoomName]
  have starts : roomPrefix.isPrefixOf (newRoomName draws) := by
    simp [newRoomName]
  have long : (newRoomName draws).length = roomPrefix.length + roomIDLen := by
    simp [newRoomName, complete]
  unfold isShortName
  rw [if_neg (by simp [long, starts]), letters, runes_all_iff]
  · rw [List.all_eq_true]
    rintro byte member
    obtain ⟨draw, isDraw, rfl⟩ := List.mem_map.mp member
    rw [List.any_eq_true]
    exact ⟨_, (drawn draw (inside draw isDraw)).1, by simp⟩
  · intro rune accepted
    obtain ⟨letter, member, equal⟩ := List.any_eq_true.mp accepted
    have : ∀ letter ∈ roomAlphabet, letter.toNat < 0x80 := by decide +kernel
    have := this letter member
    simp only [beq_iff_eq] at equal
    omega

end FfmucSalt.MeetReserve
