import FfmucSalt.Encoding
import FfmucSalt.Unicode
import Mathlib.Data.List.Forall2
import Mathlib.Data.List.TakeWhile

/-!
# Configuration of the app links

`parseAppLinks` checks the Apple team ID and the fingerprints of the Android
signing certificates.  What it returns is canonical unless the team ID has a
letter outside ASCII whose upper case is in ASCII.
-/

namespace FfmucSalt.MeetReserve

inductive AppLinkError where
  | team
  | cert (item : Bytes)
  deriving DecidableEq

def teamLetters : Bytes := ascii "ABCDEFGHIJKLMNOPQRSTUVWXYZ0123456789"

/-- `sha256.Size` -/
def sha256Size : Nat := 32

/-- `strings.Trim` with a set of ASCII characters. -/
def trimSet (text cutset : Bytes) : Bytes :=
  ((text.dropWhile (cutset.contains ·)).reverse.dropWhile
    (cutset.contains ·)).reverse

/-- What `parseAppLinks` does with the team ID. -/
def parseTeam (team : Bytes) : Except AppLinkError Bytes :=
  let team := trimSpace team
  if team ≠ [] then
    if team.length ≠ 10 ∨ trimSet (upperText team) teamLetters ≠ [] then
      .error .team
    else .ok (upperText team)
  else .ok team

/-- The inner loop of `parseAppLinks`: the pairs of a hexadecimal text, with
colons between them. -/
def writePairs (isFirst : Bool) : Bytes → Bytes
  | high :: low :: rest =>
      (if isFirst then [] else ascii ":") ++ [high, low] ++ writePairs false rest
  | _ => []

/-- The loop of `parseAppLinks` over the fingerprints. -/
def parseCerts : List Bytes → Except AppLinkError (List Bytes)
  | [] => .ok []
  | item :: rest =>
      let c := trimSpace item
      if c = [] then parseCerts rest
      else
        match hexDecode (c.filter fun byte => byte ≠ 0x3A) with
        | none => .error (.cert c)
        | some b =>
            if b.length ≠ sha256Size then .error (.cert c)
            else
              match parseCerts rest with
              | .error error => .error error
              | .ok out => .ok (writePairs true (upperText (hexEncode b)) :: out)

/-- `parseAppLinks` -/
def parseAppLinks (team certs : Bytes) :
    Except AppLinkError (Bytes × List Bytes) :=
  match parseTeam team with
  | .error error => .error error
  | .ok team =>
      match parseCerts (certs.splitOn 0x2C) with
      | .error error => .error error
      | .ok out => .ok (team, out)

example : parseAppLinks (ascii " abcde12345 ")
      (ascii "0f0f0f0f0f0f0f0f0f0f0f0f0f0f0f0f0f0f0f0f0f0f0f0f0f0f0f0f0f0f0f0f,") =
    .ok (ascii "ABCDE12345", [(List.replicate 31 (ascii "0F:")).flatten ++
      ascii "0F"]) := by
  decide

/-! ## Canonical values -/

def upperHexDigits : Bytes := ascii "0123456789ABCDEF"

def hexPair (byte : UInt8) : Bytes :=
  [upperHexDigits.getD (byte.toNat / 16) 0, upperHexDigits.getD (byte.toNat % 16) 0]

/-- Upper-case pairs joined by colons, as Android wants them. -/
def fingerprint (bytes : Bytes) : Bytes :=
  (ascii ":").intercalate (bytes.map hexPair)

/-- The items of a list that are not empty. -/
def certItems (certs : Bytes) : List Bytes :=
  ((certs.splitOn 0x2C).map trimSpace).filter fun item => item ≠ []

/-- The fingerprint is that of the SHA-256 hash in the item. -/
def Fingerprints (item print : Bytes) : Prop :=
  ∃ bytes, bytes.length = sha256Size ∧
    hexDecode (item.filter fun byte => byte ≠ 0x3A) = some bytes ∧
    print = fingerprint bytes

/-- The result for a list of certificates has one form only. -/
structure CanonicalLinks (certs team : Bytes) (out : List Bytes) : Prop where
  teamForm : team = [] ∨ team.length = 10 ∧ ∀ byte ∈ team, byte ∈ teamLetters
  prints : List.Forall₂ Fingerprints (certItems certs) out
  again : parseAppLinks team ((ascii ",").intercalate out) = .ok (team, out)

/-! ## Fingerprints -/

section Prints

variable {bytes : Bytes}

theorem mem_hexPair {byte digit : UInt8} (member : digit ∈ hexPair byte) :
    digit ∈ upperHexDigits := by
  have each : ∀ value < 16, upperHexDigits.getD value 0 ∈ upperHexDigits := by
    decide
  have small := byte.toNat_lt
  unfold hexPair at member
  simp only [List.mem_cons, List.not_mem_nil, or_false] at member
  rcases member with isHigh | isLow
  · rw [isHigh]
    exact each _ (by omega)
  · rw [isLow]
    exact each _ (by omega)

theorem upperText_hexEncode (bytes : Bytes) :
    upperText (hexEncode bytes) = bytes.flatMap hexPair := by
  have each : ∀ value < 16, hexDigits.getD value 0 < 0x80 ∧
      upperByte (hexDigits.getD value 0) = upperHexDigits.getD value 0 := by
    decide
  have isAscii : ∀ digit ∈ hexEncode bytes, digit < 0x80 := by
    intro digit member
    obtain ⟨byte, -, inPair⟩ := List.mem_flatMap.mp member
    have small := byte.toNat_lt
    simp only [List.mem_cons, List.not_mem_nil, or_false] at inPair
    rcases inPair with isHigh | isLow
    · rw [isHigh]
      exact (each _ (by omega)).1
    · rw [isLow]
      exact (each _ (by omega)).1
  rw [upperText_ascii isAscii, hexEncode, List.map_flatMap]
  congr 1
  funext byte
  have small := byte.toNat_lt
  rw [List.map_cons, List.map_cons, List.map_nil, (each _ (by omega)).2,
    (each _ (by omega)).2]
  rfl

theorem hexDecode_pairs (bytes : Bytes) :
    hexDecode (bytes.flatMap hexPair) = some bytes := by
  have digit : ∀ value < 16,
      hexValue (upperHexDigits.getD value 0) = some value := by
    decide
  induction bytes with
  | nil => rfl
  | cons byte bytes induction =>
      have small := byte.toNat_lt
      have isByte : (byte.toNat / 16 * 16 + byte.toNat % 16).toUInt8 = byte := by
        rw [Nat.div_add_mod']
        exact UInt8.ofNat_toNat
      rw [List.flatMap_cons, hexPair, List.cons_append, List.cons_append,
        List.nil_append, hexDecode, digit _ (by omega), digit _ (by omega),
        induction]
      exact congrArg (fun byte => some (byte :: bytes)) isByte

private theorem writePairs_later (bytes : Bytes) :
    writePairs false (bytes.flatMap hexPair) =
      bytes.flatMap fun byte => ascii ":" ++ hexPair byte := by
  induction bytes with
  | nil => rfl
  | cons byte bytes induction =>
      rw [List.flatMap_cons, List.flatMap_cons, ← induction]
      rfl

theorem fingerprint_cons (byte : UInt8) (bytes : Bytes) :
    fingerprint (byte :: bytes) =
      hexPair byte ++ bytes.flatMap fun byte => ascii ":" ++ hexPair byte := by
  induction bytes generalizing byte with
  | nil => simp [fingerprint, List.intercalate]
  | cons next bytes induction =>
      rw [List.flatMap_cons, List.append_assoc, ← induction next]
      simp [fingerprint, List.intercalate]

theorem writePairs_eq (bytes : Bytes) :
    writePairs true (upperText (hexEncode bytes)) = fingerprint bytes := by
  rw [upperText_hexEncode]
  cases bytes with
  | nil => rfl
  | cons byte bytes =>
      rw [List.flatMap_cons, fingerprint_cons, ← writePairs_later]
      rfl

/-- A fingerprint consists of hexadecimal digits and colons. -/
theorem mem_fingerprint {digit : UInt8} (member : digit ∈ fingerprint bytes) :
    digit ∈ upperHexDigits ++ ascii ":" := by
  cases bytes with
  | nil => simp [fingerprint, List.intercalate] at member
  | cons byte bytes =>
      rw [fingerprint_cons, List.mem_append, List.mem_flatMap] at member
      rcases member with inFirst | ⟨later, -, inLater⟩
      · exact List.mem_append_left _ (mem_hexPair inFirst)
      · rcases List.mem_append.mp inLater with isColon | inPair
        · exact List.mem_append_right _ isColon
        · exact List.mem_append_left _ (mem_hexPair inPair)

theorem filter_fingerprint (bytes : Bytes) :
    (fingerprint bytes).filter (fun byte => byte ≠ 0x3A) =
      bytes.flatMap hexPair := by
  have digits : ∀ digit ∈ upperHexDigits, digit ≠ 0x3A := by decide +kernel
  have pair : ∀ byte, (hexPair byte).filter (fun byte => byte ≠ 0x3A) =
      hexPair byte := by
    intro byte
    rw [List.filter_eq_self]
    intro digit member
    exact decide_eq_true (digits digit (mem_hexPair member))
  cases bytes with
  | nil => rfl
  | cons byte bytes =>
      rw [fingerprint_cons, List.filter_append, pair, List.flatMap_cons,
        List.filter_flatMap]
      congr 2
      funext later
      rw [List.filter_append, pair]
      rfl

/-- The characters of a fingerprint are neither space nor comma. -/
theorem visible_fingerprint :
    (∀ digit ∈ fingerprint bytes, 0x20 < digit ∧ digit < 0x80) ∧
      (0x2C : UInt8) ∉ fingerprint bytes := by
  have each : ∀ digit ∈ upperHexDigits ++ ascii ":",
      (0x20 < digit ∧ digit < 0x80) ∧ digit ≠ 0x2C := by
    decide +kernel
  constructor
  · intro digit member
    exact (each digit (mem_fingerprint member)).1
  · intro member
    exact (each _ (mem_fingerprint member)).2 rfl

theorem fingerprint_ne_nil (nonempty : bytes ≠ []) : fingerprint bytes ≠ [] := by
  cases bytes with
  | nil => exact (nonempty rfl).elim
  | cons byte bytes =>
      rw [fingerprint_cons]
      simp [hexPair]

end Prints

/-! ## The list of certificates -/

/-- What is accepted, and what becomes of it. -/
theorem parseCerts_iff {items out : List Bytes} :
    parseCerts items = .ok out ↔
      List.Forall₂ Fingerprints
        ((items.map trimSpace).filter fun item => item ≠ []) out := by
  induction items generalizing out with
  | nil =>
      rw [parseCerts]
      constructor
      · intro parsed
        cases parsed
        exact .nil
      · intro related
        cases related
        rfl
  | cons item rest induction =>
      rw [parseCerts, List.map_cons]
      by_cases isEmpty : trimSpace item = []
      · rw [if_pos isEmpty, induction, List.filter_cons_of_neg (by simp [isEmpty])]
      rw [if_neg isEmpty, List.filter_cons_of_pos (by simp [isEmpty])]
      constructor
      · intro parsed
        split at parsed
        · cases parsed
        rename_i bytes decoded
        split at parsed
        · cases parsed
        rename_i long
        split at parsed
        · cases parsed
        · rename_i prints others
          cases parsed
          exact .cons ⟨bytes, not_not.mp long, decoded, writePairs_eq bytes⟩
            (induction.mp others)
      · intro related
        cases related with
        | cons own others =>
            obtain ⟨bytes, long, decoded, isPrint⟩ := own
            rw [decoded]
            dsimp only
            rw [if_neg (not_not.mpr long), induction.mpr others, writePairs_eq,
              isPrint]

/-- A fingerprint is its own item. -/
theorem fingerprints_self {item print : Bytes} (prints : Fingerprints item print) :
    Fingerprints print print ∧ trimSpace print = print ∧ print ≠ [] ∧
      0x2C ∉ print := by
  obtain ⟨bytes, long, -, isPrint⟩ := prints
  subst isPrint
  have nonempty : bytes ≠ [] := by
    intro isEmpty
    subst isEmpty
    cases long
  refine ⟨⟨bytes, long, ?_, rfl⟩, trimSpace_eq_self visible_fingerprint.1,
    fingerprint_ne_nil nonempty, visible_fingerprint.2⟩
  rw [filter_fingerprint, hexDecode_pairs]

private theorem exists_of_forall₂ {items out : List Bytes} {print : Bytes}
    (related : List.Forall₂ Fingerprints items out) (member : print ∈ out) :
    ∃ item, Fingerprints item print := by
  induction related with
  | nil => cases member
  | cons own _ induction =>
      rcases List.mem_cons.mp member with isOwn | later
      · exact ⟨_, isOwn ▸ own⟩
      · exact induction later

theorem parseCerts_again {items out : List Bytes}
    (related : List.Forall₂ Fingerprints items out) :
    parseCerts (((ascii ",").intercalate out).splitOn 0x2C) = .ok out := by
  have self : ∀ print ∈ out, Fingerprints print print ∧
      trimSpace print = print ∧ print ≠ [] ∧ 0x2C ∉ print := by
    intro print member
    obtain ⟨item, prints⟩ := exists_of_forall₂ related member
    exact fingerprints_self prints
  cases out with
  | nil => rfl
  | cons first rest =>
      have split : ((ascii ",").intercalate (first :: rest)).splitOn 0x2C =
          first :: rest :=
        List.splitOn_intercalate 0x2C
          (fun print member => (self print member).2.2.2) (List.cons_ne_nil _ _)
      have trimmed : (first :: rest).map trimSpace = first :: rest := by
        conv_rhs => rw [← List.map_id (first :: rest)]
        exact List.map_congr_left fun print member => (self print member).2.1
      have kept : (first :: rest).filter (fun item => item ≠ []) =
          first :: rest :=
        List.filter_eq_self.mpr fun print member =>
          decide_eq_true (self print member).2.2.1
      rw [split, parseCerts_iff, trimmed, kept, List.forall₂_same]
      exact fun print member => (self print member).1

/-! ## The team ID -/

section Team

variable {text team out : Bytes}

theorem trimSet_eq_nil {cutset : Bytes} :
    trimSet text cutset = [] ↔ ∀ byte ∈ text, byte ∈ cutset := by
  unfold trimSet
  rw [List.reverse_eq_nil_iff, List.dropWhile_eq_nil_iff]
  constructor
  · intro trimmed byte member
    rw [← List.takeWhile_append_dropWhile (p := (cutset.contains ·)) (l := text)]
      at member
    rcases List.mem_append.mp member with front | back
    · exact List.contains_iff_mem.mp
        (List.mem_takeWhile_imp (p := (cutset.contains ·)) front)
    · exact List.contains_iff_mem.mp
        (trimmed byte (List.mem_reverse.mpr back))
  · intro all byte member
    have inText : byte ∈ text :=
      (List.dropWhile_suffix _).mem (List.mem_reverse.mp member)
    exact List.contains_iff_mem.mpr (all byte inText)

private theorem teamLetters_visible : ∀ byte ∈ teamLetters,
    (0x20 < byte ∧ byte < 0x80) ∧ upperByte byte = byte := by
  decide +kernel

/-- A team ID in upper case is accepted as it is. -/
theorem parseTeam_again (long : team.length = 10)
    (letters : ∀ byte ∈ team, byte ∈ teamLetters) : parseTeam team = .ok team := by
  have trimmed : trimSpace team = team :=
    trimSpace_eq_self fun byte member =>
      (teamLetters_visible byte (letters byte member)).1
  have same : upperText team = team := by
    rw [upperText_ascii fun byte member =>
      (teamLetters_visible byte (letters byte member)).1.2]
    conv_rhs => rw [← List.map_id team]
    exact List.map_congr_left fun byte member =>
      (teamLetters_visible byte (letters byte member)).2
  have nonempty : team ≠ [] := by
    intro isEmpty
    rw [isEmpty] at long
    cases long
  unfold parseTeam
  dsimp only
  rw [trimmed, same, if_pos nonempty, if_neg]
  rw [not_or, not_not, not_not]
  exact ⟨long, trimSet_eq_nil.mpr letters⟩

/-- What `parseTeam` accepts. -/
theorem parseTeam_ok (parsed : parseTeam team = .ok out) :
    trimSpace team = [] ∧ out = [] ∨
      (trimSpace team).length = 10 ∧ out = upperText (trimSpace team) ∧
        ∀ byte ∈ out, byte ∈ teamLetters := by
  unfold parseTeam at parsed
  dsimp only at parsed
  split at parsed
  · rename_i nonempty
    split at parsed
    · cases parsed
    · rename_i accepted
      cases parsed
      rw [not_or, not_not, not_not] at accepted
      exact .inr ⟨accepted.1, rfl, trimSet_eq_nil.mp accepted.2⟩
  · rename_i isEmpty
    cases parsed
    exact .inl ⟨not_not.mp isEmpty, not_not.mp isEmpty⟩

/-- An accepted team ID keeps its length exactly if it has neither of the two
letters. -/
theorem length_upperText_iff (long : (trimSpace team).length = 10)
    (letters : ∀ byte ∈ upperText (trimSpace team), byte ∈ teamLetters) :
    (upperText (trimSpace team)).length = 10 ↔
      dotlessI ∉ runes (trimSpace team) ∧ longS ∉ runes (trimSpace team) := by
  have isAscii : ∀ byte ∈ upperText (trimSpace team), byte < 0x80 :=
    fun byte member => (teamLetters_visible byte (letters byte member)).1.2
  constructor
  · intro same
    rw [(length_upperText isAscii).1] at same
    constructor
    · intro member
      have shorter := length_runes_lt (by decide) (by decide) member
      omega
    · intro member
      have shorter := length_runes_lt (by decide) (by decide) member
      omega
  · intro ⟨noDotless, noLong⟩
    rw [upperText_ascii (ascii_of_upperText isAscii noDotless noLong),
      List.length_map, long]

end Team

/-! ## Canonical results -/

/-- An accepted configuration is canonical if and only if its team ID has
neither of the two letters outside ASCII whose upper case is in ASCII. -/
theorem canonicalLinks_iff {team certs accepted : Bytes} {out : List Bytes}
    (parsed : parseAppLinks team certs = .ok (accepted, out)) :
    CanonicalLinks certs accepted out ↔
      dotlessI ∉ runes (trimSpace team) ∧ longS ∉ runes (trimSpace team) := by
  unfold parseAppLinks at parsed
  split at parsed
  · cases parsed
  rename_i found parsedTeam
  split at parsed
  · cases parsed
  rename_i prints parsedCerts
  cases parsed
  have related := parseCerts_iff.mp parsedCerts
  have againCerts := parseCerts_again related
  rcases parseTeam_ok parsedTeam with ⟨isEmpty, none⟩ | ⟨long, isUpper, letters⟩
  · subst none
    rw [isEmpty]
    refine iff_of_true ⟨.inl rfl, related, ?_⟩ (by decide)
    unfold parseAppLinks
    rw [show parseTeam [] = .ok [] from rfl]
    dsimp only
    rw [againCerts]
  · subst isUpper
    rw [← length_upperText_iff long letters]
    constructor
    · intro canonical
      rcases canonical.teamForm with isEmpty | ⟨same, -⟩
      · cases isTrimmed : trimSpace team with
        | nil =>
            rw [isTrimmed] at long
            cases long
        | cons first rest =>
            -- a text has at least one rune
            have isAscii : ∀ byte ∈ upperText (trimSpace team), byte < 0x80 :=
              fun byte member => (teamLetters_visible byte (letters byte member)).1.2
            have same := (length_upperText isAscii).1
            rw [isEmpty, isTrimmed] at same
            cases same
      · exact same
    · intro same
      refine ⟨.inr ⟨same, letters⟩, related, ?_⟩
      unfold parseAppLinks
      rw [parseTeam_again same letters]
      dsimp only
      rw [againCerts]

/-- Two bytes for one letter: the length of the team ID is checked before its
upper case is taken. -/
theorem long_s_shortens_team : ¬ ∀ (team certs accepted : Bytes)
    (out : List Bytes), parseAppLinks team certs = .ok (accepted, out) →
      CanonicalLinks certs accepted out := by
  intro canonical
  have parsed : parseAppLinks ([0xC5, 0xBF] ++ ascii "23456789") [] =
      .ok (ascii "S23456789", []) := by
    decide
  rcases (canonical _ _ _ _ parsed).teamForm with isEmpty | ⟨long, -⟩
  · exact absurd isEmpty (by decide)
  · exact absurd long (by decide)

theorem canonicalLinks_lower_case :
    CanonicalLinks (ascii " , " ++ hexEncode (List.replicate 32 0xAB))
      (ascii "ABCDE12345") [fingerprint (List.replicate 32 0xAB)] := by
  have parsed : parseAppLinks (ascii " abcde12345 ")
      (ascii " , " ++ hexEncode (List.replicate 32 0xAB)) =
        .ok (ascii "ABCDE12345", [fingerprint (List.replicate 32 0xAB)]) := by
    decide
  exact (canonicalLinks_iff parsed).mpr (by decide)

end FfmucSalt.MeetReserve
