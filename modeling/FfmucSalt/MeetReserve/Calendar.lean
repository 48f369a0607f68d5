import FfmucSalt.Text
import Mathlib.Data.List.Infix

/-!
# The calendar file

How `icsFile` writes a text into a content line and folds the line, and how a
calendar reads it again.  Texts are lists of code points, and lines are as
long as their UTF-8 encoding.
-/

namespace FfmucSalt.MeetReserve

/-! ## Escaping -/

/-- `s.replace(/c/g, new)` for one character. -/
def replaceChar (old : Char) (new : List Char) (text : List Char) : List Char :=
  text.flatMap fun ch => if ch = old then new else [ch]

/-- `s.replace(/\r?\n/g, "\\n")` -/
def replaceBreaks : List Char → List Char
  | '\r' :: '\n' :: rest => '\\' :: 'n' :: replaceBreaks rest
  | '\n' :: rest => '\\' :: 'n' :: replaceBreaks rest
  | ch :: rest => ch :: replaceBreaks rest
  | [] => []

/-- `esc` -/
def esc (text : List Char) : List Char :=
  replaceBreaks (replaceChar ',' ['\\', ','] (replaceChar ';' ['\\', ';']
    (replaceChar '\\' ['\\', '\\'] text)))

/-- What the iCalendar escapes stand for. -/
def unescape : List Char → List Char
  | '\\' :: 'n' :: rest => '\n' :: unescape rest
  | '\\' :: 'N' :: rest => '\n' :: unescape rest
  | '\\' :: ch :: rest => ch :: unescape rest
  | ch :: rest => ch :: unescape rest
  | [] => []

/-- A text with its line breaks read as newlines. -/
def readBreaks : List Char → List Char
  | '\r' :: '\n' :: rest => '\n' :: readBreaks rest
  | ch :: rest => ch :: readBreaks rest
  | [] => []

/-- Every carriage return is part of a line break. -/
def NoBareReturn (text : List Char) : Prop :=
  ∀ before after, text = before ++ '\r' :: after →
    ∃ more, after = '\n' :: more

/-! ## Folding -/

/-- The variables of `fold`. -/
structure Folding where
  out : List (List Char)
  cur : List Char
  n : Nat

/-- One turn of the loop in `fold`. -/
def Folding.turn (folding : Folding) (ch : Char) : Folding :=
  let b := (String.utf8EncodeChar ch).length
  let folding :=
    if (if folding.out.length ≠ 0 then 74 else 75) < folding.n + b then
      { out := folding.out ++ [folding.cur], cur := [], n := 0 }
    else folding
  { folding with cur := folding.cur ++ [ch], n := folding.n + b }

/-- The pieces of a line, `out` at the end of `fold`. -/
def foldPieces (line : List Char) : List (List Char) :=
  let folding := line.foldl Folding.turn { out := [], cur := [], n := 0 }
  folding.out ++ [folding.cur]

/-- `fold` -/
def fold (line : List Char) : List Char :=
  ['\r', '\n', ' '].intercalate (foldPieces line)

/-- Every CRLF and space is removed. -/
def unfold : List Char → List Char
  | '\r' :: '\n' :: ' ' :: rest => unfold rest
  | ch :: rest => ch :: unfold rest
  | [] => []

/-! ## Octets -/

def utf8 (text : List Char) : Bytes := text.flatMap String.utf8EncodeChar

/-- What stands between the CRLFs of a file. -/
def physicalLines : Bytes → List Bytes
  | 0x0D :: 0x0A :: rest => [] :: physicalLines rest
  | byte :: rest =>
      match physicalLines rest with
      | line :: lines => (byte :: line) :: lines
      | [] => [[byte]]
  | [] => [[]]

example : fold (List.replicate 40 'ü') =
    List.replicate 37 'ü' ++ ['\r', '\n', ' '] ++ List.replicate 3 'ü' := by
  decide +kernel

/-! ## Escapes are undone -/

section Escape

variable {text : List Char} {ch : Char}

theorem NoBareReturn.tail (clean : NoBareReturn (ch :: text)) :
    NoBareReturn text := by
  intro before after same
  exact clean (ch :: before) after (congrArg (ch :: ·) same)

theorem replaceBreaks_cons (notReturn : ch ≠ '\r') (notFeed : ch ≠ '\n') :
    replaceBreaks (ch :: text) = ch :: replaceBreaks text := by
  rw [replaceBreaks.eq_3]
  · intro rest isReturn
    exact (notReturn isReturn).elim
  · exact notFeed

theorem unescape_cons (notEscape : ch ≠ '\\') :
    unescape (ch :: text) = ch :: unescape text := by
  rw [unescape.eq_4]
  all_goals
    intros
    exact notEscape ‹ch = _›

theorem readBreaks_cons (notReturn : ch ≠ '\r') :
    readBreaks (ch :: text) = ch :: readBreaks text := by
  rw [readBreaks.eq_2]
  intro rest isReturn
  exact (notReturn isReturn).elim

/-- What `esc` makes of a character outside line breaks. -/
def escaped (ch : Char) : List Char :=
  if ch = '\\' ∨ ch = ';' ∨ ch = ',' then ['\\', ch] else [ch]

theorem esc_cons (notReturn : ch ≠ '\r') (notFeed : ch ≠ '\n') :
    esc (ch :: text) = escaped ch ++ esc text := by
  unfold esc escaped replaceChar
  by_cases isBackslash : ch = '\\'
  · subst isBackslash
    simp [replaceBreaks_cons]
  by_cases isSemicolon : ch = ';'
  · subst isSemicolon
    simp [replaceBreaks_cons]
  by_cases isComma : ch = ','
  · subst isComma
    simp [replaceBreaks_cons]
  · simp [isBackslash, isSemicolon, isComma,
      replaceBreaks_cons notReturn notFeed]

theorem esc_feed : esc ('\n' :: text) = '\\' :: 'n' :: esc text := by
  simp [esc, replaceChar, replaceBreaks]

theorem esc_break :
    esc ('\r' :: '\n' :: text) = '\\' :: 'n' :: esc text := by
  simp [esc, replaceChar, replaceBreaks]

theorem unescape_escaped (rest : List Char) :
    unescape (escaped ch ++ rest) = ch :: unescape rest := by
  unfold escaped
  split
  · rename_i special
    rcases special with isBackslash | isSemicolon | isComma
    · subst isBackslash
      simp [unescape]
    · subst isSemicolon
      simp [unescape]
    · subst isComma
      simp [unescape]
  · rename_i plain
    exact unescape_cons (not_or.mp plain).1

/-- A text without bare returns is read one line break or one other character
at a time. -/
theorem NoBareReturn.read {motive : (text : List Char) → NoBareReturn text → Prop}
    (nil : ∀ clean, motive [] clean)
    (feed : ∀ rest clean, motive rest clean.tail → motive ('\n' :: rest) clean)
    (line : ∀ rest clean, motive rest clean.tail.tail →
      motive ('\r' :: '\n' :: rest) clean)
    (plain : ∀ ch rest clean, ch ≠ '\r' → ch ≠ '\n' →
      motive rest clean.tail → motive (ch :: rest) clean) :
    ∀ text clean, motive text clean
  | [], clean => nil clean
  | ch :: rest, clean => by
      by_cases isReturn : ch = '\r'
      · subst isReturn
        obtain ⟨more, isMore⟩ := clean [] rest rfl
        subst isMore
        exact line more clean (read nil feed line plain more clean.tail.tail)
      · have induction := read nil feed line plain rest clean.tail
        by_cases isFeed : ch = '\n'
        · subst isFeed
          exact feed rest clean induction
        · exact plain ch rest clean isReturn isFeed induction

theorem unescape_esc (clean : NoBareReturn text) :
    unescape (esc text) = readBreaks text := by
  induction text, clean using NoBareReturn.read with
  | nil => rfl
  | feed rest _ induction =>
      rw [esc_feed, unescape.eq_1, induction, readBreaks_cons (by decide)]
  | line rest _ induction =>
      rw [esc_break, unescape.eq_1, induction, readBreaks.eq_1]
  | plain ch rest _ notReturn notFeed induction =>
      rw [esc_cons notReturn notFeed, unescape_escaped, induction,
        readBreaks_cons notReturn]

/-- An escaped text is one line. -/
theorem feed_notMem_esc (clean : NoBareReturn text) : '\n' ∉ esc text := by
  induction text, clean using NoBareReturn.read with
  | nil => simp [esc, replaceChar, replaceBreaks]
  | feed rest _ induction => simpa [esc_feed] using induction
  | line rest _ induction => simpa [esc_break] using induction
  | plain ch rest _ notReturn notFeed induction =>
      rw [esc_cons notReturn notFeed, List.mem_append, not_or]
      refine ⟨?_, induction⟩
      unfold escaped
      split <;> simp [Ne.symm notFeed]

end Escape

/-! ## Folds are undone -/

section Fold

/-- The size of a line in octets. -/
def octetsOf (line : List Char) : Nat := (utf8 line).length

theorem octetsOf_append (first second : List Char) :
    octetsOf (first ++ second) = octetsOf first + octetsOf second := by
  simp [octetsOf, utf8]

theorem octetsOf_singleton (ch : Char) :
    octetsOf [ch] = (String.utf8EncodeChar ch).length := by
  simp [octetsOf, utf8]

/-- The pieces are short enough, the first one by one octet more. -/
def Fits : List (List Char) → Prop
  | [] => True
  | piece :: pieces => octetsOf piece ≤ 75 ∧
      ∀ later ∈ pieces, octetsOf later ≤ 74

/-- What holds of `fold` after some characters. -/
structure Folding.Keeps (folding : Folding) (seen : List Char) : Prop where
  seen : (folding.out ++ [folding.cur]).flatten = seen
  counted : folding.n = octetsOf folding.cur
  fits : Fits (folding.out ++ [folding.cur])

theorem fits_append {pieces : List (List Char)} {piece : List Char}
    (fits : Fits pieces)
    (short : octetsOf piece ≤ if pieces.length ≠ 0 then 74 else 75) :
    Fits (pieces ++ [piece]) := by
  cases pieces with
  | nil => exact ⟨short, by simp⟩
  | cons first pieces =>
      refine ⟨fits.1, ?_⟩
      intro later member
      rcases List.mem_append.mp member with old | new
      · exact fits.2 later old
      · rw [List.mem_singleton.mp new]
        exact short

theorem fits_of_append {pieces : List (List Char)} {piece : List Char}
    (fits : Fits (pieces ++ [piece])) : Fits pieces := by
  cases pieces with
  | nil => trivial
  | cons first pieces =>
      exact ⟨fits.1, fun later member =>
        fits.2 later (List.mem_append_left _ member)⟩

theorem Folding.Keeps.turn {folding : Folding} {seen : List Char}
    (keeps : folding.Keeps seen) (ch : Char) :
    (folding.turn ch).Keeps (seen ++ [ch]) := by
  have size : (String.utf8EncodeChar ch).length ≤ 4 := by
    rw [String.length_utf8EncodeChar]
    exact ch.utf8Size_le_four
  unfold Folding.turn
  dsimp only
  by_cases full : (if folding.out.length ≠ 0 then 74 else 75) <
      folding.n + (String.utf8EncodeChar ch).length
  · rw [if_pos full]
    refine ⟨?_, ?_, ?_⟩
    · rw [← keeps.seen]
      simp
    · rw [List.nil_append, octetsOf_singleton, Nat.zero_add]
    · apply fits_append keeps.fits
      rw [List.nil_append, octetsOf_singleton]
      split <;> omega
  · rw [if_neg full]
    refine ⟨?_, ?_, ?_⟩
    · rw [← keeps.seen]
      simp
    · rw [octetsOf_append, octetsOf_singleton, keeps.counted]
    · apply fits_append (fits_of_append keeps.fits)
      rw [octetsOf_append, octetsOf_singleton, ← keeps.counted]
      exact not_lt.mp full

theorem Folding.Keeps.foldl {folding : Folding} {seen : List Char}
    (keeps : folding.Keeps seen) (line : List Char) :
    (line.foldl Folding.turn folding).Keeps (seen ++ line) := by
  induction line generalizing folding seen with
  | nil => simpa using keeps
  | cons ch line induction =>
      have next := induction (keeps.turn ch)
      rwa [List.append_assoc] at next

/-- The pieces are the line, cut into short enough parts. -/
theorem foldPieces_keeps (line : List Char) :
    (foldPieces line).flatten = line ∧ Fits (foldPieces line) := by
  have start : Folding.Keeps { out := [], cur := [], n := 0 } [] :=
    ⟨rfl, rfl, by simp [octetsOf, utf8], by simp⟩
  have keeps := start.foldl line
  exact ⟨keeps.seen, keeps.fits⟩

theorem intercalate_cons_cons (separator first second : List Char)
    (pieces : List (List Char)) :
    separator.intercalate (first :: second :: pieces) =
      first ++ separator ++ separator.intercalate (second :: pieces) := by
  simp [List.intercalate]

theorem unfold_append {piece rest : List Char} (noFeed : '\n' ∉ piece)
    (noStart : ∀ more, rest ≠ '\n' :: more) :
    unfold (piece ++ rest) = piece ++ unfold rest := by
  induction piece with
  | nil => rfl
  | cons ch piece induction =>
      rw [List.mem_cons, not_or] at noFeed
      rw [List.cons_append, unfold.eq_2, induction noFeed.2, List.cons_append]
      intro more _ isFeed
      cases piece with
      | nil => exact noStart _ isFeed
      | cons next piece =>
          exact noFeed.2 ((List.cons.inj isFeed).1 ▸ List.mem_cons_self)

/-- Unfolding joins the pieces. -/
theorem unfold_intercalate {pieces : List (List Char)} {rest : List Char}
    (noFeed : ∀ piece ∈ pieces, '\n' ∉ piece)
    (noStart : ∀ more, rest ≠ '\n' :: more) :
    unfold (['\r', '\n', ' '].intercalate pieces ++ rest) =
      pieces.flatten ++ unfold rest := by
  induction pieces with
  | nil => rfl
  | cons first pieces induction =>
      obtain ⟨ownFeed, restFeed⟩ := List.forall_mem_cons.mp noFeed
      cases pieces with
      | nil => simpa [List.intercalate] using unfold_append ownFeed noStart
      | cons second pieces =>
          rw [intercalate_cons_cons, List.append_assoc, List.append_assoc,
            unfold_append ownFeed (by simp), List.flatten_cons,
            List.append_assoc, ← induction restFeed]
          rfl

theorem feed_notMem_foldPieces {line : List Char} (noFeed : '\n' ∉ line) :
    ∀ piece ∈ foldPieces line, '\n' ∉ piece := by
  intro piece member inPiece
  apply noFeed
  rw [← (foldPieces_keeps line).1]
  exact List.mem_flatten_of_mem member inPiece

theorem unfold_fold_append {line rest : List Char} (noFeed : '\n' ∉ line)
    (noStart : ∀ more, rest ≠ '\n' :: more) :
    unfold (fold line ++ rest) = line ++ unfold rest := by
  unfold fold
  rw [unfold_intercalate (feed_notMem_foldPieces noFeed) noStart,
    (foldPieces_keeps line).1]

theorem unfold_fold {line : List Char} (noFeed : '\n' ∉ line) :
    unfold (fold line) = line := by
  have whole := @unfold_fold_append line [] noFeed (by simp)
  simpa [unfold] using whole

end Fold

/-! ## Physical lines -/

section Octets

variable {line rest : Bytes}

/-- Only a line feed has the octet of a line feed. -/
theorem feed_mem_utf8EncodeChar {ch : Char}
    (member : (0x0A : UInt8) ∈ String.utf8EncodeChar ch) : ch = '\n' := by
  have toNat : ∀ {number : Nat}, number < 256 →
      (0x0A : UInt8) = UInt8.ofNat number → number = 0x0A := by
    intro number small same
    have value := congrArg UInt8.toNat same
    rw [UInt8.toNat_ofNat_of_lt' small] at value
    exact value.symm
  -- the octets of longer encodings are 0x80 and above
  have high : ∀ {number : Nat}, 0x80 ≤ number → number < 256 →
      (0x0A : UInt8) ≠ UInt8.ofNat number := by
    intro number large small same
    have := toNat small same
    omega
  have bounded : ch.val.toNat < 0x110000 := by
    rcases ch.valid with low | ⟨-, less⟩
    · exact Nat.lt_trans low (by decide)
    · exact less
  unfold String.utf8EncodeChar at member
  dsimp only at member
  by_cases one : ch.val.toNat ≤ 0x7F
  · rw [if_pos one] at member
    have value := toNat (by omega) (List.mem_singleton.mp member)
    exact Char.ext (UInt32.toNat_inj.mp value)
  · rw [if_neg one] at member
    exfalso
    by_cases two : ch.val.toNat ≤ 0x7FF
    · rw [if_pos two] at member
      simp only [List.mem_cons, List.not_mem_nil, or_false] at member
      rcases member with first | second
      · exact high (by omega) (by omega) first
      · exact high (by omega) (by omega) second
    rw [if_neg two] at member
    by_cases three : ch.val.toNat ≤ 0xFFFF
    · rw [if_pos three] at member
      simp only [List.mem_cons, List.not_mem_nil, or_false] at member
      rcases member with first | second | third
      · exact high (by omega) (by omega) first
      · exact high (by omega) (by omega) second
      · exact high (by omega) (by omega) third
    · rw [if_neg three] at member
      simp only [List.mem_cons, List.not_mem_nil, or_false] at member
      rcases member with first | second | third | fourth
      · exact high (by omega) (by omega) first
      · exact high (by omega) (by omega) second
      · exact high (by omega) (by omega) third
      · exact high (by omega) (by omega) fourth

theorem feed_notMem_utf8 {text : List Char} (noFeed : '\n' ∉ text) :
    (0x0A : UInt8) ∉ utf8 text := by
  intro member
  obtain ⟨ch, inText, inChar⟩ := List.mem_flatMap.mp member
  exact noFeed (feed_mem_utf8EncodeChar inChar ▸ inText)

theorem physicalLines_cons {byte : UInt8} (noBreak : ∀ more, rest ≠ 0x0A :: more) :
    physicalLines (byte :: rest) =
      match physicalLines rest with
      | line :: lines => (byte :: line) :: lines
      | [] => [[byte]] := by
  rw [physicalLines.eq_2]
  intro more _ same
  exact noBreak more same

/-- A CRLF ends the line in front of it. -/
theorem physicalLines_append (noFeed : (0x0A : UInt8) ∉ line) :
    physicalLines (line ++ 0x0D :: 0x0A :: rest) =
      line :: physicalLines rest := by
  induction line with
  | nil => rw [List.nil_append, physicalLines.eq_1]
  | cons byte line induction =>
      rw [List.mem_cons, not_or] at noFeed
      rw [List.cons_append, physicalLines_cons, induction noFeed.2]
      intro more same
      cases line with
      | nil => exact absurd (List.cons.inj same).1 (by decide)
      | cons next line =>
          exact noFeed.2 ((List.cons.inj same).1 ▸ List.mem_cons_self)

theorem physicalLines_single (noFeed : (0x0A : UInt8) ∉ line) :
    physicalLines line = [line] := by
  induction line with
  | nil => rfl
  | cons byte line induction =>
      rw [List.mem_cons, not_or] at noFeed
      rw [physicalLines_cons, induction noFeed.2]
      intro more same
      exact noFeed.2 (same ▸ List.mem_cons_self)

/-- The lines of the pieces, the later ones behind a space. -/
def spaced : List (List Char) → List (List Char)
  | [] => []
  | piece :: pieces => piece :: pieces.map (' ' :: ·)

theorem physicalLines_pieces (first : List Char) (pieces : List (List Char))
    (noFeed : ∀ piece ∈ first :: pieces, '\n' ∉ piece) :
    physicalLines (utf8 (['\r', '\n', ' '].intercalate (first :: pieces))) =
      (spaced (first :: pieces)).map utf8 := by
  induction pieces generalizing first with
  | nil =>
      have own := feed_notMem_utf8 (noFeed first List.mem_cons_self)
      simpa [List.intercalate, spaced] using physicalLines_single own
  | cons second pieces induction =>
      have own := feed_notMem_utf8 (noFeed first List.mem_cons_self)
      -- the space belongs to the next line
      have next := induction (' ' :: second) (by
        intro piece member
        rcases List.mem_cons.mp member with isSpaced | old
        · rw [isSpaced]
          simpa using noFeed second (by simp)
        · exact noFeed piece (by simp [old]))
      have isBreak : utf8 (['\r', '\n', ' '].intercalate
          (first :: second :: pieces)) =
          utf8 first ++ 0x0D :: 0x0A :: utf8 (['\r', '\n', ' '].intercalate
            ((' ' :: second) :: pieces)) := by
        rw [intercalate_cons_cons]
        cases pieces with
        | nil => simp [utf8, List.intercalate, String.utf8EncodeChar]
        | cons third pieces =>
            rw [intercalate_cons_cons, intercalate_cons_cons]
            simp [utf8, String.utf8EncodeChar]
      rw [isBreak, physicalLines_append own, next]
      rfl

end Octets

/-! ## The file is read back -/

/-- A text that is escaped and folded into a content line is read back, and no
physical line has more than 75 octets or part of a character. -/
theorem calendar_reads_back {name text : List Char} (oneLine : '\n' ∉ name)
    (clean : NoBareReturn text) :
    (∃ value, unfold (fold (name ++ esc text)) = name ++ value ∧
      unescape value = readBreaks text) ∧
    ∀ line ∈ physicalLines (utf8 (fold (name ++ esc text))),
      line.length ≤ 75 ∧ ∃ characters, line = utf8 characters := by
  have noFeed : '\n' ∉ name ++ esc text := by
    rw [List.mem_append, not_or]
    exact ⟨oneLine, feed_notMem_esc clean⟩
  constructor
  · exact ⟨esc text, unfold_fold noFeed, unescape_esc clean⟩
  · have fits := (foldPieces_keeps (name ++ esc text)).2
    have pieces := feed_notMem_foldPieces noFeed
    unfold fold
    generalize foldPieces (name ++ esc text) = parts at fits pieces
    intro line member
    cases parts with
    | nil =>
        have none : line = [] := List.mem_singleton.mp member
        exact ⟨by simp [none], [], none⟩
    | cons first parts =>
        rw [physicalLines_pieces first parts pieces] at member
        obtain ⟨characters, isLine, same⟩ := List.mem_map.mp member
        refine ⟨?_, characters, same.symm⟩
        rw [← same]
        rcases List.mem_cons.mp isLine with isFirst | isLater
        · rw [isFirst]
          exact fits.1
        · obtain ⟨piece, inParts, isSpaced⟩ := List.mem_map.mp isLater
          have short := fits.2 piece inParts
          have space : octetsOf (' ' :: piece) = 1 + octetsOf piece :=
            octetsOf_append [' '] piece
          rw [← isSpaced]
          change octetsOf (' ' :: piece) ≤ 75
          omega

/-- A note with all that is escaped, too long for one line. -/
def note : List Char :=
  "Räume; alt, neu\\ und für alle, die später noch dazukommen möchten: überall".toList

/-- The note behind a line break is folded, and read back. -/
theorem calendar_reads_back_note :
    1 < (physicalLines (utf8 (fold ("SUMMARY:".toList ++
      esc ('\r' :: '\n' :: note))))).length ∧
    (∃ value, unfold (fold ("SUMMARY:".toList ++ esc ('\r' :: '\n' :: note))) =
        "SUMMARY:".toList ++ value ∧
      unescape value = '\n' :: note) ∧
    ∀ line ∈ physicalLines (utf8 (fold ("SUMMARY:".toList ++
        esc ('\r' :: '\n' :: note)))),
      line.length ≤ 75 ∧ ∃ characters, line = utf8 characters := by
  have absent : '\r' ∉ note := by decide +kernel
  have clean : NoBareReturn ('\r' :: '\n' :: note) := by
    intro before after same
    rcases List.cons_eq_append_iff.mp same with ⟨_, isAfter⟩ | ⟨front, _, isRest⟩
    · exact ⟨_, (List.cons.inj isAfter).2⟩
    · rcases List.cons_eq_append_iff.mp isRest with ⟨_, isAfter⟩ | ⟨_, _, inside⟩
      · exact absurd (List.cons.inj isAfter).1 (by decide)
      · exact absurd (by rw [inside]; simp) absent
  refine ⟨by decide +kernel, ?_⟩
  exact calendar_reads_back (by decide +kernel) clean

/-! ## The whole file -/

/-- What `icsFile` writes into a calendar.  The stamps are texts here. -/
structure Reminder where
  room : List Char
  sequence : List Char
  stamp : List Char
  start : List Char
  stop : List Char
  title : List Char
  desc : List Char
  manageUrl : List Char

namespace Reminder

variable (reminder : Reminder)

/-- The content lines of the file. -/
def contentLines : List (List Char) :=
  ["BEGIN:VCALENDAR".toList, "VERSION:2.0".toList,
    "PRODID:-//FFMUC//meet-reserve//EN".toList, "CALSCALE:GREGORIAN".toList,
    "METHOD:PUBLISH".toList, "BEGIN:VEVENT".toList,
    "UID:reserve-".toList ++ reminder.room ++ "@meet.ffmuc.net".toList,
    "SEQUENCE:".toList ++ reminder.sequence,
    "DTSTAMP:".toList ++ reminder.stamp, "DTSTART:".toList ++ reminder.start,
    "DTEND:".toList ++ reminder.stop,
    "SUMMARY:".toList ++ esc reminder.title,
    "DESCRIPTION:".toList ++ esc reminder.desc,
    "URL:".toList ++ reminder.manageUrl, "TRANSP:TRANSPARENT".toList,
    "BEGIN:VALARM".toList, "ACTION:DISPLAY".toList, "TRIGGER:PT0S".toList,
    "DESCRIPTION:".toList ++ esc reminder.title, "END:VALARM".toList,
    "END:VEVENT".toList, "END:VCALENDAR".toList, []]

def icsFile : List Char :=
  ['\r', '\n'].intercalate (reminder.contentLines.map fold)

/-- Every text is one line, apart from those that are escaped. -/
structure OneLine : Prop where
  room : '\n' ∉ reminder.room
  sequence : '\n' ∉ reminder.sequence
  stamp : '\n' ∉ reminder.stamp
  start : '\n' ∉ reminder.start
  stop : '\n' ∉ reminder.stop
  title : NoBareReturn reminder.title
  desc : NoBareReturn reminder.desc
  manageUrl : '\n' ∉ reminder.manageUrl

end Reminder

/-- Joined lines start as the first one does. -/
theorem head_intercalate {first rest : List Char} {lines : List (List Char)}
    {ch : Char} (notReturn : ch ≠ '\r')
    (starts : ['\r', '\n'].intercalate (first :: lines) = ch :: rest) :
    ∃ more, first = ch :: more := by
  cases first with
  | cons head more =>
      refine ⟨more, ?_⟩
      cases lines with
      | nil =>
          have same : head :: more = ch :: rest := by
            simpa [List.intercalate] using starts
          rw [(List.cons.inj same).1]
      | cons second lines =>
          rw [intercalate_cons_cons] at starts
          rw [(List.cons.inj starts).1]
  | nil =>
      exfalso
      cases lines with
      | nil => simp [List.intercalate] at starts
      | cons second lines =>
          rw [intercalate_cons_cons] at starts
          exact notReturn (List.cons.inj starts).1.symm

/-- Lines that are folded one by one and joined are unfolded at once. -/
theorem unfold_intercalate_fold {lines : List (List Char)}
    (noFeed : ∀ line ∈ lines, '\n' ∉ line)
    (noSpace : ∀ line ∈ lines, ∀ more, line ≠ ' ' :: more) :
    unfold (['\r', '\n'].intercalate (lines.map fold)) =
      ['\r', '\n'].intercalate lines := by
  induction lines with
  | nil => rfl
  | cons first lines induction =>
      obtain ⟨ownFeed, restFeed⟩ := List.forall_mem_cons.mp noFeed
      obtain ⟨-, restSpace⟩ := List.forall_mem_cons.mp noSpace
      have next := induction restFeed restSpace
      cases lines with
      | nil => simpa [List.intercalate] using unfold_fold ownFeed
      | cons second lines =>
          rw [List.map_cons, List.map_cons, intercalate_cons_cons,
            List.append_assoc, unfold_fold_append ownFeed (by simp),
            intercalate_cons_cons, ← next, List.map_cons, List.append_assoc]
          congr 1
          apply unfold.eq_2
          intro more _ isSpaced
          -- the next line would start with a space
          have starts : ['\r', '\n'].intercalate
              (fold second :: lines.map fold) = ' ' :: more :=
            (List.cons.inj isSpaced).2
          rw [List.map_cons, starts, unfold.eq_2 _ _ (by simp)] at next
          obtain ⟨tail, same⟩ := head_intercalate (by decide) next.symm
          exact restSpace second List.mem_cons_self tail same

/-- Unfolded, the file is its content lines. -/
theorem unfold_icsFile {reminder : Reminder} (oneLine : reminder.OneLine) :
    unfold reminder.icsFile =
      ['\r', '\n'].intercalate reminder.contentLines := by
  have title := feed_notMem_esc oneLine.title
  have desc := feed_notMem_esc oneLine.desc
  apply unfold_intercalate_fold
  · simp [Reminder.contentLines, oneLine.room, oneLine.sequence, oneLine.stamp,
      oneLine.start, oneLine.stop, oneLine.manageUrl, title, desc]
  · simp [Reminder.contentLines]

end FfmucSalt.MeetReserve
