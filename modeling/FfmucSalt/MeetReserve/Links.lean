import FfmucSalt.Search
import FfmucSalt.MeetReserve.Changes
import FfmucSalt.MeetReserve.Handlers

/-!
# Credentials come out of every link

Users paste links in several forms, with white space around them and with
query parameters or text behind them.  `extractKey` looks for the last
occurrence of one marker after the other and finds the credential in each.
-/

namespace FfmucSalt.MeetReserve

/-! ## Forms of links -/

/-- The links around a credential; v1 signers built `legacyManage` and
`token`. -/
inductive LinkForm where
  | bare
  | manage
  | legacyManage
  | host
  | speaker
  | token (room : RoomName)

/-- A link as a user pastes it. -/
structure Paste where
  front : Bytes
  form : LinkForm
  key : Bytes
  tail : Bytes
  back : Bytes

/-- Letters, digits, `_`, `-` and `.` -/
def isCredentialByte (byte : UInt8) : Bool :=
  0x30 ≤ byte ∧ byte ≤ 0x39 ∨ 0x41 ≤ byte ∧ byte ≤ 0x5A ∨
    0x61 ≤ byte ∧ byte ≤ 0x7A ∨ byte = 0x5F ∨ byte = 0x2D ∨ byte = 0x2E

namespace Server

variable (server : Server)

/-- What stands before the credential. -/
def lead : LinkForm → Bytes
  | .bare => []
  | .manage => server.cfg.publicURL ++ server.cfg.basePath ++ ascii "/#k="
  | .legacyManage => server.cfg.publicURL ++ server.cfg.basePath ++ ascii "/#m="
  | .host => server.cfg.publicURL ++ server.cfg.basePath ++ ascii "/h/"
  | .speaker => server.cfg.publicURL ++ server.cfg.basePath ++ ascii "/s/"
  | .token room => server.cfg.publicURL ++ ascii "/" ++ room ++ ascii "?jwt="

def pasted (paste : Paste) : Bytes :=
  paste.front ++ (server.lead paste.form ++ paste.key ++ paste.tail) ++
    paste.back

/-- A credential with white space around the link and a tail that does not
look like a link.  The markers of short links occur where the link has them
and nowhere else. -/
structure Clean (paste : Paste) : Prop where
  nonempty : paste.key ≠ []
  isKey : ∀ byte ∈ paste.key, isCredentialByte byte
  front : Spaces paste.front
  back : Spaces paste.back
  ends : ∀ byte ∈ paste.tail.head?, byte ∈ ascii "&#?/ "
  noMarker : ∀ marker ∈ server.markers, ¬ marker <:+: paste.tail
  onlyHost : ∀ before after, server.pasted paste =
    before ++ (server.cfg.basePath ++ ascii "/h/") ++ after →
      paste.form = .host ∧ before = paste.front ++ server.cfg.publicURL
  onlySpeaker : ∀ before after, server.pasted paste =
    before ++ (server.cfg.basePath ++ ascii "/s/") ++ after →
      paste.form = .speaker ∧ before = paste.front ++ server.cfg.publicURL

/-- The links of the manage page have these forms. -/
theorem view_links (record : Record) (host : Bytes) (now : Time) :
    (server.view record host now).host_url = server.lead .host ++ host ∧
      (server.view record host now).speaker_url =
        server.lead .speaker ++ server.speakerSecret host ∧
      (server.view record host now).manage_url = server.lead .manage ++ host :=
  ⟨rfl, rfl, rfl⟩

end Server

/-! ## One marker -/

section Marker

open Server

variable {marker before rest : Bytes} {separator : UInt8}

theorem afterMarker_of_absent {text : Bytes} (absent : ¬ marker <:+: text) :
    afterMarker text marker = text := by
  rw [afterMarker, lastIndex_eq_none absent]

theorem afterMarker_append (again : ¬ marker <:+: marker.tail ++ rest) :
    afterMarker (before ++ marker ++ rest) marker = rest := by
  rw [afterMarker, lastIndex_append again]
  dsimp only
  rw [← List.length_append, List.drop_left]

/-- A marker that does not occur from a byte on, nor over it, is cut off in
front of that byte. -/
theorem afterMarker_in_front (absent : separator ∉ marker)
    (notBehind : ¬ marker <:+: rest) :
    ∃ left, left <:+ before ∧
      afterMarker (before ++ separator :: rest) marker =
        left ++ separator :: rest := by
  rw [afterMarker]
  cases found : lastIndex (before ++ separator :: rest) marker with
  | none => exact ⟨before, List.suffix_refl _, rfl⟩
  | some position =>
      obtain ⟨start, after, occurs, isPosition⟩ := lastIndex_eq_some found
      rcases occurrence_append_cons absent occurs.symm with
        ⟨left, isBefore⟩ | ⟨middle, isRest⟩
      · refine ⟨left, ⟨start ++ marker, isBefore.symm⟩, ?_⟩
        dsimp only
        rw [isBefore, ← isPosition, ← List.length_append,
          List.append_assoc (start ++ marker), List.drop_left]
      · exact absurd ⟨middle, after, isRest.symm⟩ notBehind

end Marker

/-! ## What is left behind a marker -/

section Key

variable {key right : Bytes}

private theorem isCredentialByte_spec : ∀ byte, isCredentialByte byte →
    Visible byte ∧ byte ∉ ascii "&#?/= " := by
  have all : ∀ value < 256, isCredentialByte (UInt8.ofNat value) →
      (0x20 < UInt8.ofNat value ∧ UInt8.ofNat value < 0x80) ∧
        UInt8.ofNat value ∉ ascii "&#?/= " := by
    decide +kernel
  intro byte isKey
  have isByte := all byte.toNat byte.toNat_lt
  rw [UInt8.ofNat_toNat] at isByte
  exact isByte isKey

/-- A byte that is in no credential. -/
private theorem not_mem_key (isKey : ∀ byte ∈ key, isCredentialByte byte)
    {byte : UInt8} (special : byte ∈ ascii "&#?/= ") : byte ∉ key :=
  fun present => (isCredentialByte_spec byte (isKey byte present)).2 special

/-- Markers that begin with `#` are not found in a text that has its first `#`
behind the credential. -/
private theorem hash_absent {start marker : Bytes}
    (isKey : ∀ byte ∈ key, isCredentialByte byte) (noHash : 0x23 ∉ start)
    (absent : ¬ 0x23 :: marker <:+: right) :
    ¬ 0x23 :: marker <:+: start ++ (key ++ right) := by
  intro inside
  exact absent (infix_append_of_head (not_mem_key isKey (by decide))
    (infix_append_of_head noHash inside))

private theorem jwt_absent (isKey : ∀ byte ∈ key, isCredentialByte byte)
    (ends : ∀ byte ∈ right.head?, byte ∈ ascii "&#?/ ")
    (absent : ¬ ascii "jwt=" <:+: right) :
    ¬ ascii "jwt=" <:+: key ++ right := by
  have notInKey : ¬ ascii "jwt=" <:+: key := by
    intro inside
    have isIn : 0x3D ∈ ascii "jwt=" := by decide
    exact not_mem_key isKey (by decide) (inside.subset isIn)
  cases right with
  | nil => rwa [List.append_nil]
  | cons byte right =>
      have apart : (ascii "&#?/ ").all fun byte =>
          !(ascii "jwt=").contains byte := by
        decide
      have notInMarker : ∀ byte ∈ ascii "&#?/ ", byte ∉ ascii "jwt=" := by
        simpa using apart
      intro inside
      rcases infix_append_cons (notInMarker byte (ends byte rfl)) inside with
        isIn | isIn
      · exact notInKey isIn
      · exact absent (isIn.trans (List.suffix_cons byte right).isInfix)

/-- The last cut leaves the credential. -/
private theorem cut_key (isKey : ∀ byte ∈ key, isCredentialByte byte)
    (ends : ∀ byte ∈ right.head?, byte ∈ ascii "&#?/ ") :
    (match indexAny (key ++ right) (ascii "&#?/ ") with
      | some position => (key ++ right).take position
      | none => key ++ right) = key := by
  have noCut : ∀ byte ∈ key, (ascii "&#?/ ").contains byte = false := by
    intro byte present
    have special : ascii "&#?/ " ⊆ ascii "&#?/= " := by decide
    rw [Bool.eq_false_iff, ne_eq, List.contains_iff_mem]
    exact fun cuts => not_mem_key isKey (special cuts) present
  cases right with
  | nil =>
      rw [List.append_nil, indexAny_eq_none]
      intro byte present
      simpa using noCut byte present
  | cons byte right =>
      have isCut : (ascii "&#?/ ").contains byte = true :=
        List.contains_iff_mem.mpr (ends byte rfl)
      have found : indexAny (key ++ byte :: right) (ascii "&#?/ ") =
          some key.length := by
        rw [indexAny, List.findIdx?_append, List.findIdx?_eq_none_iff.mpr noCut,
          List.findIdx?_cons]
        simp only [isCut]
        simp
      rw [found]
      dsimp only
      rw [List.take_left]

end Key

/-! ## The link without its surroundings -/

namespace Server

/-- The part of a link that no marker needs. -/
private def start (server : Server) : LinkForm → Bytes
  | .bare => []
  | .manage | .legacyManage => server.cfg.publicURL ++ server.cfg.basePath
  | .host | .speaker => server.cfg.publicURL
  | .token room => server.cfg.publicURL ++ ascii "/" ++ room ++ ascii "?"

/-- The part of a link from which on `extractKey` must keep it. -/
private def opening (server : Server) : LinkForm → Bytes
  | .bare => []
  | .manage => ascii "/#k="
  | .legacyManage => ascii "/#m="
  | .host => server.cfg.basePath ++ ascii "/h/"
  | .speaker => server.cfg.basePath ++ ascii "/s/"
  | .token _ => ascii "jwt="

private theorem lead_eq (server : Server) (form : LinkForm) :
    server.lead form = server.start form ++ server.opening form := by
  cases form with
  | bare => rfl
  | manage => rfl
  | legacyManage => rfl
  | host => simp [lead, start, opening]
  | speaker => simp [lead, start, opening]
  | token room =>
      have isOpening : ascii "?jwt=" = ascii "?" ++ ascii "jwt=" := rfl
      simp [lead, start, opening, isOpening]

end Server

section Pasted

variable {server : Server} {paste : Paste} {path left right : Bytes}

private theorem visible_opening (rooted : server.cfg.basePath = 0x2F :: path)
    (clean : server.Clean paste) :
    ∃ first, (server.opening paste.form ++ paste.key).head? = some first ∧
      Visible first := by
  have slash : Visible 0x2F := ⟨by decide, by decide⟩
  cases paste.form with
  | bare =>
      obtain ⟨first, key, isKey⟩ := List.exists_cons_of_ne_nil clean.nonempty
      have inKey : first ∈ paste.key := by simp [isKey]
      exact ⟨first, by simp [Server.opening, isKey],
        (isCredentialByte_spec first (clean.isKey first inKey)).1⟩
  | manage => exact ⟨0x2F, rfl, slash⟩
  | legacyManage => exact ⟨0x2F, rfl, slash⟩
  | host => exact ⟨0x2F, by simp [Server.opening, rooted], slash⟩
  | speaker => exact ⟨0x2F, by simp [Server.opening, rooted], slash⟩
  | token room => exact ⟨0x6A, rfl, by decide, by decide⟩

private theorem trimSpace_pasted (rooted : server.cfg.basePath = 0x2F :: path)
    (clean : server.Clean paste) :
    ∃ left right, left <:+ server.start paste.form ∧ right <+: paste.tail ∧
      trimSpace (server.pasted paste) =
        left ++ (server.opening paste.form ++ paste.key) ++ right := by
  obtain ⟨first, isFirst, firstVisible⟩ := visible_opening rooted clean
  have isLast := List.getLast?_eq_some_getLast clean.nonempty
  have inKey := List.getLast_mem clean.nonempty
  have isText : server.pasted paste = paste.front ++
      (server.start paste.form ++ (server.opening paste.form ++ paste.key) ++
        paste.tail) ++ paste.back := by
    simp [Server.pasted, Server.lead_eq]
  rw [isText]
  exact trimSpace_around clean.front clean.back isFirst firstVisible
    (by rw [List.getLast?_append, isLast, Option.some_or])
    (isCredentialByte_spec _ (clean.isKey _ inKey)).1

section Trimmed

variable (isLeft : left <:+ server.start paste.form)
variable (isRight : right <+: paste.tail)

include isLeft isRight

/-- Where the trimmed link lies in what was pasted. -/
private theorem pasted_eq : ∃ lost more,
    server.start paste.form = lost ++ left ∧
      server.pasted paste = (paste.front ++ lost) ++
        (left ++ (server.opening paste.form ++ paste.key) ++ right) ++ more := by
  obtain ⟨lost, isStart⟩ := isLeft
  obtain ⟨more, isTail⟩ := isRight
  refine ⟨lost, more ++ paste.back, isStart.symm, ?_⟩
  rw [Server.pasted, Server.lead_eq, ← isStart, ← isTail]
  simp

variable {marker : Bytes} {owner : LinkForm}
variable (only : ∀ before after,
  server.pasted paste = before ++ marker ++ after →
    paste.form = owner ∧ before = paste.front ++ server.cfg.publicURL)

include only

/-- The marker of another short link does not occur. -/
private theorem other_absent (other : paste.form ≠ owner) :
    ¬ marker <:+: left ++ (server.opening paste.form ++ paste.key) ++ right := by
  rintro ⟨before, after, occurs⟩
  obtain ⟨lost, more, -, isText⟩ := pasted_eq isLeft isRight
  refine other (only (paste.front ++ lost ++ before) (after ++ more) ?_).1
  rw [isText, ← occurs]
  simp

/-- The marker of a short link does not come again. -/
private theorem own_once (nonempty : marker ≠ [])
    (isStart : server.start paste.form = server.cfg.publicURL)
    (isOpening : server.opening paste.form = marker) :
    ¬ marker <:+: marker.tail ++ (paste.key ++ right) := by
  rintro ⟨before, after, occurs⟩
  obtain ⟨byte, rest, rfl⟩ := List.exists_cons_of_ne_nil nonempty
  obtain ⟨lost, more, isLost, isText⟩ := pasted_eq isLeft isRight
  have isAgain : server.pasted paste =
      (paste.front ++ lost ++ left ++ [byte] ++ before) ++ byte :: rest ++
        (after ++ more) := by
    calc server.pasted paste
      _ = paste.front ++ lost ++ left ++ [byte] ++
            (rest ++ (paste.key ++ right)) ++ more := by
          rw [isText, isOpening]
          simp
      _ = paste.front ++ lost ++ left ++ [byte] ++
            (before ++ byte :: rest ++ after) ++ more := by
          rw [occurs, List.tail_cons]
      _ = _ := by simp
  have again := (only _ _ isAgain).2
  rw [← isStart, isLost] at again
  have lengths := congrArg List.length again
  simp only [List.length_append, List.length_singleton] at lengths
  omega

end Trimmed

/-! ## One marker after the other -/

/-- The markers that every signer looks for. -/
private def fixedMarkers : List Bytes :=
  [ascii "#k=", ascii "#m=", ascii "jwt="]

/-- In front of a short link's marker nothing but the start is cut. -/
private theorem short_kept {letter : UInt8} (isLetter : letter ∈ [0x68, 0x73])
    (rooted : server.cfg.basePath = 0x2F :: path)
    (noHash : 0x23 ∉ server.cfg.basePath)
    (noJwt : ¬ ascii "jwt=" <:+: server.cfg.basePath)
    (isKey : ∀ byte ∈ paste.key, isCredentialByte byte)
    (ends : ∀ byte ∈ right.head?, byte ∈ ascii "&#?/ ")
    (absent : ∀ marker ∈ fixedMarkers, ¬ marker <:+: right) :
    ∃ kept, kept <:+ left ∧
      fixedMarkers.foldl Server.afterMarker
        (left ++ (server.cfg.basePath ++ [0x2F, letter, 0x2F] ++ paste.key) ++
          right) =
        kept ++ (server.cfg.basePath ++ [0x2F, letter, 0x2F] ++ paste.key) ++
          right := by
  have isRest : ∀ left : Bytes,
      left ++ (server.cfg.basePath ++ [0x2F, letter, 0x2F] ++ paste.key) ++
        right = left ++ 0x2F :: (path ++ [0x2F, letter, 0x2F] ++
          (paste.key ++ right)) := by
    simp [rooted]
  have notHash : letter ≠ 0x23 := by
    rintro rfl
    exact absurd isLetter (by decide)
  rw [rooted] at noHash noJwt
  have noHashRest : 0x23 ∉ path ++ [0x2F, letter, 0x2F] := by
    simp only [List.mem_cons, not_or] at noHash
    simp [noHash.2, Ne.symm notHash]
  have noJwtLetter : ¬ ascii "jwt=" <:+: [letter] := by
    intro inside
    have short : 4 ≤ 1 := inside.length_le
    exact absurd short (by decide)
  have jwtBehind : ¬ ascii "jwt=" <:+: path ++ [0x2F, letter, 0x2F] ++
      (paste.key ++ right) := by
    have split : path ++ [0x2F, letter, 0x2F] ++ (paste.key ++ right) =
        path ++ 0x2F :: ([letter] ++ 0x2F :: (paste.key ++ right)) := by
      simp
    rw [split]
    intro inside
    rcases infix_append_cons (by decide) inside with inPath | behind
    · exact noJwt (inPath.trans (List.suffix_cons _ path).isInfix)
    rcases infix_append_cons (by decide) behind with inLetter | behind
    · exact noJwtLetter inLetter
    · exact jwt_absent isKey ends (absent _ (by decide)) behind
  obtain ⟨first, isFirst, afterK⟩ := @afterMarker_in_front (ascii "#k=") left _
    0x2F (by decide) (hash_absent isKey noHashRest (absent _ (by decide)))
  obtain ⟨second, isSecond, afterM⟩ := @afterMarker_in_front (ascii "#m=") first
    _ 0x2F (by decide) (hash_absent isKey noHashRest (absent _ (by decide)))
  obtain ⟨third, isThird, afterJwt⟩ := @afterMarker_in_front (ascii "jwt=")
    second _ 0x2F (by decide) jwtBehind
  refine ⟨third, isThird.trans (isSecond.trans isFirst), ?_⟩
  rw [isRest, isRest, fixedMarkers, List.foldl_cons, List.foldl_cons,
    List.foldl_cons, List.foldl_nil, afterK, afterM, afterJwt]

/-- The other links end at one of the fixed markers. -/
private theorem fixed_cut (isLeft : left <:+ server.start paste.form)
    (isKey : ∀ byte ∈ paste.key, isCredentialByte byte)
    (ends : ∀ byte ∈ right.head?, byte ∈ ascii "&#?/ ")
    (absent : ∀ marker ∈ fixedMarkers, ¬ marker <:+: right)
    (notHost : paste.form ≠ .host) (notSpeaker : paste.form ≠ .speaker) :
    fixedMarkers.foldl Server.afterMarker
      (left ++ (server.opening paste.form ++ paste.key) ++ right) =
        paste.key ++ right := by
  have noK : ∀ {start : Bytes}, 0x23 ∉ start →
      ¬ ascii "#k=" <:+: start ++ (paste.key ++ right) :=
    fun noHash => hash_absent isKey noHash (absent _ (by decide))
  have noM : ∀ {start : Bytes}, 0x23 ∉ start →
      ¬ ascii "#m=" <:+: start ++ (paste.key ++ right) :=
    fun noHash => hash_absent isKey noHash (absent _ (by decide))
  have noJwt : ¬ ascii "jwt=" <:+: paste.key ++ right :=
    jwt_absent isKey ends (absent _ (by decide))
  have keepsK : Server.afterMarker (paste.key ++ right) (ascii "#k=") =
      paste.key ++ right :=
    afterMarker_of_absent (@noK [] (by decide))
  have keepsM : Server.afterMarker (paste.key ++ right) (ascii "#m=") =
      paste.key ++ right :=
    afterMarker_of_absent (@noM [] (by decide))
  have keepsJwt : Server.afterMarker (paste.key ++ right) (ascii "jwt=") =
      paste.key ++ right := afterMarker_of_absent noJwt
  rw [fixedMarkers, List.foldl_cons, List.foldl_cons, List.foldl_cons,
    List.foldl_nil]
  cases isForm : paste.form with
  | host => exact absurd isForm notHost
  | speaker => exact absurd isForm notSpeaker
  | bare =>
      rw [isForm] at isLeft
      rw [List.suffix_nil.mp isLeft]
      change Server.afterMarker (Server.afterMarker (Server.afterMarker
        (paste.key ++ right) _) _) _ = _
      rw [keepsK, keepsM, keepsJwt]
  | manage =>
      have isText : left ++ (server.opening .manage ++ paste.key) ++ right =
          (left ++ ascii "/") ++ ascii "#k=" ++ (paste.key ++ right) := by
        have isOpening : ascii "/#k=" = ascii "/" ++ ascii "#k=" := rfl
        simp [Server.opening, isOpening]
      have cut := @afterMarker_append (ascii "#k=") (left ++ ascii "/")
        (paste.key ++ right) (@noK (ascii "k=") (by decide))
      rw [isText, cut, keepsM, keepsJwt]
  | legacyManage =>
      have isText : left ++ (server.opening .legacyManage ++ paste.key) ++ right =
          left ++ 0x2F :: (ascii "#m=" ++ (paste.key ++ right)) := by
        have isOpening : ascii "/#m=" = 0x2F :: ascii "#m=" := rfl
        simp [Server.opening, isOpening]
      have kBehind : ¬ ascii "#k=" <:+: ascii "#m=" ++ (paste.key ++ right) := by
        intro inside
        have split : ascii "#m=" ++ (paste.key ++ right) =
            [0x23] ++ 0x6D :: (ascii "=" ++ (paste.key ++ right)) := rfl
        rw [split] at inside
        rcases infix_append_cons (by decide) inside with isHash | behind
        · have short : 3 ≤ 1 := isHash.length_le
          exact absurd short (by decide)
        · exact noK (by decide) behind
      obtain ⟨kept, -, afterK⟩ := @afterMarker_in_front (ascii "#k=") left _ 0x2F
        (by decide) kBehind
      have again : kept ++ 0x2F :: (ascii "#m=" ++ (paste.key ++ right)) =
          (kept ++ [0x2F]) ++ ascii "#m=" ++ (paste.key ++ right) := by
        simp
      have cut := @afterMarker_append (ascii "#m=") (kept ++ [0x2F])
        (paste.key ++ right) (@noM (ascii "m=") (by decide))
      rw [isText, afterK, again, cut, keepsJwt]
  | token room =>
      have isText : left ++ (server.opening (.token room) ++ paste.key) ++ right =
          left ++ 0x6A :: (ascii "wt=" ++ (paste.key ++ right)) := by
        have isOpening : ascii "jwt=" = 0x6A :: ascii "wt=" := rfl
        simp [Server.opening, isOpening]
      obtain ⟨first, -, afterK⟩ := @afterMarker_in_front (ascii "#k=") left _ 0x6A
        (by decide) (@noK (ascii "wt=") (by decide))
      obtain ⟨kept, -, afterM⟩ := @afterMarker_in_front (ascii "#m=") first _ 0x6A
        (by decide) (@noM (ascii "wt=") (by decide))
      have again : kept ++ 0x6A :: (ascii "wt=" ++ (paste.key ++ right)) =
          kept ++ ascii "jwt=" ++ (paste.key ++ right) := by
        have isMarker : ascii "jwt=" = 0x6A :: ascii "wt=" := rfl
        simp [isMarker]
      have once : ¬ ascii "jwt=" <:+: ascii "wt=" ++ (paste.key ++ right) :=
        fun inside => noJwt (infix_append_of_head (by decide) inside)
      rw [isText, afterK, afterM, again, afterMarker_append once]

/-- One marker after the other, everything in front of the credential goes. -/
private theorem markers_cut (rooted : server.cfg.basePath = 0x2F :: path)
    (noHash : 0x23 ∉ server.cfg.basePath)
    (noJwt : ¬ ascii "jwt=" <:+: server.cfg.basePath)
    (clean : server.Clean paste) (isLeft : left <:+ server.start paste.form)
    (isRight : right <+: paste.tail)
    (ends : ∀ byte ∈ right.head?, byte ∈ ascii "&#?/ ")
    (absent : ∀ marker ∈ fixedMarkers, ¬ marker <:+: right) :
    server.markers.foldl Server.afterMarker
      (left ++ (server.opening paste.form ++ paste.key) ++ right) =
        paste.key ++ right := by
  have isMarkers : server.markers = fixedMarkers ++
      [server.cfg.basePath ++ ascii "/h/", server.cfg.basePath ++ ascii "/s/"] :=
    rfl
  have isShort : ∀ letter, server.cfg.basePath ++ letter ≠ [] := by
    simp [rooted]
  have isEnd : ∀ left, paste.key ++ right <:+
      left ++ (server.opening paste.form ++ paste.key) ++ right :=
    fun left => ⟨left ++ server.opening paste.form, by simp⟩
  have keeps : ∀ {marker left : Bytes},
      ¬ marker <:+: left ++ (server.opening paste.form ++ paste.key) ++ right →
        Server.afterMarker (paste.key ++ right) marker = paste.key ++ right :=
    fun other => afterMarker_of_absent fun inside =>
      other (inside.trans (isEnd _).isInfix)
  rw [isMarkers, List.foldl_append, List.foldl_cons, List.foldl_cons,
    List.foldl_nil]
  have regroup : ∀ kept marker : Bytes,
      kept ++ (marker ++ paste.key) ++ right =
        kept ++ marker ++ (paste.key ++ right) := by
    simp
  by_cases isHost : paste.form = .host
  · have isStart : server.start paste.form = server.cfg.publicURL := by
      rw [isHost]
      rfl
    have isOpening : server.opening paste.form =
        server.cfg.basePath ++ ascii "/h/" := by
      rw [isHost]
      rfl
    have notSpeaker : paste.form ≠ .speaker := by
      rw [isHost]
      exact LinkForm.noConfusion
    have once := own_once isLeft isRight clean.onlyHost (isShort _) isStart
      isOpening
    obtain ⟨kept, isKept, fixed⟩ := @short_kept server paste path left right 0x68
      (by decide) rooted noHash noJwt clean.isKey ends absent
    rw [← show ascii "/h/" = [0x2F, 0x68, 0x2F] from rfl] at fixed
    rw [isOpening, fixed, regroup, afterMarker_append once,
      keeps (other_absent isLeft isRight clean.onlySpeaker notSpeaker)]
  by_cases isSpeaker : paste.form = .speaker
  · have isStart : server.start paste.form = server.cfg.publicURL := by
      rw [isSpeaker]
      rfl
    have isOpening : server.opening paste.form =
        server.cfg.basePath ++ ascii "/s/" := by
      rw [isSpeaker]
      rfl
    have once := own_once isLeft isRight clean.onlySpeaker (isShort _) isStart
      isOpening
    obtain ⟨kept, isKept, fixed⟩ := @short_kept server paste path left right 0x73
      (by decide) rooted noHash noJwt clean.isKey ends absent
    rw [← show ascii "/s/" = [0x2F, 0x73, 0x2F] from rfl] at fixed
    have noHost := other_absent (isKept.trans isLeft) isRight clean.onlyHost
      isHost
    rw [isOpening] at noHost ⊢
    rw [fixed, afterMarker_of_absent noHost, regroup, afterMarker_append once]
  · rw [fixed_cut isLeft clean.isKey ends absent isHost isSpeaker,
      keeps (other_absent isLeft isRight clean.onlyHost isHost),
      keeps (other_absent isLeft isRight clean.onlySpeaker isSpeaker)]

end Pasted

/-- `extractKey` finds the credential in every form of link. -/
theorem extractKey_link {server : Server} {paste : Paste} {path : Bytes}
    (rooted : server.cfg.basePath = ascii "/" ++ path)
    (noHash : 0x23 ∉ server.cfg.basePath)
    (noJwt : ¬ ascii "jwt=" <:+: server.cfg.basePath)
    (clean : server.Clean paste) :
    server.extractKey (server.pasted paste) = paste.key := by
  have isRooted : server.cfg.basePath = 0x2F :: path := rooted
  obtain ⟨left, right, isLeft, isRight, trimmed⟩ :=
    trimSpace_pasted isRooted clean
  have ends : ∀ byte ∈ right.head?, byte ∈ ascii "&#?/ " := by
    intro byte isHead
    obtain ⟨more, isTail⟩ := isRight
    refine clean.ends byte ?_
    rw [← isTail, List.head?_append, Option.mem_def.mp isHead]
    rfl
  have noMarker : ∀ marker ∈ server.markers, ¬ marker <:+: right :=
    fun marker isMarker inside =>
      clean.noMarker marker isMarker (inside.trans isRight.isInfix)
  have absent : ∀ marker ∈ fixedMarkers, ¬ marker <:+: right :=
    fun marker isFixed => noMarker marker
      (List.mem_append_left [server.cfg.basePath ++ ascii "/h/",
        server.cfg.basePath ++ ascii "/s/"] isFixed)
  unfold Server.extractKey
  rw [trimmed, markers_cut isRooted noHash noJwt clean isLeft isRight ends absent]
  exact cut_key clean.isKey ends

namespace Sample

/-- A host link between line ends, with a fragment behind it. -/
def hostLink : Paste :=
  { front := ascii "\n ", form := .host, key := host
    tail := ascii "#config.prejoin=/x", back := ascii " \n" }

private theorem only_at {text marker expected before after : Bytes}
    (once : ∀ position < text.length + 1,
      marker <+: text.drop position → text.take position = expected)
    (occurs : text = before ++ marker ++ after) : before = expected := by
  have isBefore : text.take before.length = before := by
    rw [occurs, List.append_assoc, List.take_left]
  have inside : before.length < text.length + 1 := by
    rw [occurs]
    simp
  rw [← isBefore]
  refine once _ inside ?_
  rw [occurs, List.append_assoc, List.drop_left]
  exact List.prefix_append _ _

theorem hostLink_clean : server.Clean hostLink := by
  refine ⟨by decide +kernel, by decide +kernel, ?_, ?_, by decide +kernel,
    by decide, fun before after occurs => ⟨rfl, only_at ?_ occurs⟩,
    fun before after occurs => ?_⟩
  · exact ⟨[ascii "\n", ascii " "], by decide, rfl⟩
  · exact ⟨[ascii " ", ascii "\n"], by decide, rfl⟩
  · decide
  · have absent : ¬ server.cfg.basePath ++ ascii "/s/" <:+:
        server.pasted hostLink := by
      decide +kernel
    exact absurd ⟨before, after, occurs.symm⟩ absent

theorem extractKey_link_hostLink :
    server.extractKey (ascii "\n https://meet.ffmuc.net/reserve/h/" ++ host ++
      ascii "#config.prejoin=/x \n") = host := by
  have isPasted : server.pasted hostLink =
      ascii "\n https://meet.ffmuc.net/reserve/h/" ++ host ++
        ascii "#config.prejoin=/x \n" := by
    decide
  rw [← isPasted]
  exact @extractKey_link server hostLink (ascii "reserve") (by decide)
    (by decide) (by decide) hostLink_clean

end Sample

end FfmucSalt.MeetReserve
