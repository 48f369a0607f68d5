import FfmucSalt.Foundation.Wildcard
import FfmucSalt.MeetReserve.Changes

/-!
# Links that open in the app

The rules of `appleAppSiteAssociation`, read as Apple reads them: the first
rule that matches decides.
-/

namespace FfmucSalt.MeetReserve

/-- iOS bundle ID and Android package of the apps. -/
def appID : Bytes := ascii "net.ffmuc.meet"

/-! ## The file -/

/-- `comp` in the source. -/
structure Component where
  path : Bytes
  frag : Bytes := []
  exclude : Bool := false
  comment : Bytes := []
  deriving DecidableEq

/-- A component in the file; fields with `omitempty` are left out. -/
def Component.json (component : Component) : Json :=
  .obj ((ascii "/", .str component.path) ::
    ((if component.frag = [] then []
      else [(ascii "#", .str component.frag)]) ++
    (if component.exclude then [(ascii "exclude", .bool true)] else []) ++
    (if component.comment = [] then []
      else [(ascii "comment", .str component.comment)])))

def Server.appComponents (server : Server) : List Component :=
  let base := server.cfg.basePath
  [{ path := base ++ ascii "/h/*", comment := ascii "host link" },
    { path := base ++ ascii "/s/*", comment := ascii "speaker link" },
    { path := base ++ ascii "/", frag := ascii "k=*"
      comment := ascii "manage link" },
    { path := base ++ ascii "/", frag := ascii "m=*"
      comment := ascii "v1 manage link" },
    { path := base, exclude := true, comment := ascii "reserve page" },
    { path := base ++ ascii "/*", exclude := true
      comment := ascii "reserve page" },
    { path := ascii "/", exclude := true, comment := ascii "start page" },
    { path := ascii "/*/*", exclude := true
      comment := ascii "files and APIs" },
    { path := ascii "/*.*", exclude := true, comment := ascii "files" },
    { path := ascii "/http-bind", exclude := true },
    { path := ascii "/xmpp-websocket", exclude := true },
    { path := ascii "/conferenceMapper", exclude := true },
    { path := ascii "/pad", exclude := true },
    { path := ascii "/*", comment := ascii "room" }]

/-- `appleAppSiteAssociation` lets iOS open short links, manage links and rooms
in the app. -/
def Server.appleAppSiteAssociation (server : Server) (appleTeamID : Bytes) :
    Json :=
  .obj [(ascii "applinks", .obj [(ascii "details", .arr [.obj [
    (ascii "appIDs", .arr [.str (appleTeamID ++ ascii "." ++ appID)]),
    (ascii "components", .arr (server.appComponents.map Component.json))]])])]

/-! ## Apple's matching -/

/-- A pattern as it is written in the file. -/
def readPattern (text : Bytes) : List (Wildcard UInt8) :=
  text.map fun byte =>
    if byte = 0x2A then .any else if byte = 0x3F then .one else .symbol byte

def matchesPattern (pattern text : Bytes) : Bool :=
  Wildcard.matchesAll (readPattern pattern) text

/-- Whether a component of the file is about this path and fragment. -/
def componentMatches (component : Json) (path frag : Bytes) : Bool :=
  (match component.member (ascii "/") with
    | some (.str pattern) => matchesPattern pattern path
    | _ => false) &&
  (match component.member (ascii "#") with
    | some (.str pattern) => matchesPattern pattern frag
    | _ => true)

def isExcluded (component : Json) : Bool :=
  match component.member (ascii "exclude") with
  | some (.bool excluded) => excluded
  | _ => false

/-- The components of the first entry of `details`. -/
def components (file : Json) : List Json :=
  match (file.member (ascii "applinks")).bind (Json.member (ascii "details")) with
  | some (.arr (details :: _)) =>
      match details.member (ascii "components") with
      | some (.arr components) => components
      | _ => []
  | _ => []

/-- The first component that matches decides. -/
def opensInApp (file : Json) (path frag : Bytes) : Bool :=
  match (components file).find? fun component =>
      componentMatches component path frag with
  | some component => !isExcluded component
  | none => false

/-! ## The file decides as its components do -/

/-- Whether a component is about this path and fragment. -/
def Component.covers (component : Component) (path frag : Bytes) : Bool :=
  matchesPattern component.path path &&
    (component.frag = [] || matchesPattern component.frag frag)

section Read

variable (component : Component) (path frag : Bytes)

theorem componentMatches_json :
    componentMatches component.json path frag = component.covers path frag := by
  have names : (ascii "#" == ascii "/") = false ∧
      (ascii "#" == ascii "exclude") = false ∧
      (ascii "#" == ascii "comment") = false := by
    decide
  unfold componentMatches Component.covers Component.json Json.member
  by_cases noFrag : component.frag = [] <;>
    cases component.exclude <;> by_cases noComment : component.comment = [] <;>
    simp [List.lookup_cons, noFrag, noComment, names]

theorem isExcluded_json : isExcluded component.json = component.exclude := by
  have names : (ascii "exclude" == ascii "/") = false ∧
      (ascii "exclude" == ascii "#") = false ∧
      (ascii "exclude" == ascii "comment") = false := by
    decide
  unfold isExcluded Component.json Json.member
  by_cases noFrag : component.frag = [] <;>
    cases component.exclude <;> by_cases noComment : component.comment = [] <;>
    simp [List.lookup_cons, noFrag, noComment, names]

theorem components_file (server : Server) (appleTeamID : Bytes) :
    components (server.appleAppSiteAssociation appleTeamID) =
      server.appComponents.map Component.json := by
  have names : (ascii "components" == ascii "appIDs") = false := by decide
  unfold components Server.appleAppSiteAssociation Json.member
  simp [List.lookup_cons, names]

/-- Whether the first component that is about a path and a fragment opens
them. -/
def opens (components : List Component) : Bool :=
  match components.find? fun component => component.covers path frag with
  | some component => !component.exclude
  | none => false

theorem opensInApp_file (server : Server) (appleTeamID : Bytes) :
    opensInApp (server.appleAppSiteAssociation appleTeamID) path frag =
      opens path frag server.appComponents := by
  unfold opensInApp opens
  rw [components_file, List.find?_map]
  have same : ((fun component => componentMatches component path frag) ∘
      Component.json) = fun component => component.covers path frag :=
    funext fun component => componentMatches_json component path frag
  rw [same]
  cases server.appComponents.find? fun component =>
      component.covers path frag with
  | none => rfl
  | some component => exact congrArg not (isExcluded_json component)

theorem opens_cons (rest : List Component) :
    opens path frag (component :: rest) =
      if component.covers path frag then !component.exclude
      else opens path frag rest := by
  unfold opens
  rw [List.find?_cons]
  cases component.covers path frag <;> rfl

end Read

/-! ## What each pattern is about -/

section Patterns

variable {path frag : Bytes}

/-- Text without wildcards. -/
def Literal (text : Bytes) : Prop := ∀ byte ∈ text, byte ≠ 0x2A ∧ byte ≠ 0x3F

theorem readPattern_append {literal : Bytes} (isLiteral : Literal literal)
    (rest : Bytes) :
    readPattern (literal ++ rest) =
      literal.map .symbol ++ readPattern rest := by
  unfold readPattern
  rw [List.map_append]
  congr 1
  apply List.map_congr_left
  intro byte member
  obtain ⟨notAny, notOne⟩ := isLiteral byte member
  rw [if_neg notAny, if_neg notOne]

theorem matchesPattern_literal {literal : Bytes} (isLiteral : Literal literal) :
    matchesPattern literal path ↔ path = literal := by
  have read := readPattern_append isLiteral []
  rw [List.append_nil] at read
  unfold matchesPattern
  rw [read]
  change Wildcard.matchesAll (literal.map .symbol ++ []) path ↔ _
  rw [List.append_nil, Wildcard.matchesAll_literal]

theorem matchesPattern_start {literal : Bytes} (isLiteral : Literal literal) :
    matchesPattern (literal ++ ascii "*") path ↔ literal <+: path := by
  unfold matchesPattern
  rw [readPattern_append isLiteral]
  exact Wildcard.matchesAll_append_any literal

/-- A pattern for what has a byte behind a literal start. -/
theorem matchesPattern_inside {literal : Bytes} (isLiteral : Literal literal)
    {byte : UInt8} (notAny : byte ≠ 0x2A) (notOne : byte ≠ 0x3F) :
    matchesPattern (literal ++ [0x2A, byte, 0x2A]) path ↔
      ∃ rest, path = literal ++ rest ∧ byte ∈ rest := by
  have read : readPattern [0x2A, byte, 0x2A] = [.any, .symbol byte, .any] := by
    simp [readPattern, notAny, notOne]
  unfold matchesPattern
  rw [readPattern_append isLiteral, read, Wildcard.matchesAll_append]
  simp only [Wildcard.matchesAll_any_symbol_any]

end Patterns

/-! ## The links that open -/

section Rules

variable {path frag : Bytes} {component : Component} {condition : Prop}

/-- A rule that opens what it is about. -/
theorem opens_included (included : component.exclude = false)
    (covers : component.covers path frag ↔ condition) (rest : List Component) :
    opens path frag (component :: rest) ↔
      condition ∨ opens path frag rest := by
  rw [opens_cons, included]
  by_cases holds : condition
  · simp [covers.mpr holds, holds]
  · simp [mt covers.mp holds, holds]

theorem opens_excluded (excluded : component.exclude = true)
    (covers : component.covers path frag ↔ condition) (rest : List Component) :
    opens path frag (component :: rest) ↔
      ¬ condition ∧ opens path frag rest := by
  rw [opens_cons, excluded]
  by_cases holds : condition
  · simp [covers.mpr holds, holds]
  · simp [mt covers.mp holds, holds]

theorem covers_path (noFrag : component.frag = [])
    (isPath : matchesPattern component.path path ↔ condition) :
    component.covers path frag ↔ condition := by
  unfold Component.covers
  simp [noFrag, isPath]

theorem covers_frag (hasFrag : component.frag ≠ []) {fragment : Prop}
    (isPath : matchesPattern component.path path ↔ condition)
    (isFrag : matchesPattern component.frag frag ↔ fragment) :
    component.covers path frag ↔ condition ∧ fragment := by
  unfold Component.covers
  simp [hasFrag, isPath, isFrag]

end Rules

/-- The names of one segment that are not rooms. -/
def reservedNames : List Bytes :=
  [ascii "http-bind", ascii "xmpp-websocket", ascii "conferenceMapper",
    ascii "pad"]

/-- The links that the app is documented to open. -/
inductive Server.AppLink (server : Server) : (path frag : Bytes) → Prop where
  | host {path frag : Bytes}
      (starts : server.cfg.basePath ++ ascii "/h/" <+: path) :
      AppLink server path frag
  | speaker {path frag : Bytes}
      (starts : server.cfg.basePath ++ ascii "/s/" <+: path) :
      AppLink server path frag
  | manage {frag : Bytes} (key : ascii "k=" <+: frag ∨ ascii "m=" <+: frag) :
      AppLink server (server.cfg.basePath ++ ascii "/") frag
  | room {room frag : Bytes} (nonempty : room ≠ []) (segment : 0x2F ∉ room)
      (notFile : 0x2E ∉ room)
      (notBase : ascii "/" ++ room ≠ server.cfg.basePath)
      (notReserved : room ∉ reservedNames) :
      AppLink server (ascii "/" ++ room) frag

section Links

variable {server : Server} {segment path frag : Bytes}

/-- The first rules are about the reserve page, the last one about rooms. -/
theorem opens_appComponents (literal : Literal server.cfg.basePath) :
    opens path frag server.appComponents ↔
      server.cfg.basePath ++ ascii "/h/" <+: path ∨
      server.cfg.basePath ++ ascii "/s/" <+: path ∨
      (path = server.cfg.basePath ++ ascii "/" ∧ ascii "k=" <+: frag) ∨
      (path = server.cfg.basePath ++ ascii "/" ∧ ascii "m=" <+: frag) ∨
      ¬ path = server.cfg.basePath ∧
      ¬ server.cfg.basePath ++ ascii "/" <+: path ∧
      ¬ path = ascii "/" ∧
      (¬ ∃ rest, path = ascii "/" ++ rest ∧ 0x2F ∈ rest) ∧
      (¬ ∃ rest, path = ascii "/" ++ rest ∧ 0x2E ∈ rest) ∧
      ¬ path = ascii "/http-bind" ∧ ¬ path = ascii "/xmpp-websocket" ∧
      ¬ path = ascii "/conferenceMapper" ∧ ¬ path = ascii "/pad" ∧
      (ascii "/" <+: path ∨ opens path frag []) := by
  have below : ∀ rest, Literal rest →
      Literal (server.cfg.basePath ++ rest) := by
    intro rest isLiteral byte member
    exact (List.mem_append.mp member).elim (literal byte) (isLiteral byte)
  have isLiteral : ∀ text ∈ [ascii "/", ascii "/h/", ascii "/s/", ascii "k=",
      ascii "m=", ascii "/http-bind", ascii "/xmpp-websocket",
      ascii "/conferenceMapper", ascii "/pad"], Literal text := by
    unfold Literal
    decide +kernel
  have starts : ∀ {text : Bytes}, Literal text → ∀ {pattern : Bytes},
      pattern = text ++ ascii "*" → ∀ {tested : Bytes},
        (matchesPattern pattern tested ↔ text <+: tested) := by
    intro text isText pattern isPattern tested
    rw [isPattern]
    exact matchesPattern_start isText
  unfold Server.appComponents
  dsimp only
  rw [opens_included rfl (covers_path rfl (starts (below _ (isLiteral
      (ascii "/h/") (by decide))) (by rw [List.append_assoc]; rfl))),
    opens_included rfl (covers_path rfl (starts (below _ (isLiteral
      (ascii "/s/") (by decide))) (by rw [List.append_assoc]; rfl))),
    opens_included rfl (covers_frag (show ascii "k=*" ≠ [] by decide)
      (matchesPattern_literal (below _ (isLiteral (ascii "/") (by decide))))
      (starts (isLiteral (ascii "k=") (by decide)) rfl)),
    opens_included rfl (covers_frag (show ascii "m=*" ≠ [] by decide)
      (matchesPattern_literal (below _ (isLiteral (ascii "/") (by decide))))
      (starts (isLiteral (ascii "m=") (by decide)) rfl)),
    opens_excluded rfl (covers_path rfl (matchesPattern_literal literal)),
    opens_excluded rfl (covers_path rfl (starts (below _ (isLiteral
      (ascii "/") (by decide))) (by rw [List.append_assoc]; rfl))),
    opens_excluded rfl (covers_path rfl (matchesPattern_literal
      (isLiteral (ascii "/") (by decide)))),
    opens_excluded rfl (covers_path rfl (matchesPattern_inside
      (isLiteral (ascii "/") (by decide)) (by decide) (by decide))),
    opens_excluded rfl (covers_path rfl (matchesPattern_inside
      (isLiteral (ascii "/") (by decide)) (by decide) (by decide))),
    opens_excluded rfl (covers_path rfl (matchesPattern_literal
      (isLiteral (ascii "/http-bind") (by decide)))),
    opens_excluded rfl (covers_path rfl (matchesPattern_literal
      (isLiteral (ascii "/xmpp-websocket") (by decide)))),
    opens_excluded rfl (covers_path rfl (matchesPattern_literal
      (isLiteral (ascii "/conferenceMapper") (by decide)))),
    opens_excluded rfl (covers_path rfl (matchesPattern_literal
      (isLiteral (ascii "/pad") (by decide)))),
    opens_included rfl (covers_path rfl (starts
      (isLiteral (ascii "/") (by decide)) rfl))]
  exact Iff.rfl

/-- What the rules for one segment leave open. -/
theorem room_iff (isBase : server.cfg.basePath = ascii "/" ++ segment) :
    (¬ path = server.cfg.basePath ∧
      ¬ server.cfg.basePath ++ ascii "/" <+: path ∧
      ¬ path = ascii "/" ∧
      (¬ ∃ rest, path = ascii "/" ++ rest ∧ 0x2F ∈ rest) ∧
      (¬ ∃ rest, path = ascii "/" ++ rest ∧ 0x2E ∈ rest) ∧
      ¬ path = ascii "/http-bind" ∧ ¬ path = ascii "/xmpp-websocket" ∧
      ¬ path = ascii "/conferenceMapper" ∧ ¬ path = ascii "/pad" ∧
      (ascii "/" <+: path ∨ opens path frag [])) ↔
    ∃ room, path = ascii "/" ++ room ∧ room ≠ [] ∧ 0x2F ∉ room ∧
      0x2E ∉ room ∧ ascii "/" ++ room ≠ server.cfg.basePath ∧
      room ∉ reservedNames := by
  constructor
  · intro ⟨notBase, _, notStart, noSlash, noDot, notBind, notSocket, notMapper,
      notPad, opened⟩
    obtain ⟨room, isPath⟩ := opened.resolve_right Bool.false_ne_true
    subst isPath
    refine ⟨room, rfl, ?_, fun slash => noSlash ⟨room, rfl, slash⟩,
      fun dot => noDot ⟨room, rfl, dot⟩, notBase, ?_⟩
    · intro isEmpty
      exact notStart (by rw [isEmpty, List.append_nil])
    · intro reserved
      simp only [reservedNames, List.mem_cons, List.not_mem_nil, or_false]
        at reserved
      rcases reserved with isBind | isSocket | isMapper | isPad
      · exact notBind (congrArg (ascii "/" ++ ·) isBind)
      · exact notSocket (congrArg (ascii "/" ++ ·) isSocket)
      · exact notMapper (congrArg (ascii "/" ++ ·) isMapper)
      · exact notPad (congrArg (ascii "/" ++ ·) isPad)
  · intro ⟨room, isPath, nonempty, noSlash, noDot, notBase, notReserved⟩
    subst isPath
    have other : ∀ name ∈ reservedNames, ¬ ascii "/" ++ room = ascii "/" ++ name :=
      fun name reserved same =>
        notReserved (List.append_cancel_left same ▸ reserved)
    have inRoom : ∀ {byte : UInt8}, byte ∉ room →
        ¬ ∃ rest, ascii "/" ++ room = ascii "/" ++ rest ∧ byte ∈ rest :=
      fun absent ⟨rest, same, member⟩ =>
        absent (List.append_cancel_left same ▸ member)
    refine ⟨notBase, ?_, fun same => nonempty (List.append_cancel_left same),
      inRoom noSlash, inRoom noDot, other (ascii "http-bind") (by decide),
      other (ascii "xmpp-websocket") (by decide),
      other (ascii "conferenceMapper") (by decide),
      other (ascii "pad") (by decide), .inl (List.prefix_append _ _)⟩
    intro below
    rw [isBase, List.append_assoc] at below
    obtain ⟨more, same⟩ := (List.prefix_append_right_inj _).mp below
    have isSlash : (0x2F : UInt8) ∈ ascii "/" := by decide
    apply noSlash
    rw [← same]
    exact List.mem_append_left _ (List.mem_append_right _ isSlash)

/-- The file opens exactly the documented links. -/
theorem opensInApp_iff (isBase : server.cfg.basePath = ascii "/" ++ segment)
    (literal : ∀ byte ∈ segment, byte ≠ 0x2A ∧ byte ≠ 0x3F)
    (appleTeamID path frag : Bytes) :
    opensInApp (server.appleAppSiteAssociation appleTeamID) path frag ↔
      server.AppLink path frag := by
  have isLiteral : Literal server.cfg.basePath := by
    rw [isBase]
    intro byte member
    rcases List.mem_append.mp member with isSlash | inSegment
    · cases List.mem_singleton.mp isSlash
      decide
    · exact literal byte inSegment
  rw [opensInApp_file, opens_appComponents isLiteral, room_iff isBase]
  constructor
  · intro opened
    rcases opened with host | speaker | ⟨isPath, key⟩ | ⟨isPath, key⟩ |
      ⟨room, isPath, nonempty, noSlash, noDot, notBase, notReserved⟩
    · exact .host host
    · exact .speaker speaker
    · subst isPath
      exact .manage (.inl key)
    · subst isPath
      exact .manage (.inr key)
    · subst isPath
      exact .room nonempty noSlash noDot notBase notReserved
  · intro link
    cases link with
    | host starts => exact .inl starts
    | speaker starts => exact .inr (.inl starts)
    | manage key =>
        rcases key with key | key
        · exact .inr (.inr (.inl ⟨rfl, key⟩))
        · exact .inr (.inr (.inr (.inl ⟨rfl, key⟩)))
    | room nonempty noSlash noDot notBase notReserved =>
        exact .inr (.inr (.inr (.inr
          ⟨_, rfl, nonempty, noSlash, noDot, notBase, notReserved⟩)))

end Links

namespace Sample

/-- The room of the README opens, a file does not. -/
theorem opensInApp_iff_sample :
    opensInApp (server.appleAppSiteAssociation (ascii "A1B2C3D4E5"))
        (ascii "/r-bcdfghjkmnpqrs") [] ∧
      ¬ server.AppLink (ascii "/static/x.html") [] := by
  have noWildcard : (ascii "reserve").all fun byte =>
      byte ≠ 0x2A && byte ≠ 0x3F := by
    decide
  have literal : ∀ byte ∈ ascii "reserve", byte ≠ 0x2A ∧ byte ≠ 0x3F := by
    simpa using noWildcard
  constructor
  · apply (opensInApp_iff rfl literal _ _ _).mpr
    exact .room (by decide) (by decide) (by decide) (by decide) (by decide)
  · intro link
    have opened := (@opensInApp_iff server _ rfl literal (ascii "A1B2C3D4E5")
      _ _).mpr link
    exact absurd opened (by decide +kernel)

end Sample

end FfmucSalt.MeetReserve
