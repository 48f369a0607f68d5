import FfmucSalt.Encoding
import FfmucSalt.MeetReserve.Handlers
import FfmucSalt.SignedRooms.Rooms

/-!
# Tokens in the Prosody module

`verify_token`, and what a lookup makes of an answer of meet-reserve.  A value
that `json.decode` returns is the JSON text it stands for: objects, arrays and
null are tables.  `room_usable` may wait, so what it returns is a parameter of
`verify_token` here.
-/

namespace FfmucSalt.SignedRooms

open MeetReserve (Json Response Server)

/-- What reading tokens and answers uses of `util.json` and of Lua. -/
structure JsonLibrary where
  /-- `json.decode` -/
  decode : Bytes → Option Json
  /-- `tostring` of a number or a table -/
  tostring : Json → Bytes
  /-- `tonumber` of a text -/
  tonumber : Bytes → Option ℚ

/-! ## Lua values -/

/-- `value.name`, where the last of several members of one name counts. -/
def field (value : Json) (name : Bytes) : Option Json :=
  match value with
  | .obj fields => fields.reverse.lookup name
  | _ => none

/-- `value == text` -/
def isText (value : Option Json) (text : Bytes) : Bool :=
  match value with
  | some (.str other) => other == text
  | _ => false

/-- `type(value) == "string" and value` -/
def text? (value : Option Json) : Option Bytes :=
  match value with
  | some (.str text) => some text
  | _ => none

namespace JsonLibrary

variable (json : JsonLibrary)

/-- `type(value) == "number" and value` -/
def number? (value : Option Json) : Option ℚ :=
  match value with
  | some (.int value) => some value
  | some (.float literal) => json.tonumber literal
  | _ => none

/-- `tonumber(value)` -/
def toNumber (value : Option Json) : Option ℚ :=
  match value with
  | some (.str text) => json.tonumber text
  | value => json.number? value

/-- `tostring(value)` -/
def toText (value : Option Json) : Bytes :=
  match value with
  | none => ascii "nil"
  | some (.str text) => text
  | some (.bool value) => if value then ascii "true" else ascii "false"
  | some value => json.tostring value

/-! ## Lookups -/

/-- The state in the body of a lookup, before `finish` takes note of it. -/
def readState (body : Bytes) : Option Answer := do
  let data ← json.decode body
  let status ← text? (field data (ascii "status"))
  return {
    status
    expires := json.toNumber (field data (ascii "expires"))
    gen := (text? (field data (ascii "gen"))).getD (ascii "0") }

end JsonLibrary

/-- What `handleRoom` writes. -/
def statusBody (status : Bytes) (expires : Option Int) (gen : Option Bytes) :
    Json :=
  .obj ((expires.map fun expires => (ascii "expires", .int expires)).toList ++
    (gen.map fun gen => (ascii "gen", .str gen)).toList ++
    [(ascii "status", .str status)])

/-- The body of a response to a lookup, unless its code is an error. -/
def lookupBody (server : Server) : Response → Option Bytes
  | .status status expires gen =>
      some (server.lib.marshal (statusBody status expires gen))
  | _ => none

/-! ## Tokens -/

def issuer : Bytes := ascii "ffmuc-reserve"

def audience : Bytes := ascii "jitsi"

/-- What `verify_token` returns. -/
inductive Verified where
  /-- claims and role -/
  | accepted (claims : Json) (role : Bytes)
  /-- `nil` and a reason -/
  | rejected (reason : Bytes)
  /-- `false`, for tokens that are not ours -/
  | foreign

/-- A token with the form of ours. -/
structure Parts where
  /-- Header and claims as they are signed. -/
  input : Bytes
  signature : Bytes
  header : Json
  claims : Json

def isLetter (byte : UInt8) : Bool :=
  (0x41 ≤ byte && byte ≤ 0x5A) || (0x61 ≤ byte && byte ≤ 0x7A)

/-- `id:match("^(%a+):")` -/
def matchRole (id : Bytes) : Option Bytes :=
  let letters := id.takeWhile isLetter
  if letters ≠ [] ∧ id[letters.length]? = some 0x3A then some letters else none

/-- `claim_gen` -/
def JsonLibrary.claimGen (json : JsonLibrary) (claims : Json) : Bytes :=
  match field claims (ascii "gen") with
  | none => ascii "0"
  | some gen => json.toText (some gen)

/-- The checks of the user, who is given back by role. -/
def checkUser (claims : Json) (room : Bytes) : Except Bytes Bytes :=
  let user := (field claims (ascii "context")).bind (field · (ascii "user"))
  match text? (user.bind (field · (ascii "id"))) with
  | none => .error (ascii "bad user claim")
  | some id =>
      match matchRole id with
      | none => .error (ascii "bad user claim")
      | some role =>
          if (role ≠ ascii "host" ∧ role ≠ ascii "speaker") ∨
              id ≠ role ++ ascii ":" ++ room then
            .error (ascii "bad user claim")
          else
            let moderator :=
              match field claims (ascii "moderator") with
              | some (.bool true) => true
              | _ => false
            if (role == ascii "host") ≠ moderator then .error (ascii "bad role")
            else .ok role

namespace Plugin

variable (plugin : Plugin) (json : JsonLibrary)

/-- The parts of a token, unless it is not ours. -/
def parseToken (token : Bytes) : Option Parts :=
  match token.splitOn 0x2E with
  | [h, c, s] => do
      let decode := fun part =>
        json.decode ((b64url_decode plugin.lib.base64Decode part).getD [])
      if h = [] ∨ c = [] ∨ s = [] then none
      else
        let header ← decode h
        if ¬ isText (field header (ascii "alg")) (ascii "EdDSA") then none
        else
          let claims ← decode c
          if ¬ isText (field claims (ascii "iss")) issuer then none
          else return { input := h ++ ascii "." ++ c, signature := s
                        header, claims }
  | _ => none

def checkSignature (parts : Parts) : Except Bytes Unit :=
  match plugin.options.keys[json.toText (field parts.header (ascii "kid"))]? with
  | none => .error (ascii "unknown key id")
  | some key =>
      match b64url_decode plugin.lib.base64Decode parts.signature with
      | none => .error (ascii "bad signature")
      | some sig =>
          if sig.length ≠ sigLen ∨
              ¬ plugin.lib.ed25519Verify key parts.input sig then
            .error (ascii "bad signature")
          else .ok ()

/-- The checks of the claims before the room is looked up, which is given
back. -/
def checkClaims (claims : Json) (now : Seconds) : Except Bytes Bytes :=
  let skew := plugin.options.clockSkew
  if ¬ isText (field claims (ascii "aud")) audience then
    .error (ascii "bad audience")
  else if ¬ (json.number? (field claims (ascii "exp"))).any
      (fun exp => (now : ℚ) ≤ exp + skew) then
    .error (ascii "token expired")
  else if (json.number? (field claims (ascii "nbf"))).any
      (fun nbf => (now : ℚ) < nbf - skew) then
    .error (ascii "token not yet valid")
  else if ¬ isText (field claims (ascii "sub")) plugin.options.host then
    .error (ascii "wrong domain")
  else
    match text? (field claims (ascii "room")) with
    | none => .error (ascii "no room")
    | some room => .ok room

/-- The checks of the room and of the user. -/
def checkRoom (usable : Bytes → Verdict) (claims : Json) (room : Bytes) :
    Except Bytes Bytes :=
  match usable room with
  | .error (why, _) => .error (ascii "room " ++ why)
  | .ok state =>
      -- after a rotation only tokens of the new generation count
      if state.any fun state =>
          state.status = active ∧ json.claimGen claims ≠ state.gen then
        .error (ascii "token was replaced")
      else checkUser claims room

/-- All checks of a token of ours, which give its role. -/
def checkToken (usable : Bytes → Verdict) (parts : Parts) (now : Seconds) :
    Except Bytes Bytes := do
  plugin.checkSignature json parts
  let room ← plugin.checkClaims json parts.claims now
  checkRoom json usable parts.claims room

/-- `verify_token`, where `usable` is what `room_usable` returns. -/
def verifyToken (usable : Bytes → Verdict) (token : Bytes) (now : Seconds) :
    Verified :=
  match plugin.parseToken json token with
  | none => .foreign
  | some parts =>
      match plugin.checkToken json usable parts now with
      | .error reason => .rejected reason
      | .ok role => .accepted parts.claims role

/-- What `room_usable` returns once `room_state` returned. -/
def usableWith (state : Option Entry) (migrated : Bool) (now : Seconds)
    (name : Bytes) : Verdict :=
  match plugin.roomUsable name with
  | .error reason => .error (reason, none)
  | .ok decide => decide state migrated now

end Plugin

end FfmucSalt.SignedRooms
