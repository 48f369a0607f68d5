import FfmucSalt.Foundation.Program
import FfmucSalt.MeetReserve.Cluster

/-!
# Request handlers

The handlers of `main.go` as programs.  An action is one critical section of
the store or of the table of used challenges, a reading of the clock, or a
draw of random numbers; between any two actions of a request others may run.
Counters for the metrics, the log and the HTTP headers are left out.
-/

namespace FfmucSalt.MeetReserve

inductive Action where
  /-- `time.Now()` -/
  | now
  | get (room : RoomName)
  | bySecret (hash : Hash)
  | update (room : RoomName) (change : Change)
  | pullSoon
  /-- `rand.Read` -/
  | randRead (count : Nat)
  /-- So many calls of `rand.Int`. -/
  | randInts (count bound : Nat)
  /-- Take note of a used challenge, unless it was used before. -/
  | spend (challenge : Bytes) (forget : Time)

abbrev Answer : Action → Type
  | .now => Time
  | .get _ => Option Record
  | .bySecret _ => Option (Record × SecretEntry)
  | .update _ _ => Except Error Record
  | .pullSoon => Unit
  | .randRead _ => Except Error Bytes
  | .randInts _ _ => Except Error (List Nat)
  | .spend _ _ => Bool

abbrev Handler : Type → Type := Program Action Answer

namespace Handler

abbrev now : Handler Time := Program.perform Action.now

abbrev get (room : RoomName) : Handler (Option Record) :=
  Program.perform (Action.get room)

abbrev bySecret (hash : Hash) : Handler (Option (Record × SecretEntry)) :=
  Program.perform (Action.bySecret hash)

abbrev update (room : RoomName) (change : Change) :
    Handler (Except Error Record) :=
  Program.perform (Action.update room change)

abbrev pullSoon : Handler Unit := Program.perform Action.pullSoon

abbrev randRead (count : Nat) : Handler (Except Error Bytes) :=
  Program.perform (Action.randRead count)

abbrev randInts (count bound : Nat) : Handler (Except Error (List Nat)) :=
  Program.perform (Action.randInts count bound)

abbrev spend (challenge : Bytes) (forget : Time) : Handler Bool :=
  Program.perform (Action.spend challenge forget)

end Handler

/-! ## Responses -/

/-- What the manage page gets back. -/
structure View where
  room : RoomName
  status : Bytes
  expires : Bytes
  max_ahead_h : Int
  durations : List Int
  host_url : Bytes
  speaker_url : Bytes
  guest_url : Bytes
  manage_url : Bytes
  migrated : Option Bool
  deriving DecidableEq

/-- Responses of the handlers. -/
inductive Response where
  | view (view : View)
  | deleted
  | revoked
  /-- What `/api/join` answers. -/
  | joined (server room role jwt jwt_expires room_expires : Bytes)
  /-- A redirect into the room. -/
  | redirect (room jwt : Bytes)
  /-- A redirect to the manage page, which explains why. -/
  | gone (why : Bytes)
  /-- What Prosody gets. -/
  | status (status : Bytes) (expires : Option Int) (gen : Option Bytes)
  | error (error : ApiError)
  /-- `http.Error` -/
  | text (code : Nat) (msg : Bytes)
  deriving DecidableEq

/-- `writeErr` -/
def Response.ofError : Error → Response
  | .api failure => .error failure
  | .other _ =>
      .error { code := 500, reason := reasonInternal, msg := ascii "internal" }

/-- The answer to a rejected proof of work. -/
def Response.rejected (reason : Bytes) : Response :=
  .ofError (.api { code := 403, reason := powPrefix ++ reason, msg := reason })

/-- `decode`, given what `encoding/json` makes of the body. -/
def decode {α : Type} (isPost : Bool) (body : Option α) : Except Error α :=
  if ¬ isPost then .error (fail 405 reasonMalformed "method not allowed")
  else
    match body with
    | none => .error (fail 400 reasonMalformed "malformed")
    | some value => .ok value

/-! ## Bodies of requests -/

structure ReserveBody where
  challenge : Bytes
  nonce : Bytes
  hours : Int

structure ManageBody where
  key : Bytes

structure ExtendBody extends ReserveBody, ManageBody

structure JoinBody extends ManageBody where
  role : Bytes

/-! ## Proof of work -/

def challengeTTL : Duration := 10 * minute

/-- `bits.LeadingZeros8` -/
def leadingZeros8 (byte : UInt8) : Nat := 8 - byte.toNat.size

def leadingZeroBits : Bytes → Nat
  | [] => 0
  | byte :: rest =>
      if byte = 0 then 8 + leadingZeroBits rest else leadingZeros8 byte

namespace Server

variable (server : Server)

def mac (msg : Bytes) : Bytes :=
  hexEncode ((server.lib.hmacSha256 server.cfg.powKey msg).take 16)

/-- `newChallenge`, given what `rand.Read` delivers. -/
def newChallenge (now : Time) (random : Bytes) : Bytes :=
  let msg := formatInt now.unix ++ ascii "." ++ hexEncode random
  msg ++ ascii "." ++ server.mac msg

/-- `checkPoW` returns why it rejects a solution. -/
def checkPoW (challenge nonce : Bytes) (now : Time) :
    Handler (Option Bytes) :=
  match challenge.splitOn 0x2E with
  | [stamp, random, mac] =>
      if nonce.length = 0 ∨ 32 < nonce.length then
        return some (ascii "malformed")
      else if server.mac (stamp ++ ascii "." ++ random) ≠ mac then
        return some (ascii "bad_mac")
      else
        match parseInt stamp with
        | none => return some (ascii "malformed")
        | some ts =>
            let age := now - Time.ofUnix ts
            if age < -minute ∨ challengeTTL < age then
              return some (ascii "expired")
            else if leadingZeroBits (server.lib.sha256
                (challenge ++ ascii ":" ++ nonce)) < server.cfg.difficulty then
              return some (ascii "insufficient")
            else do
              let fresh ← Handler.spend challenge
                (Time.ofUnix ts + (challengeTTL + minute))
              return if fresh then none else some (ascii "replay")
  | _ => return some (ascii "malformed")

/-! ## Resolving keys -/

/-- `view` is what the manage page gets back. -/
def view (record : Record) (host : Bytes) (now : Time) : View :=
  let base := server.cfg.publicURL ++ server.cfg.basePath
  { room := record.room
    status :=
      if record.revoked ≠ 0 then ascii "deleted"
      else if record.expires ≤ now.unix then ascii "expired"
      else ascii "active"
    expires := rfc3339 record.expires
    max_ahead_h := server.cfg.maxAhead.hours
    durations := server.cfg.durations.map Duration.hours
    host_url := base ++ ascii "/h/" ++ host
    speaker_url := base ++ ascii "/s/" ++ server.speakerSecret host
    guest_url := server.cfg.publicURL ++ ascii "/" ++ record.room
    manage_url := base ++ ascii "/#k=" ++ host
    migrated := none }

/-- `bySecret`, once more after asking the peers if nothing was found. -/
def bySecretOrPull (hash : Hash) : Handler (Option (Record × SecretEntry)) := do
  match ← Handler.bySecret hash with
  | some found => return some found
  | none =>
      Handler.pullSoon
      Handler.bySecret hash

/-- The part of `resolve` for the secrets of stored rooms. -/
def resolveSecret (key : Bytes) :
    Handler (Except Error (Record × Bytes × Bool)) := do
  match ← bySecretOrPull (server.hashSecret key) with
  | none =>
      return .error (fail 404 reasonUnknown "unknown room or not a host link")
  | some (record, entry) =>
      if entry.role ≠ roleHost then
        return .error (fail 404 reasonUnknown "unknown room or not a host link")
      else if ¬ record.current (some entry) then
        return .error
          (fail 410 reasonReplaced "this link was replaced by new links")
      else return .ok (record, key, false)

/-- How long a v1 token lets its room exist. -/
def legacyExp (claims : LegacyClaims) : Int :=
  let nameExp :=
    match server.parseLegacyRoom claims.room with
    | .error _ => Time.zero -- the error is dropped
    | .ok nameExp => nameExp
  min claims.exp (Time.unix (nameExp + server.cfg.legacyMaxExt))

/-- The part of `resolve` for v1 host tokens. -/
def resolveLegacy (claims : LegacyClaims) (now : Time) :
    Handler (Except Error (Record × Bytes × Bool)) := do
  let host := server.legacyHostSecret claims.room
  let speaker := server.speakerSecret host
  let exp := server.legacyExp claims
  match ← Handler.get claims.room with
  | some cur =>
      if cur.revoked ≠ 0 then
        return .error (fail 410 reasonDeleted "room was deleted")
      else if ¬ cur.current cur.secrets[server.hashSecret host]? then
        return .error
          (fail 410 reasonReplaced "this link was replaced by new links")
      else if exp ≤ cur.expires then return .ok (cur, host, false)
      else do
        -- A newer v1 link than the one used for the migration.
        let updated ← Handler.update claims.room (.raise exp)
        return updated.map fun record => (record, host, false)
  | none =>
      if exp ≤ now.unix then
        return .error (fail 410 reasonExpired "room expired")
      else do
        let updated ← Handler.update claims.room (.migrate now exp host speaker)
        return updated.map fun record => (record, host, true)

/-- `resolve` authenticates a manage request.  It accepts the host secret of a
stored room, or a v1 host token, which migrates the room on first use. -/
def resolve (raw : Bytes) (now : Time) :
    Handler (Except Error (Record × Bytes × Bool)) :=
  let key := server.extractKey raw
  if validSecret key then server.resolveSecret key
  else
    match server.parseLegacyHostToken key with
    | .error error =>
        let reason :=
          if error = errNoHostLink then reasonUnknown else reasonInvalid
        return .error (.api { code := 400, reason, msg := error.msg })
    | .ok claims => server.resolveLegacy claims now

/-- The part of `resolveJoin` for the secrets of stored rooms. -/
def joinSecret (key : Bytes) : Handler (Except Error (Record × Bytes)) := do
  match ← bySecretOrPull (server.hashSecret key) with
  | none =>
      return .error
        (fail 404 reasonUnknown "unknown room or not a host or speaker link")
  | some (record, entry) =>
      if record.revoked ≠ 0 then
        return .error (fail 410 reasonDeleted "room was deleted")
      else if ¬ record.current (some entry) then
        return .error
          (fail 410 reasonReplaced "this link was replaced by new links")
      else return .ok (record, entry.role)

/-- The part of `resolveJoin` for v1 host links, which migrate. -/
def joinLegacy (raw : Bytes) (now : Time) :
    Handler (Except Error (Record × Bytes)) := do
  match ← server.resolve raw now with
  | .error error => return .error error
  | .ok (record, _, _) =>
      if record.revoked ≠ 0 then
        return .error (fail 410 reasonDeleted "room was deleted")
      else return .ok (record, roleHost)

/-- `resolveJoin`, up to the check of the room's expiry. -/
def joinKey (raw : Bytes) (now : Time) :
    Handler (Except Error (Record × Bytes)) :=
  let key := server.extractKey raw
  if validSecret key then server.joinSecret key else server.joinLegacy raw now

/-- `resolveJoin` finds the room and the role of a host or speaker key. -/
def resolveJoin (raw : Bytes) (now : Time) :
    Handler (Except Error (Record × Bytes)) := do
  match ← server.joinKey raw now with
  | .error error => return .error error
  | .ok (record, role) =>
      if record.expires ≤ now.unix then
        return .error (fail 410 reasonExpired "room expired")
      else return .ok (record, role)

/-! ## Handlers -/

def pickDuration (hours : Int) : Except Error Duration :=
  if hours = 0 then .ok server.cfg.defaultDur
  else
    match server.cfg.durations.find? fun duration => duration.hours = hours with
    | some duration => .ok duration
    | none => .error (fail 400 reasonMalformed "duration not allowed")

/-- The loop of `handleReserve` that looks for a free name. -/
def reserveRoom (now : Time) (ttl : Duration) (host : Bytes) :
    (attempts : Nat) → Handler (Except Error Record)
  | 0 => return .error (.other (ascii "no free room name"))
  | attempts + 1 => do
      match ← Handler.randInts roomIDLen roomAlphabet.length with
      | .error error => return .error error
      | .ok draws =>
          match ← Handler.update (newRoomName draws) (.reserve now ttl host) with
          | .ok record => return .ok record
          | .error _ => reserveRoom now ttl host attempts

def handleReserve (isPost : Bool) (body : Option ReserveBody) :
    Handler Response := do
  match decode isPost body with
  | .error error => return .ofError error
  | .ok req =>
    match server.pickDuration req.hours with
    | .error error => return .ofError error
    | .ok ttl =>
      let now ← Handler.now
      match ← server.checkPoW req.challenge req.nonce now with
      | some reason => return .rejected reason
      | none =>
        match ← Handler.randRead secretBytes with
        | .error error => return .ofError error
        | .ok random =>
          let host := newSecret random
          match ← reserveRoom now ttl host 5 with
          | .error error => return .ofError error
          | .ok record => return .view (server.view record host now)

def handleManage (isPost : Bool) (body : Option ManageBody) :
    Handler Response := do
  match decode isPost body with
  | .error error => return .ofError error
  | .ok req =>
    let now ← Handler.now
    match ← server.resolve req.key now with
    | .error error => return .ofError error
    | .ok (record, host, migrated) =>
      return .view
        { server.view record host now with migrated := some migrated }

def handleExtend (isPost : Bool) (body : Option ExtendBody) :
    Handler Response := do
  match decode isPost body with
  | .error error => return .ofError error
  | .ok req =>
    match server.pickDuration req.hours with
    | .error error => return .ofError error
    | .ok ttl =>
      let now ← Handler.now
      match ← server.resolve req.key now with
      | .error error => return .ofError error
      | .ok (record, host, _) =>
        if record.revoked ≠ 0 then
          return .ofError (fail 410 reasonDeleted "room was deleted")
        else if record.expires ≤ now.unix then
          return .ofError (fail 410 reasonExpired "room expired")
        else
          match ← server.checkPoW req.challenge req.nonce now with
          | some reason => return .rejected reason
          | none =>
            match ← Handler.update record.room (.extend now ttl) with
            | .error error => return .ofError error
            | .ok record => return .view (server.view record host now)

/-- `handleRotate` replaces the host and speaker links and voids every token
issued so far. -/
def handleRotate (isPost : Bool) (body : Option ManageBody) :
    Handler Response := do
  match decode isPost body with
  | .error error => return .ofError error
  | .ok req =>
    let now ← Handler.now
    match ← server.resolve req.key now with
    | .error error => return .ofError error
    | .ok (record, _, _) =>
      match ← Handler.randRead secretBytes with
      | .error error => return .ofError error
      | .ok random =>
        let host := newSecret random
        match ← Handler.update record.room (.rotate host) with
        | .error error => return .ofError error
        | .ok record => return .view (server.view record host now)

/-- `revoke` -/
def revoke (room : RoomName) (now : Time) : Handler (Except Error Record) :=
  Handler.update room (.revoke room now)

def handleDelete (isPost : Bool) (body : Option ManageBody) :
    Handler Response := do
  match decode isPost body with
  | .error error => return .ofError error
  | .ok req =>
    let now ← Handler.now
    match ← server.resolve req.key now with
    | .error error => return .ofError error
    | .ok (record, _, _) =>
      match ← revoke record.room now with
      | .error error => return .ofError error
      | .ok _ => return .deleted

/-- The token of a join, and when it expires. -/
def joinToken (record : Record) (role : Bytes) (now : Time) : Bytes × Int :=
  let exp := min (Time.unix (now + server.cfg.linkTTL)) record.expires
  (server.token record.room role record.gen now (Time.ofUnix exp), exp)

/-- `handleJoin` turns a short host or speaker link into a redirect with a
fresh token. -/
def handleJoin (role path : Bytes) : Handler Response := do
  let secret := trimPrefix path
    (server.cfg.basePath ++ ascii "/" ++ role.take 1 ++ ascii "/")
  if ¬ validSecret secret then return .gone (ascii "invalid")
  else
    let found ← bySecretOrPull (server.hashSecret secret)
    let now ← Handler.now
    match found with
    | none => return .gone (ascii "invalid")
    | some (record, entry) =>
      if entry.role ≠ role then return .gone (ascii "invalid")
      else if record.revoked ≠ 0 then return .gone (ascii "deleted")
      else if ¬ record.current (some entry) then return .gone (ascii "replaced")
      else if record.expires ≤ now.unix then return .gone (ascii "expired")
      else return .redirect record.room (server.joinToken record role now).1

/-- `handleAPIJoin` is `/api/join` for the apps. -/
def handleAPIJoin (isPost : Bool) (body : Option JoinBody) :
    Handler Response := do
  match decode isPost body with
  | .error error => return .ofError error
  | .ok req =>
    if req.role ≠ [] ∧ req.role ≠ roleHost ∧ req.role ≠ roleSpeaker then
      return .ofError (fail 400 reasonMalformed "role must be host or speaker")
    else
      let now ← Handler.now
      match ← server.resolveJoin req.key now with
      | .error error => return .ofError error
      | .ok (record, role) =>
        if req.role = roleHost ∧ role ≠ roleHost then
          return .ofError
            (fail 403 reasonForbidden "a speaker link cannot join as host")
        else
          let role := if req.role ≠ [] then req.role else role
          let (jwt, exp) := server.joinToken record role now
          return .joined server.cfg.publicURL record.room role jwt
            (rfc3339 exp) (rfc3339 record.expires)

/-- `get`, once more after asking the peers for a short name that is not
stored. -/
def getOrPull (room : RoomName) : Handler (Option Record) := do
  match ← Handler.get room with
  | some stored => return some stored
  | none =>
      if isShortName room then
        Handler.pullSoon
        Handler.get room
      else return none

/-- What `handleRoom` answers for what the store holds. -/
def roomStatus (room : RoomName) (stored : Option Record) (now : Int) :
    Response :=
  match stored with
  | none =>
      if isLegacyName room then .status (ascii "legacy") none none
      else .status (ascii "unknown") none none
  | some record =>
      if record.revoked ≠ 0 then .status (ascii "deleted") none none
      else if record.expires ≤ now then .status (ascii "expired") none none
      else .status (ascii "active") (some record.expires)
        (some (genClaim record.gen))

/-- `handleRoom` answers Prosody: may this room exist, and which tokens
count? -/
def handleRoom (isGet : Bool) (path : Bytes) : Handler Response := do
  if ¬ isGet then
    return .ofError (fail 405 reasonMalformed "method not allowed")
  else
    let room := trimPrefix path (server.cfg.basePath ++ ascii "/api/room/")
    if ¬ validRoomName room then return .status (ascii "unknown") none none
    else
      let stored ← getOrPull room
      let now ← Handler.now
      return roomStatus room stored now.unix

/-- `handleAdminRevoke` deletes a room by name, once the request's signature
was checked. -/
def handleAdminRevoke (room : RoomName) : Handler Response := do
  if ¬ validRoomName room then return .text 400 (ascii "malformed")
  else
    let now ← Handler.now
    match ← revoke room now with
    | .error error => return .ofError error
    | .ok _ => return .revoked

end Server

namespace Sample

/-- The host token of the v1 room resolves as a v1 token. -/
theorem resolve_hostToken (now : Time) :
    server.resolve hostToken now = server.resolveLegacy readClaims now := by
  unfold Server.resolve
  rw [extractKey_hostToken, if_neg not_validSecret_hostToken,
    parseLegacyHostToken_hostToken]

end Sample

end FfmucSalt.MeetReserve
