import FfmucSalt.MeetReserve.JoinTokens
import FfmucSalt.SignedRooms.Reopening
import FfmucSalt.SignedRooms.Tokens

/-!
# Which tokens count

The Prosody module takes a token that meet-reserve minted as long as the
record of its room allows it, and gives back the claims and the role that were
signed.
-/

namespace FfmucSalt.MeetReserve

open Program

/-- The clock shows `now`, and the record of the room is stored. -/
def Shows (room : RoomName) (record : Record) (now : Time) :
    (action : Action) → Answer action → Prop
  | .now, time => time = now
  | .get name, answer => name = room → answer = some record
  | _, _ => True

theorem handleRoom_shows {server : Server} {room : RoomName} {record : Record}
    {now : Time} (valid : validRoomName room) :
    Ensures (fun _ => True) (Shows room record now)
      (fun response =>
        response = Server.roomStatus room (some record) now.unix)
      (server.handle (.room true
        (server.cfg.basePath ++ ascii "/api/room/" ++ room))) := by
  change Ensures _ _ _ (server.handleRoom true _)
  unfold Server.handleRoom
  rw [if_neg (by simp), trimPrefix_append]
  dsimp only
  rw [if_neg (not_not.mpr valid)]
  apply Ensures.bind (fun stored => stored = some record)
  · apply Ensures.action trivial
    intro stored shown
    rw [shown rfl]
    exact .pure rfl
  · intro stored isStored
    apply Ensures.action trivial
    intro time isNow
    apply Ensures.pure
    rw [isStored, isNow]

/-- What the actions answer while the record is stored. -/
def shown (record : Record) (now : Time) : (action : Action) → Answer action
  | .now => now
  | .get _ => some record
  | .bySecret _ => none
  | .update _ _ => .ok record
  | .pullSoon => ()
  | .randRead _ => .ok []
  | .randInts _ _ => .ok []
  | .spend _ _ => true

theorem shows_shown (room : RoomName) (record : Record) (now : Time)
    (action : Action) : Shows room record now action (shown record now action) := by
  cases action with
  | now => exact rfl
  | get name => exact fun _ => rfl
  | _ => trivial

end FfmucSalt.MeetReserve

namespace FfmucSalt.SignedRooms

open MeetReserve (Cluster Json RoomName Server Time roleHost roleSpeaker)

/-- A name that both programs know as one of a reserved room. -/
def Named (server : Server) (room : RoomName) : Prop :=
  MeetReserve.isShortName room ∨ ∃ exp, server.parseLegacyRoom room = .ok exp

theorem Named.valid {server : Server} {room : RoomName}
    (named : Named server room) : MeetReserve.validRoomName room := by
  rcases named with short | ⟨exp, isLegacy⟩
  · simp [MeetReserve.validRoomName, short]
  · simp [MeetReserve.validRoomName,
      MeetReserve.isLegacyName_of_parseLegacyRoom isLegacy]

/-- The libraries are correct on a token, and on the answer about its room. -/
structure Plugin.Reads (plugin : Plugin) (json : JsonLibrary) (server : Server)
    (room role : Bytes) (gen : UInt64) (iat exp : Time)
    (later : MeetReserve.Record) (time : Time) : Prop where
  base64 : ∀ bytes, plugin.lib.base64Decode (base64Encode bytes) = some bytes
  empty : json.decode [] = none
  header : json.decode (server.lib.marshal server.tokenHeader) =
    some server.tokenHeader
  claims : json.decode (server.lib.marshal
    (server.tokenClaims room role gen iat exp)) =
      some (server.tokenClaims room role gen iat exp)
  signs : server.verifies (server.tokenInput room role gen iat exp)
    (server.lib.sign server.cfg.priv (server.tokenInput room role gen iat exp))
  signatureLength : (server.lib.sign server.cfg.priv
    (server.tokenInput room role gen iat exp)).length = sigLen
  answer : ∀ status expires gen,
    Server.roomStatus room (some later) time.unix = .status status expires gen →
      json.decode (server.lib.marshal (statusBody status expires gen)) =
        some (statusBody status expires gen)

section Acceptance

variable {plugin : Plugin} {json : JsonLibrary} {server : Server}
variable {room role : Bytes} {gen : UInt64} {iat exp time : Time}
variable {later : MeetReserve.Record}

/-! ## The token -/

theorem b64url_ne_nil {bytes : Bytes} (nonempty : bytes ≠ []) :
    b64url bytes ≠ [] := by
  intro isNil
  have decoded := b64urlDecode_b64url bytes
  rw [isNil] at decoded
  cases decoded
  exact nonempty rfl

/-- The parts of a minted token. -/
def partsOf (server : Server) (room role : Bytes) (gen : UInt64)
    (iat exp : Time) : Parts :=
  { input := server.tokenInput room role gen iat exp
    signature := b64url (server.lib.sign server.cfg.priv
      (server.tokenInput room role gen iat exp))
    header := server.tokenHeader
    claims := server.tokenClaims room role gen iat exp }

theorem parseToken_token
    (reads : plugin.Reads json server room role gen iat exp later time) :
    plugin.parseToken json (server.token room role gen iat exp) =
      some (partsOf server room role gen iat exp) := by
  have written : ∀ {value : Json},
      json.decode (server.lib.marshal value) = some value →
        server.lib.marshal value ≠ [] := by
    intro value decoded isNil
    rw [isNil, reads.empty] at decoded
    cases decoded
  have signed : server.lib.sign server.cfg.priv
      (server.tokenInput room role gen iat exp) ≠ [] := by
    intro isNil
    have long := reads.signatureLength
    rw [isNil] at long
    cases long
  have isAlg : isText (field server.tokenHeader (ascii "alg"))
      (ascii "EdDSA") := rfl
  have isIss : isText (field (server.tokenClaims room role gen iat exp)
      (ascii "iss")) issuer := rfl
  unfold Plugin.parseToken
  rw [MeetReserve.splitOn_token]
  dsimp only
  rw [if_neg (not_or.mpr ⟨b64url_ne_nil (written reads.header),
      not_or.mpr ⟨b64url_ne_nil (written reads.claims),
        b64url_ne_nil signed⟩⟩),
    b64url_decode_b64url (reads.base64 _), Option.getD_some, reads.header,
    Option.bind_eq_bind, Option.bind_some, if_neg (not_not.mpr isAlg),
    b64url_decode_b64url (reads.base64 _), Option.getD_some, reads.claims,
    Option.bind_some, if_neg (not_not.mpr isIss)]
  rfl

theorem checkSignature_token (trusts : plugin.Trusts server)
    (reads : plugin.Reads json server room role gen iat exp later time) :
    plugin.checkSignature json (partsOf server room role gen iat exp) =
      .ok () := by
  have isKid : json.toText (field server.tokenHeader (ascii "kid")) =
      formatUint 10 server.cfg.keyID.toNat := rfl
  unfold Plugin.checkSignature
  dsimp only [partsOf]
  rw [isKid, trusts.keys, if_pos rfl]
  dsimp only
  rw [b64url_decode_b64url (reads.base64 _)]
  refine if_neg (not_or.mpr ⟨not_not.mpr reads.signatureLength, ?_⟩)
  rw [trusts.verify _ _ reads.signatureLength]
  exact not_not.mpr reads.signs

/-! ## The claims -/

theorem checkClaims_token (sameDomain : server.cfg.domain = plugin.options.host)
    (now : Seconds) :
    plugin.checkClaims json (server.tokenClaims room role gen iat exp) now =
      if exp.unix + plugin.options.clockSkew < now then
        .error (ascii "token expired")
      else if now < iat.unix - 60 - plugin.options.clockSkew then
        .error (ascii "token not yet valid")
      else .ok room := by
  have isAud : isText (field (server.tokenClaims room role gen iat exp)
      (ascii "aud")) audience := rfl
  have isExp : json.number? (field (server.tokenClaims room role gen iat exp)
      (ascii "exp")) = some (exp.unix : ℚ) := rfl
  have isNbf : json.number? (field (server.tokenClaims room role gen iat exp)
      (ascii "nbf")) = some ((iat.unix - 60 : Int) : ℚ) := rfl
  have isSub : field (server.tokenClaims room role gen iat exp) (ascii "sub") =
      some (.str server.cfg.domain) := rfl
  have isRoom : text? (field (server.tokenClaims room role gen iat exp)
      (ascii "room")) = some room := rfl
  have ours : isText (some (.str server.cfg.domain)) plugin.options.host := by
    rw [sameDomain]
    exact beq_self_eq_true _
  unfold Plugin.checkClaims
  dsimp only
  rw [if_neg (not_not.mpr isAud), isExp, isNbf, isSub,
    if_neg (not_not.mpr ours), isRoom]
  simp only [Option.any_some, decide_eq_true_eq]
  norm_cast
  simp only [Int.not_le]

private theorem takeWhile_letters {letters rest : Bytes}
    (all : ∀ byte ∈ letters, isLetter byte) :
    (letters ++ 0x3A :: rest).takeWhile isLetter = letters := by
  rw [List.takeWhile_append_of_pos all, List.takeWhile_cons_of_neg (by decide),
    List.append_nil]

theorem matchRole_role {letters rest : Bytes} (nonempty : letters ≠ [])
    (all : ∀ byte ∈ letters, isLetter byte) :
    matchRole (letters ++ ascii ":" ++ rest) = some letters := by
  have colon : ascii ":" = [0x3A] := by decide
  unfold matchRole
  rw [colon, List.append_assoc, List.singleton_append, takeWhile_letters all]
  dsimp only
  rw [if_pos]
  exact ⟨nonempty, by simp⟩

/-- The user of a minted token has the role that was signed. -/
theorem checkUser_token (isRole : role = roleHost ∨ role = roleSpeaker) :
    checkUser (server.tokenClaims room role gen iat exp) room = .ok role := by
  have isId : text? (((field (server.tokenClaims room role gen iat exp)
      (ascii "context")).bind (field · (ascii "user"))).bind
        (field · (ascii "id"))) = some (role ++ ascii ":" ++ room) := rfl
  have isModerator : field (server.tokenClaims room role gen iat exp)
      (ascii "moderator") = some (.bool (role == roleHost)) := rfl
  have letters : ∀ byte ∈ role, isLetter byte := by
    rcases isRole with rfl | rfl
    · decide +kernel
    · decide +kernel
  have nonempty : role ≠ [] := by
    rcases isRole with rfl | rfl
    · decide
    · decide
  unfold checkUser
  dsimp only
  rw [isId]
  dsimp only
  rw [matchRole_role nonempty letters]
  dsimp only
  rw [isModerator]
  rcases isRole with rfl | rfl
  · simp [roleHost]
  · rw [if_neg]
    · rfl
    · exact not_or.mpr ⟨fun other => other.2 rfl, not_not.mpr rfl⟩

/-! ## The room -/

/-- The state of a room with this record, as a lookup finds it. -/
def stateOf (record : MeetReserve.Record) (now : Int) : Answer :=
  if record.revoked ≠ 0 then
    { status := deleted, expires := none, gen := ascii "0" }
  else if record.expires ≤ now then
    { status := ascii "expired", expires := none, gen := ascii "0" }
  else
    { status := active
      expires := some record.expires
      gen := MeetReserve.genClaim record.gen }

private theorem readState_statusBody {body status : Bytes}
    {expires : Option Int} {gen : Option Bytes}
    (decoded : json.decode body = some (statusBody status expires gen)) :
    json.readState body = some
      { status
        expires := expires.map (↑)
        gen := gen.getD (ascii "0") } := by
  unfold JsonLibrary.readState
  rw [decoded]
  cases expires with
  | none =>
      cases gen with
      | none => rfl
      | some gen => rfl
  | some expires =>
      cases gen with
      | none => rfl
      | some gen => rfl

/-- The JSON library reads what `handleRoom` writes about the record. -/
def JsonLibrary.ReadsStatus (json : JsonLibrary) (server : Server)
    (room : Bytes) (later : MeetReserve.Record) (time : Time) : Prop :=
  ∀ status expires gen,
    Server.roomStatus room (some later) time.unix = .status status expires gen →
      json.decode (server.lib.marshal (statusBody status expires gen)) =
        some (statusBody status expires gen)

/-- A lookup of a stored room reads its state. -/
theorem readState_roomStatus
    (answer : json.ReadsStatus server room later time) :
    ∃ body, lookupBody server
        (Server.roomStatus room (some later) time.unix) = some body ∧
      json.readState body = some (stateOf later time.unix) := by
  unfold JsonLibrary.ReadsStatus at answer
  unfold stateOf
  unfold Server.roomStatus at answer ⊢
  dsimp only at answer ⊢
  by_cases revoked : later.revoked ≠ 0
  · rw [if_pos revoked] at answer ⊢
    rw [if_pos revoked]
    exact ⟨_, rfl, readState_statusBody (answer _ _ _ rfl)⟩
  · rw [if_neg revoked] at answer ⊢
    rw [if_neg revoked]
    by_cases ended : later.expires ≤ time.unix
    · rw [if_pos ended] at answer ⊢
      rw [if_pos ended]
      exact ⟨_, rfl, readState_statusBody (answer _ _ _ rfl)⟩
    · rw [if_neg ended] at answer ⊢
      rw [if_neg ended]
      exact ⟨_, rfl, readState_statusBody (answer _ _ _ rfl)⟩

/-- The record of a reserved room decides alone. -/
theorem usableWith_of_hasRecord (trusts : plugin.Trusts server)
    (named : Named server room) {entry : Entry} (hasRecord : entry.hasRecord)
    (migrated : Bool) (now : Seconds) :
    plugin.usableWith (some entry) migrated now room =
      Plugin.byRecord entry now := by
  unfold Plugin.usableWith
  rcases named with short | ⟨exp, isLegacy⟩
  · rw [isShortName_eq] at short
    rw [roomUsable_short short]
    rfl
  · obtain ⟨long, seconds, isSeconds, -⟩ := (parseLegacyRoom_iff trusts).mp isLegacy
    rw [roomUsable_legacy long isSeconds]
    dsimp only
    rw [Plugin.legacyUsable, if_pos hasRecord]

theorem byRecord_stateOf {entry : Entry} {now : Int}
    (isState : entry.toAnswer = stateOf later now) :
    entry.hasRecord ∧ Plugin.byRecord entry now =
      if later.revoked ≠ 0 then .error (deleted, some entry)
      else if later.expires ≤ now then .error (ascii "expired", some entry)
      else .ok (some entry) := by
  unfold stateOf at isState
  unfold Plugin.byRecord
  by_cases revoked : later.revoked ≠ 0
  · rw [if_pos revoked] at isState
    rw [isState, if_pos revoked]
    exact ⟨by decide, if_pos (by decide)⟩
  · rw [if_neg revoked] at isState
    by_cases ended : later.expires ≤ now
    · rw [if_pos ended] at isState
      rw [isState, if_neg revoked, if_pos ended]
      exact ⟨by decide, if_pos (by decide)⟩
    · rw [if_neg ended] at isState
      have notExpired : ¬ (later.expires : ℚ) < (now : ℚ) := by
        norm_cast
        omega
      rw [isState, if_neg revoked, if_neg ended, if_neg (not_not.mpr rfl),
        if_neg (by simpa [Answer.expired] using notExpired)]
      exact ⟨rfl, rfl⟩

/-! ## All checks -/

/-- The checks of the room and of the user of a minted token. -/
theorem checkRoom_token (trusts : plugin.Trusts server)
    (named : Named server room) (isRole : role = roleHost ∨ role = roleSpeaker)
    {entry : Entry} {now : Int} (isState : entry.toAnswer = stateOf later now)
    (migrated : Bool) :
    Plugin.checkRoom json (plugin.usableWith (some entry) migrated now)
        (server.tokenClaims room role gen iat exp) room =
      if later.revoked ≠ 0 then .error (ascii "room " ++ deleted)
      else if later.expires ≤ now then
        .error (ascii "room " ++ ascii "expired")
      else if gen ≠ later.gen then .error (ascii "token was replaced")
      else .ok role := by
  obtain ⟨hasRecord, verdict⟩ := byRecord_stateOf isState
  have isGen : json.claimGen (server.tokenClaims room role gen iat exp) =
      MeetReserve.genClaim gen := rfl
  unfold Plugin.checkRoom
  rw [usableWith_of_hasRecord trusts named hasRecord, verdict]
  by_cases revoked : later.revoked ≠ 0
  · rw [if_pos revoked, if_pos revoked]
  rw [if_neg revoked, if_neg revoked]
  by_cases ended : later.expires ≤ now
  · rw [if_pos ended, if_pos ended]
  rw [if_neg ended, if_neg ended]
  have isEntry : entry.toAnswer =
      { status := active
        expires := some later.expires
        gen := MeetReserve.genClaim later.gen } := by
    rw [isState, stateOf, if_neg revoked, if_neg ended]
  simp only [Option.any_some, isEntry, isGen, checkUser_token isRole, true_and,
    decide_eq_true_eq, MeetReserve.genClaim_injective.ne_iff]

/-- What the checks of a minted token come to. -/
theorem checkToken_token (trusts : plugin.Trusts server)
    (sameDomain : server.cfg.domain = plugin.options.host)
    (reads : plugin.Reads json server room role gen iat exp later time)
    (usable : Bytes → Verdict) (now : Seconds) :
    plugin.checkToken json usable (partsOf server room role gen iat exp) now =
      if exp.unix + plugin.options.clockSkew < now then
        .error (ascii "token expired")
      else if now < iat.unix - 60 - plugin.options.clockSkew then
        .error (ascii "token not yet valid")
      else Plugin.checkRoom json usable
        (server.tokenClaims room role gen iat exp) room := by
  have isClaims : (partsOf server room role gen iat exp).claims =
      server.tokenClaims room role gen iat exp := rfl
  unfold Plugin.checkToken
  rw [checkSignature_token trusts reads, isClaims, checkClaims_token sameDomain]
  by_cases ended : exp.unix + plugin.options.clockSkew < now
  · rw [if_pos ended, if_pos ended]
    rfl
  rw [if_neg ended, if_neg ended]
  by_cases early : now < iat.unix - 60 - plugin.options.clockSkew
  · rw [if_pos early, if_pos early]
    rfl
  rw [if_neg early, if_neg early]
  rfl

theorem verifyToken_token
    (reads : plugin.Reads json server room role gen iat exp later time)
    (usable : Bytes → Verdict) (now : Seconds) :
    plugin.verifyToken json usable (server.token room role gen iat exp) now =
      match plugin.checkToken json usable
          (partsOf server room role gen iat exp) now with
      | .error reason => .rejected reason
      | .ok given =>
          .accepted (server.tokenClaims room role gen iat exp) given := by
  unfold Plugin.verifyToken
  rw [parseToken_token reads]
  dsimp only
  cases plugin.checkToken json usable (partsOf server room role gen iat exp)
    now with
  | error reason => rfl
  | ok given => rfl

/-- What makes a token count that was minted for a record at `now`. -/
structure Counts (plugin : Plugin) (record later : MeetReserve.Record)
    (exp : Int) (now time : Time) : Prop where
  notExpired : time.unix ≤ exp + plugin.options.clockSkew
  notEarly : now.unix - 60 - plugin.options.clockSkew ≤ time.unix
  alive : later.revoked = 0
  unexpired : time.unix < later.expires
  sameGen : later.gen = record.gen

/-- If `counts`, Prosody gives back the claims and the role that were signed
into the token, else `nil`, when the clock shows `time` and the answer of
`handleRoom` to its lookup is about `later`. -/
def Plugin.TakesIff (plugin : Plugin) (json : JsonLibrary) (server : Server)
    (record later : MeetReserve.Record) (role : Bytes) (now time : Time)
    (counts : Prop) : Prop :=
  let minted := server.joinToken record role now
  let claims := server.tokenClaims record.room role record.gen now
    (Time.ofUnix minted.2)
  Program.Ensures (fun _ => True) (MeetReserve.Shows record.room later time)
    (fun response => ∃ body answer, lookupBody server response = some body ∧
      json.readState body = some answer ∧
      ∀ entry : Entry, entry.toAnswer = answer → ∀ migrated,
        let verified := plugin.verifyToken json
          (plugin.usableWith (some entry) migrated time.unix) minted.1
          time.unix
        (counts → verified = .accepted claims role) ∧
          (¬ counts → ∃ reason, verified = .rejected reason))
    (server.handle (.room true
      (server.cfg.basePath ++ ascii "/api/room/" ++ record.room)))

theorem checkToken_counts (trusts : plugin.Trusts server)
    (sameDomain : server.cfg.domain = plugin.options.host)
    {record : MeetReserve.Record} (named : Named server record.room)
    (isRole : role = roleHost ∨ role = roleSpeaker) {exp : Int} {now : Time}
    (reads : plugin.Reads json server record.room role record.gen now
      (Time.ofUnix exp) later time) {entry : Entry}
    (isState : entry.toAnswer = stateOf later time.unix) (migrated : Bool) :
    let checked := plugin.checkToken json
      (plugin.usableWith (some entry) migrated time.unix)
      (partsOf server record.room role record.gen now (Time.ofUnix exp))
      time.unix
    (Counts plugin record later exp now time → checked = .ok role) ∧
      (¬ Counts plugin record later exp now time →
        ∃ reason, checked = .error reason) := by
  dsimp only
  rw [checkToken_token trusts sameDomain reads,
    checkRoom_token trusts named isRole isState, MeetReserve.Time.unix_ofUnix]
  constructor
  · intro counts
    rw [if_neg (not_lt.mpr counts.notExpired),
      if_neg (not_lt.mpr counts.notEarly), if_neg (not_not.mpr counts.alive),
      if_neg (not_le.mpr counts.unexpired),
      if_neg (not_not.mpr counts.sameGen.symm)]
  · intro fails
    split
    · exact ⟨_, rfl⟩
    rename_i notExpired
    split
    · exact ⟨_, rfl⟩
    rename_i notEarly
    split
    · exact ⟨_, rfl⟩
    rename_i alive
    split
    · exact ⟨_, rfl⟩
    rename_i unexpired
    split
    · exact ⟨_, rfl⟩
    rename_i sameGen
    exact (fails
      { notExpired := not_lt.mp notExpired
        notEarly := not_lt.mp notEarly
        alive := not_not.mp alive
        unexpired := not_le.mp unexpired
        sameGen := (not_not.mp sameGen).symm }).elim

/-- The record of a reserved room decides which of its tokens count. -/
theorem takesIff_counts (trusts : plugin.Trusts server)
    (sameDomain : server.cfg.domain = plugin.options.host)
    {record : MeetReserve.Record} (named : Named server record.room)
    (isRole : role = roleHost ∨ role = roleSpeaker) {now : Time}
    (reads : plugin.Reads json server record.room role record.gen now
      (Time.ofUnix (server.joinToken record role now).2) later time) :
    plugin.TakesIff json server record later role now time
      (Counts plugin record later (server.joinToken record role now).2 now
        time) := by
  refine (MeetReserve.handleRoom_shows named.valid).mono ?_
  intro response isResponse
  obtain ⟨body, isBody, isState⟩ := readState_roomStatus reads.answer
  rw [isResponse]
  refine ⟨body, _, isBody, isState, ?_⟩
  intro entry isEntry migrated
  obtain ⟨accepts, rejects⟩ := checkToken_counts trusts sameDomain named isRole
    reads isEntry migrated
  have isToken : (server.joinToken record role now).1 =
      server.token record.room role record.gen now
        (Time.ofUnix (server.joinToken record role now).2) := rfl
  dsimp only
  rw [isToken, verifyToken_token reads]
  constructor
  · intro counts
    rw [accepts counts]
  · intro fails
    obtain ⟨reason, isReason⟩ := rejects fails
    rw [isReason]
    exact ⟨reason, rfl⟩

/-- Every record of a signer is one of a reserved room. -/
theorem named_of_run {ι : Type} [DecidableEq ι] {cluster : Cluster ι}
    (run : Cluster.Run server
      (fun _ _ operation => server.ComputesIn operation) .initial cluster)
    {site : ι} {record : MeetReserve.Record}
    (stored : (cluster.stores site).rooms[room]? = some record) :
    record.room = room ∧ Named server room := by
  obtain ⟨run, every⟩ := Cluster.marked_of_run run
  have wellFormed := MeetReserve.Cluster.wellFormed_of_run run site
  have isRoom := wellFormed.rooms.keyed stored
  refine ⟨isRoom, ?_⟩
  have marked := (every.stores site).rooms stored
  have valid := wellFormed.rooms.valid stored
  unfold MeetReserve.Server.Marked at marked
  rw [isRoom] at marked
  rw [MeetReserve.validRoomName, Bool.or_eq_true] at valid
  rcases valid with short | long
  · exact .inl short
  · exact .inr (marked long).2

/-- Prosody takes a minted token for as long as the record of the room allows
it, and refuses it otherwise. -/
theorem token_taken_iff (trusts : plugin.Trusts server)
    (sameDomain : server.cfg.domain = plugin.options.host) :
    (∀ (ι : Type) [DecidableEq ι] (cluster : Cluster ι) site (room : RoomName)
        (record : MeetReserve.Record),
      Cluster.Run server (fun _ _ operation => server.ComputesIn operation)
        .initial cluster →
      (cluster.stores site).rooms[room]? = some record →
        record.room = room ∧ Named server room) ∧
    ∀ json record later role now time, Named server record.room →
      role = roleHost ∨ role = roleSpeaker →
      Plugin.Reads plugin json server record.room role record.gen now
        (Time.ofUnix (server.joinToken record role now).2) later time →
      plugin.TakesIff json server record later role now time
        (Counts plugin record later (server.joinToken record role now).2 now
          time) := by
  constructor
  · intro ι _ cluster site room record run stored
    exact named_of_run run stored
  · intro json record later role now time named isRole reads
    exact takesIff_counts trusts sameDomain named isRole reads

end Acceptance

/-! ## The token of the migrated v1 room -/

namespace Sample

open MeetReserve.Sample (server issued tokenExp hostClaims legacyRoom
  migratedRecord)

/-- What the lookup of the v1 room finds. -/
def answerBody : Json :=
  statusBody active (some 44200) (some (MeetReserve.genClaim 0))

/-- `util.json`, for the texts that occur for the v1 room. -/
def json : JsonLibrary :=
  { decode := fun text =>
      if text = server.lib.marshal server.tokenHeader then
        some server.tokenHeader
      else if text = server.lib.marshal hostClaims then some hostClaims
      else if text = server.lib.marshal answerBody then some answerBody
      else none
    tostring := fun _ => []
    tonumber := fun _ => none }

private theorem minted : server.joinToken migratedRecord roleHost issued =
    (MeetReserve.Sample.hostToken, 44200) := by
  decide +kernel

theorem json_decodes {value : Json} {text : Bytes}
    (isText : text = server.lib.marshal value)
    (known : value = server.tokenHeader ∨ value = hostClaims ∨
      value = answerBody) : json.decode text = some value := by
  have others : server.lib.marshal hostClaims ≠
        server.lib.marshal server.tokenHeader ∧
      server.lib.marshal answerBody ≠ server.lib.marshal server.tokenHeader ∧
      server.lib.marshal answerBody ≠ server.lib.marshal hostClaims := by
    decide
  unfold json
  dsimp only
  rw [isText]
  rcases known with rfl | rfl | rfl
  · rw [if_pos rfl]
  · rw [if_neg others.1, if_pos rfl]
  · rw [if_neg others.2.1, if_neg others.2.2, if_pos rfl]

private theorem reads (plugin : Plugin)
    (correct : plugin.lib.base64Decode = base64Decode) :
    plugin.Reads json server legacyRoom roleHost 0 issued tokenExp
      migratedRecord issued where
  base64 bytes := by
    rw [correct]
    exact base64Decode_base64Encode bytes
  empty := by
    unfold json
    dsimp only
    rw [if_neg (by decide), if_neg (by decide),
      if_neg (by decide)]
  header := json_decodes rfl (.inl rfl)
  claims := by
    have isClaims : server.tokenClaims legacyRoom roleHost 0 issued tokenExp =
        hostClaims := rfl
    rw [isClaims]
    exact json_decodes rfl (.inr (.inl rfl))
  signs := by decide +kernel
  signatureLength := by decide +kernel
  answer status expires gen isStatus := by
    have isAnswer : Server.roomStatus legacyRoom (some migratedRecord)
        issued.unix =
          .status active (some 44200) (some (MeetReserve.genClaim 0)) := by
      decide
    rw [isAnswer] at isStatus
    cases isStatus
    exact json_decodes rfl (.inr (.inr rfl))

/-- A module whose clocks would have to be a minute apart. -/
def hasty : Plugin :=
  { plugin with options := { plugin.options with clockSkew := -61 } }

private theorem trustsHasty : hasty.Trusts server where
  keys := trusts.keys
  verify := trusts.verify

theorem named_legacyRoom : Named server legacyRoom :=
  .inr ⟨MeetReserve.Time.ofUnix 1800000000, by decide +kernel⟩

theorem room_migratedRecord : migratedRecord.room = legacyRoom ∧
    migratedRecord.gen = 0 := by
  decide

private theorem readsMinted (plugin : Plugin)
    (correct : plugin.lib.base64Decode = base64Decode) :
    plugin.Reads json server migratedRecord.room roleHost migratedRecord.gen
      issued (Time.ofUnix (server.joinToken migratedRecord roleHost issued).2)
      migratedRecord issued := by
  rw [minted, room_migratedRecord.1, room_migratedRecord.2]
  exact reads plugin correct

/-- A module with a clock skew below minus a minute refuses fresh tokens. -/
theorem hasty_refuses :
    ¬ ∀ (plugin : Plugin) (json : JsonLibrary) (server : Server),
      plugin.Trusts server → server.cfg.domain = plugin.options.host →
      ∀ record later role now time, Named server record.room →
        role = roleHost ∨ role = roleSpeaker →
        record.revoked = 0 → now.unix < record.expires → now ≤ time →
        Plugin.Reads plugin json server record.room role record.gen now
          (Time.ofUnix (server.joinToken record role now).2) later time →
        plugin.TakesIff json server record later role now time
          (time.unix ≤ (server.joinToken record role now).2 +
              plugin.options.clockSkew ∧
            later.revoked = 0 ∧ time.unix < later.expires ∧
            later.gen = record.gen) := by
  intro claimed
  have named : Named server migratedRecord.room := by
    rw [room_migratedRecord.1]
    exact named_legacyRoom
  have inTime : issued.unix ≤ (server.joinToken migratedRecord roleHost issued).2 +
      hasty.options.clockSkew ∧ migratedRecord.revoked = 0 ∧
      issued.unix < migratedRecord.expires ∧
      migratedRecord.gen = migratedRecord.gen := by
    rw [minted]
    decide
  have early : ¬ Counts hasty migratedRecord migratedRecord
      (server.joinToken migratedRecord roleHost issued).2 issued issued :=
    fun counts => absurd counts.notEarly (by decide)
  have accepts := claimed hasty json server trustsHasty rfl migratedRecord
    migratedRecord roleHost issued issued named (.inl rfl) inTime.2.1
    inTime.2.2.1 le_rfl (readsMinted hasty rfl)
  have refuses := takesIff_counts trustsHasty rfl named (.inl rfl)
    (readsMinted hasty rfl)
  obtain ⟨response, ⟨body, answer, isBody, isAnswer, accepts⟩,
    ⟨otherBody, other, isOther, isOtherAnswer, refuses⟩⟩ :=
    (accepts.and refuses).exists_result _
      (MeetReserve.shows_shown _ migratedRecord issued)
  let entry : Entry := { answer with atTime := 0, number := 0 }
  cases isBody.symm.trans isOther
  cases isAnswer.symm.trans isOtherAnswer
  have accepted := (accepts entry rfl false).1 inTime
  obtain ⟨reason, rejected⟩ := (refuses entry rfl false).2 early
  rw [accepted] at rejected
  cases rejected

/-- The host of the migrated v1 room gets in. -/
theorem token_taken_iff_hostToken :
    plugin.TakesIff json server migratedRecord migratedRecord roleHost issued
      issued (Counts plugin migratedRecord migratedRecord 44200 issued issued) := by
  have taken := (token_taken_iff trusts rfl).2 json migratedRecord
    migratedRecord roleHost issued issued
    (by rw [room_migratedRecord.1]; exact named_legacyRoom) (.inl rfl) (readsMinted plugin rfl)
  rwa [minted] at taken

end Sample

end FfmucSalt.SignedRooms
