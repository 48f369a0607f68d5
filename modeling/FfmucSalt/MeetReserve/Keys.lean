import FfmucSalt.MeetReserve.Names

/-!
# Secrets, tokens and pasted keys

How link secrets are made and hashed, the tokens a signer mints, the v1 host
tokens it still accepts, and `extractKey`, which finds the credential in
whatever a user pasted.
-/

namespace FfmucSalt.MeetReserve

def secretBytes : Nat := 16

/-- `newSecret`, given what `rand.Read` delivers. -/
def newSecret (random : Bytes) : Bytes := b64url random

def validSecret (value : Bytes) : Bool :=
  if value.length ≠ b64urlLength secretBytes then false
  else (b64urlDecode value).isSome

/-- How a generation travels in tokens and to Prosody. -/
def genClaim (gen : UInt64) : Bytes := formatUint 16 gen.toNat

/-- The generation after a rotation: counter up, fresh random low bits. -/
def nextGen (gen : UInt64) (random : UInt32) : UInt64 :=
  (((gen >>> 32) + 1) <<< 32) ||| random.toUInt64

/-- What `legacyClaims` reads of a token's body. -/
structure LegacyClaims where
  iat : Int
  exp : Int
  room : Bytes
  /-- `context.user.id` -/
  id : Bytes
  deriving DecidableEq

namespace LegacyClaims

def empty : LegacyClaims := { iat := 0, exp := 0, room := [], id := [] }

def assignUser (id : Bytes) (name : Bytes) (value : Json) : Option Bytes :=
  if name = foldName (ascii "id") then value.toStr id else some id

def assignContext (id : Bytes) (name : Bytes) (value : Json) : Option Bytes :=
  if name = foldName (ascii "user") then value.toStruct assignUser id
  else some id

def assign (claims : LegacyClaims) (name : Bytes) (value : Json) :
    Option LegacyClaims :=
  if name = foldName (ascii "iat") then
    (value.toInt64 claims.iat).map fun iat => { claims with iat }
  else if name = foldName (ascii "exp") then
    (value.toInt64 claims.exp).map fun exp => { claims with exp }
  else if name = foldName (ascii "room") then
    (value.toStr claims.room).map fun room => { claims with room }
  else if name = foldName (ascii "context") then
    (value.toStruct assignContext claims.id).map fun id => { claims with id }
  else some claims

/-- `json.Unmarshal` into `legacyClaims` -/
def ofJson (value : Json) : Option LegacyClaims :=
  value.toStruct assign empty

end LegacyClaims

def errNoHostLink : Error := .other (ascii "no host link found")

namespace Server

variable (server : Server)

def hashSecret (secret : Bytes) : Hash :=
  hexEncode (server.lib.sha256 (ascii "ffmuc-reserve-secret\x00" ++ secret))

/-- `derive` makes speaker and migrated v1 secrets. -/
def derive (label input : Bytes) : Bytes :=
  b64url ((server.lib.hmacSha256 server.cfg.deriveKey
    (label ++ [0x00] ++ input)).take secretBytes)

def speakerSecret (host : Bytes) : Bytes :=
  server.derive (ascii "speaker") host

/-- Migrated v1 rooms get deterministic secrets. -/
def legacyHostSecret (room : RoomName) : Bytes :=
  server.derive (ascii "legacy-host") room

/-! ## Tokens -/

/-- Members of a Go map are written in the order of their names. -/
def tokenHeader : Json :=
  .obj [(ascii "alg", .str (ascii "EdDSA")),
    (ascii "kid", .str (formatUint 10 server.cfg.keyID.toNat)),
    (ascii "typ", .str (ascii "JWT"))]

def tokenClaims (room role : Bytes) (gen : UInt64) (iat exp : Time) : Json :=
  .obj [(ascii "aud", .str (ascii "jitsi")),
    (ascii "context", .obj [(ascii "user",
      .obj [(ascii "id", .str (role ++ ascii ":" ++ room))])]),
    (ascii "exp", .int exp.unix),
    (ascii "gen", .str (genClaim gen)),
    (ascii "iat", .int iat.unix),
    (ascii "iss", .str (ascii "ffmuc-reserve")),
    (ascii "moderator", .bool (role == roleHost)),
    (ascii "nbf", .int (iat.unix - 60)),
    (ascii "room", .str room),
    (ascii "sub", .str server.cfg.domain)]

/-- Header and claims as they are signed. -/
def tokenInput (room role : Bytes) (gen : UInt64) (iat exp : Time) : Bytes :=
  b64url (server.lib.marshal server.tokenHeader) ++ ascii "." ++
    b64url (server.lib.marshal (server.tokenClaims room role gen iat exp))

def token (room role : Bytes) (gen : UInt64) (iat exp : Time) : Bytes :=
  let input := server.tokenInput room role gen iat exp
  input ++ ascii "." ++ b64url (server.lib.sign server.cfg.priv input)

/-- `parseLegacyHostToken` checks a v1 host token.  Expired tokens are fine:
the record or the v1 extension window decides. -/
def parseLegacyHostToken (input : Bytes) : Except Error LegacyClaims :=
  match input.splitOn 0x2E with
  | [header, body, signature] =>
      match b64urlDecode signature with
      | none => .error (.other (ascii "invalid host link"))
      | some sig =>
          if ¬ server.verifies (header ++ ascii "." ++ body) sig then
            .error (.other (ascii "invalid host link"))
          else
            match b64urlDecode body with
            | none => .error (.other (ascii "invalid host link"))
            | some text =>
                match (server.lib.unmarshal text).bind LegacyClaims.ofJson with
                | none => .error (.other (ascii "this is not a host link"))
                | some claims =>
                    if claims.id ≠ roleHost ++ ascii ":" ++ claims.room then
                      .error (.other (ascii "this is not a host link"))
                    else
                      match server.parseLegacyRoom claims.room with
                      | .error error => .error error
                      | .ok _ => .ok claims
  | _ => .error errNoHostLink

/-! ## Pasted keys -/

def markers : List Bytes :=
  [ascii "#k=", ascii "#m=", ascii "jwt=", server.cfg.basePath ++ ascii "/h/",
    server.cfg.basePath ++ ascii "/s/"]

/-- Drop everything up to the last occurrence of a marker. -/
def afterMarker (input marker : Bytes) : Bytes :=
  match lastIndex input marker with
  | some position => input.drop (position + marker.length)
  | none => input

/-- `extractKey` pulls the credential out of whatever the user pasted. -/
def extractKey (input : Bytes) : Bytes :=
  let key := server.markers.foldl afterMarker (trimSpace input)
  match indexAny key (ascii "&#?/ ") with
  | some position => key.take position
  | none => key

end Server

/-! ## Facts about secrets and generations -/

theorem genClaim_injective : Function.Injective genClaim := by
  intro first second equal
  exact UInt64.toNat_inj.mp
    (formatUint_injective (by decide) (by decide) equal)

theorem toNat_nextGen {gen : UInt64} {random : UInt32}
    (noWrap : gen.toNat / 2 ^ 32 + 1 < 2 ^ 32) :
    (nextGen gen random).toNat =
      (gen.toNat / 2 ^ 32 + 1) * 2 ^ 32 + random.toNat := by
  have counter : ((gen >>> 32) + 1).toNat = gen.toNat / 2 ^ 32 + 1 := by
    rw [UInt64.toNat_add, UInt64.toNat_shiftRight]
    simp [Nat.shiftRight_eq_div_pow]
    omega
  have shifted : (((gen >>> 32) + 1) <<< 32).toNat =
      (gen.toNat / 2 ^ 32 + 1) <<< 32 := by
    rw [UInt64.toNat_shiftLeft, counter]
    simp [Nat.shiftLeft_eq]
    omega
  have low : random.toNat < 2 ^ 32 := random.toNat_lt
  rw [nextGen, UInt64.toNat_or, shifted, UInt32.toNat_toUInt64,
    ← Nat.shiftLeft_add_eq_or_of_lt low, Nat.shiftLeft_eq]

theorem lt_nextGen {gen : UInt64} {random : UInt32}
    (noWrap : gen.toNat / 2 ^ 32 + 1 < 2 ^ 32) : gen < nextGen gen random := by
  rw [UInt64.lt_iff_toNat_lt, toNat_nextGen noWrap]
  omega

/-- At the end of the counter the generation falls back. -/
theorem nextGen_lt {gen : UInt64} {random : UInt32}
    (wraps : ¬ gen.toNat / 2 ^ 32 + 1 < 2 ^ 32) : nextGen gen random < gen := by
  have small := gen.toNat_lt
  have full : ((gen >>> 32) + 1).toNat = 2 ^ 32 := by
    rw [UInt64.toNat_add, UInt64.toNat_shiftRight]
    simp [Nat.shiftRight_eq_div_pow]
    omega
  have gone : ((gen >>> 32) + 1) <<< 32 = 0 := by
    rw [← UInt64.toNat_inj, UInt64.toNat_shiftLeft, full]
    rfl
  have low : random.toNat < 2 ^ 32 := random.toNat_lt
  rw [nextGen, gone, UInt64.lt_iff_toNat_lt, UInt64.zero_or,
    UInt32.toNat_toUInt64]
  omega

/-- What the signer makes is a valid secret. -/
theorem validSecret_b64url {bytes : Bytes} (long : bytes.length = secretBytes) :
    validSecret (b64url bytes) := by
  have length : (b64url bytes).length = b64urlLength secretBytes := by
    rw [b64url, List.length_map, length_sextets, long]
  unfold validSecret
  rw [if_neg (not_not.mpr length), b64urlDecode_b64url]
  rfl

end FfmucSalt.MeetReserve
