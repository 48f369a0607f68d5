import FfmucSalt.MeetReserve.Keys
import FfmucSalt.MeetReserve.Store

/-!
# The changes of the handlers

Every callback that a handler passes to `update`, as data: what is left of the
request when the callback runs.  `callback` is the body of each of them.
-/

namespace FfmucSalt.MeetReserve

inductive Change where
  /-- `handleReserve` -/
  | reserve (now : Time) (ttl : Duration) (host : Bytes)
  /-- `resolve`, for a newer v1 link than the one used for the migration -/
  | raise (exp : Int)
  /-- `resolve`, for a v1 room without a record -/
  | migrate (now : Time) (exp : Int) (host speaker : Bytes)
  /-- `handleExtend` -/
  | extend (now : Time) (ttl : Duration)
  /-- `handleRotate` -/
  | rotate (host : Bytes)
  /-- `revoke` -/
  | revoke (room : RoomName) (now : Time)
  deriving DecidableEq

/-- The pair of entries that reserving, migrating and rotating write. -/
def Server.pair (server : Server) (secrets : Secrets) (host speaker : Bytes)
    (gen : UInt64) : Secrets :=
  (secrets.insert (server.hashSecret host) { role := roleHost, gen }).insert
    (server.hashSecret speaker) { role := roleSpeaker, gen }

theorem Server.lookup_pair (server : Server) (secrets : Secrets)
    (host speaker : Bytes) (gen : UInt64) (hash : Hash) :
    (server.pair secrets host speaker gen)[hash]? =
      if server.hashSecret speaker = hash then
        some { role := roleSpeaker, gen }
      else if server.hashSecret host = hash then some { role := roleHost, gen }
      else secrets[hash]? := by
  rw [Server.pair, FiniteMap.lookup_insert, FiniteMap.lookup_insert]

/-- The callback of a change; `random` is what `nextGen` draws. -/
def Server.callback (server : Server) (change : Change) (random : UInt32) :
    Callback :=
  match change with
  | .reserve now ttl host => fun
      | some _ => .err (.other (ascii "collision"))
      | none =>
          .ok { Record.empty [] with
            created := now.unix
            expires := Time.unix (now + ttl)
            secrets := server.pair ∅ host (server.speakerSecret host) 0 }
  | .raise exp => fun
      | none => .nilDereference
      | some cur => .ok { cur with expires := exp }
  | .migrate now exp host speaker => fun _ =>
      .ok { Record.empty [] with
        created := now.unix
        expires := exp
        legacy := true
        secrets := server.pair ∅ host speaker 0 }
  | .extend now ttl => fun
      | none => .err (fail 410 reasonDeleted "room was deleted")
      | some cur =>
          if cur.revoked ≠ 0 then
            .err (fail 410 reasonDeleted "room was deleted")
          else if cur.expires ≤ now.unix then
            .err (fail 410 reasonExpired "room expired")
          else
            .ok { cur with
              expires := max cur.expires (min (cur.expires + ttl.seconds)
                (Time.unix (now + server.cfg.maxAhead))) }
  | .rotate host => fun
      | none => .err (fail 410 reasonDeleted "room was deleted")
      | some cur =>
          if cur.revoked ≠ 0 then
            .err (fail 410 reasonDeleted "room was deleted")
          else
            let gen := nextGen cur.gen random
            .ok { cur with
              gen
              secrets := server.pair cur.secrets host
                (server.speakerSecret host) gen }
  | .revoke room now => fun cur =>
      let revoked := fun cur : Record =>
        CallbackResult.ok
          (if cur.revoked = 0 then { cur with revoked := now.unix } else cur)
      match cur with
      | some cur => revoked cur
      | none =>
          match server.parseLegacyRoom room with
          | .error _ => .err (fail 404 reasonUnknown "unknown room")
          | .ok _ =>
              -- Unmigrated v1 room: a tombstone is enough to block it.
              revoked { Record.empty [] with created := now.unix, legacy := true }

/-- What a callback returns, and on which records. -/
inductive Server.Returns (server : Server) :
    Change → UInt32 → Option Record → Record → Prop where
  | reserve {now : Time} {ttl : Duration} {host : Bytes} {random : UInt32} :
      Returns server (.reserve now ttl host) random none
        { Record.empty [] with
          created := now.unix
          expires := Time.unix (now + ttl)
          secrets := server.pair ∅ host (server.speakerSecret host) 0 }
  | raise {exp : Int} {random : UInt32} {cur : Record} :
      Returns server (.raise exp) random (some cur) { cur with expires := exp }
  | migrate {now : Time} {exp : Int} {host speaker : Bytes} {random : UInt32}
      {cur : Option Record} :
      Returns server (.migrate now exp host speaker) random cur
        { Record.empty [] with
          created := now.unix
          expires := exp
          legacy := true
          secrets := server.pair ∅ host speaker 0 }
  | extend {now : Time} {ttl : Duration} {random : UInt32} {cur : Record}
      (alive : cur.revoked = 0) (notExpired : now.unix < cur.expires) :
      Returns server (.extend now ttl) random (some cur)
        { cur with
          expires := max cur.expires (min (cur.expires + ttl.seconds)
            (Time.unix (now + server.cfg.maxAhead))) }
  | rotate {host : Bytes} {random : UInt32} {cur : Record}
      (alive : cur.revoked = 0) :
      Returns server (.rotate host) random (some cur)
        { cur with
          gen := nextGen cur.gen random
          secrets := server.pair cur.secrets host (server.speakerSecret host)
            (nextGen cur.gen random) }
  | revoke {room : RoomName} {now : Time} {random : UInt32} {cur : Record} :
      Returns server (.revoke room now) random (some cur)
        (if cur.revoked = 0 then { cur with revoked := now.unix } else cur)
  | block {room : RoomName} {now : Time} {random : UInt32} {exp : Time}
      (parsed : server.parseLegacyRoom room = .ok exp) :
      Returns server (.revoke room now) random none
        { Record.empty [] with
          created := now.unix
          legacy := true
          revoked := now.unix }

theorem Server.returns_of_ok {server : Server} {change : Change}
    {random : UInt32} {cur : Option Record} {next : Record}
    (returned : server.callback change random cur = .ok next) :
    server.Returns change random cur next := by
  cases change with
  | reserve now ttl host =>
      cases cur with
      | none =>
          cases returned
          exact .reserve
      | some cur => cases returned
  | raise exp =>
      cases cur with
      | none => cases returned
      | some cur =>
          cases returned
          exact .raise
  | migrate now exp host speaker =>
      cases returned
      exact .migrate
  | extend now ttl =>
      cases cur with
      | none => cases returned
      | some cur =>
          simp only [callback] at returned
          split at returned
          · cases returned
          · rename_i alive
            split at returned
            · cases returned
            · rename_i notExpired
              cases returned
              exact .extend (not_not.mp alive) (not_le.mp notExpired)
  | rotate host =>
      cases cur with
      | none => cases returned
      | some cur =>
          simp only [callback] at returned
          split at returned
          · cases returned
          · rename_i alive
            cases returned
            exact .rotate (not_not.mp alive)
  | revoke room now =>
      cases cur with
      | none =>
          simp only [callback] at returned
          split at returned
          · cases returned
          · rename_i exp parsed
            cases returned
            exact .block parsed
      | some cur =>
          cases returned
          exact .revoke

/-! ## A signer to compute with

One signer with a fixed seed, and what SHA-256, HMAC and Ed25519 really make
of the inputs that occur for it. -/

namespace Sample

/-- The `count` bytes of a big-endian number. -/
def bytes : (count value : Nat) → Bytes
  | 0, _ => []
  | count + 1, value => (value / 256 ^ count % 256).toUInt8 :: bytes count value

/-- The public key is the second half of the private one. -/
def publicKey : Bytes :=
  bytes 32 0x03a107bff3ce10be1d70dd18e74bc09967e4d6309ba50d5f1ddc8664125531b8

def priv : Bytes :=
  bytes 32 0x000102030405060708090a0b0c0d0e0f101112131415161718191a1b1c1d1e1f ++
    publicKey

def deriveKey : Bytes :=
  bytes 32 0x47d12095301892e90341abec4a1c601236c598cb283bbabdc3ab0a737a0c91ba

def host : Bytes :=
  newSecret (bytes 16 0x10101010101010101010101010101010)

def secondHost : Bytes :=
  newSecret (bytes 16 0x11111111111111111111111111111111)

def thirdHost : Bytes :=
  newSecret (bytes 16 0x12121212121212121212121212121212)

/-- The payload of a v1 name that expires in January 2027. -/
def legacyPayload : Bytes := bytes 15 0x0101006b49d200a0a1a2a3a4a5a6a7

def legacySignature : Bytes :=
  bytes 32 0xf2bff909b9e0196a2c37817643d033b29084000c61c623eeb91cefa20354b76c ++
    bytes 32 0x039948a361522cd55a5cd1b3f04c550885b0ae2276159f2352ec779bb537ae0d

def legacyRoom : RoomName :=
  ascii "r-aeaqa22j2iakbincuoskljvh6k77scnz4amwulbxqf3ehubt" ++
    ascii "wkiiiaammhdch3vzdtx2ea2uw5wahgkiunqvelgvljondm7qjr" ++
    ascii "kqrbnqvyrhmfm7enjoy543wu324di"

def room : RoomName := newRoomName (List.range 14)

def config : Config :=
  { keyID := 1
    priv
    powKey := List.replicate 32 0x21
    deriveKey
    domain := ascii "meet.ffmuc.net"
    publicURL := ascii "https://meet.ffmuc.net"
    basePath := ascii "/reserve"
    durations := [72 * hour, 168 * hour, 720 * hour, 2160 * hour, 8760 * hour]
    defaultDur := 72 * hour
    maxAhead := 8760 * hour
    linkTTL := 12 * hour
    legacyMaxExt := 720 * hour
    difficulty := 0 }

/-- HMAC-SHA-256 of the label `legacy-host` and the v1 room. -/
def legacyHostMac : Bytes :=
  bytes 32 0x400821e30920f5d39d35b245f58a1fc10c590d0aa98201808474f13fd2659b30

def legacyHost : Bytes := newSecret (legacyHostMac.take secretBytes)

/-- HMAC-SHA-256 of the label `speaker` and a host secret. -/
def speakerMacs : List (Bytes × Bytes) :=
  [(host,
      bytes 32 0x9273f6c71bd7dc9d6046683d28b98f6103bb79ceebbb3d9056696441f4a0de82),
    (secondHost,
      bytes 32 0x5359da323eb9f27b88336c3b4e5cd26e3e80035b5583b8ae08cc220e53044768),
    (thirdHost,
      bytes 32 0x2491b5b02de18402dd465fd9a6442c9671960c60b6c2a397fbfcdc48fd30d5ad),
    (legacyHost,
      bytes 32 0xd12f455c7844e2b869d0c5ea211fbc0408b0a0aeffc77ff0444131016b7b7505)]

/-- SHA-256 of the link secrets behind their prefix. -/
def digests : List (Bytes × Bytes) :=
  [(host,
      bytes 32 0x4b8f6f3dc17fda04fbe5065e9b738e3958d6e0c931e302364d2b34484215d56b),
    (secondHost,
      bytes 32 0x9427451612ab9b7b46bcdf2843190f216a14ef5872ea08a114d4e4395a60ef9e),
    (thirdHost,
      bytes 32 0x1d0bcbd0a296289a97dda51d0461e7831c6092ee4aabe1a06d28a76ddbd86bee),
    (legacyHost,
      bytes 32 0xa9f4cd19bce2c4ac14cf2d3cbbb3da75af5226595e8b50d2bbb4ca23be6f44d5),
    (newSecret (bytes 16 0x9273f6c71bd7dc9d6046683d28b98f61),
      bytes 32 0xa86d937bc31bcae345ee8eb4a69ba8581ef3ead1298148fec78b24f4fab5293a),
    (newSecret (bytes 16 0x5359da323eb9f27b88336c3b4e5cd26e),
      bytes 32 0x4bb7ab103aab489c8000e548e2af76d4b2083cd4deec239fb84f3aad1f831768),
    (newSecret (bytes 16 0x2491b5b02de18402dd465fd9a6442c96),
      bytes 32 0x9284d42158cd27dd624ee2a428c03ee4fc690b63935cfd135ba4bb10b22a73fd),
    (newSecret (bytes 16 0xd12f455c7844e2b869d0c5ea211fbc04),
      bytes 32 0xeb0b09102f9c050080801108c9ce1068b15e5252843c8a9e1dfc27f13e587063)]

def quoted (text : Bytes) : Bytes := ascii "\"" ++ text ++ ascii "\""

mutual

/-- `json.Marshal`, for texts without escapes. -/
def marshal : Json → Bytes
  | .null => ascii "null"
  | .bool value => if value then ascii "true" else ascii "false"
  | .int value => formatInt value
  | .float literal => literal
  | .str text => quoted text
  | .arr items => ascii "[" ++ marshalItems items ++ ascii "]"
  | .obj fields => ascii "\x7b" ++ marshalFields fields ++ ascii "\x7d"

def marshalItems : List Json → Bytes
  | [] => []
  | [item] => marshal item
  | item :: items => marshal item ++ ascii "," ++ marshalItems items

def marshalFields : List (Bytes × Json) → Bytes
  | [] => []
  | [(name, value)] => quoted name ++ ascii ":" ++ marshal value
  | (name, value) :: fields =>
      quoted name ++ ascii ":" ++ marshal value ++ ascii "," ++
        marshalFields fields

end

/-- What the MAC of a proof-of-work challenge covers. -/
def challengeMessage : Bytes := ascii "1000.202020202020202020202020"

/-- HMAC-SHA-256 of the challenge's message. -/
def challengeMac : Bytes :=
  bytes 32 0xeb1e8adef3ef8cff1d1b9fa03cc34bb9a76fc4e9518b547990cc86477da76bae

def challenge : Bytes :=
  challengeMessage ++ ascii "." ++ hexEncode (challengeMac.take 16)

/-- SHA-256 of the challenge, a colon and the nonce 0. -/
def solutionDigest : Bytes :=
  bytes 32 0x6f7dc983613e3a6fc81de8097e93357a19cd7d5e1ecd84e7f5e421b21174e4a9

/-- The library without signatures and without JSON to read. -/
def hashes : Library :=
  { sha256 := fun message =>
      if message = challenge ++ ascii ":0" then solutionDigest
      else (digests.lookup (message.drop 21)).getD []
    hmacSha256 := fun _ message =>
      if message = challengeMessage then challengeMac
      else if message.head? = some 0x73 then
        (speakerMacs.lookup (message.drop 8)).getD []
      else legacyHostMac
    publicKey := fun _ => publicKey
    sign := fun _ _ => []
    verify := fun _ _ _ => false
    marshal
    unmarshal := fun _ => none }

/-- When the host token of the v1 room was issued, and when it expires. -/
def issued : Time := Time.ofUnix 1000

def tokenExp : Time := issued + 12 * hour

/-- What the host token of the v1 room says. -/
def hostClaims : Json :=
  Server.tokenClaims { cfg := config, lib := hashes } legacyRoom roleHost 0
    issued tokenExp

/-- Header and claims of the host token of the v1 room. -/
def hostInput : Bytes :=
  Server.tokenInput { cfg := config, lib := hashes } legacyRoom roleHost 0
    issued tokenExp

def hostSignature : Bytes :=
  bytes 32 0x9d171d3ea4f4907f33f4d5be07f580e7b9139816d8e2633134921c04c2fc43a8 ++
    bytes 32 0xb8c9ef65f4b21850eaf9d3104dfe1a03f092765401ff5418803656027f09dd05

/-- Ed25519 signatures by the private key. -/
def signatures : List (Bytes × Bytes) :=
  [(legacyContext ++ legacyPayload, legacySignature),
    (hostInput, hostSignature)]

def library : Library :=
  { hashes with
    sign := fun _ message => (signatures.lookup message).getD []
    verify := fun _ message signature =>
      signatures.lookup message == some signature
    unmarshal := fun text =>
      if text = marshal hostClaims then some hostClaims else none }

def server : Server := { cfg := config, lib := library }

/-- The host token of the v1 room. -/
def hostToken : Bytes :=
  server.token legacyRoom roleHost 0 issued tokenExp

theorem eq_some_getD {α : Type} {value : Option α} {fallback : α}
    (isSome : value.isSome) : value = some (value.getD fallback) := by
  cases value with
  | none => cases isSome
  | some value => rfl

example : server.parseLegacyRoom legacyRoom = .ok (Time.ofUnix 1800000000) := by
  decide +kernel

/-- What a signer reads of the host token of the v1 room. -/
def readClaims : LegacyClaims :=
  { iat := 1000
    exp := 44200
    room := legacyRoom
    id := roleHost ++ ascii ":" ++ legacyRoom }

theorem extractKey_hostToken : server.extractKey hostToken = hostToken := by
  decide +kernel

theorem not_validSecret_hostToken : ¬ validSecret hostToken := by
  decide +kernel

theorem parseLegacyHostToken_hostToken :
    server.parseLegacyHostToken hostToken = .ok readClaims := by
  decide +kernel

end Sample

end FfmucSalt.MeetReserve
