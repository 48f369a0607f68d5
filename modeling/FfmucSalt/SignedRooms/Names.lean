import FfmucSalt.Base32
import FfmucSalt.Foundation.FiniteMap

/-!
# Options, libraries and room names of the Prosody module

The part of `mod_ffmuc_signed_rooms.lua` that reads room names.  Times are
whole seconds, as `os.time` returns them, and so are the options.
-/

namespace FfmucSalt.SignedRooms

/-- Seconds since 1970, or a number of seconds. -/
abbrev Seconds := Int

/-- The options of the module. -/
structure Options where
  /-- `module.host` -/
  host : Bytes
  /-- The imported public keys by key id. -/
  keys : FiniteMap Bytes Bytes
  maxExtension : Seconds
  clockSkew : Seconds
  lookupUrl : Option Bytes
  lookupTtl : Seconds
  /-- `ffmuc_signed_rooms_lookup_grace` as it is set. -/
  lookupGraceSet : Seconds

def Options.lookupGrace (options : Options) : Seconds :=
  max options.lookupTtl options.lookupGraceSet

/-- What reading names and tokens uses of Prosody's libraries. -/
structure Library where
  /-- `crypto.ed25519_verify` -/
  ed25519Verify : (key message signature : Bytes) → Bool
  /-- `base64.decode` -/
  base64Decode : Bytes → Option Bytes

/-- The module on a host. -/
structure Plugin where
  options : Options
  lib : Library

def roomPrefix : Bytes := ascii "r-"

def roomContext : Bytes := ascii "ffmuc-room-v1\x00"

def payloadLen : Nat := 15

def sigLen : Nat := 64

def shortAlphabet : Bytes := ascii "bcdfghjkmnpqrstvwxz23456789"

def shortLen : Nat := 14

/-- Base32 of 15 + 64 bytes, unpadded. -/
def legacyLen : Nat := 127

def isSignedName (name : Bytes) : Bool :=
  name.take roomPrefix.length == roomPrefix

def isShortName (name : Bytes) : Bool :=
  if ¬ isSignedName name ∨ name.length ≠ roomPrefix.length + shortLen then false
  else (name.drop roomPrefix.length).all shortAlphabet.contains

/-- `parse_room` returns the name expiry if the room name carries a valid
signature. -/
def Plugin.parseRoom (plugin : Plugin) (name : Bytes) : Except Bytes Seconds :=
  if ¬ isSignedName name then .error (ascii "not signed")
  else
    match b32_decode (name.drop roomPrefix.length) with
    | none => .error (ascii "malformed")
    | some raw =>
        if raw.length ≠ payloadLen + sigLen ∨ raw.getD 0 0 ≠ 1 then
          .error (ascii "malformed")
        else
          match plugin.options.keys[formatUint 10 (raw.getD 1 0).toNat]? with
          | none => .error (ascii "unknown key")
          | some key =>
              let payload := raw.take payloadLen
              if ¬ plugin.lib.ed25519Verify key (roomContext ++ payload)
                  (raw.drop payloadLen) then
                .error (ascii "bad signature")
              else
                let b1 := (payload.getD 3 0).toNat
                let b2 := (payload.getD 4 0).toNat
                let b3 := (payload.getD 5 0).toNat
                let b4 := (payload.getD 6 0).toNat
                .ok (((b1 * 256 + b2) * 256 + b3) * 256 + b4 : Nat)

/-- The names of v1 rooms, by their length. -/
def isLegacyLength (name : Bytes) : Bool :=
  name.length == roomPrefix.length + legacyLen

end FfmucSalt.SignedRooms
