import FfmucSalt.Encoding

/-!
# Configuration and libraries of a signer

Times are nanoseconds since 1970, as are durations.  Hashes, signatures and
JSON come from Go's standard library and are parameters here: what a result
needs of them is an assumption of that result.
-/

namespace FfmucSalt.MeetReserve

/-! ## Time -/

/-- `time.Time` -/
abbrev Time := Int

/-- `time.Duration` -/
abbrev Duration := Int

def nanosPerSecond : Int := 1000000000

def hour : Duration := 3600 * nanosPerSecond

def minute : Duration := 60 * nanosPerSecond

/-- `time.Unix(seconds, 0)` -/
def Time.ofUnix (seconds : Int) : Time := seconds * nanosPerSecond

/-- `time.Time{}` -/
def Time.zero : Time := Time.ofUnix (-62135596800)

/-- `t.Unix()` -/
def Time.unix (time : Time) : Int := time / nanosPerSecond

/-- `int64(d.Seconds())` for the whole seconds a duration has. -/
def Duration.seconds (duration : Duration) : Int :=
  duration.tdiv nanosPerSecond

/-- `int(d.Hours())` -/
def Duration.hours (duration : Duration) : Int := duration.tdiv hour

@[simp] theorem Time.unix_ofUnix (seconds : Int) :
    (Time.ofUnix seconds).unix = seconds := by
  simp only [unix, ofUnix, nanosPerSecond]
  omega

theorem Time.ofUnix_add (first second : Int) :
    Time.ofUnix (first + second) = Time.ofUnix first + Time.ofUnix second :=
  Int.add_mul first second nanosPerSecond

theorem Time.unix_mono {earlier later : Time} (ordered : earlier ≤ later) :
    earlier.unix ≤ later.unix :=
  Int.ediv_le_ediv (by decide) ordered

theorem Time.unix_nonneg {time : Time} (nonneg : 0 ≤ time) : 0 ≤ time.unix :=
  Int.ediv_nonneg nonneg (by decide)

/-- The civil date of a day counted from 1970, in the proleptic Gregorian
calendar. -/
def civilDate (day : Int) : Int × Int × Int :=
  let shifted := day + 719468
  let era := shifted / 146097
  let dayOfEra := shifted % 146097
  let yearOfEra := (dayOfEra - dayOfEra / 1460 + dayOfEra / 36524 -
    dayOfEra / 146096) / 365
  let dayOfYear := dayOfEra - (365 * yearOfEra + yearOfEra / 4 - yearOfEra / 100)
  let shiftedMonth := (5 * dayOfYear + 2) / 153
  let month := if shiftedMonth < 10 then shiftedMonth + 3 else shiftedMonth - 9
  let year := yearOfEra + era * 400 + if month ≤ 2 then 1 else 0
  (year, month, dayOfYear - (153 * shiftedMonth + 2) / 5 + 1)

/-- A number with at least `width` digits. -/
def padded (width : Nat) (value : Int) : Bytes :=
  let digits := formatUint 10 value.natAbs
  (if value < 0 then ascii "-" else []) ++
    List.replicate (width - digits.length) 0x30 ++ digits

/-- `time.Unix(seconds, 0).UTC().Format(time.RFC3339)` -/
def rfc3339 (seconds : Int) : Bytes :=
  let (year, month, day) := civilDate (seconds / 86400)
  let second := seconds % 86400
  padded 4 year ++ ascii "-" ++ padded 2 month ++ ascii "-" ++ padded 2 day ++
    ascii "T" ++ padded 2 (second / 3600) ++ ascii ":" ++
    padded 2 (second / 60 % 60) ++ ascii ":" ++ padded 2 (second % 60) ++
    ascii "Z"

example : rfc3339 1709210096 = ascii "2024-02-29T12:34:56Z" := by decide

/-! ## Errors -/

/-- `apiError` -/
structure ApiError where
  code : Nat
  reason : Bytes
  msg : Bytes
  deriving DecidableEq

/-- Errors as `writeErr` tells them apart. -/
inductive Error where
  | api (error : ApiError)
  | other (msg : Bytes)
  deriving DecidableEq

/-- `err.Error()` -/
def Error.msg : Error → Bytes
  | .api error => error.msg
  | .other msg => msg

def reasonMalformed : Bytes := ascii "malformed"
def reasonInvalid : Bytes := ascii "invalid"
def reasonUnknown : Bytes := ascii "unknown"
def reasonReplaced : Bytes := ascii "replaced"
def reasonDeleted : Bytes := ascii "deleted"
def reasonExpired : Bytes := ascii "expired"
def reasonForbidden : Bytes := ascii "forbidden"
def reasonInternal : Bytes := ascii "internal"
def powPrefix : Bytes := ascii "pow_"

def fail (code : Nat) (reason : Bytes) (msg : String) : Error :=
  .api { code, reason, msg := ascii msg }

/-! ## JSON -/

/-- A JSON text.  Numbers that are not written as integers stay literals. -/
inductive Json where
  | null
  | bool (value : Bool)
  | int (value : Int)
  | float (literal : Bytes)
  | str (text : Bytes)
  | arr (items : List Json)
  | obj (fields : List (Bytes × Json))

/-- A member of an object. -/
def Json.member (name : Bytes) : Json → Option Json
  | .obj fields => fields.lookup name
  | _ => none

/-- `json.Unmarshal` finds a struct's field without regard to case; the long s
and the Kelvin sign count as letters. -/
def foldName : Bytes → Bytes
  | 0xC5 :: 0xBF :: rest => 0x53 :: foldName rest
  | 0xE2 :: 0x84 :: 0xAA :: rest => 0x4B :: foldName rest
  | byte :: rest =>
      (if 0x61 ≤ byte ∧ byte ≤ 0x7A then byte - 0x20 else byte) :: foldName rest
  | [] => []

/-- `json.Unmarshal` into an `int64` that holds `old`. -/
def Json.toInt64 (old : Int) : Json → Option Int
  | .null => some old
  | .int value =>
      if -(2 ^ 63 : Int) ≤ value ∧ value < 2 ^ 63 then some value else none
  | _ => none

/-- `json.Unmarshal` into a string that holds `old`. -/
def Json.toStr (old : Bytes) : Json → Option Bytes
  | .null => some old
  | .str text => some text
  | _ => none

/-- `json.Unmarshal` into a struct that holds `old`: every member of the object
goes to the field of its name. -/
def Json.toStruct {α : Type} (assign : α → (name : Bytes) → Json → Option α)
    (old : α) : Json → Option α
  | .null => some old
  | .obj fields =>
      fields.foldlM (fun value field => assign value (foldName field.1) field.2)
        old
  | _ => none

/-! ## The signer -/

/-- Configuration of a signer, `config` in the source. -/
structure Config where
  keyID : UInt8
  priv : Bytes
  powKey : Bytes
  deriveKey : Bytes
  domain : Bytes
  publicURL : Bytes
  basePath : Bytes
  durations : List Duration
  defaultDur : Duration
  /-- An extension never reaches further than now + `maxAhead`. -/
  maxAhead : Duration
  /-- Lifetime of the tokens behind the short links. -/
  linkTTL : Duration
  /-- How far past the name's expiry v1 tokens could be extended. -/
  legacyMaxExt : Duration
  difficulty : Nat

/-- What `loadConfig` checks. -/
structure Config.Loads (cfg : Config) : Prop where
  maxAhead : 0 < cfg.maxAhead
  durations : ∀ duration ∈ cfg.durations, 0 < duration ∧
    duration ≤ cfg.maxAhead ∧ duration % hour = 0
  defaultDur : cfg.defaultDur ∈ cfg.durations
  linkTTL : 5 * minute ≤ cfg.linkTTL
  legacyMaxExt : 0 ≤ cfg.legacyMaxExt
  powKey : 32 ≤ cfg.powKey.length
  difficulty : cfg.difficulty ≤ 32

/-- What the signer uses of `crypto` and `encoding/json`.  `marshal` does not
fail on the values the signer writes. -/
structure Library where
  sha256 : Bytes → Bytes
  hmacSha256 : (key message : Bytes) → Bytes
  /-- `priv.Public()` of an Ed25519 key -/
  publicKey : Bytes → Bytes
  sign : (priv message : Bytes) → Bytes
  verify : (publicKey message signature : Bytes) → Bool
  marshal : Json → Bytes
  unmarshal : Bytes → Option Json

structure Server where
  cfg : Config
  lib : Library

/-- Whether a signature is the signer's own. -/
def Server.verifies (server : Server) (message signature : Bytes) : Bool :=
  server.lib.verify (server.lib.publicKey server.cfg.priv) message signature

end FfmucSalt.MeetReserve
