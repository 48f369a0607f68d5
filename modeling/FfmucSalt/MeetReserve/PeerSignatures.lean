import FfmucSalt.MeetReserve.Changes

/-!
# Signed requests between signers

The HMAC of peer and admin requests covers timestamp, method, URI and body,
separated by newlines.  What two different requests authenticate is different,
so a signature is good for one request only.
-/

namespace FfmucSalt.MeetReserve

/-! ## Requests -/

/-- The first line of a request.  Neither part has a newline in HTTP. -/
structure RequestLine where
  method : Bytes
  /-- `URL.RequestURI()` -/
  uri : Bytes
  method_plain : 0x0A ∉ method
  uri_plain : 0x0A ∉ uri

structure SyncRequest extends RequestLine where
  /-- The header `X-Reserve-Auth`, empty if it is absent. -/
  auth : Bytes
  body : Bytes

/-- What the holder of the key authenticates. -/
structure Signing where
  ts : Bytes
  line : RequestLine
  body : Bytes
  ts_plain : 0x0A ∉ ts

def syncMaxSkew : Duration := 2 * minute

/-- 32 << 20 -/
def syncMaxBody : Nat := 33554432

/-- What `syncMAC` writes into the HMAC. -/
def syncInput (ts : Bytes) (line : RequestLine) (body : Bytes) : Bytes :=
  ts ++ ascii "\n" ++ line.method ++ ascii "\n" ++ line.uri ++ ascii "\n" ++ body

def Signing.input (signing : Signing) : Bytes :=
  syncInput signing.ts signing.line signing.body

/-- What the server reads of a body: what is too long is cut. -/
def SyncRequest.readBody (request : SyncRequest) : Bytes :=
  request.body.take syncMaxBody

section Signatures

variable (lib : Library) (key : Bytes)

/-- `syncMAC` authenticates peer and admin requests: HMAC over time, method,
URI and body. -/
def syncMAC (ts : Bytes) (line : RequestLine) (body : Bytes) : Bytes :=
  hexEncode (lib.hmacSha256 key (syncInput ts line body))

def signRequest (request : SyncRequest) (now : Time) : SyncRequest :=
  let ts := formatInt now.unix
  { request with
    auth := ts ++ ascii ":" ++
      syncMAC lib key ts request.toRequestLine request.body }

/-- `verifySync` reads the body, which may fail, and checks the request
signature. -/
def verifySync (request : SyncRequest) (readError : Option Error)
    (now : Time) : Except Error Bytes :=
  match readError with
  | some err => .error err
  | none =>
      let body := request.readBody
      match cut 0x3A request.auth with
      | none => .error (.other (ascii "unsigned"))
      | some (ts, mac) =>
          match parseInt ts with
          | none => .error (.other (ascii "bad timestamp"))
          | some sec =>
              let d := now - Time.ofUnix sec
              if syncMaxSkew < d ∨ d < -syncMaxSkew then
                .error (.other (ascii "stale request"))
              else if mac ≠ syncMAC lib key ts request.toRequestLine body then
                .error (.other (ascii "bad signature"))
              else .ok body

end Signatures

/-! ## What is authenticated -/

private theorem newline : ascii "\n" = [0x0A] := by decide

/-- The authenticated bytes determine timestamp, method, URI and body. -/
theorem syncInput_inj {ts otherTs : Bytes} {line other : RequestLine}
    {body otherBody : Bytes} (plain : 0x0A ∉ ts) (otherPlain : 0x0A ∉ otherTs)
    (same : syncInput ts line body = syncInput otherTs other otherBody) :
    ts = otherTs ∧ line = other ∧ body = otherBody := by
  simp only [syncInput, newline, List.append_assoc, List.singleton_append]
    at same
  obtain ⟨sameTs, same⟩ := append_separator_inj plain otherPlain same
  obtain ⟨sameMethod, same⟩ :=
    append_separator_inj line.method_plain other.method_plain same
  obtain ⟨sameUri, sameBody⟩ :=
    append_separator_inj line.uri_plain other.uri_plain same
  refine ⟨sameTs, ?_, sameBody⟩
  cases line
  cases other
  cases sameMethod
  cases sameUri
  rfl

/-! ## What is accepted -/

section Signatures

variable {lib : Library} {key : Bytes} {request : SyncRequest}
variable {readError : Option Error} {now : Time} {body : Bytes}

/-- What an accepted request shows. -/
theorem verifySync_eq_ok :
    verifySync lib key request readError now = .ok body ↔
      readError = none ∧ body = request.readBody ∧
        ∃ ts sec, parseInt ts = some sec ∧
          now - Time.ofUnix sec ≤ syncMaxSkew ∧
          -syncMaxSkew ≤ now - Time.ofUnix sec ∧
          cut 0x3A request.auth = some
            (ts, syncMAC lib key ts request.toRequestLine request.readBody) := by
  unfold verifySync
  cases readError with
  | some err => simp
  | none =>
      cases isCut : cut 0x3A request.auth with
      | none => simp
      | some parts =>
          obtain ⟨ts, mac⟩ := parts
          dsimp only
          constructor
          · intro accepted
            split at accepted
            · cases accepted
            · rename_i sec isSec
              split at accepted
              · cases accepted
              · rename_i fresh
                split at accepted
                · cases accepted
                · rename_i signed
                  cases accepted
                  obtain ⟨notOld, notEarly⟩ := not_or.mp fresh
                  refine ⟨rfl, rfl, ts, sec, isSec, not_lt.mp notOld,
                    not_lt.mp notEarly, ?_⟩
                  rw [not_not.mp signed]
          · rintro ⟨-, rfl, ts, sec, isSec, notOld, notEarly, same⟩
            cases same
            rw [isSec]
            dsimp only
            rw [if_neg (not_or.mpr ⟨not_lt.mpr notOld, not_lt.mpr notEarly⟩),
              if_neg (not_not.mpr rfl)]

private theorem plain_of_isDecimalDigit {byte : UInt8}
    (digit : isDecimalDigit byte ∨ byte = 0x2D ∨ byte = 0x2B) :
    byte ≠ 0x0A ∧ byte ≠ 0x3A := by
  constructor
  · rintro rfl
    revert digit
    decide
  · rintro rfl
    revert digit
    decide

/-- A timestamp has neither of the separators. -/
theorem plain_of_parseInt {ts : Bytes} {sec : Int}
    (parsed : parseInt ts = some sec) : 0x0A ∉ ts ∧ 0x3A ∉ ts := by
  have digits := isDecimalDigit_of_parseInt parsed
  exact ⟨fun member => (plain_of_isDecimalDigit (digits _ member)).1 rfl,
    fun member => (plain_of_isDecimalDigit (digits _ member)).2 rfl⟩

/-- HMAC as a MAC without collisions, for what the server reads of a
request. -/
structure Unforgeable (lib : Library) (key : Bytes) (signed : Set Signing)
    (request : SyncRequest) : Prop where
  /-- A MAC that fits the request was made by the holder of the key. -/
  made : ∀ ts, cut 0x3A request.auth = some
      (ts, syncMAC lib key ts request.toRequestLine request.readBody) →
    ∃ signing ∈ signed, syncMAC lib key signing.ts signing.line signing.body =
      syncMAC lib key ts request.toRequestLine request.readBody
  /-- No other message has the MAC of a signed one. -/
  collisionFree : ∀ signing ∈ signed, ∀ ts,
    lib.hmacSha256 key signing.input = lib.hmacSha256 key
        (syncInput ts request.toRequestLine request.readBody) →
      signing.input = syncInput ts request.toRequestLine request.readBody

/-- An accepted request was signed as it is read. -/
theorem signed_of_accepted {signed : Set Signing}
    (unforgeable : Unforgeable lib key signed request)
    (accepted : verifySync lib key request readError now = .ok body) :
    body = request.readBody ∧ ∃ signing ∈ signed,
      signing.line = request.toRequestLine ∧ signing.body = body ∧
        ∃ sec, parseInt signing.ts = some sec ∧
          now - Time.ofUnix sec ≤ syncMaxSkew ∧
          -syncMaxSkew ≤ now - Time.ofUnix sec := by
  obtain ⟨-, rfl, ts, sec, isSec, notOld, notEarly, isCut⟩ :=
    verifySync_eq_ok.mp accepted
  obtain ⟨signing, isSigned, sameMac⟩ := unforgeable.made ts isCut
  have sameInput := unforgeable.collisionFree signing isSigned ts
    (hexEncode_injective sameMac)
  obtain ⟨sameTs, sameLine, sameBody⟩ :=
    syncInput_inj signing.ts_plain (plain_of_parseInt isSec).1 sameInput
  exact ⟨rfl, signing, isSigned, sameLine, sameBody, sec, sameTs ▸ isSec,
    notOld, notEarly⟩

theorem cut_signRequest {signedAt : Time}
    (lower : -(2 ^ 63 : Int) ≤ signedAt.unix) (upper : signedAt.unix < 2 ^ 63) :
    cut 0x3A (signRequest lib key request signedAt).auth =
      some (formatInt signedAt.unix, syncMAC lib key (formatInt signedAt.unix)
        request.toRequestLine request.body) := by
  have colon : ascii ":" = [0x3A] := by decide
  refine cut_eq_some.mpr
    ⟨?_, (plain_of_parseInt (parseInt_formatInt lower upper)).2⟩
  unfold signRequest
  dsimp only
  rw [colon, List.append_assoc, List.singleton_append]

/-- A signed request is accepted as long as its timestamp is fresh. -/
theorem accepted_of_signed {signedAt : Time}
    (lower : -(2 ^ 63 : Int) ≤ signedAt.unix) (upper : signedAt.unix < 2 ^ 63)
    (short : request.body.length ≤ syncMaxBody)
    (notOld : now - Time.ofUnix signedAt.unix ≤ syncMaxSkew)
    (notEarly : -syncMaxSkew ≤ now - Time.ofUnix signedAt.unix) :
    verifySync lib key (signRequest lib key request signedAt) none now =
      .ok request.body := by
  have whole : (signRequest lib key request signedAt).readBody =
      request.body :=
    List.take_of_length_le short
  refine verifySync_eq_ok.mpr ⟨rfl, whole.symm, formatInt signedAt.unix, _,
    parseInt_formatInt lower upper, notOld, notEarly, ?_⟩
  rw [whole]
  exact cut_signRequest lower upper

/-- A signature binds one request, up to the bytes of a body that the server
does not read. -/
theorem signature_binds_request (lib : Library) (key : Bytes) :
    (∀ first second : Signing, first.input = second.input → first = second) ∧
    (∀ signed request readError now body,
      Unforgeable lib key signed request →
      verifySync lib key request readError now = .ok body →
        body = request.readBody ∧ ∃ signing ∈ signed,
          signing.line = request.toRequestLine ∧ signing.body = body ∧
            ∃ sec, parseInt signing.ts = some sec ∧
              now - Time.ofUnix sec ≤ syncMaxSkew ∧
              -syncMaxSkew ≤ now - Time.ofUnix sec) ∧
    ∀ (request : SyncRequest) (signedAt now : Time),
      -(2 ^ 63 : Int) ≤ signedAt.unix → signedAt.unix < 2 ^ 63 →
      request.body.length < syncMaxBody →
      now - Time.ofUnix signedAt.unix ≤ syncMaxSkew →
      -syncMaxSkew ≤ now - Time.ofUnix signedAt.unix →
        verifySync lib key (signRequest lib key request signedAt) none now =
          .ok request.body := by
  refine ⟨?_, ?_, ?_⟩
  · intro first second same
    obtain ⟨sameTs, sameLine, sameBody⟩ :=
      syncInput_inj first.ts_plain second.ts_plain same
    cases first
    cases second
    cases sameTs
    cases sameLine
    cases sameBody
    rfl
  · intro signed request readError now body unforgeable accepted
    exact signed_of_accepted unforgeable accepted
  · intro request signedAt now lower upper short notOld notEarly
    exact accepted_of_signed lower upper short.le notOld notEarly

end Signatures

namespace Sample

/-- What the holder of the key authenticates at second 1000. -/
def signingOf (request : SyncRequest) : Signing :=
  { ts := formatInt 1000
    line := request.toRequestLine
    body := request.body
    ts_plain := by decide }

/-- HMAC on the one message that occurs. -/
def macOf (request : SyncRequest) (mac : Bytes) : Library :=
  { hashes with
    hmacSha256 := fun _ message =>
      if message = (signingOf request).input then mac else [] }

def syncKey : Bytes := List.replicate 32 2

private theorem unforgeable_macOf {request shown : SyncRequest} {mac : Bytes}
    (nonempty : mac ≠ [])
    (sameAuth : shown.auth = (signRequest (macOf request mac) syncKey request
      (Time.ofUnix 1000)).auth) :
    Unforgeable (macOf request mac) syncKey {signingOf request} shown where
  made ts isCut := by
    refine ⟨signingOf request, rfl, ?_⟩
    rw [sameAuth, cut_signRequest (by decide) (by decide)] at isCut
    exact (Prod.mk.inj (Option.some.inj isCut)).2
  collisionFree signing isSigned ts same := by
    rw [Set.mem_singleton_iff.mp isSigned] at same ⊢
    unfold macOf at same
    dsimp only at same
    rw [if_pos rfl] at same
    by_contra other
    rw [if_neg (Ne.symm other)] at same
    exact nonempty same

/-- A request of the administrator. -/
def revoke : SyncRequest :=
  { method := ascii "POST"
    uri := ascii "/reserve/_admin/revoke"
    method_plain := by decide
    uri_plain := by decide
    auth := []
    body := ascii "\x7b\"room\":\"r-x\"\x7d" }

def revokeMac : Bytes :=
  bytes 32 0x2809473e3fd9a0bf8537f4a8d8eac591de71cc5b4b69b2b617dbbed6cc53e36d

def signedRevoke : SyncRequest :=
  signRequest (macOf revoke revokeMac) syncKey revoke (Time.ofUnix 1000)

/-- The request is accepted a minute later, as it was signed. -/
theorem signature_binds_request_revoke :
    verifySync (macOf revoke revokeMac) syncKey signedRevoke none
        (Time.ofUnix 1060) = .ok revoke.body ∧
      ∃ signing ∈ ({signingOf revoke} : Set Signing),
        signing.line = signedRevoke.toRequestLine ∧
          signing.body = revoke.body := by
  obtain ⟨-, was_signed, accepts⟩ :=
    signature_binds_request (macOf revoke revokeMac) syncKey
  have accepted := accepts revoke (Time.ofUnix 1000) (Time.ofUnix 1060)
    (by decide) (by decide) (by decide) (by decide) (by decide)
  obtain ⟨-, signing, isSigned, sameLine, sameBody, -⟩ :=
    was_signed _ signedRevoke none _ _ (unforgeable_macOf (by decide) rfl) accepted
  exact ⟨accepted, signing, isSigned, sameLine, sameBody⟩

/-- A push with the longest body that the server reads. -/
def longest : SyncRequest :=
  { method := ascii "POST"
    uri := ascii "/reserve/_peer/push"
    method_plain := by decide
    uri_plain := by decide
    auth := []
    body := List.replicate syncMaxBody 0 }

def longestMac : Bytes :=
  bytes 32 0xc7058f749a33a117a9bbf8062677aa9cd9bb1011f185f78a5edb954dfd9c6235

/-- The push with a byte more. -/
def prolonged : SyncRequest :=
  { signRequest (macOf longest longestMac) syncKey longest
      (Time.ofUnix 1000) with
    body := longest.body ++ [1] }

private theorem readBody_prolonged : prolonged.readBody = longest.body :=
  List.take_left' List.length_replicate

private theorem unforgeable_prolonged :
    Unforgeable (macOf longest longestMac) syncKey {signingOf longest}
      prolonged := by
  refine unforgeable_macOf (by decide) ?_
  unfold prolonged
  rfl

/-- A request is accepted whose body is longer than the signed one. -/
theorem prolonged_accepted :
    ¬ ∀ (lib : Library) (key : Bytes) (signed : Set Signing)
      (request : SyncRequest) (readError : Option Error) (now : Time)
      (body : Bytes), Unforgeable lib key signed request →
        verifySync lib key request readError now = .ok body →
          ∃ signing ∈ signed, signing.line = request.toRequestLine ∧
            signing.body = request.body := by
  intro claimed
  have isCut := @cut_signRequest (macOf longest longestMac) syncKey longest
    (Time.ofUnix 1000) (by decide) (by decide)
  have accepted : verifySync (macOf longest longestMac) syncKey prolonged none
      (Time.ofUnix 1000) = .ok prolonged.readBody := by
    refine verifySync_eq_ok.mpr ⟨rfl, rfl, formatInt 1000, 1000,
      parseInt_formatInt (by decide) (by decide), by decide, by decide, ?_⟩
    rw [readBody_prolonged]
    exact isCut
  obtain ⟨signing, isSigned, -, sameBody⟩ := claimed _ _ {signingOf longest}
    prolonged none _ _ unforgeable_prolonged accepted
  rw [Set.mem_singleton_iff.mp isSigned] at sameBody
  have sameLength : longest.body.length = (longest.body ++ [1]).length :=
    congrArg List.length sameBody
  rw [List.length_append] at sameLength
  simp at sameLength

end Sample

end FfmucSalt.MeetReserve
