import FfmucSalt.MeetReserve.Keys

/-!
# Reading minted tokens

What the signer's own parsers make of a token that it minted.
-/

namespace FfmucSalt.MeetReserve

/-- What `int64` holds. -/
def FitsInt64 (value : Int) : Prop := -(2 ^ 63 : Int) ≤ value ∧ value < 2 ^ 63

section Tokens

variable {server : Server} {room role : Bytes} {gen : UInt64} {iat exp : Time}

/-! ## Parts -/

theorem token_eq : server.token room role gen iat exp =
    [0x2E].intercalate
      [b64url (server.lib.marshal server.tokenHeader),
        b64url (server.lib.marshal (server.tokenClaims room role gen iat exp)),
        b64url (server.lib.sign server.cfg.priv
          (server.tokenInput room role gen iat exp))] := by
  have dot : ascii "." = [0x2E] := by decide
  simp [Server.token, Server.tokenInput, dot, List.intercalate]

theorem dot_notMem_b64url (bytes : Bytes) : 0x2E ∉ b64url bytes := by
  intro member
  exact absurd (mem_b64url member) (by decide)

theorem splitOn_token : (server.token room role gen iat exp).splitOn 0x2E =
    [b64url (server.lib.marshal server.tokenHeader),
      b64url (server.lib.marshal (server.tokenClaims room role gen iat exp)),
      b64url (server.lib.sign server.cfg.priv
        (server.tokenInput room role gen iat exp))] := by
  rw [token_eq]
  refine List.splitOn_intercalate 0x2E ?_ (by simp)
  intro part member
  simp only [List.mem_cons, List.not_mem_nil, or_false] at member
  rcases member with isHeader | isClaims | isSignature
  · exact isHeader ▸ dot_notMem_b64url _
  · exact isClaims ▸ dot_notMem_b64url _
  · exact isSignature ▸ dot_notMem_b64url _

/-- The characters of tokens. -/
def tokenAlphabet : Bytes := ascii "." ++ base64urlAlphabet

theorem mem_token {byte : UInt8}
    (member : byte ∈ server.token room role gen iat exp) :
    byte ∈ tokenAlphabet := by
  simp only [Server.token, Server.tokenInput, List.mem_append] at member
  rcases member with (((isHeader | isDot) | isClaims) | isDot) | isSignature
  · exact List.mem_append_right _ (mem_b64url isHeader)
  · exact List.mem_append_left _ isDot
  · exact List.mem_append_right _ (mem_b64url isClaims)
  · exact List.mem_append_left _ isDot
  · exact List.mem_append_right _ (mem_b64url isSignature)

/-! ## Keys -/

/-- `extractKey` leaves text alone that only has characters of tokens. -/
theorem extractKey_of_token {text : Bytes}
    (token : ∀ byte ∈ text, byte ∈ tokenAlphabet) :
    server.extractKey text = text := by
  have visible : ∀ byte ∈ tokenAlphabet, 0x20 < byte ∧ byte < 0x80 := by
    decide +kernel
  have trimmed : trimSpace text = text :=
    trimSpace_eq_self fun byte member => visible byte (token byte member)
  have unmarked : ∀ marker ∈ server.markers,
      ∃ byte ∈ marker, byte ∉ tokenAlphabet := by
    intro marker member
    simp only [Server.markers, List.mem_cons, List.not_mem_nil, or_false]
      at member
    rcases member with rfl | rfl | rfl | rfl | rfl
    · exact ⟨0x23, by decide, by decide⟩
    · exact ⟨0x23, by decide, by decide⟩
    · exact ⟨0x3D, by decide, by decide⟩
    · exact ⟨0x2F, List.mem_append_right _ (by decide), by decide⟩
    · exact ⟨0x2F, List.mem_append_right _ (by decide), by decide⟩
  have kept : ∀ markers : List Bytes,
      (∀ marker ∈ markers, ∃ byte ∈ marker, byte ∉ tokenAlphabet) →
        markers.foldl Server.afterMarker text = text := by
    intro markers foreign
    induction markers with
    | nil => rfl
    | cons marker markers induction =>
        obtain ⟨byte, member, notToken⟩ := foreign marker List.mem_cons_self
        have absent : ¬ marker <:+: text := by
          intro inside
          exact notToken (token byte (inside.subset member))
        rw [List.foldl_cons, Server.afterMarker, lastIndex_eq_none absent]
        exact induction fun other isOther =>
          foreign other (List.mem_cons_of_mem _ isOther)
  have noEnd : indexAny text (ascii "&#?/ ") = none := by
    apply indexAny_eq_none
    intro byte member
    have plain : ∀ byte ∈ tokenAlphabet, byte ∉ ascii "&#?/ " := by
      decide +kernel
    exact plain byte (token byte member)
  unfold Server.extractKey
  rw [trimmed, kept _ unmarked]
  dsimp only
  rw [noEnd]

theorem extractKey_token :
    server.extractKey (server.token room role gen iat exp) =
      server.token room role gen iat exp :=
  extractKey_of_token fun _ member => mem_token member

/-- No text with a dot is a link secret. -/
theorem not_validSecret_of_dot {text : Bytes} (dot : 0x2E ∈ text) :
    ¬ validSecret text := by
  unfold validSecret
  rw [b64urlDecode_eq_none dot (by decide) (by decide)]
  simp

/-- No token is a link secret. -/
theorem not_validSecret_token :
    ¬ validSecret (server.token room role gen iat exp) := by
  apply not_validSecret_of_dot
  simp only [Server.token, List.mem_append]
  exact .inl (.inr (by decide))

theorem splitOn_of_notMem {separator : UInt8} {text : Bytes}
    (absent : separator ∉ text) : text.splitOn separator = [text] := by
  have whole := List.splitOn_intercalate separator
    (show ∀ part ∈ [text], separator ∉ part by simpa using absent)
    (List.cons_ne_nil _ _)
  simpa [List.intercalate] using whole

theorem not_validSecret_of_parsed {key : Bytes} {claims : LegacyClaims}
    (parsed : server.parseLegacyHostToken key = .ok claims) :
    ¬ validSecret key := by
  apply not_validSecret_of_dot
  by_contra noDot
  rw [Server.parseLegacyHostToken, splitOn_of_notMem noDot] at parsed
  cases parsed

/-! ## Claims -/

/-- A member that `legacyClaims` does not have is skipped. -/
private theorem assign_other {claims : LegacyClaims} {name : Bytes}
    {value : Json}
    (other : name ∉ [ascii "iat", ascii "exp", ascii "room",
      ascii "context"].map foldName) : claims.assign name value = some claims := by
  simp only [List.map_cons, List.map_nil, List.mem_cons, List.not_mem_nil,
    or_false, not_or] at other
  obtain ⟨notIat, notExp, notRoom, notContext⟩ := other
  rw [LegacyClaims.assign, if_neg notIat, if_neg notExp, if_neg notRoom,
    if_neg notContext]

private theorem toInt64_int {old value : Int} (fits : FitsInt64 value) :
    (Json.int value).toInt64 old = some value :=
  if_pos fits

/-- What `legacyClaims` takes from minted claims. -/
def legacyClaimsOf (room role : Bytes) (iat exp : Time) : LegacyClaims :=
  { iat := iat.unix, exp := exp.unix, room, id := role ++ ascii ":" ++ room }

theorem ofJson_tokenClaims (fitsIat : FitsInt64 iat.unix)
    (fitsExp : FitsInt64 exp.unix) :
    LegacyClaims.ofJson (server.tokenClaims room role gen iat exp) =
      some (legacyClaimsOf room role iat exp) := by
  have isIat : ∀ claims : LegacyClaims,
      claims.assign (foldName (ascii "iat")) (.int iat.unix) =
        some { claims with iat := iat.unix } := by
    intro claims
    rw [LegacyClaims.assign, if_pos rfl, toInt64_int fitsIat]
    rfl
  have isExp : ∀ claims : LegacyClaims,
      claims.assign (foldName (ascii "exp")) (.int exp.unix) =
        some { claims with exp := exp.unix } := by
    intro claims
    rw [LegacyClaims.assign, if_neg (by decide), if_pos rfl,
      toInt64_int fitsExp]
    rfl
  have isRoom : ∀ claims : LegacyClaims,
      claims.assign (foldName (ascii "room")) (.str room) =
        some { claims with room } := by
    intro claims
    rw [LegacyClaims.assign, if_neg (by decide), if_neg (by decide), if_pos rfl]
    rfl
  have isContext : ∀ claims : LegacyClaims,
      claims.assign (foldName (ascii "context")) (.obj [(ascii "user",
        .obj [(ascii "id", .str (role ++ ascii ":" ++ room))])]) =
        some { claims with id := role ++ ascii ":" ++ room } := by
    intro claims
    rw [LegacyClaims.assign, if_neg (by decide), if_neg (by decide),
      if_neg (by decide), if_pos rfl]
    rfl
  simp only [LegacyClaims.ofJson, Server.tokenClaims, Json.toStruct,
    List.foldlM_cons, List.foldlM_nil, isIat, isExp, isRoom, isContext,
    Option.bind_eq_bind, Option.bind_some]
  -- the other members, in their order
  rw [assign_other (by decide), Option.bind_some, assign_other (by decide),
    Option.bind_some, assign_other (by decide), Option.bind_some,
    assign_other (by decide), Option.bind_some, assign_other (by decide),
    Option.bind_some, assign_other (by decide)]
  rfl

/-- A minted token of a host is a v1 host token, if its room is a v1 room. -/
theorem parseLegacyHostToken_token
    (signs : server.verifies (server.tokenInput room role gen iat exp)
      (server.lib.sign server.cfg.priv
        (server.tokenInput room role gen iat exp)))
    (reads : server.lib.unmarshal (server.lib.marshal
        (server.tokenClaims room role gen iat exp)) =
      some (server.tokenClaims room role gen iat exp))
    (fitsIat : FitsInt64 iat.unix) (fitsExp : FitsInt64 exp.unix) :
    server.parseLegacyHostToken (server.token room role gen iat exp) =
      if role ≠ roleHost then .error (.other (ascii "this is not a host link"))
      else (server.parseLegacyRoom room).map fun _ =>
        legacyClaimsOf room role iat exp := by
  have isInput : b64url (server.lib.marshal server.tokenHeader) ++ ascii "." ++
      b64url (server.lib.marshal
        (server.tokenClaims room role gen iat exp)) =
      server.tokenInput room role gen iat exp := rfl
  unfold Server.parseLegacyHostToken
  rw [splitOn_token]
  dsimp only
  rw [b64urlDecode_b64url]
  dsimp only
  rw [isInput, if_neg (not_not.mpr signs), b64urlDecode_b64url]
  dsimp only
  rw [reads, Option.bind_some, ofJson_tokenClaims fitsIat fitsExp]
  dsimp only [legacyClaimsOf]
  simp only [List.append_assoc, List.append_cancel_right_eq, ne_eq]
  split
  · rfl
  · split <;> rename_i isRoom <;> rw [isRoom] <;> rfl

end Tokens

end FfmucSalt.MeetReserve
