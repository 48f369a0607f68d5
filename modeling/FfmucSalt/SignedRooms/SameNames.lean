import FfmucSalt.MeetReserve.Changes
import FfmucSalt.SignedRooms.Names

/-!
# Signer and Prosody read room names alike

The two validators of short names accept the same strings, and so do the two
parsers of v1 names, with the same expiry.
-/

namespace FfmucSalt.SignedRooms

open MeetReserve (Server RoomName)

/-- The Prosody module knows the one key of the signer, and both libraries
verify signatures alike. -/
structure Plugin.Trusts (plugin : Plugin) (server : Server) : Prop where
  keys : ∀ kid : Bytes, plugin.options.keys[kid]? =
    if kid = formatUint 10 server.cfg.keyID.toNat then
      some (server.lib.publicKey server.cfg.priv)
    else none
  verify : ∀ message signature : Bytes, signature.length = sigLen →
    plugin.lib.ed25519Verify (server.lib.publicKey server.cfg.priv) message
      signature = server.verifies message signature

theorem isSignedName_iff {name : Bytes} :
    isSignedName name ↔ MeetReserve.roomPrefix.isPrefixOf name := by
  rw [isSignedName, beq_iff_eq, List.isPrefixOf_iff_prefix,
    List.prefix_iff_eq_take]
  exact eq_comm

private theorem guarded_iff {condition : Prop} [Decidable condition]
    {value : Bool} :
    (if condition then false else value) = true ↔ ¬ condition ∧ value := by
  split
  · rename_i holds
    simp [holds]
  · rename_i fails
    simp [fails]

private theorem forall_byte {holds : UInt8 → Prop}
    (small : ∀ value < 256, holds value.toUInt8) (byte : UInt8) : holds byte := by
  have isByte : byte.toNat.toUInt8 = byte := UInt8.ofNat_toNat
  exact isByte ▸ small byte.toNat byte.toNat_lt

/-! ## Short names -/

/-- Both validators of short names accept the same strings. -/
theorem isShortName_eq (name : Bytes) :
    MeetReserve.isShortName name = isShortName name := by
  have alphabet : ∀ byte : UInt8, (MeetReserve.roomAlphabet.any fun letter =>
      letter.toNat == byte.toNat) = shortAlphabet.contains byte :=
    forall_byte (by decide +kernel)
  have onlyAscii : ∀ rune, (MeetReserve.roomAlphabet.any fun letter =>
      letter.toNat == rune) → rune < 0x80 := by
    intro rune accepted
    obtain ⟨letter, member, same⟩ := List.any_eq_true.mp accepted
    have small : ∀ letter ∈ MeetReserve.roomAlphabet, letter.toNat < 0x80 := by
      decide +kernel
    exact beq_iff_eq.mp same ▸ small letter member
  have conditions : ¬ (name.length ≠
      MeetReserve.roomPrefix.length + MeetReserve.roomIDLen ∨
        ¬ MeetReserve.roomPrefix.isPrefixOf name) ↔
      ¬ (¬ isSignedName name ∨
        name.length ≠ roomPrefix.length + shortLen) := by
    rw [← isSignedName_iff, or_comm]
    rfl
  rw [Bool.eq_iff_iff, MeetReserve.isShortName, isShortName, guarded_iff,
    guarded_iff, conditions, runes_all_iff _ onlyAscii]
  simp only [alphabet]
  rfl

/-! ## Long names -/

/-- The names that Go's signer takes apart. -/
theorem isLegacyName_iff {name : Bytes} :
    MeetReserve.isLegacyName name ↔ (isSignedName name ∧ isLegacyLength name) ∧
      (name.drop roomPrefix.length).all luaBase32Alphabet.contains := by
  have onlyAscii : ∀ rune : Nat,
      decide (0x61 ≤ rune ∧ rune ≤ 0x7A ∨ 0x32 ≤ rune ∧ rune ≤ 0x37) →
        rune < 0x80 := by
    intro rune accepted
    have := of_decide_eq_true accepted
    omega
  have alphabet : ∀ byte : UInt8, decide (0x61 ≤ byte.toNat ∧
      byte.toNat ≤ 0x7A ∨ 0x32 ≤ byte.toNat ∧ byte.toNat ≤ 0x37) =
        luaBase32Alphabet.contains byte :=
    forall_byte (by decide +kernel)
  have lengths : isLegacyLength name ↔ name.length =
      MeetReserve.roomPrefix.length + b32Length MeetReserve.legacyRawLen :=
    beq_iff_eq
  rw [MeetReserve.isLegacyName, guarded_iff, runes_all_iff _ onlyAscii, not_or,
    not_not, not_not, isSignedName_iff, lengths]
  simp only [alphabet]
  rfl

/-- Lua's decoder refuses every other character. -/
theorem b32_decode_eq_none {text : Bytes}
    (refused : ¬ text.all luaBase32Alphabet.contains) :
    b32_decode text = none := by
  have some_refused : ∃ byte ∈ text, byte ∉ luaBase32Alphabet := by
    simpa using refused
  obtain ⟨byte, member, foreign⟩ := some_refused
  rw [b32_decode_eq, mapM_eq_none member (List.idxOf?_eq_none_iff.mpr foreign)]
  rfl

/-- On these characters both decoders agree, if the length is that of a v1
name. -/
theorem b32Decode_toUpper {text : Bytes}
    (accepted : text.all luaBase32Alphabet.contains)
    (length : text.length = legacyLen) :
    b32Decode (MeetReserve.toUpper text) = b32_decode text := by
  have letters : ∀ byte : UInt8, byte ∈ luaBase32Alphabet →
      let upper := if 0x61 ≤ byte ∧ byte ≤ 0x7A then byte - 0x20 else byte
      (upper ≠ 0x0A ∧ upper ≠ 0x0D) ∧
        ∃ digit < 32, base32Alphabet.idxOf? upper = some digit ∧
          luaBase32Alphabet.idxOf? byte = some digit := by
    decide +kernel
  have member : ∀ byte ∈ text, byte ∈ luaBase32Alphabet := by
    simpa using accepted
  have noBreaks : (MeetReserve.toUpper text).filter
      (fun byte => byte ≠ 0x0A ∧ byte ≠ 0x0D) = MeetReserve.toUpper text := by
    rw [List.filter_eq_self]
    intro upper isUpper
    obtain ⟨byte, isByte, rfl⟩ := List.mem_map.mp isUpper
    exact decide_eq_true (letters byte (member byte isByte)).1
  have values : ∀ text : Bytes, (∀ byte ∈ text, byte ∈ luaBase32Alphabet) →
      ∃ digits : List Nat, digits.length = text.length ∧
        (∀ digit ∈ digits, digit < 32) ∧
        (MeetReserve.toUpper text).mapM (base32Alphabet.idxOf? ·) =
          some digits ∧
        text.mapM (luaBase32Alphabet.idxOf? ·) = some digits := by
    intro text
    induction text with
    | nil => exact fun _ => ⟨[], rfl, by simp, rfl, rfl⟩
    | cons byte text induction =>
        intro member
        obtain ⟨-, digit, small, upper, lower⟩ :=
          letters byte (member byte (by simp))
        obtain ⟨digits, length, allSmall, uppers, lowers⟩ :=
          induction fun other isOther => member other (by simp [isOther])
        refine ⟨digit :: digits, by simp [length],
          List.forall_mem_cons.mpr ⟨small, allSmall⟩, ?_, ?_⟩
        · rw [MeetReserve.toUpper] at uppers ⊢
          rw [List.map_cons, List.mapM_cons, upper, uppers]
          rfl
        · rw [List.mapM_cons, lower, lowers]
          rfl
  obtain ⟨digits, sameLength, small, uppers, lowers⟩ := values text member
  rw [b32_decode_eq, lowers, b32Decode, noBreaks, uppers, Option.map_some]
  exact ofQuintets_eq small (by simp [sameLength, length, legacyLen])

/-! ## Payload and signature -/

/-- What the signer accepts. -/
theorem parseLegacyRoom_eq_ok {server : Server} {name : Bytes}
    {exp : MeetReserve.Time} :
    server.parseLegacyRoom name = .ok exp ↔ MeetReserve.isLegacyName name ∧
      ∃ raw, b32Decode
          (MeetReserve.toUpper (name.drop MeetReserve.roomPrefix.length)) =
            some raw ∧
        raw.length = MeetReserve.legacyRawLen ∧
        raw[0]? = some MeetReserve.legacyVersion ∧
        raw[1]? = some server.cfg.keyID ∧
        server.verifies (MeetReserve.legacyContext ++ raw.take 15)
          (raw.drop 15) ∧
        exp = MeetReserve.Time.ofUnix
          (MeetReserve.bigEndian ((raw.drop 3).take 4)) := by
  unfold Server.parseLegacyRoom
  split
  · rename_i refused
    simp [refused]
  · rename_i accepted
    rw [not_not] at accepted
    split
    · rename_i none
      simp [none]
    · rename_i raw isRaw
      simp only [isRaw, accepted, true_and, Option.some.injEq, exists_eq_left']
      split
      · rename_i wrong
        constructor
        · intro impossible
          cases impossible
        · rintro ⟨long, version, key, -⟩
          exact (wrong.elim (· long) (·.elim (· version) (· key))).elim
      · rename_i right
        simp only [not_or, not_not] at right
        split
        · rename_i forged
          simp [forged]
        · rename_i signed
          rw [not_not] at signed
          simp [right, signed, eq_comm]

/-- Lua's arithmetic on the four bytes of the expiry. -/
private theorem expiry_eq {raw : Bytes}
    (long : raw.length = payloadLen + sigLen) :
    ((((raw.take payloadLen).getD 3 0).toNat * 256 +
        ((raw.take payloadLen).getD 4 0).toNat) * 256 +
        ((raw.take payloadLen).getD 5 0).toNat) * 256 +
        ((raw.take payloadLen).getD 6 0).toNat =
      MeetReserve.bigEndian ((raw.drop 3).take 4) := by
  match raw, long with
  | _ :: _ :: _ :: _ :: _ :: _ :: _ :: _, _ =>
      simp [payloadLen, MeetReserve.bigEndian]

/-- What the Prosody module accepts. -/
theorem parseRoom_eq_ok {plugin : Plugin} {name : Bytes} {seconds : Seconds} :
    plugin.parseRoom name = .ok seconds ↔ isSignedName name ∧
      ∃ raw key, b32_decode (name.drop roomPrefix.length) = some raw ∧
        raw.length = payloadLen + sigLen ∧ raw.getD 0 0 = 1 ∧
        plugin.options.keys[formatUint 10 (raw.getD 1 0).toNat]? = some key ∧
        plugin.lib.ed25519Verify key (roomContext ++ raw.take payloadLen)
          (raw.drop payloadLen) ∧
        seconds = (MeetReserve.bigEndian ((raw.drop 3).take 4) : Nat) := by
  unfold Plugin.parseRoom
  split
  · rename_i unsigned
    simp [unsigned]
  · rename_i signed
    rw [not_not] at signed
    split
    · rename_i none
      simp [none]
    · rename_i raw isRaw
      simp only [isRaw, signed, true_and, Option.some.injEq, exists_and_left,
        exists_eq_left']
      split
      · rename_i wrong
        constructor
        · intro impossible
          cases impossible
        · rintro ⟨long, version, -⟩
          exact (wrong.elim (· long) (· version)).elim
      · rename_i right
        simp only [not_or, not_not] at right
        obtain ⟨long, version⟩ := right
        split
        · rename_i unknown
          constructor
          · intro impossible
            cases impossible
          · rintro ⟨-, -, key, known, -⟩
            rw [unknown] at known
            cases known
        · rename_i key known
          simp only [known, Option.some.injEq, exists_eq_left', expiry_eq long,
            long, version, true_and]
          split
          · rename_i forged
            simp [forged]
          · rename_i verified
            rw [not_not] at verified
            simp [verified, eq_comm]

private theorem getElem?_eq_some_getD {raw : Bytes} {place : Nat}
    (inside : place < raw.length) : raw[place]? = some (raw.getD place 0) := by
  rw [List.getD_eq_getElem?_getD, List.getElem?_eq_getElem inside]
  rfl

/-- Both programs accept the same v1 names, with the same expiry. -/
theorem parseLegacyRoom_iff {plugin : Plugin} {server : Server}
    (trusts : plugin.Trusts server) {name : Bytes} {exp : MeetReserve.Time} :
    server.parseLegacyRoom name = .ok exp ↔
      isLegacyLength name ∧ ∃ seconds, plugin.parseRoom name = .ok seconds ∧
        exp = MeetReserve.Time.ofUnix seconds := by
  have bodyLength : isLegacyLength name →
      (name.drop roomPrefix.length).length = legacyLen := by
    intro long
    rw [List.length_drop, beq_iff_eq.mp long]
    rfl
  have keyed : ∀ byte : UInt8, plugin.options.keys[formatUint 10 byte.toNat]? =
      if byte = server.cfg.keyID then
        some (server.lib.publicKey server.cfg.priv)
      else none := by
    intro byte
    rw [trusts.keys]
    by_cases same : byte = server.cfg.keyID
    · simp [same]
    · rw [if_neg same, if_neg]
      intro equal
      have decimal : Function.Injective (formatUint 10) :=
        formatUint_injective (by decide) (by decide)
      exact same (UInt8.toNat_inj.mp (decimal equal))
  constructor
  · intro parsed
    obtain ⟨isLegacy, raw, isRaw, long, version, key, verified, isExp⟩ :=
      parseLegacyRoom_eq_ok.mp parsed
    obtain ⟨⟨signed, length⟩, accepted⟩ := isLegacyName_iff.mp isLegacy
    refine ⟨length, _, parseRoom_eq_ok.mpr ⟨signed, raw,
      server.lib.publicKey server.cfg.priv, ?_, long, ?_, ?_, ?_, rfl⟩, isExp⟩
    · rw [← b32Decode_toUpper accepted (bodyLength length)]
      exact isRaw
    · rw [List.getD_eq_getElem?_getD, version]
      rfl
    · rw [keyed, List.getD_eq_getElem?_getD, key]
      simp
    · rw [trusts.verify _ _ (by rw [List.length_drop, long]; rfl)]
      exact verified
  · rintro ⟨length, seconds, parsed, rfl⟩
    obtain ⟨signed, raw, key, isRaw, long, version, known, verified, isExp⟩ :=
      parseRoom_eq_ok.mp parsed
    have accepted : (name.drop roomPrefix.length).all
        luaBase32Alphabet.contains := by
      by_contra refused
      rw [b32_decode_eq_none refused] at isRaw
      cases isRaw
    have inside : 1 < raw.length := by
      rw [long]
      decide
    rw [keyed] at known
    split at known
    · rename_i isKey
      cases known
      refine parseLegacyRoom_eq_ok.mpr ⟨isLegacyName_iff.mpr
        ⟨⟨signed, length⟩, accepted⟩, raw, ?_, long, ?_, ?_, ?_, ?_⟩
      · exact (b32Decode_toUpper accepted (bodyLength length)).trans isRaw
      · rw [getElem?_eq_some_getD (by omega), version]
        rfl
      · rw [getElem?_eq_some_getD inside, isKey]
      · rw [trusts.verify _ _ (by rw [List.length_drop, long]; rfl)] at verified
        exact verified
      · rw [isExp]
    · cases known

/-- Signer and Prosody module read all names alike, and Lua's decoder takes
back the encoding of payload and signature. -/
theorem names_agree {plugin : Plugin} {server : Server}
    (trusts : plugin.Trusts server) (name : Bytes) :
    MeetReserve.isShortName name = isShortName name ∧
    (∀ exp, server.parseLegacyRoom name = .ok exp ↔
      isLegacyLength name ∧ ∃ seconds, plugin.parseRoom name = .ok seconds ∧
        exp = MeetReserve.Time.ofUnix seconds) ∧
    ∀ raw : Bytes, raw.length = payloadLen + sigLen →
      b32_decode (toLower (b32Encode raw)) = some raw :=
  ⟨isShortName_eq name, fun _ => parseLegacyRoom_iff trusts,
    fun raw _ => b32_decode_b32Encode raw⟩

/-! ## A module to compute with -/

namespace Sample

open MeetReserve.Sample (server publicKey signatures legacyRoom)

/-- `base64.decode` -/
def base64Decode (text : Bytes) : Option Bytes := do
  let groups ← (text.filter fun byte => byte ≠ 0x3D).mapM
    (base64Alphabet.idxOf? ·)
  ofSextets groups

theorem base64Decode_base64Encode (bytes : Bytes) :
    base64Decode (base64Encode bytes) = some bytes := by
  have unpadded : (base64Encode bytes).filter (fun byte => byte ≠ 0x3D) =
      (sextets bytes).map fun group => base64Alphabet.getD group 0 := by
    have noPadding : ∀ group < 64, base64Alphabet.getD group 0 ≠ 0x3D := by
      decide
    have padding : ∀ count, (List.replicate count (0x3D : UInt8)).filter
        (fun byte => byte ≠ 0x3D) = [] := by
      simp
    rw [base64Encode, List.filter_append, padding, List.append_nil,
      List.filter_eq_self]
    intro byte member
    obtain ⟨group, isGroup, rfl⟩ := List.mem_map.mp member
    exact decide_eq_true (noPadding group (sextets_lt bytes group isGroup))
  unfold base64Decode
  rw [unpadded, mapM_idxOf_map (by decide) (sextets_lt bytes)]
  exact ofSextets_sextets bytes

/-- The Prosody module that goes with the signer. -/
def plugin : Plugin :=
  { options :=
      { host := ascii "meet.ffmuc.net"
        keys := (∅ : FiniteMap Bytes Bytes).insert (ascii "1") publicKey
        maxExtension := 30 * 86400
        clockSkew := 60
        lookupUrl := some (ascii "https://meet.ffmuc.net/reserve/api/room/")
        lookupTtl := 60
        lookupGraceSet := 600 }
    lib :=
      { ed25519Verify := fun _ message signature =>
          signatures.lookup message == some signature
        base64Decode } }

theorem trusts : plugin.Trusts server where
  keys kid := by
    have isKid : formatUint 10 server.cfg.keyID.toNat = ascii "1" := by
      decide
    rw [isKid]
    refine (FiniteMap.lookup_insert _ _ _ _).trans ?_
    by_cases same : kid = ascii "1"
    · rw [if_pos same.symm, if_pos same]
      rfl
    · rw [if_neg (Ne.symm same), if_neg same]
      simp
  verify _ _ _ := rfl

/-- The v1 room has the expiry for Prosody that it has for the signer. -/
theorem names_agree_legacyRoom :
    ∃ seconds, plugin.parseRoom legacyRoom = .ok seconds ∧
      MeetReserve.Time.ofUnix 1800000000 = MeetReserve.Time.ofUnix seconds :=
  (((names_agree trusts legacyRoom).2.1 (MeetReserve.Time.ofUnix 1800000000)).mp
    (by decide +kernel)).2

end Sample

end FfmucSalt.SignedRooms
