import FfmucSalt.Text

/-!
# Hexadecimal and base64

The encodings of Go's `encoding` packages, by RFC 4648, together with the
base64 decoder that `mod_ffmuc_signed_rooms.lua` brings along.
-/

namespace FfmucSalt

/-! ## Hexadecimal -/

def hexDigits : Bytes := asciiRange 0x30 10 ++ asciiRange 0x61 6

/-- `hex.EncodeToString` -/
def hexEncode (bytes : Bytes) : Bytes :=
  bytes.flatMap fun byte =>
    [hexDigits.getD (byte.toNat / 16) 0, hexDigits.getD (byte.toNat % 16) 0]

/-- The value of a hexadecimal digit of either case. -/
def hexValue (digit : UInt8) : Option Nat :=
  hexDigits.idxOf?
    (if 0x41 ≤ digit ∧ digit ≤ 0x46 then digit + 0x20 else digit)

/-- `hex.DecodeString` -/
def hexDecode : Bytes → Option Bytes
  | [] => some []
  | [_] => none
  | high :: low :: rest => do
      let high ← hexValue high
      let low ← hexValue low
      let bytes ← hexDecode rest
      some ((high * 16 + low).toUInt8 :: bytes)

theorem hexDecode_hexEncode (bytes : Bytes) :
    hexDecode (hexEncode bytes) = some bytes := by
  have digit : ∀ value < 16,
      hexValue (hexDigits.getD value 0) = some value := by
    decide
  induction bytes with
  | nil => rfl
  | cons byte bytes induction =>
      have small := byte.toNat_lt
      have isByte : (byte.toNat / 16 * 16 + byte.toNat % 16).toUInt8 = byte := by
        rw [Nat.div_add_mod']
        exact UInt8.ofNat_toNat
      rw [hexEncode] at induction ⊢
      rw [List.flatMap_cons, List.cons_append, List.cons_append, List.nil_append,
        hexDecode, digit _ (by omega), digit _ (by omega), induction]
      exact congrArg (fun byte => some (byte :: bytes)) isByte

theorem hexEncode_injective : Function.Injective hexEncode := by
  intro first second same
  have decoded := congrArg hexDecode same
  rw [hexDecode_hexEncode, hexDecode_hexEncode] at decoded
  exact Option.some.inj decoded

/-! ## Base64 -/

/-- The six-bit groups of a byte string; the last one is filled with zeros. -/
def sextets : Bytes → List Nat
  | [] => []
  | [first] => [first.toNat / 4, first.toNat % 4 * 16]
  | [first, second] =>
      [first.toNat / 4, first.toNat % 4 * 16 + second.toNat / 16,
        second.toNat % 16 * 4]
  | first :: second :: third :: rest =>
      first.toNat / 4 :: (first.toNat % 4 * 16 + second.toNat / 16) ::
        (second.toNat % 16 * 4 + third.toNat / 64) :: third.toNat % 64 ::
        sextets rest

/-- The bytes that six-bit groups hold.  A single group holds none, and bits
left over at the end are dropped. -/
def ofSextets : List Nat → Option Bytes
  | [] => some []
  | [_] => none
  | [first, second] => some [(first * 4 + second / 16).toUInt8]
  | [first, second, third] =>
      some [(first * 4 + second / 16).toUInt8,
        (second % 16 * 16 + third / 4).toUInt8]
  | first :: second :: third :: fourth :: rest =>
      (ofSextets rest).map fun bytes =>
        (first * 4 + second / 16).toUInt8 ::
          (second % 16 * 16 + third / 4).toUInt8 ::
          (third % 4 * 64 + fourth).toUInt8 :: bytes

/-- `A` to `Z`, `a` to `z`, `0` to `9` -/
def alphanumerics : Bytes :=
  asciiRange 0x41 26 ++ asciiRange 0x61 26 ++ asciiRange 0x30 10

def base64Alphabet : Bytes := alphanumerics ++ ascii "+/"

def base64urlAlphabet : Bytes := alphanumerics ++ ascii "-_"

/-- `b64url`: `base64.RawURLEncoding.EncodeToString` -/
def b64url (bytes : Bytes) : Bytes :=
  (sextets bytes).map fun group => base64urlAlphabet.getD group 0

/-- `base64.RawURLEncoding.DecodeString`.  Line breaks are skipped, and the
decoder is not strict about the bits after the last byte. -/
def b64urlDecode (text : Bytes) : Option Bytes := do
  let groups ← (text.filter fun byte => byte ≠ 0x0A ∧ byte ≠ 0x0D).mapM
    (base64urlAlphabet.idxOf? ·)
  ofSextets groups

/-- `base64.RawURLEncoding.EncodedLen` -/
def b64urlLength (length : Nat) : Nat :=
  length / 3 * 4 + (length % 3 * 8 + 5) / 6

/-- Standard base64 with padding, as Prosody's `base64.encode` writes it. -/
def base64Encode (bytes : Bytes) : Bytes :=
  (sextets bytes).map (fun group => base64Alphabet.getD group 0) ++
    List.replicate ((3 - bytes.length % 3) % 3) 0x3D

theorem ofSextets_sextets (bytes : Bytes) :
    ofSextets (sextets bytes) = some bytes := by
  have bounded : ∀ byte : UInt8, byte.toNat < 256 := fun byte => byte.toNat_lt
  have restore : ∀ (byte : UInt8) (value : Nat), value = byte.toNat →
      value.toUInt8 = byte := by
    rintro byte value rfl
    exact UInt8.ofNat_toNat
  induction bytes using sextets.induct with
  | case1 => rfl
  | case2 first =>
      simp only [sextets, ofSextets, Option.some.injEq, List.cons.injEq,
        and_true]
      exact restore _ _ (by omega)
  | case3 first second =>
      have := bounded second
      simp only [sextets, ofSextets, Option.some.injEq, List.cons.injEq,
        and_true]
      exact ⟨restore _ _ (by omega), restore _ _ (by omega)⟩
  | case4 first second third rest induction =>
      have := bounded second
      have := bounded third
      simp only [sextets, ofSextets, induction, Option.map_some,
        Option.some.injEq, List.cons.injEq, and_true]
      exact ⟨restore _ _ (by omega), restore _ _ (by omega),
        restore _ _ (by omega)⟩

theorem sextets_lt (bytes : Bytes) : ∀ group ∈ sextets bytes, group < 64 := by
  have bounded : ∀ byte : UInt8, byte.toNat < 256 := fun byte => byte.toNat_lt
  induction bytes using sextets.induct with
  | case1 => simp [sextets]
  | case2 first =>
      have := bounded first
      simp only [sextets, List.mem_cons, List.not_mem_nil, or_false]
      omega
  | case3 first second =>
      have := bounded first
      have := bounded second
      simp only [sextets, List.mem_cons, List.not_mem_nil, or_false]
      omega
  | case4 first second third rest induction =>
      have := bounded first
      have := bounded second
      have := bounded third
      simp only [sextets, List.mem_cons]
      rintro group (rfl | rfl | rfl | rfl | member)
      · omega
      · omega
      · omega
      · omega
      · exact induction group member

/-- The characters of `b64url` text. -/
theorem mem_b64url {bytes : Bytes} {byte : UInt8} (member : byte ∈ b64url bytes) :
    byte ∈ base64urlAlphabet := by
  obtain ⟨group, isGroup, rfl⟩ := List.mem_map.mp member
  have : ∀ group < 64,
      base64urlAlphabet.getD group 0 ∈ base64urlAlphabet := by decide
  exact this group (sextets_lt bytes group isGroup)

/-- Looking the characters up again gives the groups back. -/
theorem mapM_idxOf_map {alphabet : Bytes}
    (back : ∀ group < 64,
      alphabet.idxOf? (alphabet.getD group 0) = some group) {groups : List Nat}
    (small : ∀ group ∈ groups, group < 64) :
    (groups.map fun group => alphabet.getD group 0).mapM (alphabet.idxOf? ·) =
      some groups := by
  induction groups with
  | nil => rfl
  | cons group groups induction =>
      have head := back group (small group (by simp))
      have tail := induction fun other member => small other (by simp [member])
      rw [List.map_cons, List.mapM_cons, head, tail]
      rfl

theorem b64urlDecode_b64url (bytes : Bytes) :
    b64urlDecode (b64url bytes) = some bytes := by
  have noBreaks : (b64url bytes).filter
      (fun byte => byte ≠ 0x0A ∧ byte ≠ 0x0D) = b64url bytes := by
    rw [List.filter_eq_self]
    intro byte member
    have : ∀ byte ∈ base64urlAlphabet,
        decide (byte ≠ 0x0A ∧ byte ≠ 0x0D) = true := by decide +kernel
    exact this byte (mem_b64url member)
  have values : (b64url bytes).mapM (base64urlAlphabet.idxOf? ·) =
      some (sextets bytes) :=
    mapM_idxOf_map (by decide) (sextets_lt bytes)
  simp only [b64urlDecode, noBreaks, values]
  exact ofSextets_sextets bytes

theorem mapM_eq_none {α β : Type} {read : α → Option β} {items : List α}
    {item : α} (member : item ∈ items) (fails : read item = none) :
    items.mapM read = none := by
  induction items with
  | nil => cases member
  | cons first items induction =>
      rw [List.mapM_cons]
      rcases List.mem_cons.mp member with same | later
      · rw [← same, fails]
        rfl
      · rw [induction later]
        cases read first <;> rfl

/-- A character outside of the alphabet spoils the text. -/
theorem b64urlDecode_eq_none {text : Bytes} {byte : UInt8} (member : byte ∈ text)
    (notBreak : byte ≠ 0x0A ∧ byte ≠ 0x0D) (foreign : byte ∉ base64urlAlphabet) :
    b64urlDecode text = none := by
  have kept : byte ∈ text.filter fun byte => byte ≠ 0x0A ∧ byte ≠ 0x0D :=
    List.mem_filter.mpr ⟨member, decide_eq_true notBreak⟩
  rw [b64urlDecode, mapM_eq_none kept (List.idxOf?_eq_none_iff.mpr foreign)]
  rfl

/-! ### Lua's decoder -/

/-- `b64url_decode` of the Lua module: rewrite to standard base64, pad, and
leave the rest to Prosody's `base64.decode`. -/
def b64url_decode (base64Decode : Bytes → Option Bytes) (text : Bytes) :
    Option Bytes :=
  if text.any fun byte => !base64urlAlphabet.contains byte then none
  else
    let standard := text.map fun byte =>
      if byte = 0x2D then 0x2B else if byte = 0x5F then 0x2F else byte
    let pad := standard.length % 4
    if pad = 1 then none
    else if 0 < pad then
      base64Decode (standard ++ List.replicate (4 - pad) 0x3D)
    else base64Decode standard

theorem length_sextets (bytes : Bytes) :
    (sextets bytes).length = b64urlLength bytes.length := by
  unfold b64urlLength
  induction bytes using sextets.induct with
  | case1 => rfl
  | case2 first => simp [sextets]
  | case3 first second => simp [sextets]
  | case4 first second third rest induction =>
      simp only [sextets, List.length_cons, induction]
      omega

/-- What Go writes, Lua reads, given a correct `base64.decode`. -/
theorem b64url_decode_b64url {base64Decode : Bytes → Option Bytes}
    {bytes : Bytes}
    (correct : base64Decode (base64Encode bytes) = some bytes) :
    b64url_decode base64Decode (b64url bytes) = some bytes := by
  have accepted :
      (b64url bytes).any (fun byte => !base64urlAlphabet.contains byte) =
        false := by
    rw [List.any_eq_false]
    intro byte member
    simpa using mem_b64url member
  have translated : (b64url bytes).map (fun byte =>
      if byte = 0x2D then 0x2B else if byte = 0x5F then 0x2F else byte) =
        (sextets bytes).map fun group => base64Alphabet.getD group 0 := by
    rw [b64url, List.map_map]
    refine List.map_congr_left fun group member => ?_
    have : ∀ group < 64,
        (if base64urlAlphabet.getD group 0 = 0x2D then 0x2B
          else if base64urlAlphabet.getD group 0 = 0x5F then 0x2F
          else base64urlAlphabet.getD group 0) =
            base64Alphabet.getD group 0 := by decide
    exact this group (sextets_lt bytes group member)
  have lengths := length_sextets bytes
  unfold b64urlLength at lengths
  simp only [b64url_decode, accepted, Bool.false_eq_true, if_false, translated,
    List.length_map]
  have remainder : bytes.length % 3 = 0 ∨ bytes.length % 3 = 1 ∨
      bytes.length % 3 = 2 := by omega
  have notOne : (sextets bytes).length % 4 ≠ 1 := by omega
  rw [if_neg notOne]
  by_cases short : 0 < (sextets bytes).length % 4
  · rw [if_pos short]
    have padding : 4 - (sextets bytes).length % 4 =
        (3 - bytes.length % 3) % 3 := by
      rcases remainder with none | one | two <;> omega
    rw [padding]
    exact correct
  · rw [if_neg short]
    have padding : (3 - bytes.length % 3) % 3 = 0 := by omega
    simpa [base64Encode, padding] using correct

end FfmucSalt
