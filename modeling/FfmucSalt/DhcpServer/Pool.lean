import FfmucSalt.Search

/-!
# The address pools of the gateways

Two templates, for Kea and for ISC's server, render the pool of a client
network from its network and its broadcast address by regular expressions on
dotted strings.
-/

namespace FfmucSalt.DhcpServer

/-! ## Regular expressions -/

/-- A regular expression for a literal text, with `$` behind it or not. -/
structure Regex where
  literal : Bytes
  atEnd : Bool

/-- Python's `$` also stands before a newline that ends the text. -/
def Regex.isAt (regex : Regex) (text : Bytes) : Bool :=
  regex.literal.isPrefixOf text &&
    (!regex.atEnd || [[], [0x0A]].contains (text.drop regex.literal.length))

/-- Drop `skip` bytes, then replace every match in the rest. -/
def Regex.replaceFrom (regex : Regex) (replacement : Bytes) :
    (skip : Nat) → Bytes → Bytes
  | _, [] => []
  | skip + 1, _ :: rest => regex.replaceFrom replacement skip rest
  | 0, first :: rest =>
      if regex.isAt (first :: rest) then
        replacement ++
          regex.replaceFrom replacement (regex.literal.length - 1) rest
      else first :: regex.replaceFrom replacement 0 rest

/-- The filter `regex_replace` -/
def regexReplace (text : Bytes) (regex : Regex) (replacement : Bytes) : Bytes :=
  regex.replaceFrom replacement 0 text

/-! ## Addresses -/

/-- The octets of an address from the first one to the last. -/
def octets (address : Nat) : List Nat :=
  [address / 2 ^ 24 % 256, address / 2 ^ 16 % 256, address / 2 ^ 8 % 256,
    address % 256]

def joinOctets (octets : List Nat) : Bytes :=
  List.intercalate (ascii ".") (octets.map (formatUint 10))

/-- An address in dotted form. -/
def dotted (address : Nat) : Bytes := joinOctets (octets address)

example : dotted 0x0A50FF00 = ascii "10.80.255.0" := by decide

/-- An IPv4 prefix, by any address in it. -/
structure Prefix where
  address : Nat
  length : Nat
  address_lt : address < 2 ^ 32
  length_le : length ≤ 32

namespace Prefix

variable (site : Prefix)

def text : Bytes :=
  dotted site.address ++ ascii "/" ++ formatUint 10 site.length

/-- The number of its addresses. -/
def size : Nat := 2 ^ (32 - site.length)

def network : Nat := site.address / site.size * site.size

def broadcast : Nat := site.network + (site.size - 1)

end Prefix

/-! ## What the templates render -/

/-- What the templates take from the answer of `network.convert_cidr`. -/
structure Net where
  network : Bytes
  broadcast : Bytes

namespace Net

variable (net : Net)

/-- `net['network'] | regex_replace('\.0$', '.10')` -/
def first : Bytes :=
  regexReplace net.network { literal := ascii ".0", atEnd := true }
    (ascii ".10")

/-- `net['broadcast'] | regex_replace('\.255', '.254')` -/
def last : Bytes :=
  regexReplace net.broadcast { literal := ascii ".255", atEnd := false }
    (ascii ".254")

end Net

/-- An entry of `subnet4` without its options. -/
structure Subnet4 where
  id : Nat
  subnet : Bytes
  pool : Bytes

/-- The entry of `kea-dhcp4.conf.jinja` for a site's prefix. -/
def keaSubnet4 (convertCidr : Bytes → Net) (site : Bytes) : Subnet4 :=
  let net := convertCidr site
  let octets := (net.network.splitOn 0x2E).map fun octet =>
    (decimalValue octet).getD 0
  { id := octets.getD 0 0 * 16777216 + octets.getD 1 0 * 65536 +
      octets.getD 2 0 * 256 + octets.getD 3 0
    subnet := net.network ++ ascii "/" ++ (site.splitOn 0x2F).getD 1 []
    pool := net.first ++ ascii " - " ++ net.last }

/-- The `range` statement of `dhcpd.conf` for a site's prefix. -/
def dhcpdRange (convertCidr : Bytes → Net) (site : Bytes) : Bytes :=
  let net := convertCidr site
  ascii "range                           " ++ net.first ++ ascii " " ++
    net.last ++ ascii ";"

/-! ## Octet by octet -/

/-- The octets behind the first one, each with its dot. -/
private def dots (octets : List Nat) : Bytes :=
  octets.flatMap fun octet => 0x2E :: formatUint 10 octet

private theorem dots_cons (octet : Nat) (rest : List Nat) :
    dots (octet :: rest) = 0x2E :: (formatUint 10 octet ++ dots rest) := by
  simp [dots]

private theorem joinOctets_cons (octet : Nat) (rest : List Nat) :
    joinOctets (octet :: rest) = formatUint 10 octet ++ dots rest := by
  induction rest generalizing octet with
  | nil => simp [joinOctets, dots, List.intercalate]
  | cons next rest induction =>
      have unfolded : joinOctets (octet :: next :: rest) =
          formatUint 10 octet ++ (ascii "." ++ joinOctets (next :: rest)) := by
        simp [joinOctets, List.intercalate]
      rw [unfolded, induction next, dots_cons]
      rfl

private theorem dot_not_mem_formatUint (octet : Nat) :
    0x2E ∉ formatUint 10 octet :=
  fun present => absurd (isDecimalDigit_of_mem_formatUint present) (by decide)

/-- Text without a dot in front of dotted octets lies in the first octet. -/
private theorem prefix_of_append_dots {text digits : Bytes} {rest : List Nat}
    (noDot : 0x2E ∉ text) (inFront : text <+: digits ++ dots rest) :
    text <+: digits := by
  cases rest with
  | nil => simpa [dots] using inFront
  | cons next rest =>
      rw [dots_cons] at inFront
      exact prefix_of_append_cons noDot inFront

section Replace

variable {regex : Regex} {replacement : Bytes}

private theorem replaceFrom_append {skipped : Bytes} {skip : Nat} (text : Bytes)
    (isSkip : skip = skipped.length) :
    regex.replaceFrom replacement skip (skipped ++ text) =
      regex.replaceFrom replacement 0 text := by
  subst isSkip
  induction skipped with
  | nil => rfl
  | cons first skipped induction =>
      rw [List.cons_append, List.length_cons, Regex.replaceFrom, induction]

private theorem not_isAt {literal text : Bytes} {first : UInt8}
    (starts : regex.literal = 0x2E :: literal) (noDot : first ≠ 0x2E) :
    regex.isAt (first :: text) = false := by
  simp [Regex.isAt, starts, List.isPrefixOf, Ne.symm noDot]

/-- Digits stay when the expression starts with a dot. -/
private theorem replaceFrom_digits {literal : Bytes} (octet : Nat)
    (text : Bytes) (starts : regex.literal = 0x2E :: literal) :
    regex.replaceFrom replacement 0 (formatUint 10 octet ++ text) =
      formatUint 10 octet ++ regex.replaceFrom replacement 0 text := by
  have noDot := dot_not_mem_formatUint octet
  generalize formatUint 10 octet = digits at noDot ⊢
  induction digits with
  | nil => rfl
  | cons first digits induction =>
      rw [List.mem_cons, not_or] at noDot
      rw [List.cons_append, Regex.replaceFrom,
        not_isAt starts (Ne.symm noDot.1), induction noDot.2]
      simp

variable {old new : Nat}

/-- An octet is replaced when it is the one searched for, and is the last one
if the expression asks for the end. -/
private theorem replaceFrom_dots (octet : Nat) (rest : List Nat)
    (isOctet : regex.literal = 0x2E :: formatUint 10 old)
    (isNew : replacement = 0x2E :: formatUint 10 new)
    (own : formatUint 10 old <+: formatUint 10 octet ↔ octet = old) :
    regex.replaceFrom replacement 0 (dots (octet :: rest)) =
      0x2E :: formatUint 10
        (if octet = old ∧ (regex.atEnd → rest = []) then new else octet) ++
        regex.replaceFrom replacement 0 (dots rest) := by
  have atEnd : dots rest ∈ [[], [0x0A]] ↔ rest = [] := by
    cases rest with
    | nil => simp [dots]
    | cons next rest => simp [dots]
  have here : regex.isAt (dots (octet :: rest)) ↔
      octet = old ∧ (regex.atEnd → rest = []) := by
    rw [Regex.isAt, dots_cons, isOctet, Bool.and_eq_true,
      List.isPrefixOf_iff_prefix, List.cons_prefix_cons, and_iff_right rfl]
    have found : formatUint 10 old <+: formatUint 10 octet ++ dots rest ↔
        octet = old := by
      refine ⟨fun inFront => own.mp ?_, fun same => ?_⟩
      · exact prefix_of_append_dots (dot_not_mem_formatUint old) inFront
      · rw [same]
        exact List.prefix_append _ _
    rw [found]
    refine and_congr_right fun same => ?_
    rw [same, List.length_cons, List.drop_succ_cons, List.drop_left,
      Bool.or_eq_true, Bool.not_eq_true', List.contains_iff_mem, atEnd,
      ← Bool.not_eq_true, ← imp_iff_not_or]
  by_cases matched : octet = old ∧ (regex.atEnd → rest = [])
  · rw [if_pos matched]
    have found := here.mpr matched
    rw [dots_cons] at found ⊢
    rw [Regex.replaceFrom, if_pos found, isNew, isOctet, matched.1,
      replaceFrom_append (dots rest) (by simp), List.cons_append]
  · rw [if_neg matched]
    have notHere : regex.isAt (dots (octet :: rest)) ≠ true :=
      fun found => matched (here.mp found)
    rw [dots_cons] at notHere ⊢
    rw [Regex.replaceFrom, if_neg notHere, replaceFrom_digits _ _ isOctet,
      List.cons_append]

end Replace

private theorem own_zero : ∀ octet < 256,
    (formatUint 10 0 <+: formatUint 10 octet ↔ octet = 0) := by
  decide +kernel

private theorem own_last : ∀ octet < 256,
    (formatUint 10 255 <+: formatUint 10 octet ↔ octet = 255) := by
  decide +kernel

section Octets

variable {first second third : Nat}

/-- The end of the network address is replaced and nothing else. -/
private theorem replace_zero (second_lt : second < 256)
    (third_lt : third < 256) :
    regexReplace (joinOctets [first, second, third, 0])
      { literal := ascii ".0", atEnd := true } (ascii ".10") =
      joinOctets [first, second, third, 10] := by
  have isOctet : ascii ".0" = 0x2E :: formatUint 10 0 := by decide
  have isNew : ascii ".10" = 0x2E :: formatUint 10 10 := by decide
  have step := fun octet rest own => @replaceFrom_dots
    { literal := ascii ".0", atEnd := true } (ascii ".10") 0 10 octet rest
    isOctet isNew own
  rw [regexReplace, joinOctets_cons, joinOctets_cons,
    replaceFrom_digits _ _ isOctet, step _ _ (own_zero _ second_lt),
    step _ _ (own_zero _ third_lt), step _ _ (own_zero 0 (by decide))]
  simp [dots, Regex.replaceFrom]

/-- Every octet 255 of the broadcast address is replaced, but the first. -/
private theorem replace_last (second_lt : second < 256)
    (third_lt : third < 256) :
    regexReplace (joinOctets [first, second, third, 255])
      { literal := ascii ".255", atEnd := false } (ascii ".254") =
      joinOctets [first, if second = 255 then 254 else second,
        if third = 255 then 254 else third, 254] := by
  have isOctet : ascii ".255" = 0x2E :: formatUint 10 255 := by decide
  have isNew : ascii ".254" = 0x2E :: formatUint 10 254 := by decide
  have step := fun octet rest own => @replaceFrom_dots
    { literal := ascii ".255", atEnd := false } (ascii ".254") 255 254 octet
    rest isOctet isNew own
  rw [regexReplace, joinOctets_cons, joinOctets_cons,
    replaceFrom_digits _ _ isOctet, step _ _ (own_last _ second_lt),
    step _ _ (own_last _ third_lt), step _ _ (own_last 255 (by decide))]
  simp [dots, Regex.replaceFrom]

end Octets

theorem splitOn_joinOctets {octets : List Nat} (nonempty : octets ≠ []) :
    (joinOctets octets).splitOn 0x2E = octets.map (formatUint 10) := by
  refine List.splitOn_intercalate 0x2E ?_ (by simpa using nonempty)
  intro digits member
  obtain ⟨octet, -, rfl⟩ := List.mem_map.mp member
  exact dot_not_mem_formatUint octet

/-- Dotted octets are read in one way. -/
theorem joinOctets_inj {octets others : List Nat} (nonempty : octets ≠ [])
    (alsoNonempty : others ≠ []) :
    joinOctets octets = joinOctets others ↔ octets = others := by
  refine ⟨fun same => ?_, fun same => by rw [same]⟩
  have parts := congrArg (List.splitOn 0x2E) same
  rw [splitOn_joinOctets nonempty, splitOn_joinOctets alsoNonempty] at parts
  exact List.map_injective_iff.mpr
    (formatUint_injective (by decide) (by decide)) parts

/-! ## Networks -/

namespace Prefix

variable {site : Prefix}

theorem size_eq (short : site.length ≤ 24) :
    site.size = 256 * 2 ^ (24 - site.length) := by
  rw [size, show 32 - site.length = 8 + (24 - site.length) by omega, Nat.pow_add]

theorem le_size (short : site.length ≤ 24) : 256 ≤ site.size := by
  rw [size_eq short]
  exact Nat.le_mul_of_pos_right 256 (Nat.two_pow_pos _)

/-- A network of at least 256 addresses consists of whole blocks of 256. -/
theorem network_mod (short : site.length ≤ 24) : site.network % 256 = 0 := by
  rw [network, size_eq short, Nat.mul_left_comm, Nat.mul_mod_right]

theorem broadcast_mod (short : site.length ≤ 24) :
    site.broadcast % 256 = 255 := by
  have whole := network_mod short
  have large := le_size short
  rw [broadcast]
  rw [size_eq short] at large ⊢
  omega

theorem network_lt : site.network < 2 ^ 32 :=
  Nat.lt_of_le_of_lt (Nat.div_mul_le_self _ _) site.address_lt

/-- The prefixes whose network ends in `.0` and whose broadcast address ends in
`.255` are those up to `/24`. -/
theorem ends_iff : site.network % 256 = 0 ∧ site.broadcast % 256 = 255 ↔
    site.length ≤ 24 := by
  refine ⟨fun ⟨ends, alsoEnds⟩ => ?_,
    fun short => ⟨network_mod short, broadcast_mod short⟩⟩
  by_contra long
  have small : site.size ≤ 2 ^ 7 :=
    Nat.pow_le_pow_right (by decide) (by omega)
  rw [broadcast] at alsoEnds
  omega

/-- The addresses from the tenth one on to the one before the broadcast
address. -/
structure Spans (site : Prefix) (first last : Nat) : Prop where
  first_eq : first = site.network + 10
  last_eq : last = site.broadcast - 1
  first_mem : site.network ≤ first ∧ first ≤ site.broadcast
  last_mem : site.network ≤ last ∧ last ≤ site.broadcast
  ordered : first ≤ last
  first_block : first / 256 = site.network / 256
  last_block : last / 256 = site.broadcast / 256

theorem spans (short : site.length ≤ 24) :
    site.Spans (site.network + 10) (site.broadcast - 1) := by
  have ends := network_mod short
  have alsoEnds := broadcast_mod short
  have large := le_size short
  have isBroadcast : site.broadcast = site.network + (site.size - 1) := rfl
  constructor <;> omega

end Prefix

/-! ## Reading a prefix -/

/-- The address with these octets. -/
def ofOctets (octets : List Nat) : Nat :=
  octets.foldl (fun address octet => address * 256 + octet) 0

theorem ofOctets_octets {address : Nat} (small : address < 2 ^ 32) :
    ofOctets (octets address) = address := by
  simp only [ofOctets, octets, List.foldl_cons, List.foldl_nil]
  omega

/-- The octets that a dotted address is made of can be read again. -/
theorem read_dotted (address : Nat) :
    ((dotted address).splitOn 0x2E).map decimalValue =
      (octets address).map some := by
  have nonempty : octets address ≠ [] := List.cons_ne_nil _ _
  rw [dotted, splitOn_joinOctets nonempty, List.map_map]
  exact List.map_congr_left fun octet _ => decimalValue_formatUint octet

theorem splitOn_text (site : Prefix) :
    site.text.splitOn 0x2F = [dotted site.address, formatUint 10 site.length] := by
  have isText : site.text = List.intercalate [0x2F]
      [dotted site.address, formatUint 10 site.length] := by
    simp [Prefix.text, List.intercalate, show ascii "/" = [0x2F] from rfl]
  have noSlash : ∀ value, 0x2F ∉ formatUint 10 value :=
    fun value present =>
      absurd (isDecimalDigit_of_mem_formatUint present) (by decide)
  have noSlashDotted : 0x2F ∉ dotted site.address := by
    intro present
    rw [dotted, octets, joinOctets_cons] at present
    simp [dots, noSlash] at present
  rw [isText]
  refine List.splitOn_intercalate 0x2F ?_ (List.cons_ne_nil _ _)
  simp [noSlash, noSlashDotted]

/-! ## The pools -/

section Pools

variable {convertCidr : Bytes → Net} {site : Prefix}

/-- What Salt's `network.convert_cidr` does. -/
def Converts (convertCidr : Bytes → Net) : Prop :=
  ∀ site : Prefix, convertCidr site.text =
    { network := dotted site.network, broadcast := dotted site.broadcast }

/-- Kea numbers a subnet by its network address. -/
theorem keaSubnet4_subnet (converts : Converts convertCidr) :
    (keaSubnet4 convertCidr site.text).id = site.network ∧
      (keaSubnet4 convertCidr site.text).subnet =
        dotted site.network ++ ascii "/" ++ formatUint 10 site.length := by
  have read : ((dotted site.network).splitOn 0x2E).map
      (fun octet => (decimalValue octet).getD 0) = octets site.network := by
    have parts := congrArg (List.map (·.getD 0)) (read_dotted site.network)
    simpa only [List.map_map, Function.comp_def, Option.getD_some, List.map_id']
      using parts
  constructor
  · have small := site.network_lt
    simp only [keaSubnet4, converts site, read, octets, List.getD_cons_zero,
      List.getD_cons_succ]
    omega
  · simp only [keaSubnet4, converts site, splitOn_text, List.getD_cons_zero,
      List.getD_cons_succ]

theorem first_eq (converts : Converts convertCidr) (short : site.length ≤ 24) :
    (convertCidr site.text).first = dotted (site.network + 10) := by
  have ends := site.network_mod short
  have isNetwork : octets site.network = [site.network / 2 ^ 24 % 256,
      site.network / 2 ^ 16 % 256, site.network / 2 ^ 8 % 256, 0] := by
    rw [octets, ends]
  have isFirst : octets (site.network + 10) = [site.network / 2 ^ 24 % 256,
      site.network / 2 ^ 16 % 256, site.network / 2 ^ 8 % 256, 10] := by
    simp only [octets, List.cons.injEq, and_true]
    omega
  rw [converts]
  change regexReplace (joinOctets (octets site.network)) _ _ =
    joinOctets (octets (site.network + 10))
  rw [isNetwork, isFirst]
  exact replace_zero (Nat.mod_lt _ (by decide)) (Nat.mod_lt _ (by decide))

/-- The last address is right if no other octet looks like the last one. -/
theorem last_eq_iff (converts : Converts convertCidr)
    (short : site.length ≤ 24) :
    (convertCidr site.text).last = dotted (site.broadcast - 1) ↔
      site.broadcast / 2 ^ 16 % 256 ≠ 255 ∧
        site.broadcast / 2 ^ 8 % 256 ≠ 255 := by
  have ends := site.broadcast_mod short
  have isBroadcast : octets site.broadcast = [site.broadcast / 2 ^ 24 % 256,
      site.broadcast / 2 ^ 16 % 256, site.broadcast / 2 ^ 8 % 256, 255] := by
    rw [octets, ends]
  have isLast : octets (site.broadcast - 1) = [site.broadcast / 2 ^ 24 % 256,
      site.broadcast / 2 ^ 16 % 256, site.broadcast / 2 ^ 8 % 256, 254] := by
    simp only [octets, List.cons.injEq, and_true]
    omega
  rw [converts]
  change regexReplace (joinOctets (octets site.broadcast)) _ _ =
    joinOctets (octets (site.broadcast - 1)) ↔ _
  rw [isBroadcast, isLast,
    replace_last (Nat.mod_lt _ (by decide)) (Nat.mod_lt _ (by decide)),
    joinOctets_inj (List.cons_ne_nil _ _) (List.cons_ne_nil _ _)]
  simp only [List.cons.injEq, and_true, true_and, ite_eq_right_iff]
  omega

/-- Both templates render the addresses from network + 10 to broadcast - 1 for
the prefixes whose broadcast address has no 255 in its second and third octet,
and for no others. -/
theorem pool_covers_iff (converts : Converts convertCidr)
    (short : site.length ≤ 24) :
    ((∃ first last, site.Spans first last ∧
        (keaSubnet4 convertCidr site.text).pool =
          dotted first ++ ascii " - " ++ dotted last) ↔
      site.broadcast / 2 ^ 16 % 256 ≠ 255 ∧
        site.broadcast / 2 ^ 8 % 256 ≠ 255) ∧
    ((∃ first last, site.Spans first last ∧
        dhcpdRange convertCidr site.text =
          ascii "range                           " ++ dotted first ++
            ascii " " ++ dotted last ++ ascii ";") ↔
      site.broadcast / 2 ^ 16 % 256 ≠ 255 ∧
        site.broadcast / 2 ^ 8 % 256 ≠ 255) := by
  have isFirst := first_eq converts short
  have isLast := last_eq_iff converts short
  have only : ∀ {rendered : Nat → Nat → Prop},
      (∃ first last, site.Spans first last ∧ rendered first last) ↔
        rendered (site.network + 10) (site.broadcast - 1) := by
    intro rendered
    refine ⟨fun ⟨first, last, spans, holds⟩ => ?_,
      fun holds => ⟨_, _, Prefix.spans short, holds⟩⟩
    rw [← spans.first_eq, ← spans.last_eq]
    exact holds
  refine ⟨only.trans ?_, only.trans ?_⟩
  · rw [keaSubnet4, isFirst, List.append_cancel_left_eq, isLast]
  · rw [dhcpdRange, isFirst, List.append_cancel_right_eq,
      List.append_cancel_left_eq, isLast]

end Pools

namespace Sample

/-- `network.convert_cidr`, for the prefixes it is given here. -/
def convertCidr (text : Bytes) : Net :=
  match text.splitOn 0x2F with
  | [address, length] =>
      let octets := (address.splitOn 0x2E).map decimalValue
      let size := 2 ^ (32 - (decimalValue length).getD 0)
      let network := ofOctets (octets.map (·.getD 0)) / size * size
      { network := dotted network, broadcast := dotted (network + (size - 1)) }
  | _ => { network := [], broadcast := [] }

theorem converts : Converts convertCidr := by
  intro site
  have address : ofOctets
      ((((dotted site.address).splitOn 0x2E).map decimalValue).map (·.getD 0)) =
        site.address := by
    rw [read_dotted, List.map_map]
    simp only [Function.comp_def, Option.getD_some, List.map_id']
    exact ofOctets_octets site.address_lt
  simp only [convertCidr, splitOn_text, address, decimalValue_formatUint,
    Option.getD_some]
  rfl

/-- `10.80.254.0/24` -/
def plain : Prefix :=
  { address := 0x0A50FE00, length := 24, address_lt := by decide
    length_le := by decide }

/-- `10.80.255.0/24` -/
def lookalike : Prefix :=
  { address := 0x0A50FF00, length := 24, address_lt := by decide
    length_le := by decide }

theorem pool_covers_iff_plain : ∃ first last, plain.Spans first last ∧
    (keaSubnet4 convertCidr plain.text).pool =
      dotted first ++ ascii " - " ++ dotted last :=
  (pool_covers_iff converts (by decide)).1.mpr (by decide)

/-- The third octet is replaced too: the pool ends before it begins, outside
of its network. -/
theorem pool_backwards : Converts convertCidr ∧ lookalike.length ≤ 24 ∧
    (keaSubnet4 convertCidr lookalike.text).pool =
      ascii "10.80.255.10 - 10.80.254.254" ∧
    ¬ ∃ first last, lookalike.Spans first last ∧
      (keaSubnet4 convertCidr lookalike.text).pool =
        dotted first ++ ascii " - " ++ dotted last := by
  have isPool : (keaSubnet4 convertCidr lookalike.text).pool =
      ascii "10.80.255.10 - 10.80.254.254" := by
    decide
  have other : ascii "10.80.255.10 - 10.80.254.254" ≠
      dotted (lookalike.network + 10) ++ ascii " - " ++
        dotted (lookalike.broadcast - 1) := by
    decide
  refine ⟨converts, by decide, isPool, ?_⟩
  rintro ⟨first, last, spans, same⟩
  rw [isPool, spans.first_eq, spans.last_eq] at same
  exact other same

end Sample

end FfmucSalt.DhcpServer
