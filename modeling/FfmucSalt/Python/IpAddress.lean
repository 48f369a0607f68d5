import FfmucSalt.Python.Text
import Mathlib.Data.Nat.Bitwise

/-!
# Python's `ipaddress`

Addresses and networks of both versions, read from texts and written again.
Scope ids of IPv6 addresses are left out.
-/

namespace FfmucSalt.Python

inductive Version where
  | v4
  | v6
  deriving DecidableEq

namespace Version

def bits : Version → Nat
  | v4 => 32
  | v6 => 128

/-- The property `version` -/
def number : Version → Nat
  | v4 => 4
  | v6 => 6

theorem number_injective {first second : Version}
    (same : first.number = second.number) : first = second := by
  cases first <;> cases second <;> simp_all [number]

def allOnes (version : Version) : Nat := 2 ^ version.bits - 1

/-- `_ip_int_from_prefix` -/
def netmask (version : Version) (length : Nat) : Nat :=
  version.allOnes ^^^ (version.allOnes >>> length)

end Version

@[ext] structure Address where
  version : Version
  number : Nat
  number_lt : number < 2 ^ version.bits
  deriving DecidableEq

/-- A network without host bits in its address. -/
@[ext] structure Network where
  version : Version
  number : Nat
  number_lt : number < 2 ^ version.bits
  prefixLength : Nat
  prefixLength_le : prefixLength ≤ version.bits
  masked : number &&& version.netmask prefixLength = number
  deriving DecidableEq

/-- `_BaseNetwork.__contains__` of an address -/
def Network.contains (network : Network) (address : Address) : Bool :=
  address.version = network.version &&
    address.number &&& network.version.netmask network.prefixLength =
      network.number

/-! ## Reading addresses -/

/-- `_parse_octet` -/
def parseOctet (octet : Str) : Option Nat :=
  if octet = [] then none
  else if !octet.all Char.isDigit then none
  else if 3 < octet.length then none
  else if octet ≠ ['0'] ∧ octet.head? = some '0' then none
  else if 255 < ofDigits 10 octet then none
  else some (ofDigits 10 octet)

/-- `_BaseV4._ip_int_from_string` -/
def ipInt4 (text : Str) : Option Nat :=
  if (text.splitOn '.').length ≠ 4 then none
  else do
    let octets ← (text.splitOn '.').mapM parseOctet
    return octets.foldl (fun number octet => 256 * number + octet) 0

/-- `_parse_hextet` -/
def parseHextet (hextet : Str) : Option Nat :=
  if hextet = [] then none
  else if !hextet.all fun ch => (hexDigit? ch).isSome then none
  else if 4 < hextet.length then none
  else some (ofDigits 16 hextet)

/-- The parts of a text with an IPv4 suffix written as two hextets. -/
def expandSuffix (parts : List Str) : Option (List Str) :=
  let suffix := parts.getLastD []
  if '.' ∈ suffix then do
    let number ← if '/' ∈ suffix then none else ipInt4 suffix
    return parts.dropLast ++
      [toDigits 16 (number / 2 ^ 16 % 2 ^ 16), toDigits 16 (number % 2 ^ 16)]
  else some parts

/-- The hextets before and behind the skipped zeros, and the number of these. -/
structure Layout where
  high : List Str
  low : List Str
  skipped : Nat

def layout (parts : List Str) : Option Layout :=
  let interior := parts.tail.dropLast
  if 1 < interior.count [] then none
  else if [] ∈ interior then
    let skip := interior.idxOf [] + 1
    let high := if parts.headD [] = [] then skip - 1 else skip
    let behind := parts.length - skip - 1
    let low := if parts.getLastD [] = [] then behind - 1 else behind
    if parts.headD [] = [] ∧ high ≠ 0 then none
    else if parts.getLastD [] = [] ∧ low ≠ 0 then none
    else if 8 < high + low + 1 then none
    else some
      { high := parts.take high
        low := parts.drop (parts.length - low)
        skipped := 8 - (high + low) }
  else if parts.length ≠ 8 then none
  else if parts.headD [] = [] then none
  else if parts.getLastD [] = [] then none
  else some { high := parts, low := [], skipped := 0 }

def addHextet (number hextet : Nat) : Nat := 65536 * number + hextet

/-- `_BaseV6._ip_int_from_string` -/
def ipInt6 (text : Str) : Option Nat := do
  if (text.splitOn ':').length < 3 then none
  let parts ← expandSuffix (text.splitOn ':')
  if 9 < parts.length then none
  let layout ← layout parts
  let high ← layout.high.mapM parseHextet
  let low ← layout.low.mapM parseHextet
  return low.foldl addHextet
    (high.foldl addHextet 0 * 2 ^ (16 * layout.skipped))

/-- `_ip_int_from_string` -/
def ipInt : Version → Str → Option Nat
  | .v4 => ipInt4
  | .v6 => ipInt6

/-- The constructors `IPv4Address` and `IPv6Address` on a text -/
def addressOf (version : Version) (text : Str) : Option Address := do
  if '/' ∈ text then none
  let number ← ipInt version text
  if number_lt : number < 2 ^ version.bits then
    some { version, number, number_lt }
  else none

/-- `ip_address`; nothing stands for a `ValueError`. -/
def ipAddress (text : Str) : Option Address :=
  (addressOf .v4 text).or (addressOf .v6 text)

/-! ## Reading networks -/

/-- `_prefix_from_prefix_string` -/
def prefixFromPrefixString (version : Version) (text : Str) : Option Nat := do
  if text = [] ∨ !text.all Char.isDigit then none
  let length ← int text
  if version.bits < length then none
  return length

/-- `_prefix_from_ip_int`: the number of leading ones if only zeros follow -/
def prefixFromIpInt (version : Version) (number : Nat) : Option Nat :=
  (List.range (version.bits + 1)).find? fun length =>
    version.netmask length = number

/-- `_prefix_from_ip_string` -/
def prefixFromIpString (text : Str) : Option Nat := do
  let number ← ipInt4 text
  (prefixFromIpInt .v4 number).or
    (prefixFromIpInt .v4 (number ^^^ Version.v4.allOnes))

/-- `_make_netmask` -/
def prefixLength (version : Version) (text : Str) : Option Nat :=
  match version with
  | .v4 => (prefixFromPrefixString .v4 text).or (prefixFromIpString text)
  | .v6 => prefixFromPrefixString .v6 text

/-- The constructors `IPv4Network` and `IPv6Network` on a text -/
def networkOf (version : Version) (text : Str) : Option Network := do
  let parts := text.splitOn '/'
  if 2 < parts.length then none
  let address ← addressOf version (parts.getD 0 [])
  let length ← match parts[1]? with
    | some mask => prefixLength version mask
    | none => some version.bits
  if proper : length ≤ address.version.bits ∧
      address.number &&& address.version.netmask length = address.number then
    some
      { version := address.version
        number := address.number
        number_lt := address.number_lt
        prefixLength := length
        prefixLength_le := proper.1
        masked := proper.2 }
  else none

/-- `ip_network`; nothing stands for a `ValueError`. -/
def ipNetwork (text : Str) : Option Network :=
  (networkOf .v4 text).or (networkOf .v6 text)

/-! ## Writing -/

def octets (number : Nat) : List Nat :=
  [number / 2 ^ 24 % 256, number / 2 ^ 16 % 256, number / 2 ^ 8 % 256,
    number % 256]

def hextets (number : Nat) : List Nat :=
  (List.range 8).map fun index => number / 65536 ^ (7 - index) % 65536

/-- Where zeros begin and how many there are, of the best row and this one. -/
structure ZeroRuns where
  bestStart : Nat
  bestLength : Nat
  start : Nat
  length : Nat

/-- One step of the loop in `_compress_hextets` -/
def ZeroRuns.next (runs : ZeroRuns) (item : Str × Nat) : ZeroRuns :=
  if item.1 = ['0'] then
    let start := if runs.length = 0 then item.2 else runs.start
    let length := runs.length + 1
    if runs.bestLength < length then
      { bestStart := start, bestLength := length, start, length }
    else { runs with start, length }
  else { runs with start := 0, length := 0 }

def zeroRuns (hextets : List Str) : ZeroRuns :=
  hextets.zipIdx.foldl ZeroRuns.next
    { bestStart := 0, bestLength := 0, start := 0, length := 0 }

/-- `_compress_hextets` -/
def compressHextets (hextets : List Str) : List Str :=
  let runs := zeroRuns hextets
  if 1 < runs.bestLength then
    let stop := runs.bestStart + runs.bestLength
    (if runs.bestStart = 0 then [[]] else []) ++
      hextets.take runs.bestStart ++ [[]] ++ hextets.drop stop ++
        (if stop = hextets.length then [[]] else [])
  else hextets

namespace Address

variable (address : Address)

/-- `str` of an address -/
def str : Str :=
  match address.version with
  | .v4 => List.intercalate ['.'] ((octets address.number).map (toDigits 10))
  | .v6 => List.intercalate [':']
      (compressHextets ((hextets address.number).map (toDigits 16)))

/-- The property `exploded` of an IPv6 address -/
def exploded : Str :=
  List.intercalate [':'] <| (hextets address.number).map fun hextet =>
    [hextet / 4096 % 16, hextet / 256 % 16, hextet / 16 % 16,
      hextet % 16].map Nat.digitChar

/-- The property `reverse_pointer` -/
def reversePointer : Str :=
  match address.version with
  | .v4 =>
      List.intercalate ['.'] (address.str.splitOn '.').reverse ++
        chars ".in-addr.arpa"
  | .v6 =>
      List.intercalate ['.']
          ((address.exploded.reverse.filter (· ≠ ':')).map ([·])) ++
        chars ".ip6.arpa"

end Address

/-- `str` of a network -/
def Network.str (network : Network) : Str :=
  Address.str
      { version := network.version
        number := network.number
        number_lt := network.number_lt } ++
    '/' :: toDigits 10 network.prefixLength

/-! ## Digits -/

theorem mapM_map_eq_some {α β : Type} {parse : β → Option α} {write : α → β}
    {list : List α} (reads : ∀ item ∈ list, parse (write item) = some item) :
    (list.map write).mapM parse = some list := by
  induction list with
  | nil => rfl
  | cons item list induction =>
      obtain ⟨first, rest⟩ := List.forall_mem_cons.mp reads
      simp [first, induction rest]

theorem notMem_toDigits {base value : Nat} {ch : Char} (large : 1 < base)
    (small : base ≤ 16) (noDigit : hexDigit? ch = none) :
    ch ∉ toDigits base value := by
  intro member
  have digit := isSome_hexDigit?_of_mem_toDigits large small member
  rw [noDigit] at digit
  contradiction

theorem parseOctet_toDigits {octet : Nat} (small : octet < 256) :
    parseOctet (toDigits 10 octet) = some octet := by
  have each : ∀ octet < 256, parseOctet (toDigits 10 octet) = some octet := by
    decide +kernel
  exact each octet small

theorem parseHextet_toDigits {hextet : Nat} (small : hextet < 65536) :
    parseHextet (toDigits 16 hextet) = some hextet := by
  have nonempty : toDigits 16 hextet ≠ [] := Nat.toDigits_ne_nil
  have digits : (toDigits 16 hextet).all
      (fun ch => (hexDigit? ch).isSome) = true := by
    rw [List.all_eq_true]
    intro ch member
    exact isSome_hexDigit?_of_mem_toDigits (by decide) (by decide) member
  have short : (toDigits 16 hextet).length ≤ 4 :=
    (Nat.length_toDigits_le_iff (by decide) (by decide)).mpr small
  rw [parseHextet, if_neg nonempty, digits, if_neg (by simp),
    if_neg (by omega), ofDigits_toDigits hextet (by decide) (by decide)]

theorem foldl_addHextet_digits (count number : Nat) :
    ((List.range count).map fun index =>
        number / 65536 ^ (count - 1 - index) % 65536).foldl addHextet 0 =
      number % 65536 ^ count := by
  induction count generalizing number with
  | zero => simp [Nat.mod_one]
  | succ count induction =>
      have shifted : (List.range count).map (fun index =>
          number / 65536 ^ (count + 1 - 1 - index) % 65536) =
          (List.range count).map fun index =>
            number / 65536 / 65536 ^ (count - 1 - index) % 65536 := by
        apply List.map_congr_left
        intro index inRange
        have below := List.mem_range.mp inRange
        rw [Nat.div_div_eq_div_mul, ← Nat.pow_succ']
        congr 3
        omega
      rw [List.range_succ, List.map_append, List.foldl_append, shifted,
        induction (number / 65536), Nat.pow_succ', Nat.mod_mul]
      simp [addHextet, Nat.add_comm]

theorem foldl_hextets {number : Nat} (small : number < 2 ^ 128) :
    (hextets number).foldl addHextet 0 = number := by
  have whole := foldl_addHextet_digits 8 number
  rw [Nat.mod_eq_of_lt (by omega)] at whole
  exact whole

theorem foldl_addHextet_zeros (count number : Nat) :
    (List.replicate count 0).foldl addHextet number =
      number * 2 ^ (16 * count) := by
  induction count generalizing number with
  | zero => simp
  | succ count induction =>
      rw [List.replicate_succ, List.foldl_cons, induction, addHextet,
        Nat.mul_add 16 count 1, Nat.pow_add, Nat.add_zero]
      rw [Nat.mul_comm 65536, Nat.mul_assoc, Nat.mul_comm (2 ^ (16 * count))]

/-! ## Rows of zeros -/

/-- Both rows are rows of zeros in the hextets seen so far. -/
structure ZeroRuns.Sound (runs : ZeroRuns) (before : List Str) : Prop where
  best_le : runs.bestStart + runs.bestLength ≤ before.length
  best : ∀ index, runs.bestStart ≤ index →
    index < runs.bestStart + runs.bestLength → before[index]? = some ['0']
  ends : runs.length = 0 ∨ runs.start + runs.length = before.length
  row : ∀ index, runs.start ≤ index →
    index < runs.start + runs.length → before[index]? = some ['0']

theorem ZeroRuns.Sound.next {runs : ZeroRuns} {before : List Str}
    (sound : runs.Sound before) (hextet : Str) :
    (runs.next (hextet, before.length)).Sound (before ++ [hextet]) := by
  have kept : ∀ {start length : Nat},
      (∀ index, start ≤ index → index < start + length →
        before[index]? = some ['0']) →
      ∀ index, start ≤ index → index < start + length →
        (before ++ [hextet])[index]? = some ['0'] := by
    intro start length zeros index fromStart below
    have inside := zeros index fromStart below
    rw [List.getElem?_append_left (List.getElem?_eq_some_iff.mp inside).1,
      inside]
  have longer : (before ++ [hextet]).length = before.length + 1 := by simp
  have bestBefore := sound.best_le
  rw [ZeroRuns.next]
  by_cases isZero : hextet = ['0']
  · -- The row grows by this hextet.
    have grown : ∀ index,
        (if runs.length = 0 then before.length else runs.start) ≤ index →
        index < (if runs.length = 0 then before.length else runs.start) +
          (runs.length + 1) →
        (before ++ [hextet])[index]? = some ['0'] := by
      intro index fromStart below
      by_cases last : index = before.length
      · rw [last, List.getElem?_append_right (Nat.le_refl _), Nat.sub_self,
          isZero]
        rfl
      · apply kept sound.row
        · split at fromStart
          · split at below <;> omega
          · exact fromStart
        · cases sound.ends with
          | inl none => simp only [none, if_true] at fromStart below; omega
          | inr ends => split at below <;> omega
    have total : (if runs.length = 0 then before.length else runs.start) +
        (runs.length + 1) = before.length + 1 := by
      cases sound.ends with
      | inl none => rw [if_pos none, none]
      | inr ends => split <;> omega
    rw [if_pos isZero]
    dsimp only
    split
    · exact
        { best_le := by rw [longer]; exact Nat.le_of_eq total
          best := grown
          ends := .inr (by rw [longer]; exact total)
          row := grown }
    · exact
        { best_le := by rw [longer]; exact Nat.le_succ_of_le bestBefore
          best := kept sound.best
          ends := .inr (by rw [longer]; exact total)
          row := grown }
  · rw [if_neg isZero]
    exact
      { best_le := by rw [longer]; exact Nat.le_succ_of_le bestBefore
        best := kept sound.best
        ends := .inl rfl
        row := fun index _ below => absurd below (by simp) }

theorem ZeroRuns.Sound.foldl {runs : ZeroRuns} {before : List Str}
    (sound : runs.Sound before) (rest : List Str) :
    ((rest.zipIdx before.length).foldl ZeroRuns.next runs).Sound
      (before ++ rest) := by
  induction rest generalizing runs before with
  | nil => simpa using sound
  | cons hextet rest induction =>
      have step := induction (sound.next hextet)
      rw [List.length_append, List.length_singleton] at step
      rw [List.zipIdx_cons, List.foldl_cons]
      simpa using step

theorem zeroRuns_sound (hextets : List Str) :
    (zeroRuns hextets).Sound hextets := by
  have start : ZeroRuns.Sound
      { bestStart := 0, bestLength := 0, start := 0, length := 0 } [] :=
    { best_le := Nat.le_refl 0
      best := fun index _ below => absurd below (by simp)
      ends := .inl rfl
      row := fun index _ below => absurd below (by simp) }
  exact start.foldl hextets

/-! ## Skipped zeros -/

/-- The parts before or behind the skipped zeros as they are written. -/
def padded (parts : List Str) : List Str :=
  if parts = [] then [[]] else parts

theorem padded_ne_nil (parts : List Str) : padded parts ≠ [] := by
  rw [padded]
  split
  · simp
  · assumption

theorem length_padded (parts : List Str) :
    (padded parts).length = max parts.length 1 := by
  cases parts with
  | nil => rfl
  | cons first parts => simp [padded]

theorem notMem_tail_padded {parts : List Str} (full : [] ∉ parts) :
    [] ∉ (padded parts).tail := by
  rw [padded]
  split
  · simp
  · exact fun member => full (List.mem_of_mem_tail member)

theorem notMem_dropLast_padded {parts : List Str} (full : [] ∉ parts) :
    [] ∉ (padded parts).dropLast := by
  rw [padded]
  split
  · simp
  · exact fun member => full (List.dropLast_subset _ member)

/-- The first part is empty only where there is none. -/
theorem headD_padded_eq_nil_iff {parts : List Str} (full : [] ∉ parts) :
    (padded parts).headD [] = [] ↔ parts = [] := by
  cases parts with
  | nil => simp [padded]
  | cons first parts =>
      have nonempty : first ≠ [] := fun none => full (none ▸ List.mem_cons_self)
      simp [padded, nonempty]

theorem getLastD_padded_eq_nil_iff {parts : List Str} (full : [] ∉ parts) :
    (padded parts).getLastD [] = [] ↔ parts = [] := by
  obtain rfl | ⟨front, last, rfl⟩ := List.eq_nil_or_concat' parts
  · simp [padded]
  · have nonempty : last ≠ [] := fun none => full (by simp [none])
    simp [padded, nonempty]

theorem layout_padded {high low : List Str} (highFull : [] ∉ high)
    (lowFull : [] ∉ low) (short : high.length + low.length < 8) :
    layout (padded high ++ [[]] ++ padded low) =
      some
        { high
          low
          skipped := 8 - (high.length + low.length) } := by
  have interior : (padded high ++ [[]] ++ padded low).tail.dropLast =
      (padded high).tail ++ ([] :: (padded low).dropLast) := by
    rw [List.append_assoc, List.tail_append_of_ne_nil (padded_ne_nil high),
      List.singleton_append, List.dropLast_append_of_ne_nil (by simp),
      List.dropLast_cons_of_ne_nil (padded_ne_nil low)]
  have once : ((padded high).tail ++ ([] :: (padded low).dropLast)).count [] =
      1 := by
    rw [List.count_append, List.count_cons_self,
      List.count_eq_zero.mpr (notMem_tail_padded highFull),
      List.count_eq_zero.mpr (notMem_dropLast_padded lowFull)]
  have index :
      ((padded high).tail ++ ([] :: (padded low).dropLast)).idxOf [] + 1 =
        (padded high).length := by
    rw [List.idxOf_append_of_notMem (notMem_tail_padded highFull),
      List.idxOf_cons_self, List.length_tail]
    have := List.length_pos_iff.mpr (padded_ne_nil high)
    omega
  have head : (padded high ++ [[]] ++ padded low).headD [] =
      (padded high).headD [] := by
    obtain ⟨first, rest, same⟩ :=
      List.exists_cons_of_ne_nil (padded_ne_nil high)
    rw [same]
    rfl
  have last : (padded high ++ [[]] ++ padded low).getLastD [] =
      (padded low).getLastD [] := by
    obtain none | ⟨front, final, same⟩ :=
      List.eq_nil_or_concat' (padded low)
    · exact absurd none (padded_ne_nil low)
    · rw [same, ← List.append_assoc]
      simp only [List.getLastD_eq_getLast?, List.getLast?_concat]
  have behind : (padded high ++ [[]] ++ padded low).length -
      (padded high).length - 1 = (padded low).length := by
    simp only [List.length_append, List.length_singleton]
    omega
  have highLength :
      (if high = [] then (padded high).length - 1 else (padded high).length) =
        high.length := by
    rw [padded]
    split <;> simp [*]
  have lowLength :
      (if low = [] then (padded low).length - 1 else (padded low).length) =
        low.length := by
    rw [padded]
    split <;> simp [*]
  have highParts : (padded high ++ [[]] ++ padded low).take high.length =
      high := by
    rw [List.append_assoc, padded]
    split
    case isTrue none => simp [none]
    case isFalse => exact List.take_left
  have lowParts : (padded high ++ [[]] ++ padded low).drop
      ((padded high ++ [[]] ++ padded low).length - low.length) = low := by
    by_cases none : low = []
    · simp [none]
    · rw [padded.eq_def low, if_neg none]
      exact List.drop_left' (by
        simp only [List.length_append, List.length_singleton]
        omega)
  rw [layout]
  simp only [interior, once, index, head, last, behind,
    headD_padded_eq_nil_iff highFull, getLastD_padded_eq_nil_iff lowFull,
    highLength, lowLength, highParts, lowParts]
  rw [if_neg (by decide), if_pos (by simp), if_neg (by simp),
    if_neg (by simp), if_neg (by omega)]

/-- The hextets around the longest row of zeros. -/
theorem compressHextets_eq {hextets : List Str}
    (rows : 1 < (zeroRuns hextets).bestLength) :
    ∃ high low count, hextets = high ++ List.replicate count ['0'] ++ low ∧
      0 < count ∧
      compressHextets hextets = padded high ++ [[]] ++ padded low := by
  have sound := zeroRuns_sound hextets
  have bounded := sound.best_le
  have zeros : (hextets.drop (zeroRuns hextets).bestStart).take
      (zeroRuns hextets).bestLength =
        List.replicate (zeroRuns hextets).bestLength ['0'] := by
    apply List.ext_getElem?
    intro index
    rw [List.getElem?_take, List.getElem?_drop, List.getElem?_replicate]
    split
    case isTrue below => exact sound.best _ (by omega) (by omega)
    case isFalse => rfl
  refine ⟨hextets.take (zeroRuns hextets).bestStart,
    hextets.drop ((zeroRuns hextets).bestStart +
      (zeroRuns hextets).bestLength), (zeroRuns hextets).bestLength, ?_,
    by omega, ?_⟩
  · rw [← zeros, List.append_assoc, ← List.drop_drop,
      List.take_append_drop, List.take_append_drop]
  · have front : padded (hextets.take (zeroRuns hextets).bestStart) =
        (if (zeroRuns hextets).bestStart = 0 then [[]] else []) ++
          hextets.take (zeroRuns hextets).bestStart := by
      rw [padded]
      by_cases start : (zeroRuns hextets).bestStart = 0
      · simp [start]
      · have nonempty : hextets.take (zeroRuns hextets).bestStart ≠ [] := by
          apply List.ne_nil_of_length_pos
          rw [List.length_take]
          omega
        rw [if_neg nonempty, if_neg start, List.nil_append]
    have back : padded (hextets.drop ((zeroRuns hextets).bestStart +
          (zeroRuns hextets).bestLength)) =
        hextets.drop ((zeroRuns hextets).bestStart +
          (zeroRuns hextets).bestLength) ++
          (if (zeroRuns hextets).bestStart + (zeroRuns hextets).bestLength =
            hextets.length then [[]] else []) := by
      rw [padded]
      by_cases stop : (zeroRuns hextets).bestStart +
          (zeroRuns hextets).bestLength = hextets.length
      · simp [stop]
      · have nonempty : hextets.drop ((zeroRuns hextets).bestStart +
            (zeroRuns hextets).bestLength) ≠ [] := by
          apply List.ne_nil_of_length_pos
          rw [List.length_drop]
          omega
        rw [if_neg nonempty, if_neg stop, List.append_nil]
    rw [compressHextets, if_pos rows, front, back]
    simp only [List.append_assoc]

/-! ## Reading what was written -/

theorem ipInt4_str {number : Nat} (small : number < 2 ^ 32) :
    ipInt4 (List.intercalate ['.'] ((octets number).map (toDigits 10))) =
      some number := by
  have parts : (List.intercalate ['.']
      ((octets number).map (toDigits 10))).splitOn '.' =
        (octets number).map (toDigits 10) := by
    refine List.splitOn_intercalate '.' ?_ (by simp [octets])
    intro octet isOctet
    obtain ⟨value, _, rfl⟩ := List.mem_map.mp isOctet
    exact notMem_toDigits (by decide) (by decide) (by decide)
  have read : ((octets number).map (toDigits 10)).mapM parseOctet =
      some (octets number) := by
    apply mapM_map_eq_some
    intro octet isOctet
    apply parseOctet_toDigits
    simp only [octets, List.mem_cons, List.not_mem_nil, or_false] at isOctet
    omega
  rw [ipInt4, parts, if_neg (by simp [octets]), read]
  simp only [octets, List.foldl_cons, List.foldl_nil, Option.pure_def,
    Option.bind_eq_bind, Option.bind_some]
  congr 1
  omega

/-- What the number is read from once the text is split into its parts. -/
theorem ipInt6_of_layout {text : Str} {parts : List Str} {found : Layout}
    {high low : List Nat} (split : text.splitOn ':' = parts)
    (noDot : ∀ part ∈ parts, '.' ∉ part) (enough : 3 ≤ parts.length)
    (few : parts.length ≤ 9) (isLayout : layout parts = some found)
    (isHigh : found.high = high.map (toDigits 16))
    (isLow : found.low = low.map (toDigits 16))
    (highSmall : ∀ hextet ∈ high, hextet < 65536)
    (lowSmall : ∀ hextet ∈ low, hextet < 65536) :
    ipInt6 text = some (low.foldl addHextet
      (high.foldl addHextet 0 * 2 ^ (16 * found.skipped))) := by
  have plain : expandSuffix parts = some parts := by
    have noSuffix : '.' ∉ parts.getLastD [] := by
      rw [List.getLastD_eq_getLast?]
      match last : parts.getLast? with
      | none => simp
      | some part => exact noDot part (List.mem_of_getLast? last)
    rw [expandSuffix, if_neg noSuffix]
  have readHigh : found.high.mapM parseHextet = some high := by
    rw [isHigh]
    exact mapM_map_eq_some fun hextet member =>
      parseHextet_toDigits (highSmall hextet member)
  have readLow : found.low.mapM parseHextet = some low := by
    rw [isLow]
    exact mapM_map_eq_some fun hextet member =>
      parseHextet_toDigits (lowSmall hextet member)
  rw [ipInt6, split, if_neg (by omega)]
  simp [plain, isLayout, readHigh, readLow]
  omega

theorem hextets_lt {number hextet : Nat} (member : hextet ∈ hextets number) :
    hextet < 65536 := by
  obtain ⟨index, _, rfl⟩ := List.mem_map.mp member
  exact Nat.mod_lt _ (by decide)

theorem length_hextets (number : Nat) : (hextets number).length = 8 := by
  rw [hextets, List.length_map, List.length_range]

/-- The texts of hextets hold nothing that a reader could stop at. -/
theorem plain_of_mem_texts {hextets : List Nat} {text : Str}
    (member : text ∈ hextets.map (toDigits 16)) :
    text ≠ [] ∧ ':' ∉ text ∧ '.' ∉ text := by
  obtain ⟨hextet, _, rfl⟩ := List.mem_map.mp member
  exact ⟨Nat.toDigits_ne_nil,
    notMem_toDigits (by decide) (by decide) (by decide),
    notMem_toDigits (by decide) (by decide) (by decide)⟩

theorem layout_whole {parts : List Str} (full : ∀ part ∈ parts, part ≠ [])
    (eight : parts.length = 8) :
    layout parts = some { high := parts, low := [], skipped := 0 } := by
  have noneEmpty : [] ∉ parts := fun member => full [] member rfl
  have nonempty : parts ≠ [] := by
    intro none
    rw [none] at eight
    contradiction
  have same : padded parts = parts := if_neg nonempty
  have interior : [] ∉ parts.tail.dropLast := fun member =>
    noneEmpty (List.mem_of_mem_tail (List.dropLast_subset _ member))
  have head := mt (headD_padded_eq_nil_iff noneEmpty).mp nonempty
  have last := mt (getLastD_padded_eq_nil_iff noneEmpty).mp nonempty
  rw [same] at head last
  rw [layout]
  simp only [List.count_eq_zero.mpr interior]
  rw [if_neg (by decide), if_neg interior, if_neg (not_not.mpr eight),
    if_neg head, if_neg last]

theorem plain_of_mem_padded {hextets : List Nat} {text : Str}
    (member : text ∈ padded (hextets.map (toDigits 16))) :
    ':' ∉ text ∧ '.' ∉ text := by
  rw [padded] at member
  split at member
  · rw [List.mem_singleton] at member
    simp [member]
  · exact (plain_of_mem_texts member).2

theorem eq_replicate_zero {zeros : List Nat} {count : Nat}
    (texts : zeros.map (toDigits 16) = List.replicate count ['0']) :
    zeros = List.replicate count 0 := by
  rw [List.eq_replicate_iff]
  constructor
  · simpa using congrArg List.length texts
  · intro hextet member
    have text : toDigits 16 hextet ∈ List.replicate count ['0'] :=
      texts ▸ List.mem_map_of_mem member
    rw [← ofDigits_toDigits hextet (by decide : 1 < 16) (by decide),
      List.eq_of_mem_replicate text]
    rfl

/-- A number whose text skips zeros. -/
theorem ipInt6_compressed {high low : List Nat} {count : Nat}
    (positive : 0 < count) (total : high.length + count + low.length = 8)
    (small : ∀ hextet ∈ high ++ low, hextet < 65536) :
    ipInt6 (List.intercalate [':'] (padded (high.map (toDigits 16)) ++ [[]] ++
      padded (low.map (toDigits 16)))) =
        some ((high ++ List.replicate count 0 ++ low).foldl addHextet 0) := by
  have highFull : [] ∉ high.map (toDigits 16) := fun member =>
    (plain_of_mem_texts member).1 rfl
  have lowFull : [] ∉ low.map (toDigits 16) := fun member =>
    (plain_of_mem_texts member).1 rfl
  have isLayout := layout_padded highFull lowFull (by
    rw [List.length_map, List.length_map]
    omega)
  have plain : ∀ part ∈ padded (high.map (toDigits 16)) ++ [[]] ++
      padded (low.map (toDigits 16)), ':' ∉ part ∧ '.' ∉ part := by
    intro part member
    rw [List.mem_append, List.mem_append, List.mem_singleton] at member
    obtain (inHigh | rfl) | inLow := member
    · exact plain_of_mem_padded inHigh
    · simp
    · exact plain_of_mem_padded inLow
  have ofHigh := length_padded (high.map (toDigits 16))
  have ofLow := length_padded (low.map (toDigits 16))
  rw [List.length_map] at ofHigh ofLow
  have read := ipInt6_of_layout
    (List.splitOn_intercalate ':' (fun part member => (plain part member).1)
      (by simp)) (fun part member => (plain part member).2)
    (by simp only [List.length_append, List.length_singleton]; omega)
    (by simp only [List.length_append, List.length_singleton]; omega)
    isLayout rfl rfl
    (fun hextet member => small hextet (List.mem_append_left low member))
    (fun hextet member => small hextet (List.mem_append_right high member))
  have skipped : 8 - ((high.map (toDigits 16)).length +
      (low.map (toDigits 16)).length) = count := by
    rw [List.length_map, List.length_map]
    omega
  rw [read, skipped, List.foldl_append, List.foldl_append,
    foldl_addHextet_zeros]

theorem ipInt6_whole {hextets : List Nat} (eight : hextets.length = 8)
    (small : ∀ hextet ∈ hextets, hextet < 65536) :
    ipInt6 (List.intercalate [':'] (hextets.map (toDigits 16))) =
      some (hextets.foldl addHextet 0) := by
  have isLayout : layout (hextets.map (toDigits 16)) = some
      { high := hextets.map (toDigits 16), low := [], skipped := 0 } :=
    layout_whole (fun part member => (plain_of_mem_texts member).1)
      (by rw [List.length_map, eight])
  have nonempty : hextets.map (toDigits 16) ≠ [] := by
    apply List.ne_nil_of_length_pos
    rw [List.length_map]
    omega
  have read := @ipInt6_of_layout _ _ _ hextets []
    (List.splitOn_intercalate ':'
      (fun part member => (plain_of_mem_texts member).2.1) nonempty)
    (fun part member => (plain_of_mem_texts member).2.2)
    (by rw [List.length_map]; omega) (by rw [List.length_map]; omega)
    isLayout rfl rfl small (by simp)
  simpa using read

theorem ipInt6_str {number : Nat} (small : number < 2 ^ 128) :
    ipInt6 (List.intercalate [':']
      (compressHextets ((hextets number).map (toDigits 16)))) =
        some number := by
  have total := length_hextets number
  have whole := foldl_hextets small
  by_cases rows :
      1 < (zeroRuns ((hextets number).map (toDigits 16))).bestLength
  · obtain ⟨highTexts, lowTexts, count, split, positive, compressed⟩ :=
      compressHextets_eq rows
    obtain ⟨front, low, isHextets, isFront, rfl⟩ :=
      List.map_eq_append_iff.mp split
    obtain ⟨high, zeros, rfl, rfl, isZeros⟩ :=
      List.map_eq_append_iff.mp isFront
    obtain rfl := eq_replicate_zero isZeros
    rw [isHextets] at total whole
    rw [compressed, ipInt6_compressed positive
      (by simpa [Nat.add_assoc] using total), whole]
    intro hextet member
    apply @hextets_lt number
    rw [isHextets]
    cases List.mem_append.mp member with
    | inl inHigh => exact List.mem_append_left _ (List.mem_append_left _ inHigh)
    | inr inLow => exact List.mem_append_right _ inLow
  · rw [compressHextets, if_neg rows,
      ipInt6_whole total fun hextet member => hextets_lt member, whole]

theorem notMem_intercalate {separator ch : Char} {parts : List Str}
    (other : ch ≠ separator) (absent : ∀ part ∈ parts, ch ∉ part) :
    ch ∉ List.intercalate [separator] parts := by
  induction parts with
  | nil => simp
  | cons first parts induction =>
      obtain ⟨own, rest⟩ := List.forall_mem_cons.mp absent
      cases parts with
      | nil => simpa using own
      | cons second parts =>
          rw [List.intercalate_cons_cons, List.mem_append, List.mem_append,
            List.mem_singleton]
          simp [own, other, induction rest]

theorem mem_compressHextets {hextets : List Str} {part : Str}
    (member : part ∈ compressHextets hextets) : part = [] ∨ part ∈ hextets := by
  rw [compressHextets] at member
  split at member
  case isTrue =>
    simp only [List.mem_append, List.mem_singleton] at member
    obtain (((pad | front) | skip) | back) | pad := member
    · split at pad <;> simp_all
    · exact .inr (List.mem_of_mem_take front)
    · exact .inl skip
    · exact .inr (List.mem_of_mem_drop back)
    · split at pad <;> simp_all
  case isFalse => exact .inr member

namespace Address

variable (address : Address)

/-- Besides digits a text holds the separator of its version only. -/
theorem notMem_str {ch : Char} (noDigit : hexDigit? ch = none)
    (other : ch ≠ match address.version with | .v4 => '.' | .v6 => ':') :
    ch ∉ address.str := by
  rw [str]
  split
  case h_1 version =>
    rw [version] at other
    refine notMem_intercalate other fun octet isOctet => ?_
    obtain ⟨value, _, rfl⟩ := List.mem_map.mp isOctet
    exact notMem_toDigits (by decide) (by decide) noDigit
  case h_2 version =>
    rw [version] at other
    refine notMem_intercalate other fun part isPart => ?_
    cases mem_compressHextets isPart with
    | inl none => simp [none]
    | inr isHextet =>
        obtain ⟨value, _, rfl⟩ := List.mem_map.mp isHextet
        exact notMem_toDigits (by decide) (by decide) noDigit

theorem slash_notMem_str : '/' ∉ address.str := by
  apply address.notMem_str (by decide)
  cases address.version <;> decide

theorem ipInt_str : ipInt address.version address.str = some address.number := by
  have small := address.number_lt
  rw [str]
  cases version : address.version with
  | v4 =>
      rw [version, Version.bits] at small
      rw [ipInt]
      exact ipInt4_str small
  | v6 =>
      rw [version, Version.bits] at small
      rw [ipInt]
      exact ipInt6_str small

theorem addressOf_str : addressOf address.version address.str = some address := by
  rw [addressOf, if_neg address.slash_notMem_str]
  simp [ipInt_str, address.number_lt]

/-- The text of an IPv6 address is no IPv4 address. -/
theorem addressOf_v4_str (version : address.version = .v6) :
    addressOf .v4 address.str = none := by
  have noDot : '.' ∉ address.str := by
    apply address.notMem_str (by decide)
    rw [version]
    decide
  have one : ipInt .v4 address.str = none := by
    rw [ipInt, ipInt4, List.splitOn_eq_singleton noDot, if_pos (by simp)]
  rw [addressOf, if_neg address.slash_notMem_str]
  simp [one]

end Address

/-- An address is read back from its text. -/
theorem ipAddress_str (address : Address) :
    ipAddress address.str = some address := by
  have own := address.addressOf_str
  rw [ipAddress]
  match version : address.version with
  | .v4 => rw [← version, own, Option.some_or]
  | .v6 => rw [address.addressOf_v4_str version, Option.none_or, ← version, own]

theorem prefixLength_toDigits {version : Version} {length : Nat}
    (fits : length ≤ version.bits) :
    prefixLength version (toDigits 10 length) = some length := by
  have each : ∀ length < 129, (length ≤ 32 →
      prefixFromPrefixString .v4 (toDigits 10 length) = some length) ∧
      prefixFromPrefixString .v6 (toDigits 10 length) = some length := by
    decide
  cases version with
  | v4 =>
      have short : length ≤ 32 := fits
      rw [prefixLength, (each length (by omega)).1 short, Option.some_or]
  | v6 =>
      have short : length ≤ 128 := fits
      exact (each length (by omega)).2

namespace Network

variable (network : Network)

def address : Address :=
  { version := network.version
    number := network.number
    number_lt := network.number_lt }

theorem splitOn_str : network.str.splitOn '/' =
    [network.address.str, toDigits 10 network.prefixLength] := by
  have noSlash : '/' ∉ toDigits 10 network.prefixLength :=
    notMem_toDigits (by decide) (by decide) (by decide)
  have apart := List.splitOn_append_cons_self_of_not_mem
    network.address.slash_notMem_str (toDigits 10 network.prefixLength)
  rw [List.splitOn_eq_singleton noSlash] at apart
  exact apart

theorem networkOf_str : networkOf network.version network.str =
    some network := by
  have ownAddress : addressOf network.version network.address.str =
      some network.address := network.address.addressOf_str
  rw [networkOf]
  have isMasked : network.address.number &&&
      network.address.version.netmask network.prefixLength =
        network.address.number := network.masked
  have fits : network.prefixLength ≤ network.address.version.bits :=
    network.prefixLength_le
  simp [splitOn_str, ownAddress, prefixLength_toDigits network.prefixLength_le,
    fits, isMasked]
  rfl

theorem networkOf_v4_str (version : network.version = .v6) :
    networkOf .v4 network.str = none := by
  have noAddress := network.address.addressOf_v4_str version
  rw [networkOf]
  simp [splitOn_str, noAddress]

end Network

/-- A network is read back from its text. -/
theorem ipNetwork_str (network : Network) :
    ipNetwork network.str = some network := by
  have own := network.networkOf_str
  rw [ipNetwork]
  match version : network.version with
  | .v4 => rw [← version, own, Option.some_or]
  | .v6 => rw [network.networkOf_v4_str version, Option.none_or, ← version, own]

end FfmucSalt.Python
