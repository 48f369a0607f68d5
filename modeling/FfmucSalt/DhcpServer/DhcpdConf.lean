import FfmucSalt.Foundation.Pattern
import FfmucSalt.Python.IpAddress

/-!
# The converter of `dhcpd.conf`

What the guardians' flat `dhcpd.conf` becomes in NetBox: the global domain
name, the subnets in order, and the reservations of the hosts.
-/

namespace FfmucSalt.DhcpServer.DhcpdConf

open Python

/-! ## Patterns -/

abbrev Regex := List (Piece Char)

def text (literal : String) : Piece Char := .literal (chars literal)

/-- `\s+` -/
def gap : Piece Char := .many isSpace 1

/-- `#.*` -/
def comment : Regex := [text "#", .many (· ≠ '\n') 0]

/-- `(?s)\x7b.*?\x7d` -/
def block : Regex := [.literal ['{'], .few (fun _ => true) 0, .literal ['}']]

/-- `option\s+domain-name\s+"([^"]*)"` -/
def domainName : Regex :=
  [text "option", gap, text "domain-name", gap, .literal ['"'],
    .group (· ≠ '"') 0, .literal ['"']]

/-- `option\s+routers\s+([^;]+);` -/
def routers : Regex :=
  [text "option", gap, text "routers", gap, .group (· ≠ ';') 1, text ";"]

/-- `option\s+domain-name-servers\s+([^;]+);` -/
def domainNameServers : Regex :=
  [text "option", gap, text "domain-name-servers", gap, .group (· ≠ ';') 1,
    text ";"]

/-- `next-server\s+([^;]+);` -/
def nextServer : Regex :=
  [text "next-server", gap, .group (· ≠ ';') 1, text ";"]

/-- `filename\s+"([^"]*)";` -/
def filename : Regex :=
  [text "filename", gap, .literal ['"'], .group (· ≠ '"') 0,
    .literal ['"', ';']]

/-- `range\s+(\S+)\s+(\S+);` -/
def range : Regex :=
  [text "range", gap, .group (fun ch => !isSpace ch) 1, gap,
    .group (fun ch => !isSpace ch) 1, text ";"]

/-- `default-lease-time\s+(\d+);` and `max-lease-time\s+(\d+);` -/
def leaseTime (key : String) : Regex :=
  [text key, gap, .group isDecimal 1, text ";"]

def isMacSymbol (ch : Char) : Bool := (hexDigit? ch).isSome || ch = ':'

/-- `hardware\s+ethernet\s+([0-9a-fA-F:]+);` -/
def hardwareEthernet : Regex :=
  [text "hardware", gap, text "ethernet", gap, .group isMacSymbol 1, text ";"]

/-- `fixed-address\s+([\d.]+);` -/
def fixedAddress : Regex :=
  [text "fixed-address", gap, .group (fun ch => isDecimal ch || ch = '.') 1,
    text ";"]

/-- `option\s+host-name\s+"([^"]*)"` -/
def hostName : Regex :=
  [text "option", gap, text "host-name", gap, .literal ['"'],
    .group (· ≠ '"') 0, .literal ['"']]

/-- `re.search(…).group(index)` where there is a match -/
def searchGroup (regex : Regex) (index : Nat) (body : Str) : Option Str :=
  (Pattern.search regex body).map fun found => found.groups.getD (index - 1) []

/-! ## Blocks -/

/-- The variables of `_blocks` and what it has yielded. -/
structure Scan where
  depth : Int
  start : Nat
  headStart : Nat
  blocks : List (Str × Str)

/-- `text[start:stop]` -/
def slice (start stop : Nat) (text : Str) : Str := (text.take stop).drop start

/-- `text.strip().split(';')[-1].strip()` -/
def header (text : Str) : Str :=
  strip (((strip text).splitOn ';').getLastD [])

def Scan.next (text : Str) (scan : Scan) (item : Char × Nat) : Scan :=
  if item.1 = '{' then
    { scan with
      depth := scan.depth + 1
      start := if scan.depth = 0 then item.2 else scan.start }
  else if item.1 = '}' then
    if scan.depth - 1 = 0 then
      { scan with
        depth := 0
        headStart := item.2 + 1
        blocks := scan.blocks ++
          [(header (slice scan.headStart scan.start text),
            slice (scan.start + 1) item.2 text)] }
    else { scan with depth := scan.depth - 1 }
  else scan

/-- `_blocks` -/
def blocks (text : Str) : List (Str × Str) :=
  (text.zipIdx.foldl (Scan.next text)
    { depth := 0, start := 0, headStart := 0, blocks := [] }).blocks

/-! ## Subnets and hosts -/

structure Reservation where
  mac : Str
  ip : Str
  hostname : Str
  deriving DecidableEq

structure Subnet where
  subnet : Str
  routers : Option Str
  dns : Option Str
  nextServer : Option Str
  bootFile : Option Str
  pool : Str
  /-- The key is missing where there are none. -/
  reservations : List Reservation
  deriving DecidableEq

/-- What `dhcp_guardian` holds -/
structure Context where
  enabled : Bool
  interfaces : List Str
  subnets : List Subnet
  domainName : Option Str
  validLifetime : Option Nat
  maxValidLifetime : Option Nat
  deriving DecidableEq

/-- What `parse` can raise -/
inductive Abort where
  | valueError
  | indexError
  | attributeError
  | systemExit (message : Str)
  deriving DecidableEq

def orAbort {α : Type} (abort : Abort) : Option α → Except Abort α
  | none => .error abort
  | some value => .ok value

inductive LeaseKey where
  | default
  | max
  deriving DecidableEq

def LeaseKey.text : LeaseKey → String
  | default => "default-lease-time"
  | max => "max-lease-time"

/-- `re.sub(r'\s+', '', text)` -/
def withoutSpaces (text : Str) : Str := Pattern.remove [.many isSpace 1] text

/-- The values that a pool gives one key -/
def lifetimes (key : LeaseKey) (body : Str) :
    Except Abort (List (LeaseKey × Nat)) :=
  (Pattern.findAll (leaseTime key.text) body).mapM fun found => do
    let value ← orAbort .valueError (int (found.groups.getD 0 []))
    return (key, value)

def parseSubnet (words : List Str) (body : Str) :
    Except Abort (Subnet × List (LeaseKey × Nat)) := do
  let address ← orAbort .indexError words[1]?
  let mask ← orAbort .indexError words[3]?
  let net ← orAbort .valueError (ipNetwork (address ++ '/' :: mask))
  let pool ← orAbort .attributeError (Pattern.search range body)
  let defaults ← lifetimes .default body
  let maxima ← lifetimes .max body
  let sub : Subnet :=
    { subnet := net.str
      routers := (searchGroup routers 1 body).map withoutSpaces
      dns := (searchGroup domainNameServers 1 body).map withoutSpaces
      nextServer := (searchGroup nextServer 1 body).map strip
      bootFile := (searchGroup filename 1 body).map strip
      pool := pool.groups.getD 0 [] ++ chars " - " ++ pool.groups.getD 1 []
      reservations := [] }
  return (sub, defaults ++ maxima)

def parseHost (words : List Str) (body : Str) : Except Abort Reservation := do
  let mac ← orAbort .attributeError (searchGroup hardwareEthernet 1 body)
  let ip ← orAbort .attributeError (searchGroup fixedAddress 1 body)
  let hostname ← match searchGroup hostName 1 body with
    | some name => .ok name
    | none => orAbort .indexError words[1]?
  -- A MAC address has ASCII letters only.
  return { mac := mac.map Char.toLower, ip, hostname }

/-- What `parse` has read of the blocks so far. -/
structure Reading where
  subnets : List Subnet
  lifetimes : List (LeaseKey × Nat)
  hosts : List Reservation

def readBlock (reading : Reading) (found : Str × Str) :
    Except Abort Reading := do
  let words := words found.1
  if words.take 1 = [chars "subnet"] then
    let (sub, times) ← parseSubnet words found.2
    return { reading with
      subnets := reading.subnets ++ [sub]
      lifetimes := reading.lifetimes ++ times }
  else if words.take 1 = [chars "host"] then
    let res ← parseHost words found.2
    return { reading with hosts := reading.hosts ++ [res] }
  else return reading

/-- A reservation goes to the first subnet that has its address. -/
def reserve (res : Reservation) : List Subnet → Except Abort (List Subnet)
  | [] => .error (.systemExit
      (chars "reservation " ++ res.ip ++ chars " fits no subnet"))
  | sub :: subs => do
      let address ← orAbort .valueError (ipAddress res.ip)
      let network ← orAbort .valueError (ipNetwork sub.subnet)
      if network.contains address then
        return { sub with reservations := sub.reservations ++ [res] } :: subs
      else
        let others ← reserve res subs
        return sub :: others

/-- The values of a key in increasing order, each once. -/
def values (key : LeaseKey) (times : List (LeaseKey × Nat)) : List Nat :=
  ((times.filter (·.1 = key)).map (·.2)).dedup.mergeSort (· ≤ ·)

/-- The text of a list of numbers -/
def listText (values : List Nat) : Str :=
  '[' :: List.intercalate (chars ", ") (values.map (toDigits 10)) ++ [']']

/-- The one value of a key, if the pools give it one. -/
def lifetime (key : LeaseKey) (times : List (LeaseKey × Nat)) :
    Except Abort (Option Nat) :=
  let vals := values key times
  if 1 < vals.length then
    .error (.systemExit (chars "different " ++ chars key.text ++
      chars " per pool: " ++ listText vals))
  else .ok vals.head?

/-- `re.sub(r'#.*', '', text)` -/
def uncommented (text : Str) : Str := Pattern.remove comment text

def parse (text : Str) (interfaces : List Str) (validLifetime : Option Nat) :
    Except Abort Context := do
  let text := uncommented text
  let top := Pattern.remove block text
  let domain := searchGroup domainName 1 top
  let reading ← (blocks text).foldlM readBlock
    { subnets := [], lifetimes := [], hosts := [] }
  let subnets ← reading.hosts.foldlM (fun subs res => reserve res subs)
    reading.subnets
  let valid ← lifetime .default reading.lifetimes
  let maxValid ← lifetime .max reading.lifetimes
  return {
    enabled := true
    interfaces
    subnets
    domainName := domain
    -- A lifetime of 0 is none.
    validLifetime :=
      if validLifetime.getD 0 ≠ 0 then validLifetime else valid
    maxValidLifetime := maxValid }

/-! ## What a run that returns has done -/

theorem bind_eq_ok {α β : Type} {run : Except Abort α}
    {next : α → Except Abort β} {result : β} :
    (run >>= next) = .ok result ↔
      ∃ value, run = .ok value ∧ next value = .ok result := by
  cases run with
  | error abort => simp [bind, Except.bind]
  | ok value => simp [bind, Except.bind]

theorem orAbort_eq_ok {α : Type} {abort : Abort} {found : Option α}
    {value : α} : orAbort abort found = .ok value ↔ found = some value := by
  cases found <;> simp [orAbort]

/-- The steps of a run of `parse` that returns. -/
structure Parsed (text : Str) (interfaces : List Str) (context : Context)
    (reading : Reading) : Prop where
  read : (blocks (uncommented text)).foldlM readBlock
    { subnets := [], lifetimes := [], hosts := [] } = .ok reading
  reserved : reading.hosts.foldlM (fun subs res => reserve res subs)
    reading.subnets = .ok context.subnets
  domainName : context.domainName =
    searchGroup domainName 1 (Pattern.remove block (uncommented text))
  interfaces : context.interfaces = interfaces

theorem parse_eq_ok {text : Str} {interfaces : List Str}
    {validLifetime : Option Nat} {context : Context}
    (returned : parse text interfaces validLifetime = .ok context) :
    ∃ reading, Parsed text interfaces context reading := by
  rw [parse] at returned
  obtain ⟨reading, read, returned⟩ := bind_eq_ok.mp returned
  obtain ⟨subnets, reserved, returned⟩ := bind_eq_ok.mp returned
  obtain ⟨valid, _, returned⟩ := bind_eq_ok.mp returned
  obtain ⟨maxValid, _, returned⟩ := bind_eq_ok.mp returned
  obtain rfl := Except.ok.inj returned
  exact ⟨reading,
    { read, reserved, domainName := rfl, interfaces := rfl }⟩

end FfmucSalt.DhcpServer.DhcpdConf
