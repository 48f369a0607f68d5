import FfmucSalt.Python.IpAddress
import Mathlib.Data.Char
import Mathlib.Data.Int.Order.Basic
import Mathlib.Data.List.AList
import Mathlib.Data.List.Lex
import Mathlib.Data.List.MinMax
import Mathlib.Data.List.Sort
import Mathlib.Data.Prod.Lex

/-!
# PTR records for the public prefixes

What `ptr_records` makes of the addresses that other records name, of the
configured zones and of the custom targets.
-/

namespace FfmucSalt.DnsAuth

open Python

/-- `sorted` with a key, which is stable -/
def sortedBy {α κ : Type} [LinearOrder κ] (key : α → κ) (items : List α) :
    List α :=
  items.insertionSort fun one other => key one ≤ key other

/-! ## The function -/

/-- `_fqdn` -/
def fqdn (name : Str) : Str :=
  let name := strip name
  if name.getLast? = some '.' then name else name ++ ['.']

/-- `_zone_for`; of several longest prefixes `max` returns the first. -/
def zoneFor (address : Address) (networks : List (Network × Str)) :
    Option Str :=
  ((networks.filter (·.1.contains address)).argmax (·.1.prefixLength)).map
    (·.2)

structure Candidate where
  address : Str
  target : Str
  priority : Option Int
  deriving DecidableEq

namespace Candidate

variable (candidate : Candidate)

/-- The key by which the candidates are sorted -/
def key : Int ×ₗ Str :=
  toLex (candidate.priority.getD 100, fqdn candidate.target)

/-- The address without a prefix length; nothing stands for a `ValueError`. -/
def address? : Option Address :=
  ipAddress (candidate.address.takeWhile (· ≠ '/'))

end Candidate

/-- What `custom` has for a target: a text, or a list of texts -/
inductive Addresses where
  | one (address : Str)
  | several (addresses : List Str)
  deriving DecidableEq

def Addresses.list : Addresses → List Str
  | one address => [address]
  | several addresses => addresses

/-- The dictionary `selected`; the order of its items is lost in a sort. -/
abbrev Selected := AList fun _ : Address => Str

def Selected.setdefault (selected : Selected) (address : Address)
    (target : Str) : Selected :=
  if address ∈ selected then selected else selected.insert address target

/-- One turn of the loop over the candidates -/
def Selected.take (selected : Selected) (candidate : Candidate) : Selected :=
  match candidate.address? with
  | none => selected
  | some address => selected.setdefault address (fqdn candidate.target)

def selectCandidates (candidates : List Candidate) : Selected :=
  (sortedBy Candidate.key candidates).foldl Selected.take ∅

/-- One turn of the inner loop over the custom addresses -/
def Selected.assign (target : Str) (selected : Selected) (text : Str) :
    Option Selected :=
  (ipAddress text).map fun address => selected.insert address (fqdn target)

def selectCustom (custom : List (Str × Addresses)) (selected : Selected) :
    Option Selected :=
  custom.foldlM (fun selected entry =>
    entry.2.list.foldlM (Selected.assign entry.1) selected) selected

structure PtrRecord where
  address : Str
  name : Str
  zone : Str
  target : Str
  deriving DecidableEq

/-- The order of the result: by version, then by number -/
def addressKey (address : Address) : Nat ×ₗ Nat :=
  toLex (address.version.number, address.number)

/-- `zone.rstrip(".")` -/
def zoneName (zone : Str) : Str := zone.rdropWhile (· = '.')

def networksOf (zones : List (Str × Str)) : Option (List (Network × Str)) :=
  zones.mapM fun entry => do
    let network ← ipNetwork entry.1
    return (network, zoneName entry.2)

def recordOf (networks : List (Network × Str)) (address : Address)
    (target : Str) : Option PtrRecord := do
  let zone ← zoneFor address networks
  if zone = [] then none
  return {
    address := address.str
    name := address.reversePointer ++ ['.']
    zone
    target }

/-- `sorted` by the addresses, which are read again. -/
def sortRecords (records : List PtrRecord) : Option (List PtrRecord) := do
  let keyed ← records.mapM fun record => do
    let address ← ipAddress record.address
    return (addressKey address, record)
  return (sortedBy (·.1) keyed).map (·.2)

/-- `ptr_records`; nothing stands for a `ValueError`. -/
def ptrRecords (candidates : List Candidate) (zones : List (Str × Str))
    (custom : List (Str × Addresses)) : Option (List PtrRecord) := do
  let networks ← networksOf zones
  let selected ← selectCustom custom (selectCandidates candidates)
  sortRecords <| selected.entries.filterMap fun entry =>
    recordOf networks entry.1 entry.2

example : ptrRecords
    [{ address := chars "192.0.2.7/24", target := chars "b"
       priority := none },
      { address := chars "192.0.2.7", target := chars "a."
        priority := some 10 },
      { address := chars "no address", target := chars "c"
        priority := some 1 },
      { address := chars "2001:db8::1", target := chars "d"
        priority := none }]
    [(chars "192.0.2.0/24", chars "2.0.192.in-addr.arpa."),
      (chars "2001:db8::/32", chars "ip6.")]
    [(chars "e", .one (chars "192.0.2.9"))] =
  some
    [{ address := chars "192.0.2.7", name := chars "7.2.0.192.in-addr.arpa."
       zone := chars "2.0.192.in-addr.arpa", target := chars "a." },
      { address := chars "192.0.2.9", name := chars "9.2.0.192.in-addr.arpa."
        zone := chars "2.0.192.in-addr.arpa", target := chars "e." },
      { address := chars "2001:db8::1"
        name := chars "1.0.0.0.0.0.0.0.0.0.0.0.0.0.0.0.0.0.0.0.0.0.0.0.8.b.d.0.1.0.0.2.ip6.arpa."
        zone := chars "ip6", target := chars "d." }] := by
  decide

end FfmucSalt.DnsAuth
