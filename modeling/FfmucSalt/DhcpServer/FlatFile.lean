import FfmucSalt.Foundation.Nesting
import FfmucSalt.Python.Text

/-!
# Flat files

The shape of the guardians' `dhcpd.conf`, without its comments: statements,
subnet blocks with one nested block, and host blocks, in any order.
-/

namespace FfmucSalt.DhcpServer.DhcpdConf

open Python

def braces : Brackets Char :=
  { opening := '{', closing := '}', different := by decide }

def IsGap (gap : Str) : Prop := gap ≠ [] ∧ ∀ ch ∈ gap, isSpace ch

theorem free_gap {gap : Str} (isGap : ∀ ch ∈ gap, isSpace ch) :
    braces.Free gap := by
  have noSpace : ∀ ch, isSpace ch = false → ch ∉ gap := by
    intro ch word member
    rw [isGap ch member] at word
    contradiction
  exact ⟨noSpace '{' (by decide), noSpace '}' (by decide)⟩

/-! ## Statements and blocks -/

/-- A text in which no statement and no block ends. -/
def Plain (text : Str) : Prop := ';' ∉ text ∧ braces.Free text

instance (text : Str) : Decidable (Plain text) :=
  inferInstanceAs (Decidable (_ ∧ _))

/-- A value without quotes -/
def IsWord (word : Str) : Prop :=
  word ≠ [] ∧ ∀ ch ∈ word, isSpace ch = false ∧ ch ≠ ';' ∧ ch ≠ '"'

/-- Just one statement of a block ends in the keyword and a value. -/
structure Gives (keyword : Str) (between : Str → Prop) (body value : Str) :
    Prop where
  word : IsWord value
  stands : ∃ front middle blank back,
    body = front ++ keyword ++ middle ++ value ++ blank ++ ';' :: back ∧
    between middle ∧ (∀ ch ∈ blank, isSpace ch) ∧
    ∀ other otherMiddle otherValue otherBack, body =
        other ++ keyword ++ otherMiddle ++ otherValue ++ ';' :: otherBack →
      between otherMiddle → IsWord otherValue → other = front

def GivesAddress : Str → Str → Prop := Gives (chars "fixed-address") IsGap

/-- What stands between `hardware` and a MAC address. -/
def BeforeMac (middle : Str) : Prop :=
  ∃ first second, IsGap first ∧ IsGap second ∧
    middle = first ++ chars "ethernet" ++ second

def GivesMac : Str → Str → Prop := Gives (chars "hardware") BeforeMac

/-- A statement without its semicolon -/
structure Statement where
  text : Str
  plain : Plain text

/-- `subnet … netmask … \x7b … \x7d` with one block in it -/
structure SubnetBlock where
  header : Str
  body : Str
  address : Str
  mask : Str
  plain : Plain header
  words_header :
    words header = [chars "subnet", address, chars "netmask", mask]
  /-- Addresses with a scope id are not modelled. -/
  noScope : '%' ∉ address
  onePool : ∃ front pool back, body = front ++ '{' :: (pool ++ '}' :: back) ∧
    braces.Free front ∧ braces.Free pool ∧ braces.Free back

/-- `host … \x7b … \x7d` with a MAC address and a fixed address -/
structure HostBlock where
  header : Str
  body : Str
  name : Str
  mac : Str
  ip : Str
  plain : Plain header
  words_header : words header = [chars "host", name]
  free : braces.Free body
  givesMac : GivesMac body mac
  givesAddress : GivesAddress body ip

inductive Item where
  | statement (statement : Statement)
  | subnet (subnet : SubnetBlock)
  | host (host : HostBlock)

namespace Item

def text : Item → Str
  | statement item => item.text ++ [';']
  | subnet item => item.header ++ '{' :: (item.body ++ ['}'])
  | host item => item.header ++ '{' :: (item.body ++ ['}'])

/-- The header and the body of a block -/
def block? : Item → Option (Str × Str)
  | statement _ => none
  | subnet item => some (strip item.header, item.body)
  | host item => some (strip item.header, item.body)

def subnet? : Item → Option SubnetBlock
  | subnet item => some item
  | _ => none

def host? : Item → Option HostBlock
  | host item => some item
  | _ => none

end Item

structure FlatFile where
  items : List Item
  rest : Str
  free : braces.Free rest

namespace FlatFile

variable (file : FlatFile)

def text : Str := file.items.flatMap Item.text ++ file.rest

def blocks : List (Str × Str) := file.items.filterMap Item.block?

def subnets : List SubnetBlock := file.items.filterMap Item.subnet?

def hosts : List HostBlock := file.items.filterMap Item.host?

end FlatFile

theorem balanced_body (subnet : SubnetBlock) :
    braces.Balanced subnet.body := by
  obtain ⟨front, pool, back, split, freeFront, freePool, freeBack⟩ :=
    subnet.onePool
  rw [split, Brackets.Balanced,
    Brackets.depthFrom_append_of_eq (Brackets.depthFrom_of_free freeFront)]
  show braces.depthFrom 0 (braces.opening :: (pool ++ braces.closing :: back)) =
    some 0
  rw [Brackets.depthFrom_opening,
    Brackets.depthFrom_append_of_eq (Brackets.depthFrom_of_free freePool),
    Brackets.depthFrom_closing, Brackets.depthFrom_of_free freeBack]

end FfmucSalt.DhcpServer.DhcpdConf
