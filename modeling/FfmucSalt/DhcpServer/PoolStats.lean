import FfmucSalt.Python.Text
import Mathlib.Algebra.BigOperators.Group.List.Basic
import Mathlib.Algebra.Ring.Int.Defs
import Mathlib.Algebra.Ring.Rat

/-!
# Pool statistics

Kea counts addresses by subnet.  The report spreads these counters over the
ranges of the subnets and adds them up by shared network and in total.
-/

namespace FfmucSalt.DhcpServer.PoolStats

open Python

/-! ## Configuration and statistics -/

structure Subnet where
  id : Nat
  subnet : Str
  /-- The field `pool` of each entry -/
  pools : Option (List Str)

structure SharedNetwork where
  name : Option Str
  subnet4 : Option (List Subnet)

structure Dhcp4Config where
  sharedNetworks : Option (List SharedNetwork)
  subnet4 : Option (List Subnet)

/-- The values of a statistic's samples, the current one first. -/
abbrev Stats := Str → Option (List Int)

/-- The current value of a statistic, 0 if it is missing. -/
def stat (stats : Stats) (name : Str) : Int :=
  match stats name with
  | none => 0
  | some [] => 0
  | some (value :: _) => value

/-! ## Counters -/

@[ext] structure Totals where
  defined : Int
  used : Int
  touched : Int

namespace Totals

instance : Add Totals where
  add first second :=
    { defined := first.defined + second.defined
      used := first.used + second.used
      touched := first.touched + second.touched }

instance : Zero Totals where
  zero := { defined := 0, used := 0, touched := 0 }

instance : AddCommMonoid Totals where
  add_assoc _ _ _ := Totals.ext (add_assoc ..) (add_assoc ..) (add_assoc ..)
  zero_add _ := Totals.ext (zero_add _) (zero_add _) (zero_add _)
  add_zero _ := Totals.ext (add_zero _) (add_zero _) (add_zero _)
  add_comm _ _ := Totals.ext (add_comm ..) (add_comm ..) (add_comm ..)
  nsmul := nsmulRec

variable (first second : Totals) (list : List Totals)

@[simp] theorem defined_zero : (0 : Totals).defined = 0 := rfl

@[simp] theorem touched_zero : (0 : Totals).touched = 0 := rfl

@[simp] theorem defined_add :
    (first + second).defined = first.defined + second.defined := rfl

@[simp] theorem touched_add :
    (first + second).touched = first.touched + second.touched := rfl

theorem defined_sum : list.sum.defined = (list.map defined).sum := by
  induction list with
  | nil => rfl
  | cons first list induction => simp [induction]

theorem touched_sum : list.sum.touched = (list.map touched).sum := by
  induction list with
  | nil => rfl
  | cons first list induction => simp [induction]

end Totals

/-- What one entry of the report counts, with shares in per cent. -/
structure Counters (F : Type) extends Totals where
  free : Int
  percent : F
  touchCount : Int
  touchPercent : F

inductive Status where
  | ok
  | warning
  | critical
  deriving DecidableEq

section Entries

variable {F : Type} [Zero F] [LE F] [DecidableLE F]

/-- `share part whole` stands for `round(100.0 * part / whole, 3)`. -/
def counters (share : Int → Int → F) (totals : Totals) : Counters F :=
  { toTotals := totals
    free := max (totals.defined - totals.used) 0
    percent := if totals.defined ≠ 0 then share totals.used totals.defined else 0
    touchCount := totals.used + totals.touched
    touchPercent :=
      if totals.defined ≠ 0 then
        share (totals.used + totals.touched) totals.defined
      else 0 }

def status (percent : F) (warning critical : Option F) : Status :=
  if critical.any (· ≤ percent) then .critical
  else if warning.any (· ≤ percent) then .warning
  else .ok

end Entries

/-- Where an entry of `subnets` lies. -/
structure Place where
  location : Str
  range : Str
  firstIp : Str
  lastIp : Str
  deriving DecidableEq

structure RangeEntry (F : Type) where
  place : Place
  counters : Counters F
  status : Status

/-- An entry of `shared-networks`, or the summary. -/
structure Entry (F : Type) where
  location : Str
  counters : Counters F
  status : Status

structure Report (F : Type) where
  subnets : List (RangeEntry F)
  sharedNetworks : List (Entry F)
  summary : Entry F

/-! ## The report -/

/-- The pairs that `build_report` walks over, plain subnets without a name. -/
def networks (config : Dhcp4Config) : List (Str × List Subnet) :=
  ((config.sharedNetworks.getD []).map fun network =>
    (network.name.getD [], network.subnet4.getD [])) ++
  match config.subnet4 with
  | some (first :: rest) => [([], first :: rest)]
  | _ => []

def Subnet.statName (subnet : Subnet) (statistic : String) : Str :=
  chars "subnet[" ++ toDigits 10 subnet.id ++ chars "]." ++ chars statistic

def Subnet.totals (stats : Stats) (subnet : Subnet) : Totals :=
  let declined := stat stats (subnet.statName "declined-addresses")
  { defined := stat stats (subnet.statName "total-addresses")
    used :=
      max (stat stats (subnet.statName "assigned-addresses") - declined) 0
    touched := declined }

def place (name : Str) (subnet : Subnet) (pool : Str) : Place :=
  let ends := partition '-' pool
  { location := if name ≠ [] then name else subnet.subnet
    range := strip ends.1 ++ chars " - " ++ strip ends.2
    firstIp := strip ends.1
    lastIp := strip ends.2 }

section BuildReport

variable {F : Type} [Zero F] [LE F] [DecidableLE F]
  (share : Int → Int → F) (stats : Stats) (warning critical : Option F)

/-- One pool: it takes the subnet's counters and leaves none behind. -/
def addPool (name : Str) (subnet : Subnet)
    (state : Totals × List (RangeEntry F)) (pool : Str) :
    Totals × List (RangeEntry F) :=
  let counted := counters share state.1
  let entry :=
    { place := place name subnet pool
      counters := counted
      status := status counted.percent warning critical }
  (0, state.2 ++ [entry])

/-- One subnet: the state is the network's totals and the ranges so far. -/
def addSubnet (name : Str) (state : Totals × List (RangeEntry F))
    (subnet : Subnet) : Totals × List (RangeEntry F) :=
  let totals := subnet.totals stats
  (state.1 + totals,
    ((subnet.pools.getD []).foldl
      (addPool share warning critical name subnet) (totals, state.2)).2)

/-- What the loop over the networks has added up. -/
structure Progress (F : Type) where
  totals : Totals
  subnets : List (RangeEntry F)
  sharedNetworks : List (Entry F)

def entry (location : Str) (totals : Totals) : Entry F :=
  let counted := counters share totals
  { location
    counters := counted
    status := status counted.percent warning critical }

def addNetwork (state : Progress F) (network : Str × List Subnet) :
    Progress F :=
  let counted := network.2.foldl
    (addSubnet share stats warning critical network.1) (0, state.subnets)
  { totals := state.totals + counted.1
    subnets := counted.2
    sharedNetworks :=
      if network.1 ≠ [] then
        state.sharedNetworks ++
          [entry share warning critical network.1 counted.1]
      else state.sharedNetworks }

def buildReport (config : Dhcp4Config) : Report F :=
  let counted := (networks config).foldl
    (addNetwork share stats warning critical)
    { totals := 0, subnets := [], sharedNetworks := [] }
  { subnets := counted.subnets
    sharedNetworks := counted.sharedNetworks
    summary :=
      entry share warning critical (chars "All networks") counted.totals }

end BuildReport

/-! ## One range after the other -/

section Sums

variable {F : Type}

/-- What the ranges count together. -/
def sumTotals (ranges : List (RangeEntry F)) : Totals :=
  (ranges.map fun range => range.counters.toTotals).sum

theorem sumTotals_cons (range : RangeEntry F) (ranges : List (RangeEntry F)) :
    sumTotals (range :: ranges) =
      range.counters.toTotals + sumTotals ranges := by
  simp [sumTotals]

theorem sumTotals_append (first second : List (RangeEntry F)) :
    sumTotals (first ++ second) = sumTotals first + sumTotals second := by
  simp [sumTotals]

end Sums

section Folds

variable {F : Type} [Zero F] [LE F] [DecidableLE F]
  (share : Int → Int → F) (stats : Stats) (warning critical : Option F)

/-- The ranges of a subnet, of which the first counts `totals`. -/
def poolEntries (name : Str) (subnet : Subnet) :
    Totals → List Str → List (RangeEntry F)
  | _, [] => []
  | totals, pool :: pools =>
      { place := place name subnet pool
        counters := counters share totals
        status := status (counters share totals).percent warning critical } ::
      poolEntries name subnet 0 pools

/-- The ranges of a network -/
def networkEntries (network : Str × List Subnet) : List (RangeEntry F) :=
  network.2.flatMap fun subnet =>
    poolEntries share warning critical network.1 subnet (subnet.totals stats)
      (subnet.pools.getD [])

theorem foldl_addPool (name : Str) (subnet : Subnet) (pools : List Str)
    (totals : Totals) (ranges : List (RangeEntry F)) :
    (pools.foldl (addPool share warning critical name subnet)
        (totals, ranges)).2 =
      ranges ++ poolEntries share warning critical name subnet totals pools := by
  induction pools generalizing totals ranges with
  | nil => simp [poolEntries]
  | cons pool pools induction =>
      rw [List.foldl_cons, addPool, induction, poolEntries, List.append_assoc,
        List.singleton_append]

theorem foldl_addSubnet (name : Str) (subnets : List Subnet)
    (totals : Totals) (ranges : List (RangeEntry F)) :
    subnets.foldl (addSubnet share stats warning critical name)
        (totals, ranges) =
      (totals + (subnets.map (Subnet.totals stats)).sum,
        ranges ++ networkEntries share stats warning critical
          (name, subnets)) := by
  induction subnets generalizing totals ranges with
  | nil => simp [networkEntries]
  | cons subnet subnets induction =>
      rw [List.foldl_cons, addSubnet, foldl_addPool, induction]
      simp [networkEntries, add_assoc]

/-- The entries of the named networks -/
def networkTotals (network : Str × List Subnet) : Totals :=
  (network.2.map (Subnet.totals stats)).sum

theorem foldl_addNetwork (networks : List (Str × List Subnet))
    (state : Progress F) :
    networks.foldl (addNetwork share stats warning critical) state =
      { totals := state.totals + (networks.map (networkTotals stats)).sum
        subnets := state.subnets ++
          networks.flatMap (networkEntries share stats warning critical)
        sharedNetworks := state.sharedNetworks ++
          (networks.filter (·.1 ≠ [])).map fun network =>
            entry share warning critical network.1
              (networkTotals stats network) } := by
  induction networks generalizing state with
  | nil => simp
  | cons network networks induction =>
      obtain ⟨name, subnets⟩ := network
      rw [List.foldl_cons, induction, addNetwork, foldl_addSubnet]
      by_cases named : name = []
      · simp [named, networkTotals, add_assoc]
      · simp [named, networkTotals, add_assoc]

/-! ## Sums -/

variable {share stats warning critical}

theorem sumTotals_poolEntries_zero {name : Str} {subnet : Subnet}
    (pools : List Str) :
    sumTotals (poolEntries share warning critical name subnet 0 pools) = 0 := by
  induction pools with
  | nil => rfl
  | cons pool pools induction =>
      rw [poolEntries, sumTotals_cons, induction, add_zero]
      rfl

theorem sumTotals_poolEntries {name : Str} {subnet : Subnet} {totals : Totals}
    {pools : List Str} (nonempty : pools ≠ []) :
    sumTotals (poolEntries share warning critical name subnet totals pools) =
      totals := by
  cases pools with
  | nil => exact absurd rfl nonempty
  | cons pool pools =>
      rw [poolEntries, sumTotals_cons, sumTotals_poolEntries_zero, add_zero]
      rfl

theorem sumTotals_networkEntries {network : Str × List Subnet}
    (pooled : ∀ subnet ∈ network.2, subnet.pools.getD [] ≠ []) :
    sumTotals (networkEntries share stats warning critical network) =
      networkTotals stats network := by
  obtain ⟨name, subnets⟩ := network
  induction subnets with
  | nil => rfl
  | cons subnet subnets induction =>
      obtain ⟨first, rest⟩ := List.forall_mem_cons.mp pooled
      have split : networkEntries share stats warning critical
          (name, subnet :: subnets) =
            poolEntries share warning critical name subnet
              (subnet.totals stats) (subnet.pools.getD []) ++
            networkEntries share stats warning critical (name, subnets) := by
        simp [networkEntries]
      rw [split, sumTotals_append, sumTotals_poolEntries first,
        induction rest]
      simp [networkTotals]

theorem sumTotals_flatMap {networks : List (Str × List Subnet)}
    (pooled : ∀ network ∈ networks, ∀ subnet ∈ network.2,
      subnet.pools.getD [] ≠ []) :
    sumTotals
        (networks.flatMap (networkEntries share stats warning critical)) =
      (networks.map (networkTotals stats)).sum := by
  induction networks with
  | nil => rfl
  | cons network networks induction =>
      obtain ⟨first, rest⟩ := List.forall_mem_cons.mp pooled
      rw [List.flatMap_cons, sumTotals_append,
        sumTotals_networkEntries first, induction rest, List.map_cons,
        List.sum_cons]

theorem map_place_poolEntries {name : Str} {subnet : Subnet} (totals : Totals)
    (pools : List Str) :
    (poolEntries share warning critical name subnet totals pools).map
        RangeEntry.place = pools.map (place name subnet) := by
  induction pools generalizing totals with
  | nil => rfl
  | cons pool pools induction =>
      rw [poolEntries, List.map_cons, induction, List.map_cons]

theorem buildReport_eq (config : Dhcp4Config) :
    buildReport share stats warning critical config =
      { subnets := (networks config).flatMap
          (networkEntries share stats warning critical)
        sharedNetworks :=
          ((networks config).filter (·.1 ≠ [])).map fun network =>
            entry share warning critical network.1
              (networkTotals stats network)
        summary := entry share warning critical (chars "All networks")
          ((networks config).map (networkTotals stats)).sum } := by
  rw [buildReport, foldl_addNetwork]
  simp

end Folds

/-! ## Nothing lost and nothing counted twice -/

/-- The ranges of a network's subnets, pool by pool. -/
def places (network : Str × List Subnet) : List Place :=
  network.2.flatMap fun subnet =>
    (subnet.pools.getD []).map (place network.1 subnet)

theorem map_place_networkEntries {F : Type} [Zero F] [LE F] [DecidableLE F]
    {share : Int → Int → F} {stats : Stats} {warning critical : Option F}
    (network : Str × List Subnet) :
    (networkEntries share stats warning critical network).map
        RangeEntry.place = places network := by
  simp [networkEntries, places, List.map_flatMap, map_place_poolEntries]

def Dhcp4Config.subnets (config : Dhcp4Config) : List Subnet :=
  ((config.sharedNetworks.getD []).flatMap fun network =>
    network.subnet4.getD []) ++ config.subnet4.getD []

theorem flatMap_networks (config : Dhcp4Config) :
    (networks config).flatMap Prod.snd = config.subnets := by
  rw [networks, List.flatMap_append, List.flatMap_map, Dhcp4Config.subnets]
  cases config.subnet4 with
  | none => rfl
  | some subnets =>
      cases subnets with
      | nil => rfl
      | cons first rest => simp

/-- The report splits into the ranges of each network, in the order of the
networks; `groups` is determined by the numbers of pools. -/
structure Conserves {F : Type} (stats : Stats) (config : Dhcp4Config)
    (report : Report F) (groups : List (List (RangeEntry F))) : Prop where
  ranges : report.subnets = groups.flatten
  places : List.Forall₂
    (fun network group => group.map RangeEntry.place = places network)
    (networks config) groups
  shared : report.sharedNetworks.map
      (fun entry => (entry.location, entry.counters.toTotals)) =
    (((networks config).zip groups).filter (·.1.1 ≠ [])).map
      fun pair => (pair.1.1, sumTotals pair.2)
  total : sumTotals report.subnets = report.summary.counters.toTotals
  defined : report.summary.counters.defined =
    (config.subnets.map fun subnet =>
      stat stats (subnet.statName "total-addresses")).sum
  touched : report.summary.counters.touched =
    (config.subnets.map fun subnet =>
      stat stats (subnet.statName "declined-addresses")).sum

theorem sum_networkTotals (stats : Stats) (config : Dhcp4Config) :
    ((networks config).map (networkTotals stats)).sum =
      (config.subnets.map (Subnet.totals stats)).sum := by
  rw [← flatMap_networks]
  induction networks config with
  | nil => rfl
  | cons network networks induction =>
      rw [List.map_cons, List.sum_cons, induction, List.flatMap_cons,
        List.map_append, List.sum_append, networkTotals]

theorem entries_eq {F : Type} [Zero F] [LE F] [DecidableLE F]
    {share : Int → Int → F} {stats : Stats} {warning critical : Option F}
    {networks : List (Str × List Subnet)}
    (pooled : ∀ network ∈ networks, ∀ subnet ∈ network.2,
      subnet.pools.getD [] ≠ []) :
    (networks.filter (·.1 ≠ [])).map
        ((fun entry => (entry.location, entry.counters.toTotals)) ∘
          fun network => entry share warning critical network.1
            (networkTotals stats network)) =
      ((networks.zip (networks.map
        (networkEntries share stats warning critical))).filter
          (·.1.1 ≠ [])).map fun pair => (pair.1.1, sumTotals pair.2) := by
  induction networks with
  | nil => rfl
  | cons network networks induction =>
      obtain ⟨first, rest⟩ := List.forall_mem_cons.mp pooled
      rw [List.map_cons, List.zip_cons_cons]
      by_cases named : network.1 = []
      · rw [List.filter_cons_of_neg (by simpa using named),
          List.filter_cons_of_neg (by simpa using named), induction rest]
      · rw [List.filter_cons_of_pos (by simpa using named),
          List.filter_cons_of_pos (by simpa using named), List.map_cons,
          List.map_cons, induction rest, sumTotals_networkEntries first]
        rfl

/-- Over all ranges the report counts what Kea counts over all subnets. -/
theorem buildReport_conserves {F : Type} [Zero F] [LE F] [DecidableLE F]
    (share : Int → Int → F) (stats : Stats) (warning critical : Option F)
    (config : Dhcp4Config)
    (pooled : ∀ subnet ∈ config.subnets, subnet.pools.getD [] ≠ []) :
    ∃ groups, Conserves stats config
      (buildReport share stats warning critical config) groups := by
  have networkPooled : ∀ network ∈ networks config,
      ∀ subnet ∈ network.2, subnet.pools.getD [] ≠ [] := by
    intro network isNetwork subnet isSubnet
    apply pooled
    rw [← flatMap_networks]
    exact List.mem_flatMap.mpr ⟨network, isNetwork, isSubnet⟩
  rw [buildReport_eq]
  refine ⟨(networks config).map
    (networkEntries share stats warning critical), ?_⟩
  constructor
  case ranges => exact List.flatMap_def
  case places =>
    apply List.forall₂_map_right_iff.mpr
    exact List.forall₂_same.mpr fun network _ =>
      map_place_networkEntries network
  case shared =>
    rw [List.map_map]
    exact entries_eq networkPooled
  case total => exact sumTotals_flatMap networkPooled
  case defined =>
    show (((networks config).map (networkTotals stats)).sum).defined = _
    rw [sum_networkTotals, Totals.defined_sum, List.map_map]
    rfl
  case touched =>
    show (((networks config).map (networkTotals stats)).sum).touched = _
    rw [sum_networkTotals, Totals.touched_sum, List.map_map]
    rfl

namespace Sample

def subnet (id : Nat) (pools : List String) : Subnet :=
  { id
    subnet := chars "10.8." ++ toDigits 10 id ++ chars ".0/24"
    pools := some (pools.map chars) }

/-- Two shared networks, one without a name, and a plain subnet. -/
def config : Dhcp4Config :=
  { sharedNetworks := some
      [{ name := some (chars "muc_cty")
         subnet4 := some
          [subnet 1 ["10.8.1.10 - 10.8.1.109", "10.8.1.120-10.8.1.219"],
            subnet 2 ["10.8.2.10-10.8.2.109"]] },
        { name := none, subnet4 := some [subnet 3 ["10.8.3.1-10.8.3.9"]] }]
    subnet4 := some [subnet 4 ["10.8.4.10 - 10.8.4.34"]] }

/-- Nothing is known of the third subnet, the fourth has declined addresses. -/
def stats (name : Str) : Option (List Int) :=
  [("subnet[1].total-addresses", [200]),
    ("subnet[1].assigned-addresses", [50, 49]),
    ("subnet[2].total-addresses", [100]),
    ("subnet[2].assigned-addresses", [10]),
    ("subnet[4].total-addresses", [25]),
    ("subnet[4].assigned-addresses", [4]),
    ("subnet[4].declined-addresses", [5])].findSome? fun sample =>
      if chars sample.1 = name then some sample.2 else none

def share (part whole : Int) : Rat := 100 * part / whole

theorem buildReport_conserves_sample : ∃ groups, Conserves stats config
    (buildReport share stats (some 75) none config) groups := by
  apply buildReport_conserves
  intro subnet isSubnet
  simp only [config, Dhcp4Config.subnets, Sample.subnet, Option.getD_some,
    List.flatMap_cons, List.flatMap_nil, List.append_nil, List.cons_append,
    List.nil_append, List.mem_cons, List.not_mem_nil, or_false] at isSubnet
  obtain rfl | rfl | rfl | rfl := isSubnet <;> simp

example : (buildReport share stats (some 75) none config).subnets.map
    (fun range => (range.counters.defined, range.counters.used)) =
      [(200, 50), (0, 0), (100, 10), (0, 0), (25, 0)] := by
  decide

end Sample

end FfmucSalt.DhcpServer.PoolStats
