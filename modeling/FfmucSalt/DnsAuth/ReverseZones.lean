import FfmucSalt.DnsAuth.PtrRecords

/-!
# The content of the reverse zones

Which records `ptr_records` returns, said without the order in which it goes
through its arguments.
-/

namespace FfmucSalt.DnsAuth

open Python

/-! ## What the records have to say -/

/-- The prefixes of two entries do not denote the same network. -/
def Apart (one other : Str × Str) : Prop :=
  ∀ network, ipNetwork one.1 = some network →
    ipNetwork other.1 ≠ some network

instance : Std.Symm Apart :=
  ⟨fun _ _ apart network isOther isOne => apart network isOne isOther⟩

section Specification

variable (candidates : List Candidate) (zones : List (Str × Str))
  (custom : List (Str × Addresses)) (address : Address)

/-- A custom target lists the address. -/
def Lists (target : Str) : Prop :=
  ∃ entry ∈ custom, ∃ text ∈ entry.2.list,
    ipAddress text = some address ∧ target = fqdn entry.1

def Occurs : Prop :=
  (∃ target, Lists custom address target) ∨
    ∃ candidate ∈ candidates, candidate.address? = some address

/-- The target of the candidate with the least priority and name -/
def Chosen (target : Str) : Prop :=
  ∃ candidate ∈ candidates, candidate.address? = some address ∧
    target = fqdn candidate.target ∧
    ∀ other ∈ candidates, other.address? = some address →
      candidate.key ≤ other.key

/-- A custom target comes before the candidates. -/
def PointsTo (target : Str) : Prop :=
  Lists custom address target ∨
    (∀ other, ¬ Lists custom address other) ∧ Chosen candidates address target

/-- The longest prefix that contains the address has this zone. -/
def InZone (zone : Str) : Prop :=
  ∃ entry ∈ zones, ∃ network, ipNetwork entry.1 = some network ∧
    network.contains address ∧ zone = zoneName entry.2 ∧
    ∀ other ∈ zones, ∀ otherNetwork, ipNetwork other.1 = some otherNetwork →
      otherNetwork.contains address →
      otherNetwork.prefixLength ≤ network.prefixLength

/-- The record for an address -/
structure Describes (record : PtrRecord) : Prop where
  isAddress : record.address = address.str
  isName : record.name = address.reversePointer ++ ['.']
  inZone : InZone zones address record.zone
  nonempty : record.zone ≠ []
  pointsTo : PointsTo candidates custom address record.target

def Before (one other : PtrRecord) : Prop :=
  ∃ first second : Address, one.address = first.str ∧
    other.address = second.str ∧ addressKey first < addressKey second

structure ReverseContent (records : List PtrRecord) : Prop where
  sound : ∀ record ∈ records,
    ∃ address, Describes candidates zones custom address record
  complete : ∀ address, Occurs candidates custom address →
    (∃ zone, InZone zones address zone ∧ zone ≠ []) →
    ∃! record, record ∈ records ∧ record.address = address.str
  increasing : records.Pairwise Before

/-- Zones and custom targets that do not contradict themselves. -/
structure Proper : Prop where
  /-- Addresses with a scope id are not modelled. -/
  noScope : (∀ candidate ∈ candidates, '%' ∉ candidate.address) ∧
    (∀ entry ∈ zones, '%' ∉ entry.1) ∧
    ∀ entry ∈ custom, ∀ text ∈ entry.2.list, '%' ∉ text
  differentNetworks : zones.Pairwise Apart
  validCustom : ∀ entry ∈ custom, ∀ text ∈ entry.2.list,
    (ipAddress text).isSome
  oneTarget : ∀ address first second, Lists custom address first →
    Lists custom address second → first = second

end Specification

section Content

variable {candidates : List Candidate} {zones : List (Str × Str)}
  {custom : List (Str × Addresses)} {address : Address}

/-! ## They say one thing only -/

theorem addressKey_injective {first second : Address}
    (same : addressKey first = addressKey second) : first = second := by
  obtain ⟨versions, numbers⟩ := Prod.mk.inj (toLex.injective same)
  exact Address.ext (Version.number_injective versions) numbers

theorem str_injective {first second : Address} (same : first.str = second.str) :
    first = second := by
  have read := ipAddress_str first
  rw [same, ipAddress_str] at read
  exact (Option.some.inj read).symm

/-- Two networks of one length that contain an address are the same. -/
theorem network_eq {first second : Network} (inFirst : first.contains address)
    (inSecond : second.contains address)
    (lengths : first.prefixLength = second.prefixLength) : first = second := by
  simp only [Network.contains, Bool.and_eq_true, decide_eq_true_eq]
    at inFirst inSecond
  have versions : first.version = second.version :=
    inFirst.1.symm.trans inSecond.1
  refine Network.ext versions ?_ lengths
  rw [← inFirst.2, ← inSecond.2, versions, lengths]

theorem InZone.unique {first second : Str} (inFirst : InZone zones address first)
    (inSecond : InZone zones address second)
    (different : zones.Pairwise Apart) : first = second := by
  obtain ⟨entry, member, network, isNetwork, contains, rfl, longest⟩ := inFirst
  obtain ⟨other, otherMember, otherNetwork, isOther, otherContains, rfl,
    otherLongest⟩ := inSecond
  have lengths : network.prefixLength = otherNetwork.prefixLength :=
    Nat.le_antisymm (otherLongest entry member network isNetwork contains)
      (longest other otherMember otherNetwork isOther otherContains)
  obtain rfl := network_eq contains otherContains lengths
  by_cases same : entry = other
  · rw [same]
  · exact absurd isOther
      (different.forall member otherMember same network isNetwork)

theorem Chosen.unique {first second : Str}
    (isFirst : Chosen candidates address first)
    (isSecond : Chosen candidates address second) : first = second := by
  obtain ⟨candidate, member, names, rfl, least⟩ := isFirst
  obtain ⟨other, otherMember, otherNames, rfl, otherLeast⟩ := isSecond
  have keys : candidate.key = other.key :=
    le_antisymm (least other otherMember otherNames)
      (otherLeast candidate member names)
  exact (Prod.mk.inj (toLex.injective keys)).2

section Unique

variable (proper : Proper candidates zones custom)
include proper

theorem PointsTo.unique {first second : Str}
    (isFirst : PointsTo candidates custom address first)
    (isSecond : PointsTo candidates custom address second) :
    first = second := by
  cases isFirst with
  | inl lists =>
      cases isSecond with
      | inl otherLists => exact proper.oneTarget address _ _ lists otherLists
      | inr none => exact absurd lists (none.1 first)
  | inr none =>
      cases isSecond with
      | inl otherLists => exact absurd otherLists (none.1 second)
      | inr otherNone => exact none.2.unique otherNone.2

theorem Describes.unique {one other : PtrRecord}
    (isOne : Describes candidates zones custom address one)
    (isOther : Describes candidates zones custom address other) :
    one = other := by
  have addresses := isOne.isAddress.trans isOther.isAddress.symm
  have names := isOne.isName.trans isOther.isName.symm
  have sameZone := isOne.inZone.unique isOther.inZone proper.differentNetworks
  have targets := isOne.pointsTo.unique proper isOther.pointsTo
  cases one
  cases other
  simp_all

end Unique

/-! ## Selecting the targets -/

section Selecting

variable {selected result : Selected} {candidate : Candidate}

theorem lookup_take : (selected.take candidate).lookup address =
    (selected.lookup address).or
      (if candidate.address? = some address then some (fqdn candidate.target)
        else none) := by
  rw [Selected.take]
  match isOther : candidate.address? with
  | none => simp
  | some other =>
      dsimp only
      rw [Selected.setdefault]
      by_cases here : other = address
      · subst here
        by_cases present : other ∈ selected
        · obtain ⟨target, found⟩ :=
            Option.isSome_iff_exists.mp (AList.lookup_isSome.mpr present)
          rw [if_pos present, found, Option.some_or]
        · rw [if_neg present, AList.lookup_insert,
            AList.lookup_eq_none.mpr present, Option.none_or, if_pos rfl]
      · have elsewhere : some other ≠ some address := by simpa using here
        rw [if_neg elsewhere, Option.or_none]
        split
        · rfl
        · exact AList.lookup_insert_ne (Ne.symm here)

theorem lookup_foldl_take {listed : List Candidate} :
    (listed.foldl Selected.take selected).lookup address =
      (selected.lookup address).or
        ((listed.find? (·.address? = some address)).map
          fun candidate => fqdn candidate.target) := by
  induction listed generalizing selected with
  | nil => rw [List.foldl_nil, List.find?_nil, Option.map_none, Option.or_none]
  | cons candidate listed induction =>
      rw [List.foldl_cons, induction, lookup_take, Option.or_assoc]
      congr 1
      by_cases here : candidate.address? = some address
      · rw [if_pos here, Option.some_or,
          List.find?_cons_of_pos (by simpa using here), Option.map_some]
      · rw [if_neg here, Option.none_or,
          List.find?_cons_of_neg (by simpa using here)]

theorem pairwise_sortedBy {α κ : Type} [LinearOrder κ] {key : α → κ}
    {items : List α} :
    (sortedBy key items).Pairwise fun one other => key one ≤ key other := by
  have : Std.Total fun one other : α => key one ≤ key other :=
    ⟨fun one other => le_total (key one) (key other)⟩
  have : IsTrans α fun one other => key one ≤ key other :=
    ⟨fun _ _ _ => le_trans⟩
  exact List.pairwise_insertionSort _ items

theorem perm_sortedBy {α κ : Type} [LinearOrder κ] {key : α → κ}
    {items : List α} : (sortedBy key items).Perm items :=
  List.perm_insertionSort _ items

theorem chosen_of_lookup {target : Str}
    (found : (selectCandidates candidates).lookup address = some target) :
    Chosen candidates address target := by
  rw [selectCandidates, lookup_foldl_take, AList.lookup_empty, Option.none_or,
    Option.map_eq_some_iff] at found
  obtain ⟨candidate, first, rfl⟩ := found
  obtain ⟨names, before, behind, split, others⟩ :=
    List.find?_eq_some_iff_append.mp first
  have sorted := @pairwise_sortedBy _ _ _ Candidate.key candidates
  have inSorted : ∀ other, other ∈ candidates ↔
      other ∈ before ++ candidate :: behind := by
    intro other
    rw [← split]
    exact perm_sortedBy.mem_iff.symm
  refine ⟨candidate, (inSorted candidate).mpr (by simp),
    by simpa using names, rfl, ?_⟩
  intro other member otherNames
  rw [inSorted, List.mem_append, List.mem_cons] at member
  obtain early | rfl | late := member
  · have none := others other early
    simp [otherNames] at none
  · exact le_refl _
  · rw [split, List.pairwise_append, List.pairwise_cons] at sorted
    exact sorted.2.1.1 other late

theorem lookup_selectCandidates_eq_none
    (none : (selectCandidates candidates).lookup address = none) :
    ∀ candidate ∈ candidates, candidate.address? ≠ some address := by
  rw [selectCandidates, lookup_foldl_take, AList.lookup_empty, Option.none_or,
    Option.map_eq_none_iff, List.find?_eq_none] at none
  intro candidate member
  simpa using none candidate (perm_sortedBy.mem_iff.mpr member)

/-- What one turn of the loop over `custom` does with an address -/
theorem lookup_foldlM_assign {target : Str} {texts : List Str}
    (assigned : texts.foldlM (Selected.assign target) selected = some result) :
    (∃ text ∈ texts, ipAddress text = some address) ∧
        result.lookup address = some (fqdn target) ∨
      (∀ text ∈ texts, ipAddress text ≠ some address) ∧
        result.lookup address = selected.lookup address := by
  induction texts generalizing selected with
  | nil =>
      obtain rfl := Option.some.inj assigned
      exact .inr ⟨by simp, rfl⟩
  | cons text texts induction =>
      rw [List.foldlM_cons, Option.bind_eq_bind, Option.bind_eq_some_iff]
        at assigned
      obtain ⟨middle, first, rest⟩ := assigned
      obtain ⟨other, isOther, rfl⟩ := Option.map_eq_some_iff.mp first
      obtain ⟨⟨later, member, isAddress⟩, found⟩ | ⟨none, found⟩ :=
        induction rest
      · exact .inl
          ⟨⟨later, List.mem_cons_of_mem text member, isAddress⟩, found⟩
      · by_cases here : address = other
        · subst here
          rw [AList.lookup_insert] at found
          exact .inl ⟨⟨text, List.mem_cons_self, isOther⟩, found⟩
        · rw [AList.lookup_insert_ne here] at found
          refine .inr ⟨List.forall_mem_cons.mpr ⟨?_, none⟩, found⟩
          rw [isOther]
          simpa using Ne.symm here

theorem lookup_selectCustom
    (taken : selectCustom custom selected = some result) :
    (∃ target, Lists custom address target ∧
        result.lookup address = some target) ∨
      (∀ target, ¬ Lists custom address target) ∧
        result.lookup address = selected.lookup address := by
  induction custom generalizing selected with
  | nil =>
      obtain rfl := Option.some.inj taken
      exact .inr ⟨by simp [Lists], rfl⟩
  | cons entry custom induction =>
      rw [selectCustom, List.foldlM_cons, Option.bind_eq_bind,
        Option.bind_eq_some_iff] at taken
      obtain ⟨middle, first, rest⟩ := taken
      obtain ⟨target, ⟨later, member, text, inTexts, isAddress, isTarget⟩,
        found⟩ | ⟨none, found⟩ := induction rest
      · exact .inl ⟨target, ⟨later, List.mem_cons_of_mem entry member, text,
          inTexts, isAddress, isTarget⟩, found⟩
      · obtain ⟨⟨text, inTexts, isAddress⟩, assigned⟩ | ⟨noText, same⟩ :=
          lookup_foldlM_assign first
        · exact .inl ⟨fqdn entry.1, ⟨entry, List.mem_cons_self, text, inTexts,
            isAddress, rfl⟩, found.trans assigned⟩
        · refine .inr ⟨?_, found.trans same⟩
          intro target ⟨other, member, text, inTexts, isAddress, isTarget⟩
          cases List.mem_cons.mp member with
          | inl here =>
              subst here
              exact noText text inTexts isAddress
          | inr later =>
              exact none target
                ⟨other, later, text, inTexts, isAddress, isTarget⟩

/-- With valid addresses the loops over `custom` go through. -/
theorem exists_selectCustom
    (valid : ∀ entry ∈ custom, ∀ text ∈ entry.2.list, (ipAddress text).isSome)
    (selected : Selected) : ∃ result, selectCustom custom selected =
      some result := by
  have inner : ∀ (target : Str) (texts : List Str),
      (∀ text ∈ texts, (ipAddress text).isSome) → ∀ selected : Selected,
      ∃ result, texts.foldlM (Selected.assign target) selected =
        some result := by
    intro target texts
    induction texts with
    | nil => exact fun _ selected => ⟨selected, rfl⟩
    | cons text texts induction =>
        intro valid selected
        obtain ⟨first, rest⟩ := List.forall_mem_cons.mp valid
        obtain ⟨address, isAddress⟩ := Option.isSome_iff_exists.mp first
        rw [List.foldlM_cons, Selected.assign, isAddress]
        exact induction rest _
  induction custom generalizing selected with
  | nil => exact ⟨selected, rfl⟩
  | cons entry custom induction =>
      obtain ⟨first, rest⟩ := List.forall_mem_cons.mp valid
      obtain ⟨middle, assigned⟩ := inner entry.1 entry.2.list first selected
      rw [selectCustom, List.foldlM_cons, assigned]
      exact induction rest middle

/-- `selected` has the addresses that occur, each with its target. -/
theorem pointsTo_of_lookup {target : Str}
    (taken : selectCustom custom (selectCandidates candidates) = some result)
    (found : result.lookup address = some target) :
    PointsTo candidates custom address target := by
  obtain ⟨other, lists, isOther⟩ | ⟨none, same⟩ :=
    @lookup_selectCustom _ address _ _ taken
  · rw [found, Option.some_inj] at isOther
    exact .inl (isOther ▸ lists)
  · exact .inr ⟨none, chosen_of_lookup (same.symm.trans found)⟩

theorem exists_lookup
    (taken : selectCustom custom (selectCandidates candidates) = some result)
    (occurs : Occurs candidates custom address) :
    ∃ target, result.lookup address = some target := by
  obtain ⟨other, _, isOther⟩ | ⟨none, same⟩ :=
    @lookup_selectCustom _ address _ _ taken
  · exact ⟨other, isOther⟩
  · match found : result.lookup address with
    | some target => exact ⟨target, rfl⟩
    | .none =>
        obtain ⟨target, lists⟩ | ⟨candidate, member, names⟩ := occurs
        · exact absurd lists (none target)
        · exact absurd names (lookup_selectCandidates_eq_none
            (same.symm.trans found) candidate member)

end Selecting

/-! ## Finding the zones -/

section Zones

variable {networks : List (Network × Str)}

theorem mem_networksOf (read : networksOf zones = some networks)
    {network : Network} {zone : Str} : (network, zone) ∈ networks ↔
      ∃ entry ∈ zones, ipNetwork entry.1 = some network ∧
        zone = zoneName entry.2 := by
  induction zones generalizing networks with
  | nil =>
      obtain rfl := Option.some.inj read
      simp
  | cons entry zones induction =>
      rw [networksOf, List.mapM_cons, Option.bind_eq_bind,
        Option.bind_eq_some_iff] at read
      obtain ⟨first, isFirst, read⟩ := read
      rw [Option.bind_eq_bind, Option.bind_eq_some_iff] at read
      obtain ⟨rest, isRest, isNetworks⟩ := read
      obtain rfl := Option.some.inj isNetworks
      rw [Option.bind_eq_bind, Option.bind_eq_some_iff] at isFirst
      obtain ⟨own, isOwn, isFirst⟩ := isFirst
      obtain rfl := Option.some.inj isFirst
      rw [List.mem_cons, induction isRest, List.exists_mem_cons_iff, isOwn,
        Option.some_inj, Prod.mk.injEq, eq_comm (a := network)]

theorem isSome_networksOf : (networksOf zones).isSome ↔
    ∀ entry ∈ zones, (ipNetwork entry.1).isSome := by
  induction zones with
  | nil => simp [networksOf]
  | cons entry zones induction =>
      rw [networksOf] at induction
      rw [networksOf, List.mapM_cons, List.forall_mem_cons, ← induction]
      cases ipNetwork entry.1 with
      | none => simp
      | some network =>
          cases zones.mapM fun entry : Str × Str => do
            let network ← ipNetwork entry.1
            return (network, zoneName entry.2) <;> simp

theorem zoneFor_eq_some (read : networksOf zones = some networks) {zone : Str}
    (found : zoneFor address networks = some zone) :
    InZone zones address zone := by
  obtain ⟨⟨network, name⟩, longest, rfl⟩ := Option.map_eq_some_iff.mp found
  obtain ⟨member, contains⟩ := List.mem_filter.mp (List.argmax_mem longest)
  obtain ⟨entry, inZones, isNetwork, isName⟩ := (mem_networksOf read).mp member
  refine ⟨entry, inZones, network, isNetwork, contains, isName, ?_⟩
  intro other inOthers otherNetwork isOther otherContains
  have otherMember : (otherNetwork, zoneName other.2) ∈
      networks.filter (·.1.contains address) :=
    List.mem_filter.mpr
      ⟨(mem_networksOf read).mpr ⟨other, inOthers, isOther, rfl⟩, otherContains⟩
  exact @List.le_of_mem_argmax _ _ _ (fun entry => entry.1.prefixLength) _ _ _
    otherMember longest

theorem exists_zoneFor (read : networksOf zones = some networks) {zone : Str}
    (inZone : InZone zones address zone) :
    ∃ other, zoneFor address networks = some other := by
  obtain ⟨entry, member, network, isNetwork, contains, rfl, _⟩ := inZone
  have inNetworks : (network, zoneName entry.2) ∈
      networks.filter (·.1.contains address) :=
    List.mem_filter.mpr
      ⟨(mem_networksOf read).mpr ⟨entry, member, isNetwork, rfl⟩, contains⟩
  match found : (networks.filter (·.1.contains address)).argmax
      (·.1.prefixLength) with
  | none =>
      rw [List.argmax_eq_none.mp found] at inNetworks
      contradiction
  | some entry =>
      refine ⟨entry.2, ?_⟩
      rw [zoneFor, found]
      rfl

end Zones

/-! ## Sorting the records -/

section Sorting

theorem mapM_keyed {records : List PtrRecord}
    (valid : ∀ record ∈ records,
      ∃ address : Address, record.address = address.str) :
    ∃ keyed : List ((Nat ×ₗ Nat) × PtrRecord),
      (records.mapM fun record => do
        let address ← ipAddress record.address
        return (addressKey address, record)) = some keyed ∧
      keyed.map (·.2) = records ∧
      ∀ entry ∈ keyed, ∃ address : Address,
        entry.2.address = address.str ∧ entry.1 = addressKey address := by
  induction records with
  | nil => exact ⟨[], rfl, rfl, by simp⟩
  | cons record records induction =>
      obtain ⟨⟨address, isAddress⟩, rest⟩ := List.forall_mem_cons.mp valid
      obtain ⟨keyed, isKeyed, same, keys⟩ := induction rest
      refine ⟨(addressKey address, record) :: keyed, ?_, by simp [same],
        List.forall_mem_cons.mpr ⟨⟨address, isAddress, rfl⟩, keys⟩⟩
      rw [List.mapM_cons, isKeyed, isAddress, ipAddress_str]
      rfl

/-- Records of different addresses are sorted strictly. -/
theorem sortRecords_eq {records : List PtrRecord}
    (valid : ∀ record ∈ records,
      ∃ address : Address, record.address = address.str)
    (different : records.Pairwise fun one other =>
      one.address ≠ other.address) :
    ∃ sorted, sortRecords records = some sorted ∧ sorted.Perm records ∧
      sorted.Pairwise Before := by
  obtain ⟨keyed, isKeyed, same, keys⟩ := mapM_keyed valid
  have sorted := @pairwise_sortedBy _ _ _
    (fun entry : (Nat ×ₗ Nat) × PtrRecord => entry.1) keyed
  have permuted : (sortedBy (·.1) keyed).Perm keyed := perm_sortedBy
  refine ⟨(sortedBy (·.1) keyed).map (·.2), ?_, ?_, ?_⟩
  · rw [sortRecords, isKeyed]
    rfl
  · rw [← same]
    exact permuted.map _
  · have apart : (sortedBy (·.1) keyed).Pairwise fun one other =>
        one.2.address ≠ other.2.address := by
      rw [← same, List.pairwise_map] at different
      exact different.perm permuted.symm fun differ => Ne.symm differ
    rw [List.pairwise_map]
    refine (sorted.and apart).imp_of_mem ?_
    intro one other isOne isOther ⟨ordered, differ⟩
    obtain ⟨first, firstAddress, firstKey⟩ :=
      keys one (permuted.mem_iff.mp isOne)
    obtain ⟨second, secondAddress, secondKey⟩ :=
      keys other (permuted.mem_iff.mp isOther)
    refine ⟨first, second, firstAddress, secondAddress, ?_⟩
    rw [← firstKey, ← secondKey]
    apply lt_of_le_of_ne ordered
    intro equal
    rw [firstKey, secondKey] at equal
    rw [firstAddress, secondAddress, addressKey_injective equal] at differ
    contradiction

theorem Before.irreflexive (record : PtrRecord) : ¬ Before record record := by
  intro ⟨first, second, isFirst, isSecond, smaller⟩
  rw [str_injective (isFirst.symm.trans isSecond)] at smaller
  exact lt_irrefl _ smaller

theorem Before.asymmetric {one other : PtrRecord} (before : Before one other) :
    ¬ Before other one := by
  intro ⟨third, fourth, isThird, isFourth, larger⟩
  obtain ⟨first, second, isFirst, isSecond, smaller⟩ := before
  rw [str_injective (isThird.symm.trans isSecond),
    str_injective (isFourth.symm.trans isFirst)] at larger
  exact lt_asymm smaller larger

/-- A strictly sorted list is given by its elements. -/
theorem eq_of_mem_iff {left right : List PtrRecord}
    (leftSorted : left.Pairwise Before) (rightSorted : right.Pairwise Before)
    (same : ∀ record, record ∈ left ↔ record ∈ right) : left = right := by
  have : Std.Irrefl Before := ⟨Before.irreflexive⟩
  have : Std.Antisymm Before :=
    ⟨fun _ _ before after => absurd after before.asymmetric⟩
  exact leftSorted.eq_of_mem_iff rightSorted same

end Sorting

/-! ## The result -/

section Result

variable {networks : List (Network × Str)} {result : Selected}
  {records : List PtrRecord}

theorem recordOf_eq_some {target : Str} {record : PtrRecord} :
    recordOf networks address target = some record ↔
      ∃ zone, zoneFor address networks = some zone ∧ zone ≠ [] ∧
        record =
          { address := address.str
            name := address.reversePointer ++ ['.']
            zone
            target } := by
  rw [recordOf, Option.bind_eq_bind, Option.bind_eq_some_iff]
  constructor
  · intro ⟨zone, isZone, made⟩
    by_cases empty : zone = []
    · rw [if_pos empty] at made
      contradiction
    · rw [if_neg empty] at made
      exact ⟨zone, isZone, empty, (Option.some.inj made).symm⟩
  · intro ⟨zone, isZone, nonempty, isRecord⟩
    refine ⟨zone, isZone, ?_⟩
    rw [if_neg nonempty, isRecord]
    rfl

/-- The records in the order of the dictionary -/
theorem pairwise_records (networks : List (Network × Str))
    (result : Selected) :
    (result.entries.filterMap fun entry =>
      recordOf networks entry.1 entry.2).Pairwise fun one other =>
        one.address ≠ other.address := by
  have keys : result.entries.Pairwise fun one other => one.1 ≠ other.1 :=
    List.pairwise_map.mp result.nodupKeys
  refine List.pairwise_filterMap.mpr (keys.imp ?_)
  intro one other different first isFirst second isSecond same
  obtain ⟨_, _, _, rfl⟩ := recordOf_eq_some.mp isFirst
  obtain ⟨_, _, _, rfl⟩ := recordOf_eq_some.mp isSecond
  exact different (str_injective same)

section Proper

variable (proper : Proper candidates zones custom)
  (read : networksOf zones = some networks)
  (taken : selectCustom custom (selectCandidates candidates) = some result)
include proper read taken

theorem mem_records {record : PtrRecord} :
    record ∈ result.entries.filterMap
        (fun entry => recordOf networks entry.1 entry.2) ↔
      ∃ address, Describes candidates zones custom address record := by
  rw [List.mem_filterMap]
  constructor
  · intro ⟨⟨address, target⟩, member, made⟩
    obtain ⟨zone, isZone, nonempty, rfl⟩ := recordOf_eq_some.mp made
    have found : result.lookup address = some target :=
      AList.mem_lookup_iff.mpr member
    exact ⟨address,
      { isAddress := rfl
        isName := rfl
        inZone := zoneFor_eq_some read isZone
        nonempty
        pointsTo := pointsTo_of_lookup taken found }⟩
  · intro ⟨address, describes⟩
    have occurs : Occurs candidates custom address := by
      obtain lists | ⟨_, candidate, member, names, _⟩ := describes.pointsTo
      · exact .inl ⟨record.target, lists⟩
      · exact .inr ⟨candidate, member, names⟩
    obtain ⟨target, found⟩ := exists_lookup taken occurs
    obtain rfl := describes.pointsTo.unique proper
      (pointsTo_of_lookup taken found)
    obtain ⟨zone, isZone⟩ := exists_zoneFor read describes.inZone
    have sameZone := describes.inZone.unique (zoneFor_eq_some read isZone)
      proper.differentNetworks
    refine ⟨⟨address, record.target⟩, AList.mem_lookup_iff.mp found, ?_⟩
    rw [recordOf_eq_some]
    refine ⟨record.zone, sameZone ▸ isZone, describes.nonempty, ?_⟩
    rw [← describes.isAddress, ← describes.isName]

/-- The result is given by the records it has to have. -/
theorem ptrRecords_eq : ∃ records,
    ptrRecords candidates zones custom = some records ∧
    (∀ record, record ∈ records ↔
      ∃ address, Describes candidates zones custom address record) ∧
    records.Pairwise Before := by
  have member := fun record => @mem_records _ _ _ _ _ proper read taken record
  have valid : ∀ record ∈ result.entries.filterMap
      (fun entry => recordOf networks entry.1 entry.2),
      ∃ address : Address, record.address = address.str := by
    intro record isRecord
    obtain ⟨address, describes⟩ := (member record).mp isRecord
    exact ⟨address, describes.isAddress⟩
  obtain ⟨sorted, isSorted, permuted, increasing⟩ :=
    sortRecords_eq valid (pairwise_records networks result)
  refine ⟨sorted, ?_, ?_, increasing⟩
  · rw [ptrRecords, read, Option.bind_eq_bind, Option.bind_some, taken]
    exact isSorted
  · intro record
    rw [permuted.mem_iff, member]

end Proper

theorem isSome_ptrRecords (proper : Proper candidates zones custom) :
    (ptrRecords candidates zones custom).isSome ↔
      ∀ entry ∈ zones, (ipNetwork entry.1).isSome := by
  rw [← isSome_networksOf]
  match read : networksOf zones with
  | none => simp [ptrRecords, read]
  | some networks =>
      obtain ⟨result, taken⟩ := exists_selectCustom proper.validCustom
        (selectCandidates candidates)
      obtain ⟨records, isRecords, _⟩ := ptrRecords_eq proper read taken
      simp [isRecords]

/-- The records of a result and their order -/
theorem ptrRecords_eq_some (proper : Proper candidates zones custom)
    (returned : ptrRecords candidates zones custom = some records) :
    (∀ record, record ∈ records ↔
      ∃ address, Describes candidates zones custom address record) ∧
    records.Pairwise Before := by
  have valid := (isSome_ptrRecords proper).mp
    (Option.isSome_iff_exists.mpr ⟨records, returned⟩)
  obtain ⟨networks, read⟩ :=
    Option.isSome_iff_exists.mp (isSome_networksOf.mpr valid)
  obtain ⟨result, taken⟩ := exists_selectCustom proper.validCustom
    (selectCandidates candidates)
  obtain ⟨others, isOthers, properties⟩ := ptrRecords_eq proper read taken
  rw [returned, Option.some_inj] at isOthers
  exact isOthers ▸ properties

theorem reverseContent (proper : Proper candidates zones custom)
    (returned : ptrRecords candidates zones custom = some records) :
    ReverseContent candidates zones custom records := by
  obtain ⟨member, increasing⟩ := ptrRecords_eq_some proper returned
  constructor
  case sound => exact fun record isRecord => (member record).mp isRecord
  case complete =>
    intro address occurs ⟨zone, inZone, nonempty⟩
    obtain ⟨result, taken⟩ := exists_selectCustom proper.validCustom
      (selectCandidates candidates)
    obtain ⟨target, found⟩ := exists_lookup taken occurs
    have describes : Describes candidates zones custom address
        { address := address.str
          name := address.reversePointer ++ ['.']
          zone
          target } :=
      { isAddress := rfl
        isName := rfl
        inZone
        nonempty
        pointsTo := pointsTo_of_lookup taken found }
    refine ⟨_, ⟨(member _).mpr ⟨address, describes⟩, rfl⟩, ?_⟩
    intro other ⟨isOther, sameAddress⟩
    obtain ⟨otherAddress, otherDescribes⟩ := (member other).mp isOther
    obtain rfl := str_injective
      (otherDescribes.isAddress.symm.trans sameAddress)
    exact otherDescribes.unique proper describes
  case increasing => exact increasing

/-! ## The order of the arguments -/

section Order

variable {candidates' : List Candidate} {zones' : List (Str × Str)}
  {custom' : List (Str × Addresses)} {record : PtrRecord} {target zone : Str}

theorem lists_perm (permuted : custom'.Perm custom) :
    Lists custom' address target ↔ Lists custom address target := by
  simp only [Lists, permuted.mem_iff]

theorem inZone_perm (permuted : zones'.Perm zones) :
    InZone zones' address zone ↔ InZone zones address zone := by
  simp only [InZone, permuted.mem_iff]

theorem pointsTo_perm (permuted : candidates'.Perm candidates)
    (customPermuted : custom'.Perm custom) :
    PointsTo candidates' custom' address target ↔
      PointsTo candidates custom address target := by
  simp only [PointsTo, Chosen, lists_perm customPermuted, permuted.mem_iff]

variable (permuted : candidates'.Perm candidates)
  (zonesPermuted : zones'.Perm zones) (customPermuted : custom'.Perm custom)
include permuted zonesPermuted customPermuted

theorem describes_perm :
    Describes candidates' zones' custom' address record ↔
      Describes candidates zones custom address record := by
  constructor
  · intro describes
    exact
      { isAddress := describes.isAddress
        isName := describes.isName
        inZone := (inZone_perm zonesPermuted).mp describes.inZone
        nonempty := describes.nonempty
        pointsTo :=
          (pointsTo_perm permuted customPermuted).mp describes.pointsTo }
  · intro describes
    exact
      { isAddress := describes.isAddress
        isName := describes.isName
        inZone := (inZone_perm zonesPermuted).mpr describes.inZone
        nonempty := describes.nonempty
        pointsTo :=
          (pointsTo_perm permuted customPermuted).mpr describes.pointsTo }

theorem Proper.perm (proper : Proper candidates zones custom) :
    Proper candidates' zones' custom' := by
  constructor
  case noScope =>
    obtain ⟨inCandidates, inZones, inCustom⟩ := proper.noScope
    simp only [permuted.mem_iff, zonesPermuted.mem_iff, customPermuted.mem_iff]
    exact ⟨inCandidates, inZones, inCustom⟩
  case differentNetworks =>
    exact proper.differentNetworks.perm zonesPermuted.symm
      fun apart => Std.Symm.symm _ _ apart
  case validCustom =>
    simp only [customPermuted.mem_iff]
    exact proper.validCustom
  case oneTarget =>
    simp only [lists_perm customPermuted]
    exact proper.oneTarget

theorem ptrRecords_perm (proper : Proper candidates zones custom) :
    ptrRecords candidates' zones' custom' =
      ptrRecords candidates zones custom := by
  have proper' := proper.perm permuted zonesPermuted customPermuted
  have both : (ptrRecords candidates' zones' custom').isSome ↔
      (ptrRecords candidates zones custom).isSome := by
    rw [isSome_ptrRecords proper', isSome_ptrRecords proper]
    simp only [zonesPermuted.mem_iff]
  match returned : ptrRecords candidates zones custom,
      returned' : ptrRecords candidates' zones' custom' with
  | none, none => rfl
  | none, some records' => simp [returned, returned'] at both
  | some records, none => simp [returned, returned'] at both
  | some records, some records' =>
      obtain ⟨member, increasing⟩ := ptrRecords_eq_some proper returned
      obtain ⟨member', increasing'⟩ := ptrRecords_eq_some proper' returned'
      congr 1
      apply eq_of_mem_iff increasing' increasing
      intro record
      rw [member', member]
      simp only [describes_perm permuted zonesPermuted customPermuted]

end Order

/-- `ptr_records` computes the content of the reverse zones, whatever the order
of its arguments. -/
theorem ptrRecords_correct (proper : Proper candidates zones custom) :
    ((ptrRecords candidates zones custom).isSome ↔
      ∀ entry ∈ zones, (ipNetwork entry.1).isSome) ∧
    (∀ records, ptrRecords candidates zones custom = some records →
      ReverseContent candidates zones custom records) ∧
    ∀ candidates' zones' custom', candidates'.Perm candidates →
      zones'.Perm zones → custom'.Perm custom →
      ptrRecords candidates' zones' custom' =
        ptrRecords candidates zones custom :=
  ⟨isSome_ptrRecords proper,
    fun _ returned => reverseContent proper returned,
    fun _ _ _ permuted zonesPermuted customPermuted =>
      ptrRecords_perm permuted zonesPermuted customPermuted proper⟩

end Result

end Content

namespace Sample

def candidates : List Candidate :=
  [{ address := chars "192.0.2.7/24", target := chars "b", priority := none },
    { address := chars "192.0.2.7", target := chars "a."
      priority := some 10 },
    { address := chars "no address", target := chars "c"
      priority := some 1 },
    { address := chars "192.0.2.9", target := chars "d", priority := none }]

def zones : List (Str × Str) :=
  [(chars "192.0.2.0/24", chars "2.0.192.in-addr.arpa."),
    (chars "192.0.2.8/29", chars "8.2.0.192.in-addr.arpa")]

def custom : List (Str × Addresses) :=
  [(chars "e", .several [chars "192.0.2.9", chars "192.0.2.1"])]

theorem proper : Proper candidates zones custom := by
  constructor
  case noScope => decide
  case differentNetworks =>
    have apart : ipNetwork (chars "192.0.2.0/24") ≠
        ipNetwork (chars "192.0.2.8/29") := by
      decide
    simp only [zones, List.pairwise_cons, List.mem_singleton, forall_eq,
      List.not_mem_nil, IsEmpty.forall_iff, implies_true, List.Pairwise.nil,
      and_true]
    exact fun network isOne isOther => apart (isOne.trans isOther.symm)
  case validCustom => decide
  case oneTarget =>
    intro address first second ⟨entry, member, _, _, _, isFirst⟩
      ⟨other, otherMember, _, _, _, isSecond⟩
    have same : entry = other := by
      rw [custom, List.mem_singleton] at member otherMember
      rw [member, otherMember]
    rw [isFirst, isSecond, same]

theorem ptrRecords_correct_sample :
    ((ptrRecords candidates zones custom).isSome ↔
      ∀ entry ∈ zones, (ipNetwork entry.1).isSome) ∧
    (∀ records, ptrRecords candidates zones custom = some records →
      ReverseContent candidates zones custom records) ∧
    ∀ candidates' zones' custom', candidates'.Perm candidates →
      zones'.Perm zones → custom'.Perm custom →
      ptrRecords candidates' zones' custom' =
        ptrRecords candidates zones custom :=
  ptrRecords_correct proper

end Sample

end FfmucSalt.DnsAuth
