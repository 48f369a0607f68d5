import Mathlib.Data.List.Sort
import Mathlib.Data.Set.Card

/-!
# Finite maps and loops over them

Go's maps are modelled by the extensional tree maps of the standard library:
two maps with the same lookups are equal, and the order of a loop over a map
is fixed.  The lemmas here say what such loops do without mentioning that
order, which Go leaves open.
-/

namespace FfmucSalt

/-- A map, with `compare` of the keys as the order of its loops. -/
abbrev FiniteMap (κ β : Type) [Ord κ] := Std.ExtTreeMap κ β compare

namespace FiniteMap

open Std

variable {κ β γ : Type} [Ord κ] [TransOrd κ]

theorem mem_iff_lookup {map : FiniteMap κ β} {key : κ} :
    key ∈ map ↔ ∃ value, map[key]? = some value := by
  rw [ExtTreeMap.mem_iff_isSome_getElem?, Option.isSome_iff_exists]

/-- The values in the order of a loop. -/
def values (map : FiniteMap κ β) : List β := map.toList.map Prod.snd

/-- A loop seen through a projection of its state. -/
theorem foldl_hom {σ τ : Type} {f : σ → τ} {step : σ → κ → β → σ}
    {step' : τ → κ → β → τ}
    (commutes : ∀ state key value,
      f (step state key value) = step' (f state) key value)
    (source : FiniteMap κ β) (start : σ) :
    f (source.foldl step start) = source.foldl step' (f start) := by
  rw [ExtTreeMap.foldl_eq_foldl_toList, ExtTreeMap.foldl_eq_foldl_toList]
  exact (List.foldl_hom f fun state (entry : κ × β) =>
    (commutes state entry.1 entry.2).symm).symm

/-- A loop that reads values only. -/
theorem foldl_values {σ : Type} (step : σ → β → σ) (source : FiniteMap κ β)
    (start : σ) :
    source.foldl (fun state _ value => step state value) start =
      source.values.foldl step start := by
  rw [ExtTreeMap.foldl_eq_foldl_toList, values, List.foldl_map]

section Lawful

variable [LawfulEqOrd κ]

@[ext] theorem ext_lookup {left right : FiniteMap κ β}
    (same : ∀ key : κ, left[key]? = right[key]?) : left = right :=
  ExtTreeMap.ext_getElem? same

theorem mem_keys {map : FiniteMap κ β} {key : κ} :
    key ∈ map.keys ↔ ∃ value, map[key]? = some value := by
  rw [ExtTreeMap.mem_keys, mem_iff_lookup]

theorem mem_values {map : FiniteMap κ β} {value : β} :
    value ∈ map.values ↔ ∃ key : κ, map[key]? = some value := by
  simp [values, ExtTreeMap.mem_toList_iff_getElem?_eq_some]

/-- As many keys lead to a value of a kind as there are such values. -/
theorem encard_lookup (map : FiniteMap κ β) (kind : β → Bool) :
    {key : κ | ∃ value, map[key]? = some value ∧ kind value}.encard =
      map.values.countP kind := by
  classical
  let entries := map.toList.filter fun entry => kind entry.2
  have distinct : (entries.map Prod.fst).Nodup := by
    have keys : (map.toList.map Prod.fst).Nodup := by
      rw [ExtTreeMap.map_fst_toList_eq_keys]
      exact ExtTreeMap.nodup_keys
    exact keys.sublist (List.filter_sublist.map Prod.fst)
  have isSet : {key : κ | ∃ value, map[key]? = some value ∧ kind value} =
      ((entries.map Prod.fst).toFinset : Set κ) := by
    ext key
    simp [entries, ExtTreeMap.mem_toList_iff_getElem?_eq_some]
  have count : entries.length = map.values.countP kind := by
    rw [values, List.countP_map, List.countP_eq_length_filter]
    rfl
  rw [isSet, Set.encard_coe_eq_coe_finsetCard,
    List.toFinset_card_of_nodup distinct, List.length_map, count]

/-- What every turn of a loop keeps, the loop keeps. -/
theorem foldl_keeps {σ : Type} {step : σ → κ → β → σ} {motive : σ → Prop}
    {source : FiniteMap κ β} {start : σ} (holds : motive start)
    (turn : ∀ state key value, source[key]? = some value → motive state →
      motive (step state key value)) :
    motive (source.foldl step start) := by
  rw [ExtTreeMap.foldl_eq_foldl_toList]
  refine List.foldlRecOn _ _ holds ?_
  rintro state held ⟨key, value⟩ member
  exact turn state key value
    (ExtTreeMap.mem_toList_iff_getElem?_eq_some.mp member) held

open Classical in
/-- A loop in which some entries clear what `view` shows. -/
theorem foldl_cleared {σ : Type} {step : σ → κ → β → σ}
    (view : σ → Option γ) (clears : κ → β → Prop)
    (visits : ∀ state key value, view (step state key value) =
      if clears key value then none else view state)
    (source : FiniteMap κ β) (start : σ) :
    view (source.foldl step start) =
      if ∃ key value, source[key]? = some value ∧ clears key value then none
      else view start := by
  have entries : ∀ (entries : List (κ × β)) (start : σ),
      view (entries.foldl (fun state entry => step state entry.1 entry.2)
        start) =
        if ∃ entry ∈ entries, clears entry.1 entry.2 then none
        else view start := by
    intro entries
    induction entries with
    | nil => simp
    | cons entry entries induction =>
        intro start
        rw [List.foldl_cons, induction, visits]
        by_cases later : ∃ entry ∈ entries, clears entry.1 entry.2 <;>
          by_cases here : clears entry.1 entry.2 <;>
          simp [later, here]
  rw [ExtTreeMap.foldl_eq_foldl_toList, entries]
  simp only [Prod.exists, ExtTreeMap.mem_toList_iff_getElem?_eq_some]

end Lawful

variable [DecidableEq κ]

private theorem lookup_foldl_list (step : FiniteMap κ γ → κ × β → FiniteMap κ γ)
    {slot : κ → Option γ → β → Option γ}
    (visits : ∀ map key value other, (step map (key, value))[other]? =
      if key = other then slot key map[key]? value else map[other]?)
    (entries : List (κ × β)) (distinct : (entries.map Prod.fst).Nodup)
    (start : FiniteMap κ γ) (key : κ) :
    (∀ value, (key, value) ∈ entries →
      (entries.foldl step start)[key]? = slot key start[key]? value) ∧
    ((∀ value, (key, value) ∉ entries) →
      (entries.foldl step start)[key]? = start[key]?) := by
  induction entries generalizing start with
  | nil => simp
  | cons entry entries induction =>
      obtain ⟨first, firstValue⟩ := entry
      simp only [List.map_cons, List.nodup_cons, List.mem_map, Prod.exists,
        exists_and_right, exists_eq_right, not_exists] at distinct
      have later := induction distinct.2 (step start (first, firstValue))
      constructor
      · intro value member
        rcases List.mem_cons.mp member with here | there
        · obtain ⟨rfl, rfl⟩ := Prod.mk.inj here
          rw [List.foldl_cons, later.2 distinct.1, visits, if_pos rfl]
        · have different : first ≠ key := by
            rintro rfl
            exact distinct.1 value there
          rw [List.foldl_cons, later.1 value there, visits, if_neg different]
      · intro absent
        have different : first ≠ key := by
          rintro rfl
          exact absent firstValue (by simp)
        rw [List.foldl_cons,
          later.2 fun value member => absent value (by simp [member]), visits,
          if_neg different]

variable [LawfulEqOrd κ]

theorem lookup_insert (map : FiniteMap κ β) (key other : κ) (value : β) :
    (map.insert key value)[other]? =
      if key = other then some value else map[other]? := by
  rw [ExtTreeMap.getElem?_insert]
  simp only [LawfulEqCmp.compare_eq_iff_eq]

theorem lookup_erase (map : FiniteMap κ β) (key other : κ) :
    (map.erase key)[other]? = if key = other then none else map[other]? := by
  rw [ExtTreeMap.getElem?_erase]
  simp only [LawfulEqCmp.compare_eq_iff_eq]

/-- A loop over `source` that only changes the slot of the key it visits. -/
theorem lookup_foldl (slot : κ → Option γ → β → Option γ)
    {step : FiniteMap κ γ → κ → β → FiniteMap κ γ}
    (visits : ∀ map key value other, (step map key value)[other]? =
      if key = other then slot key map[key]? value else map[other]?)
    (source : FiniteMap κ β) (start : FiniteMap κ γ) (key : κ) :
    (source.foldl step start)[key]? =
      match source[key]? with
      | none => start[key]?
      | some value => slot key start[key]? value := by
  rw [ExtTreeMap.foldl_eq_foldl_toList]
  have distinct : (source.toList.map Prod.fst).Nodup := by
    rw [ExtTreeMap.map_fst_toList_eq_keys]
    exact ExtTreeMap.nodup_keys
  have each := lookup_foldl_list
    (fun map entry => step map entry.1 entry.2)
    (fun map key value other => visits map key value other)
    source.toList distinct start key
  cases found : source[key]? with
  | none =>
      refine each.2 fun value member => ?_
      rw [ExtTreeMap.mem_toList_iff_getElem?_eq_some, found] at member
      cases member
  | some value =>
      exact each.1 value
        (ExtTreeMap.mem_toList_iff_getElem?_eq_some.mpr found)

private theorem lookup_foldl_insert {key : β → κ} (listed : List β)
    (start : FiniteMap κ β) (name : κ) :
    (∃ value ∈ listed, key value = name ∧
      (listed.foldl (fun (rebuilt : FiniteMap κ β) value =>
        rebuilt.insert (key value) value) start)[name]? = some value) ∨
    (∀ value ∈ listed, key value ≠ name) ∧
      (listed.foldl (fun (rebuilt : FiniteMap κ β) value =>
        rebuilt.insert (key value) value) start)[name]? = start[name]? := by
  induction listed generalizing start with
  | nil => right; simp
  | cons first listed induction =>
      rw [List.foldl_cons]
      rcases induction (start.insert (key first) first) with
        ⟨value, member, named, found⟩ | ⟨none, found⟩
      · exact .inl ⟨value, by simp [member], named, found⟩
      · rw [lookup_insert] at found
        split at found
        · rename_i named
          exact .inl ⟨first, by simp, named, found⟩
        · rename_i different
          exact .inr ⟨List.forall_mem_cons.mpr ⟨different, none⟩, found⟩

/-- Storing all values again under the keys they carry, in any order. -/
theorem foldl_insert_listed {key : β → κ} {map : FiniteMap κ β}
    {listed : List β}
    (keyed : ∀ name value, map[name]? = some value → key value = name)
    (lists : ∀ value, value ∈ listed ↔ ∃ name : κ, map[name]? = some value) :
    listed.foldl
      (fun (rebuilt : FiniteMap κ β) value => rebuilt.insert (key value) value)
      ∅ = map := by
  ext1 name
  rcases @lookup_foldl_insert _ _ _ _ _ _ key listed ∅ name with
    ⟨value, member, named, found⟩ | ⟨none, found⟩
  · obtain ⟨other, stored⟩ := (lists value).mp member
    rw [found, ← stored, ← keyed other value stored, named]
  · rw [found]
    cases stored : map[name]? with
    | none => simp
    | some value =>
        have member := (lists value).mpr ⟨name, stored⟩
        exact (none value member (keyed name value stored)).elim

/-- Deleting a list of keys. -/
theorem lookup_foldl_erase (keys : List κ) (start : FiniteMap κ β) (key : κ) :
    (keys.foldl (fun map key => map.erase key) start)[key]? =
      if key ∈ keys then none else start[key]? := by
  induction keys generalizing start with
  | nil => simp
  | cons first keys induction =>
      rw [List.foldl_cons, induction, lookup_erase]
      by_cases here : first = key
      · simp [here]
      · have : key ≠ first := Ne.symm here
        simp [here, this]

/-! ## Loops in any order -/

/-- The map with these entries. -/
def ofList (entries : List (κ × β)) : FiniteMap κ β :=
  ExtTreeMap.ofList entries compare

theorem lookup_ofList {entries : List (κ × β)}
    (distinct : (entries.map Prod.fst).Nodup) {key : κ} {value : β} :
    (ofList entries)[key]? = some value ↔ (key, value) ∈ entries := by
  have apart : entries.Pairwise fun first second =>
      ¬ compare first.1 second.1 = .eq := by
    refine (List.pairwise_map.mp distinct).imp ?_
    intro first second different same
    exact different (LawfulEqOrd.eq_of_compare same)
  have found : ∀ {value : β}, (key, value) ∈ entries →
      (ofList entries)[key]? = some value := fun member =>
    ExtTreeMap.getElem?_ofList_of_mem ReflOrd.compare_self apart member
  refine ⟨fun isFound => ?_, found⟩
  have present : (entries.map Prod.fst).contains key := by
    have member : key ∈ ofList entries := mem_iff_lookup.mpr ⟨value, isFound⟩
    exact ExtTreeMap.mem_ofList.mp member
  rw [List.contains_iff_mem, List.mem_map] at present
  obtain ⟨⟨_, other⟩, member, rfl⟩ := present
  rw [found member] at isFound
  cases isFound
  exact member

/-- A loop whose turns commute may visit the entries in any order. -/
theorem foldl_ofList {σ : Type} {step : σ → κ → β → σ}
    (commutes : ∀ state first value second other, first ≠ second →
      step (step state first value) second other =
        step (step state second other) first value)
    {entries : List (κ × β)} (distinct : (entries.map Prod.fst).Nodup)
    (start : σ) :
    (ofList entries).foldl step start =
      entries.foldl (fun state entry => step state entry.1 entry.2) start := by
  have listed : (ofList entries).toList.Perm entries := by
    refine (List.perm_ext_iff_of_nodup ?_ distinct.of_map).mpr ?_
    · refine ExtTreeMap.distinct_keys_toList.imp ?_
      rintro first _ different rfl
      exact different ReflOrd.compare_self
    · rintro ⟨key, value⟩
      rw [ExtTreeMap.mem_toList_iff_getElem?_eq_some, lookup_ofList distinct]
  rw [ExtTreeMap.foldl_eq_foldl_toList]
  refine listed.foldl_eq' ?_ start
  rintro ⟨first, value⟩ member ⟨second, other⟩ otherMember state
  by_cases same : first = second
  · subst same
    have found := ExtTreeMap.mem_toList_iff_getElem?_eq_some.mp member
    rw [ExtTreeMap.mem_toList_iff_getElem?_eq_some.mp otherMember] at found
    cases found
    rfl
  · exact commutes state first value second other same

end FiniteMap

/-! ## Loops that may fail -/

section FoldlM

variable {σ α β ε : Type} {step : σ → α → Except ε σ} {fine : α → Prop}

/-- A loop over items that are all fine goes through; `clean` says what an item
comes to, if anything. -/
theorem foldlM_eq_ok {turn : σ → β → σ} {clean : α → Option β}
    (finishes : ∀ state item, fine item →
      step state item = .ok ((clean item).elim state (turn state)))
    {items : List α} (allFine : ∀ item ∈ items, fine item) (state : σ) :
    items.foldlM step state = .ok ((items.filterMap clean).foldl turn state) := by
  induction items generalizing state with
  | nil => rfl
  | cons item items induction =>
      obtain ⟨isFine, allFine⟩ := List.forall_mem_cons.mp allFine
      rw [List.foldlM_cons, finishes state item isFine]
      refine (induction allFine _).trans ?_
      cases isClean : clean item with
      | none => rw [List.filterMap_cons_none isClean, Option.elim_none]
      | some cleaned =>
          rw [List.filterMap_cons_some isClean, Option.elim_some,
            List.foldl_cons]

/-- A loop over an item that is not fine fails, unless it failed before. -/
theorem foldlM_eq_error
    (goesOn : ∀ state item, fine item → ∃ later, step state item = .ok later)
    (fails : ∀ state item, ¬ fine item →
      ∃ error, step state item = .error error)
    {items : List α} (notAllFine : ¬ ∀ item ∈ items, fine item) (state : σ) :
    ∃ error, items.foldlM step state = .error error := by
  induction items generalizing state with
  | nil => exact (notAllFine fun _ member => by cases member).elim
  | cons item items induction =>
      rw [List.foldlM_cons]
      by_cases isFine : fine item
      · obtain ⟨later, happens⟩ := goesOn state item isFine
        rw [happens]
        refine induction (fun allFine => ?_) later
        exact notAllFine (List.forall_mem_cons.mpr ⟨isFine, allFine⟩)
      · obtain ⟨error, happens⟩ := fails state item isFine
        rw [happens]
        exact ⟨error, rfl⟩

end FoldlM

/-! ## Sorting -/

/-- `slices.SortFunc` for a comparison under which no two elements are
equal: the one sorted arrangement. -/
def sortFunc {α : Type} (comparison : α → α → Ordering) (items : List α) :
    List α :=
  items.insertionSort fun first second => comparison first second ≠ .gt

section SortFunc

variable {α : Type} {comparison : α → α → Ordering} {items : List α}

theorem mem_sortFunc {item : α} :
    item ∈ sortFunc comparison items ↔ item ∈ items :=
  List.mem_insertionSort _

theorem length_sortFunc :
    (sortFunc comparison items).length = items.length :=
  List.length_insertionSort _ _

theorem perm_sortFunc : (sortFunc comparison items).Perm items :=
  List.perm_insertionSort _ _

/-- The result is sorted strictly if no two elements compare as equal. -/
theorem pairwise_sortFunc [Std.TransCmp comparison]
    (distinct : items.Pairwise fun first second =>
      comparison first second ≠ .eq) :
    (sortFunc comparison items).Pairwise fun first second =>
      comparison first second = .lt := by
  have : Std.Total fun first second => comparison first second ≠ .gt :=
    ⟨fun first second => by
      by_cases greater : comparison first second = .gt
      · right
        rw [Std.OrientedCmp.lt_of_gt greater]
        decide
      · exact .inl greater⟩
  have : IsTrans α fun first second => comparison first second ≠ .gt :=
    ⟨fun first second third firstSecond secondThird => by
      have ordered : (comparison first third).isLE :=
        Std.TransCmp.isLE_trans (Ordering.ne_gt_iff_isLE.mp firstSecond)
          (Ordering.ne_gt_iff_isLE.mp secondThird)
      exact Ordering.ne_gt_iff_isLE.mpr ordered⟩
  have sorted := List.pairwise_insertionSort
    (fun first second => comparison first second ≠ .gt) items
  have different : (sortFunc comparison items).Pairwise fun first second =>
      comparison first second ≠ .eq := by
    refine distinct.perm perm_sortFunc.symm ?_
    intro first second notEqual equal
    exact notEqual (Std.OrientedCmp.eq_symm equal)
  refine (sorted.and different).imp ?_
  rintro first second ⟨notGreater, notEqual⟩
  cases result : comparison first second with
  | lt => rfl
  | eq => exact (notEqual result).elim
  | gt => exact (notGreater result).elim

end SortFunc

end FfmucSalt
