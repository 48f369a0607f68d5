import Mathlib.Data.Set.Card
import Mathlib.Order.ConditionallyCompleteLattice.Basic
import Mathlib.Order.WellFoundedSet

/-!
# Joins cut down to the heaviest keys

Keys carry weights, and `⊥` is the weight of an absent key.  Joining two such
assignments takes the greater weight of every key.  `keep` cuts an assignment
down to its `limit` heaviest keys, with a strict total order on the keys as
the tiebreak.

Cutting loses information, so it is not obvious that joins followed by cuts
are still associative.  `keep_sup_keep` is the reason they are: a key that was
cut has `limit` kept keys in front of it, and those never get lighter.  The
assignments with at most `limit` keys therefore form a join-semilattice,
`Kept`.
-/

namespace FfmucSalt.TopK

variable {κ γ : Type*} [LinearOrder γ]
variable (tie : κ → κ → Prop)

/-- `first` comes before `second`: it is heavier, or as heavy and smaller. -/
def Ahead (weight : κ → WithBot γ) (first second : κ) : Prop :=
  weight second < weight first ∨
    weight first = weight second ∧ tie first second

/-- The keys in front of `key`. -/
def front (weight : κ → WithBot γ) (key : κ) : Set κ :=
  {other | Ahead tie weight other key}

open Classical in
/-- Only the `limit` heaviest keys keep their weight. -/
noncomputable def keep (limit : ℕ) (weight : κ → WithBot γ) (key : κ) :
    WithBot γ :=
  if (front tie weight key).encard < limit then weight key else ⊥

/-- Only finitely many keys are present. -/
def FinitelyMany (weight : κ → WithBot γ) : Prop :=
  {key | weight key ≠ ⊥}.Finite

variable {tie} {limit : ℕ} {weight left right : κ → WithBot γ} {key other : κ}

theorem keep_of_lt (short : (front tie weight key).encard < limit) :
    keep tie limit weight key = weight key :=
  if_pos short

theorem keep_of_le (long : limit ≤ (front tie weight key).encard) :
    keep tie limit weight key = ⊥ :=
  if_neg (not_lt.mpr long)

theorem keep_le : keep tie limit weight key ≤ weight key := by
  unfold keep
  split
  · exact le_rfl
  · exact bot_le

theorem FinitelyMany.mono (finite : FinitelyMany left)
    (below : ∀ key, right key ≤ left key) : FinitelyMany right := by
  refine finite.subset ?_
  intro key present absent
  exact present (le_bot_iff.mp (absent ▸ below key))

theorem FinitelyMany.sup (leftFinite : FinitelyMany left)
    (rightFinite : FinitelyMany right) : FinitelyMany (left ⊔ right) := by
  refine (leftFinite.union rightFinite).subset ?_
  intro key present
  by_contra absent
  simp only [Set.mem_union, Set.mem_ofPred_eq, not_or, not_not] at absent
  exact present (by simp [absent.1, absent.2])

theorem FinitelyMany.keep (finite : FinitelyMany weight) :
    FinitelyMany (keep tie limit weight) :=
  finite.mono fun _ => keep_le

/-- The keys in front of a present key are present. -/
theorem FinitelyMany.front (finite : FinitelyMany weight)
    (present : weight key ≠ ⊥) : (front tie weight key).Finite := by
  refine finite.subset ?_
  intro other ahead absent
  rcases ahead with heavier | ⟨equal, -⟩
  · rw [absent] at heavier
    exact not_lt_bot heavier
  · exact present (equal ▸ absent)

/-- A join only notices that a key was cut if the cut weight was the greater
one. -/
private theorem cut_of_sup_ne
    (changed : (keep tie limit left ⊔ right) key ≠ (left ⊔ right) key) :
    limit ≤ (front tie left key).encard ∧ right key < left key := by
  constructor
  · by_contra short
    exact changed (by simp [keep_of_lt (not_le.mp short)])
  · by_contra! heavy
    refine changed ?_
    simp [heavy, keep_le.trans heavy]

section Order

variable [IsStrictTotalOrder κ tie]

theorem Ahead.irrefl : ¬ Ahead tie weight key key := by
  rintro (heavier | ⟨-, smaller⟩)
  · exact lt_irrefl _ heavier
  · exact irrefl_of tie key smaller

theorem Ahead.trans {first second third : κ}
    (firstSecond : Ahead tie weight first second)
    (secondThird : Ahead tie weight second third) :
    Ahead tie weight first third := by
  rcases firstSecond with heavier | ⟨equal, smaller⟩ <;>
    rcases secondThird with heavier' | ⟨equal', smaller'⟩
  · exact .inl (heavier'.trans heavier)
  · exact .inl (equal' ▸ heavier)
  · exact .inl (equal ▸ heavier')
  · exact .inr ⟨equal.trans equal', trans_of tie smaller smaller'⟩

/-- A key that was cut has `limit` kept keys in front of it. -/
theorem limit_le_kept_front (finite : FinitelyMany weight)
    (present : weight key ≠ ⊥)
    (long : limit ≤ (front tie weight key).encard) :
    limit ≤ {other ∈ front tie weight key |
      (front tie weight other).encard < limit}.encard := by
  by_contra! few
  have frontFinite : (front tie weight key).Finite := finite.front present
  -- Some key in front was cut as well; take the first of those.
  let cut := {other ∈ front tie weight key |
    limit ≤ (front tie weight other).encard}
  have cutNonempty : cut.Nonempty := by
    by_contra empty
    have allKept : front tie weight key ⊆
        {other ∈ front tie weight key |
          (front tie weight other).encard < limit} := by
      intro other ahead
      refine ⟨ahead, not_le.mp fun cutToo => ?_⟩
      exact empty ⟨other, ahead, cutToo⟩
    exact absurd (long.trans (Set.encard_le_encard allKept)) (not_le.mpr few)
  have cutFinite : cut.Finite := frontFinite.subset (Set.sep_subset _ _)
  have : IsStrictOrder κ (Ahead tie weight) :=
    { irrefl := fun _ => Ahead.irrefl
      trans := fun _ _ _ => Ahead.trans }
  obtain ⟨first, firstCut, isFirst⟩ :=
    cutFinite.wellFoundedOn (r := Ahead tie weight) |>.has_min
      (Set.univ : Set cut) ⟨⟨_, cutNonempty.some_mem⟩, trivial⟩
  have firstFront : front tie weight first ⊆
      {other ∈ front tie weight key |
        (front tie weight other).encard < limit} := by
    intro other ahead
    have aheadKey : other ∈ front tie weight key :=
      Ahead.trans ahead first.2.1
    refine ⟨aheadKey, not_le.mp fun cutToo => ?_⟩
    exact isFirst ⟨other, aheadKey, cutToo⟩ trivial ahead
  have tooFew := (Set.encard_le_encard firstFront).trans_lt few
  exact absurd first.2.2 (not_le.mpr tooFew)

/-- In front of a key that was cut before a join, the kept keys stay in front
afterwards: they only get heavier, and the key itself does not. -/
private theorem limit_le_front_of_cut (finite : FinitelyMany left)
    (present : left key ≠ ⊥)
    (long : limit ≤ (front tie left key).encard)
    {joined : κ → WithBot γ}
    (above : ∀ other, keep tie limit left other ≤ joined other)
    (below : joined key ≤ left key) :
    limit ≤ (front tie joined key).encard := by
  refine (limit_le_kept_front finite present long).trans
    (Set.encard_le_encard ?_)
  rintro other ⟨ahead, kept⟩
  have atLeast : left other ≤ joined other := keep_of_lt kept ▸ above other
  rcases ahead with heavier | ⟨equal, smaller⟩
  · exact .inl (below.trans_lt (heavier.trans_le atLeast))
  · rcases (below.trans (equal ▸ atLeast)).lt_or_eq with heavier | equal'
    · exact .inl heavier
    · exact .inr ⟨equal'.symm, smaller⟩

/-- If a key in front got lost because it was cut, `limit` kept keys stand in
for it. -/
private theorem limit_le_front_of_lost (leftFinite : FinitelyMany left)
    (same : (keep tie limit left ⊔ right) key = (left ⊔ right) key)
    (ahead : Ahead tie (left ⊔ right) other key)
    (changed : (keep tie limit left ⊔ right) other ≠ (left ⊔ right) other) :
    limit ≤ (front tie (keep tie limit left ⊔ right) key).encard := by
  obtain ⟨long, lighter⟩ := cut_of_sup_ne changed
  have weightOther : (left ⊔ right) other = left other := by
    simp [lighter.le]
  refine (limit_le_kept_front leftFinite (ne_bot_of_gt lighter) long).trans
    (Set.encard_le_encard ?_)
  rintro third ⟨thirdAhead, kept⟩
  have atLeast : left third ≤ (keep tie limit left ⊔ right) third := by
    simp [keep_of_lt kept]
  have thirdOther : Ahead tie left third other := thirdAhead
  change Ahead tie _ third key
  unfold Ahead at ahead thirdOther ⊢
  rw [same]
  rw [weightOther] at ahead
  rcases thirdOther with heavier | ⟨equal, smaller⟩ <;>
    rcases ahead with heavier' | ⟨equal', smaller'⟩
  · exact .inl (heavier'.trans (heavier.trans_le atLeast))
  · exact .inl (equal' ▸ heavier.trans_le atLeast)
  · exact .inl (heavier'.trans_le (equal ▸ atLeast))
  · rcases (equal' ▸ equal ▸ atLeast).lt_or_eq with heavier | equal''
    · exact .inl heavier
    · exact .inr ⟨equal''.symm, trans_of tie smaller smaller'⟩

/-- Cutting before a join makes no difference to the cut after it. -/
theorem keep_sup_keep (leftFinite : FinitelyMany left) :
    keep tie limit (keep tie limit left ⊔ right) =
      keep tie limit (left ⊔ right) := by
  have below : ∀ key, (keep tie limit left ⊔ right) key ≤ (left ⊔ right) key :=
    fun key => sup_le_sup_right keep_le _
  funext key
  by_cases same : (keep tie limit left ⊔ right) key = (left ⊔ right) key
  · -- The key keeps its weight; only its front may have changed.
    have included : front tie (keep tie limit left ⊔ right) key ⊆
        front tie (left ⊔ right) key := by
      rintro other (heavier | ⟨equal, smaller⟩)
      · exact .inl (same ▸ heavier.trans_le (below other))
      · rcases (below other).lt_or_eq with lighter | equal'
        · exact .inl (same ▸ equal ▸ lighter)
        · exact .inr ⟨equal'.symm.trans (equal.trans same), smaller⟩
    by_cases long : limit ≤ (front tie (keep tie limit left ⊔ right) key).encard
    · rw [keep_of_le long,
        keep_of_le (long.trans (Set.encard_le_encard included))]
    have short := not_le.mp long
    have allFront : front tie (left ⊔ right) key ⊆
        front tie (keep tie limit left ⊔ right) key := by
      intro other ahead
      by_cases changed :
          (keep tie limit left ⊔ right) other = (left ⊔ right) other
      · rcases ahead with heavier | ⟨equal, smaller⟩
        · exact .inl (same ▸ changed ▸ heavier)
        · exact .inr ⟨changed.trans (equal.trans same.symm), smaller⟩
      · exact (long (limit_le_front_of_lost leftFinite same ahead changed)).elim
    rw [keep_of_lt short,
      keep_of_lt ((Set.encard_le_encard allFront).trans_lt short), same]
  · -- The key itself was cut, so it stays cut on both sides.
    obtain ⟨long, lighter⟩ := cut_of_sup_ne same
    have present : left key ≠ ⊥ := ne_bot_of_gt lighter
    have cutJoin : limit ≤
        (front tie (keep tie limit left ⊔ right) key).encard :=
      limit_le_front_of_cut leftFinite present long
        (fun _ => le_sup_left) (by simp [lighter.le, keep_le])
    have cutWhole : limit ≤ (front tie (left ⊔ right) key).encard :=
      limit_le_front_of_cut leftFinite present long
        (fun _ => keep_le.trans le_sup_left) (by simp [lighter.le])
    rw [keep_of_le cutJoin, keep_of_le cutWhole]

omit [IsStrictTotalOrder κ tie] in
/-- A kept key stays kept if all that grows stays lighter than it. -/
theorem keep_sup_of_lt
    (lighter : ∀ other, right other ≤ left other ∨ right other < left key)
    (kept : keep tie limit left key = left key) :
    keep tie limit (left ⊔ right) key = left key := by
  have same : (left ⊔ right) key = left key := by
    rcases lighter key with below | below
    · exact sup_eq_left.mpr below
    · exact sup_eq_left.mpr below.le
  have included : TopK.front tie (left ⊔ right) key ⊆
      TopK.front tie left key := by
    intro other ahead
    have ahead : Ahead tie (left ⊔ right) other key := ahead
    unfold Ahead at ahead
    rw [same, Pi.sup_apply] at ahead
    rcases lighter other with below | small
    · rw [sup_eq_left.mpr below] at ahead
      exact ahead
    · rcases ahead with heavier | ⟨equal, before⟩
      · exact .inl ((lt_sup_iff.mp heavier).resolve_right small.not_gt)
      · refine .inr ⟨?_, before⟩
        rcases le_total (right other) (left other) with below | above
        · rwa [sup_eq_left.mpr below] at equal
        · rw [sup_eq_right.mpr above] at equal
          exact (small.ne equal).elim
  by_cases short : (TopK.front tie left key).encard < limit
  · rw [keep_of_lt ((Set.encard_le_encard included).trans_lt short), same]
  · rw [keep_of_le (not_lt.mp short)] at kept
    rw [← kept]
    exact le_bot_iff.mp (keep_le.trans (same.trans kept.symm).le)

theorem keep_keep (finite : FinitelyMany weight) :
    keep tie limit (keep tie limit weight) = keep tie limit weight := by
  have absorbed : keep tie limit (keep tie limit weight ⊔ ⊥) =
      keep tie limit (weight ⊔ ⊥) := keep_sup_keep finite
  simpa using absorbed

/-- A join with lighter keys is cut back to what there was, if there was no
room for another key. -/
theorem keep_sup_eq_left_iff (leftFinite : FinitelyMany left)
    (rightFinite : FinitelyMany right)
    (few : {key | left key ≠ ⊥}.encard ≤ limit) :
    keep tie limit (left ⊔ right) = left ↔
      (∀ key, left key ≠ ⊥ → right key ≤ left key) ∧
        ∀ key, left key = ⊥ → right key ≠ ⊥ →
          {other | left other ≠ ⊥}.encard = limit ∧
            ∀ other, left other ≠ ⊥ →
              right key < left other ∨ left other = right key ∧ tie other key := by
  constructor
  · intro same
    have lighter : ∀ key, left key ≠ ⊥ → right key ≤ left key := by
      intro key present
      have kept : keep tie limit (left ⊔ right) key ≠ ⊥ := by rwa [same]
      have weight : keep tie limit (left ⊔ right) key = (left ⊔ right) key :=
        keep_of_lt (not_le.mp fun long => kept (keep_of_le long))
      rw [same] at weight
      exact sup_eq_left.mp weight.symm
    refine ⟨lighter, ?_⟩
    intro key absent new
    have present : (left ⊔ right) key ≠ ⊥ := by simp [new]
    have long : limit ≤ (TopK.front tie (left ⊔ right) key).encard := by
      by_contra short
      have weight := keep_of_lt (not_le.mp short)
      rw [same, absent] at weight
      exact present weight.symm
    -- What is kept in front of the new key was there before.
    let kept := {other ∈ TopK.front tie (left ⊔ right) key |
      (TopK.front tie (left ⊔ right) other).encard < limit}
    have keptLong : (limit : ℕ∞) ≤ kept.encard :=
      limit_le_kept_front (leftFinite.sup rightFinite) present long
    have included : kept ⊆ {other | left other ≠ ⊥} := by
      rintro other ⟨ahead, short⟩ isAbsent
      have weight := keep_of_lt short
      rw [same, isAbsent] at weight
      rcases ahead with heavier | ⟨equal, -⟩
      · rw [← weight] at heavier
        exact not_lt_bot heavier
      · exact present (equal.symm.trans weight.symm)
    have all : kept = {other | left other ≠ ⊥} :=
      (leftFinite.subset included).eq_of_subset_of_encard_le included
        (few.trans keptLong)
    refine ⟨le_antisymm few (keptLong.trans (Set.encard_le_encard included)), ?_⟩
    intro other isPresent
    have isKept : other ∈ kept := all ▸ isPresent
    have ahead : Ahead tie (left ⊔ right) other key := isKept.1
    unfold Ahead at ahead
    rwa [Pi.sup_apply, Pi.sup_apply, absent, bot_sup_eq,
      sup_eq_left.mpr (lighter other isPresent)] at ahead
  · rintro ⟨lighter, outranked⟩
    funext key
    by_cases present : left key = ⊥
    · by_cases new : right key = ⊥
      · rw [present]
        exact le_bot_iff.mp (keep_le.trans (by simp [present, new]))
      · obtain ⟨full, ahead⟩ := outranked key present new
        rw [present]
        refine keep_of_le (full ▸ Set.encard_le_encard ?_)
        intro other isPresent
        change Ahead tie _ other key
        unfold Ahead
        rw [Pi.sup_apply, Pi.sup_apply, present, bot_sup_eq,
          sup_eq_left.mpr (lighter other isPresent)]
        exact ahead other isPresent
    · have weight : (left ⊔ right) key = left key :=
        sup_eq_left.mpr (lighter key present)
      have included : TopK.front tie (left ⊔ right) key ⊆
          {other | left other ≠ ⊥} \ {key} := by
        intro other ahead
        refine ⟨?_, fun isKey => Ahead.irrefl (isKey ▸ ahead)⟩
        intro absent
        have new : right other ≠ ⊥ := by
          intro isAbsent
          have nothing : (left ⊔ right) other = ⊥ := by simp [absent, isAbsent]
          rcases ahead with heavier | ⟨equal, -⟩
          · rw [nothing] at heavier
            exact not_lt_bot heavier
          · exact present (weight ▸ equal ▸ nothing)
        have behind : Ahead tie (left ⊔ right) key other := by
          unfold Ahead
          rw [weight, Pi.sup_apply, absent, bot_sup_eq]
          exact (outranked other absent new).2 key present
        exact Ahead.irrefl (Ahead.trans ahead behind)
      have fewer : ({other | left other ≠ ⊥} \ {key}).encard <
          {other | left other ≠ ⊥}.encard :=
        (leftFinite.subset Set.sdiff_subset).encard_lt_encard
          (Set.sdiff_singleton_ssubset.mpr present)
      rw [keep_of_lt, weight]
      exact (Set.encard_le_encard included).trans_lt (fewer.trans_le few)

/-- In a list of the present keys, front first, the front of a key is what is
listed before it. -/
private theorem front_getElem {keys : List κ}
    (sorted : keys.Pairwise (Ahead tie weight))
    (complete : ∀ key, key ∈ keys ↔ weight key ≠ ⊥)
    {position : ℕ} (inside : position < keys.length) :
    front tie weight keys[position] = {key | key ∈ keys.take position} := by
  have before := List.pairwise_iff_getElem.mp sorted
  ext other
  constructor
  · intro ahead
    have listed := (complete keys[position]).mp (List.getElem_mem inside)
    have present : weight other ≠ ⊥ := by
      rcases ahead with heavier | ⟨equal, -⟩
      · exact ne_bot_of_gt heavier
      · exact equal ▸ listed
    obtain ⟨index, indexInside, rfl⟩ :=
      List.mem_iff_getElem.mp ((complete other).mpr present)
    refine List.mem_take_iff_getElem.mpr ⟨index, ?_, rfl⟩
    by_contra late
    have atLeast : position ≤ index := by omega
    rcases atLeast.eq_or_lt with rfl | less
    · exact Ahead.irrefl ahead
    · exact Ahead.irrefl (ahead.trans (before _ _ inside indexInside less))
  · intro member
    obtain ⟨index, indexInside, rfl⟩ := List.mem_take_iff_getElem.mp member
    exact before _ _ (by omega) inside (by omega)

/-- Sorting finds the keys that are kept. -/
theorem mem_take_iff {keys : List κ}
    (sorted : keys.Pairwise (Ahead tie weight))
    (complete : ∀ key, key ∈ keys ↔ weight key ≠ ⊥)
    (listed : key ∈ keys) :
    key ∈ keys.take limit ↔ (front tie weight key).encard < limit := by
  classical
  have distinct : keys.Nodup := by
    refine sorted.imp ?_
    rintro first second ahead rfl
    exact Ahead.irrefl ahead
  obtain ⟨position, inside, rfl⟩ := List.mem_iff_getElem.mp listed
  have count : (front tie weight keys[position]).encard = position := by
    rw [front_getElem sorted complete inside]
    have asFinset : {key | key ∈ keys.take position} =
        ((keys.take position).toFinset : Set κ) := by
      ext other
      simp
    rw [asFinset, Set.encard_coe_eq_coe_finsetCard,
      List.toFinset_card_of_nodup (distinct.sublist (List.take_sublist _ _))]
    simp [inside.le]
  rw [count, Nat.cast_lt, List.mem_take_iff_getElem]
  constructor
  · rintro ⟨index, indexInside, equal⟩
    have := (distinct.getElem_inj_iff).mp equal
    omega
  · intro less
    exact ⟨position, by omega, rfl⟩

end Order

variable (tie) (limit) (γ) in
/-- Assignments that are already cut: at most `limit` keys are present. -/
structure Kept where
  weight : κ → WithBot γ
  finite : FinitelyMany weight
  kept : keep tie limit weight = weight

namespace Kept

@[ext] theorem ext {first second : Kept γ tie limit}
    (same : first.weight = second.weight) : first = second := by
  cases first
  cases second
  cases same
  rfl

variable [IsStrictTotalOrder κ tie]

/-- Cut an assignment down. -/
noncomputable def of (weight : κ → WithBot γ) (finite : FinitelyMany weight) :
    Kept γ tie limit :=
  { weight := keep tie limit weight
    finite := finite.keep
    kept := keep_keep finite }

noncomputable instance : Max (Kept γ tie limit) :=
  ⟨fun first second =>
    of (first.weight ⊔ second.weight) (first.finite.sup second.finite)⟩

theorem weight_sup (first second : Kept γ tie limit) :
    (first ⊔ second).weight =
      keep tie limit (first.weight ⊔ second.weight) :=
  rfl

/-- Join, then cut, is a join. -/
noncomputable instance : SemilatticeSup (Kept γ tie limit) :=
  SemilatticeSup.mk'
    (fun first second => by
      ext1
      rw [weight_sup, weight_sup, sup_comm])
    (fun first second third => by
      ext1
      rw [weight_sup, weight_sup, weight_sup, weight_sup,
        keep_sup_keep (first.finite.sup second.finite),
        sup_comm first.weight (keep _ _ _),
        keep_sup_keep (second.finite.sup third.finite),
        sup_comm _ first.weight, sup_assoc])
    (fun weights => by
      ext1
      rw [weight_sup, sup_idem, weights.kept])

theorem of_sup_of (leftFinite : FinitelyMany left)
    (rightFinite : FinitelyMany right) :
    (of left leftFinite ⊔ of right rightFinite : Kept γ tie limit) =
      of (left ⊔ right) (leftFinite.sup rightFinite) := by
  ext1
  change keep tie limit (keep tie limit left ⊔ keep tie limit right) =
    keep tie limit (left ⊔ right)
  rw [keep_sup_keep leftFinite, sup_comm, keep_sup_keep rightFinite, sup_comm]

/-- Without any key an assignment is below all others. -/
theorem of_le {weight : κ → WithBot γ} (finite : FinitelyMany weight)
    (absent : ∀ key, weight key = ⊥) (weights : Kept γ tie limit) :
    of weight finite ≤ weights := by
  rw [← sup_eq_right]
  ext1
  have none : keep tie limit weight = ⊥ := by
    funext key
    exact le_bot_iff.mp (keep_le.trans (absent key).le)
  rw [weight_sup]
  change keep tie limit (keep tie limit weight ⊔ weights.weight) = _
  rw [none, bot_sup_eq, weights.kept]

end Kept

end FfmucSalt.TopK
