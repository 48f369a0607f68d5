import FfmucSalt.Foundation.TopK
import FfmucSalt.MeetReserve.Record
import Mathlib.Data.Fintype.Order
import Mathlib.Data.Int.ConditionallyCompleteOrder
import Mathlib.Order.WithBot

/-!
# The merge order of records

`prune` keeps the heaviest hashes, in the sense of `TopK`, with the generation
as the weight.  So a record, without its room name, its `updated` stamp and
the roles of its secrets, is a point of a join-semilattice, and `merge` is the
join of points.
-/

namespace FfmucSalt.MeetReserve

open TopK

/-- The tiebreak of `prune`. -/
def HashBefore (first second : Hash) : Prop := compare first second = .lt

instance : DecidableRel HashBefore := fun _ _ => inferInstanceAs (Decidable (_ = _))

instance : IsStrictTotalOrder Hash HashBefore where
  irrefl hash before := by simp [HashBefore] at before
  trans _ _ _ first second := Std.TransCmp.lt_trans first second
  trichotomous first second notBefore notAfter := by
    cases order : compare first second with
    | lt => exact (notBefore order).elim
    | eq => exact Std.LawfulEqCmp.eq_of_compare order
    | gt => exact (notAfter (Std.OrientedCmp.lt_of_gt order)).elim

namespace Record

/-- The generation of a hash as a weight. -/
def genWeight (secrets : Secrets) (hash : Hash) : WithBot ℕ :=
  secrets[hash]?.elim ⊥ fun entry => WithBot.some entry.gen.toNat

theorem genWeight_ne_bot {secrets : Secrets} {hash : Hash} :
    genWeight secrets hash ≠ ⊥ ↔ ∃ entry, secrets[hash]? = some entry := by
  unfold genWeight
  cases secrets[hash]? <;> simp

theorem genWeight_eq_bot {secrets : Secrets} {hash : Hash} :
    genWeight secrets hash = ⊥ ↔ secrets[hash]? = none := by
  unfold genWeight
  cases secrets[hash]? <;> simp

theorem genWeight_of_lookup {secrets : Secrets} {hash : Hash}
    {entry : SecretEntry} (found : secrets[hash]? = some entry) :
    genWeight secrets hash = WithBot.some entry.gen.toNat := by
  rw [genWeight, found, Option.elim_some]

theorem encard_genWeight (secrets : Secrets) :
    {hash | genWeight secrets hash ≠ ⊥}.encard = secrets.size := by
  have stored : {hash | genWeight secrets hash ≠ ⊥} =
      {hash | ∃ entry, secrets[hash]? = some entry ∧ true} := by
    ext hash
    simpa using genWeight_ne_bot
  rw [stored, FiniteMap.encard_lookup, List.countP_true, FiniteMap.values,
    List.length_map, Std.ExtTreeMap.length_toList]

theorem finitelyMany_genWeight (secrets : Secrets) :
    FinitelyMany (genWeight secrets) :=
  Set.finite_of_encard_eq_coe (encard_genWeight secrets)

/-! ## Pruning keeps the heaviest hashes -/

private theorem pruneOrder_lt {secrets : Secrets} {first second : Hash}
    (firstStored : first ∈ secrets.keys) (secondStored : second ∈ secrets.keys)
    (ordered : pruneOrder secrets first second = .lt) :
    Ahead HashBefore (genWeight secrets) first second := by
  obtain ⟨firstEntry, firstFound⟩ := FiniteMap.mem_keys.mp firstStored
  obtain ⟨secondEntry, secondFound⟩ := FiniteMap.mem_keys.mp secondStored
  have weights : compare secondEntry.gen firstEntry.gen = .lt ∨
      compare secondEntry.gen firstEntry.gen = .eq ∧
        compare first second = .lt := by
    simpa [pruneOrder, compareLex, genOf, firstFound, secondFound,
      Ordering.then_eq_lt] using ordered
  unfold Ahead genWeight HashBefore
  simp only [firstFound, secondFound, Option.elim_some, WithBot.coe_lt_coe,
    WithBot.coe_inj]
  rcases weights with lighter | ⟨equal, before⟩
  · exact .inl (UInt64.lt_iff_toNat_lt.mp (Std.compare_eq_lt.mp lighter))
  · exact .inr ⟨congrArg UInt64.toNat (Std.LawfulEqCmp.eq_of_compare equal).symm,
      before⟩

/-- The hashes in the order in which `prune` counts them. -/
private def ranked (secrets : Secrets) : List Hash :=
  sortFunc (pruneOrder secrets) secrets.keys

private instance (secrets : Secrets) : Std.TransCmp (pruneOrder secrets) :=
  have : Std.TransCmp fun first second =>
      compare (genOf secrets second) (genOf secrets first) :=
    inferInstanceAs (Std.TransCmp fun first second =>
      compareOn (genOf secrets) second first)
  inferInstanceAs (Std.TransCmp (compareLex _ _))

private theorem mem_ranked {secrets : Secrets} {hash : Hash} :
    hash ∈ ranked secrets ↔ genWeight secrets hash ≠ ⊥ := by
  rw [ranked, mem_sortFunc, FiniteMap.mem_keys, genWeight_ne_bot]

private theorem ranked_pairwise (secrets : Secrets) :
    (ranked secrets).Pairwise (Ahead HashBefore (genWeight secrets)) := by
  have distinct : secrets.keys.Pairwise fun first second =>
      pruneOrder secrets first second ≠ .eq := by
    refine (Std.ExtTreeMap.nodup_keys (t := secrets)).imp ?_
    intro first second different equal
    exact different (Std.LawfulEqCmp.eq_of_compare
      (Ordering.then_eq_eq.mp equal).2)
  refine (pairwise_sortFunc distinct).imp_of_mem ?_
  intro first second firstListed secondListed ordered
  exact pruneOrder_lt (mem_sortFunc.mp firstListed)
    (mem_sortFunc.mp secondListed) ordered

private theorem mem_drop_ranked {secrets : Secrets} {hash : Hash}
    (listed : hash ∈ ranked secrets) :
    hash ∈ (ranked secrets).drop maxSecrets ↔
      ¬ (front HashBefore (genWeight secrets) hash).encard < maxSecrets := by
  rw [← mem_take_iff (ranked_pairwise secrets) (fun _ => mem_ranked) listed]
  have distinct : (ranked secrets).Nodup := by
    refine (ranked_pairwise secrets).imp ?_
    rintro first second ahead rfl
    exact Ahead.irrefl ahead
  rw [← List.take_append_drop maxSecrets (ranked secrets)] at listed distinct
  constructor
  · intro dropped taken
    exact List.disjoint_of_nodup_append distinct taken dropped
  · intro notTaken
    exact (List.mem_append.mp listed).resolve_left notTaken

/-- The hashes that `prune` keeps. -/
theorem lookup_prune (secrets : Secrets) (hash : Hash)
    [Decidable ((front HashBefore (genWeight secrets) hash).encard <
      maxSecrets)] :
    (prune secrets).1[hash]? =
      if (front HashBefore (genWeight secrets) hash).encard < maxSecrets then
        secrets[hash]?
      else none := by
  have dropped : (((ranked secrets).drop maxSecrets).foldl
      (fun (kept : Secrets) hash => kept.erase hash) secrets)[hash]? =
        if (front HashBefore (genWeight secrets) hash).encard < maxSecrets then
          secrets[hash]?
        else none := by
    rw [FiniteMap.lookup_foldl_erase]
    by_cases listed : hash ∈ ranked secrets
    · simp only [mem_drop_ranked listed, ite_not]
    · have absent : secrets[hash]? = none := by
        rw [mem_ranked, genWeight_ne_bot, not_exists] at listed
        exact Option.eq_none_iff_forall_ne_some.mpr listed
      simp [absent]
  rw [← dropped]
  unfold prune
  split
  · rename_i few
    have none : (ranked secrets).drop maxSecrets = [] := by
      rw [List.drop_eq_nil_iff, ranked, length_sortFunc,
        Std.ExtTreeMap.length_keys]
      exact few
    rw [none, List.foldl_nil]
  · rfl

/-- A hash stays if at most one other stands in front of it. -/
theorem lookup_prune_of_front {secrets : Secrets} {hash other : Hash}
    (few : front HashBefore (genWeight secrets) hash ⊆ {other}) :
    (prune secrets).1[hash]? = secrets[hash]? := by
  classical
  have atMostOne := Set.encard_le_encard few
  rw [Set.encard_singleton] at atMostOne
  rw [lookup_prune, if_pos (atMostOne.trans_lt (by decide))]

theorem genWeight_prune (secrets : Secrets) :
    genWeight (prune secrets).1 =
      keep HashBefore maxSecrets (genWeight secrets) := by
  classical
  funext hash
  unfold keep
  conv_lhs => rw [genWeight, lookup_prune]
  split
  · rfl
  · rfl

/-- At most `maxSecrets` secrets, as in every stored record. -/
def Pruned (secrets : Secrets) : Prop := secrets.size ≤ maxSecrets

theorem prune_of_pruned {secrets : Secrets} (pruned : Pruned secrets) :
    prune secrets = (secrets, false) :=
  if_pos pruned

theorem pruned_prune (secrets : Secrets) : Pruned (prune secrets).1 := by
  unfold prune
  split
  · assumption
  · let rest := ((ranked secrets).drop maxSecrets).foldl
      (fun (kept : Secrets) hash => kept.erase hash) secrets
    have included : rest.keys ⊆ (ranked secrets).take maxSecrets := by
      intro hash member
      obtain ⟨entry, found⟩ := FiniteMap.mem_keys.mp member
      rw [FiniteMap.lookup_foldl_erase] at found
      split at found
      · cases found
      · rename_i notDropped
        have listed : hash ∈ ranked secrets :=
          mem_ranked.mpr (genWeight_ne_bot.mpr ⟨entry, found⟩)
        rw [← List.take_append_drop maxSecrets (ranked secrets)] at listed
        exact (List.mem_append.mp listed).resolve_right notDropped
    have few := (Std.ExtTreeMap.nodup_keys.subperm included).length_le
    change rest.size ≤ maxSecrets
    rw [Std.ExtTreeMap.length_keys, List.length_take] at few
    omega

theorem keep_genWeight {secrets : Secrets} (pruned : Pruned secrets) :
    keep HashBefore maxSecrets (genWeight secrets) = genWeight secrets := by
  rw [← genWeight_prune, prune_of_pruned pruned]

/-! ## Records as points of a semilattice -/

/-- A time of which the earliest counts; 0 stands for none. -/
def earliest (time : Int) : (WithTop ℤ)ᵒᵈ :=
  OrderDual.toDual (if time = 0 then ⊤ else (time : WithTop ℤ))

/-- Creation, expiry, generation, revocation, format and the generations of
the newest secrets: everything of a record that a merge decides. -/
abbrev Point : Type :=
  (WithTop ℤ)ᵒᵈ × ℤ × ℕ × (WithTop ℤ)ᵒᵈ × Bool × Kept ℕ HashBefore maxSecrets

noncomputable def point (record : Record) : Point :=
  (earliest record.created, record.expires, record.gen.toNat,
    earliest record.revoked, record.legacy,
    .of (genWeight record.secrets) (finitelyMany_genWeight record.secrets))

private theorem earliest_sup (first second : Int) :
    earliest (if second ≠ 0 ∧ (first = 0 ∨ second < first) then second
      else first) = earliest first ⊔ earliest second := by
  unfold earliest
  rw [← toDual_inf]
  by_cases secondUnset : second = 0
  · simp [secondUnset]
  by_cases firstUnset : first = 0
  · simp [firstUnset, secondUnset]
  by_cases earlier : second < first
  · have : (second : WithTop ℤ) ≤ first := by exact_mod_cast earlier.le
    simp [firstUnset, secondUnset, earlier, this]
  · have : (first : WithTop ℤ) ≤ second := by exact_mod_cast not_lt.mp earlier
    simp [firstUnset, secondUnset, earlier, this]

theorem genWeight_mergeSecrets (stored other : Secrets) :
    genWeight (mergeSecrets stored other).1 =
      genWeight stored ⊔ genWeight other := by
  funext hash
  simp only [genWeight, lookup_mergeSecrets, Pi.sup_apply]
  cases stored[hash]? with
  | none => cases other[hash]? <;> simp [unionEntry]
  | some entry =>
      cases other[hash]? with
      | none => simp [unionEntry]
      | some newer =>
          simp only [unionEntry, Option.elim_some]
          split
          · rename_i less
            have := UInt64.lt_iff_toNat_lt.mp less
            exact (sup_eq_right.mpr (WithBot.coe_le_coe.mpr this.le)).symm
          · rename_i notLess
            have := UInt64.lt_iff_toNat_lt.not.mp notLess
            exact (sup_eq_left.mpr
              (WithBot.coe_le_coe.mpr (not_lt.mp this))).symm

theorem genWeight_merged (record other : Record) :
    genWeight (record.merged other).secrets =
      keep HashBefore maxSecrets
        (genWeight record.secrets ⊔ genWeight other.secrets) := by
  rw [merged_secrets, genWeight_prune, genWeight_mergeSecrets]

theorem current_iff_genWeight {record : Record} {hash : Hash} :
    record.current record.secrets[hash]? ↔
      genWeight record.secrets hash = WithBot.some record.gen.toNat := by
  unfold current genWeight
  cases record.secrets[hash]? with
  | none => simp
  | some entry =>
      have : entry.gen = record.gen ↔ entry.gen.toNat = record.gen.toNat :=
        UInt64.toNat_inj.symm
      simp [this]

/-- Merging is joining. -/
theorem point_merged (record other : Record) :
    (record.merged other).point = record.point ⊔ other.point := by
  have gen : (record.merged other).gen.toNat =
      max record.gen.toNat other.gen.toNat := by
    rw [merged_gen]
    split
    · rename_i less
      exact (max_eq_right (UInt64.lt_iff_toNat_lt.mp less).le).symm
    · rename_i notLess
      exact (max_eq_left
        (not_lt.mp (UInt64.lt_iff_toNat_lt.not.mp notLess))).symm
  have secrets : (Kept.of (genWeight (record.merged other).secrets)
        (finitelyMany_genWeight _) : Kept ℕ HashBefore maxSecrets) =
      .of (genWeight record.secrets) (finitelyMany_genWeight _) ⊔
        .of (genWeight other.secrets) (finitelyMany_genWeight _) := by
    rw [Kept.of_sup_of]
    ext1
    change keep _ _ (genWeight (record.merged other).secrets) = keep _ _ _
    rw [genWeight_merged, keep_keep]
    exact (finitelyMany_genWeight _).sup (finitelyMany_genWeight _)
  unfold point
  rw [merged_created, merged_revoked, earliest_sup, earliest_sup,
    merged_expires, gen, merged_legacy, secrets]
  rfl

/-- Everything but the local change time. -/
def content (record : Record) : Record := { record with updated := 0 }

/-- `lower ≤ upper`: merging `lower` leaves `upper` unchanged. -/
def Below (lower upper : Record) : Prop :=
  (upper.merged lower).content = upper.content

instance (lower upper : Record) : Decidable (Below lower upper) :=
  inferInstanceAs (Decidable (_ = _))

/-- The same hash has the same role in both. -/
def RolesAgree (first second : Secrets) : Prop :=
  ∀ ⦃hash : Hash⦄ ⦃entry other : SecretEntry⦄, first[hash]? = some entry →
    second[hash]? = some other → entry.role = other.role

/-- The generations of the hashes determine them, given the roles. -/
theorem secrets_eq_of_genWeight_eq {first second : Secrets}
    (roles : RolesAgree first second)
    (weights : genWeight first = genWeight second) : first = second := by
  refine FiniteMap.ext_lookup fun hash => ?_
  have weight := congrFun weights hash
  unfold genWeight at weight
  cases firstFound : first[hash]? with
  | none =>
      rw [firstFound] at weight
      cases secondFound : second[hash]? with
      | none => rfl
      | some entry => simp [secondFound] at weight
  | some entry =>
      rw [firstFound] at weight
      cases secondFound : second[hash]? with
      | none => simp [secondFound] at weight
      | some other =>
          have sameGen : entry.gen = other.gen :=
            UInt64.toNat_inj.mp (by simpa [secondFound] using weight)
          have sameRole := roles firstFound secondFound
          cases entry
          cases other
          cases sameGen
          cases sameRole
          rfl

private theorem earliest_injective {first second : Int}
    (same : earliest first = earliest second) : first = second := by
  have same := OrderDual.toDual.injective same
  by_cases firstUnset : first = 0 <;> by_cases secondUnset : second = 0
  · rw [firstUnset, secondUnset]
  · simp [firstUnset, secondUnset] at same
  · simp [firstUnset, secondUnset] at same
  · simpa [firstUnset, secondUnset] using same

/-- A point determines the record, given the roles. -/
theorem content_eq_of_point_eq {first second : Record}
    (room : first.room = second.room)
    (roles : RolesAgree first.secrets second.secrets)
    (firstPruned : Pruned first.secrets)
    (secondPruned : Pruned second.secrets)
    (points : first.point = second.point) :
    first.content = second.content := by
  obtain ⟨created, expires, gen, revoked, legacy, secrets⟩ :
      earliest first.created = earliest second.created ∧
      first.expires = second.expires ∧
      first.gen.toNat = second.gen.toNat ∧
      earliest first.revoked = earliest second.revoked ∧
      first.legacy = second.legacy ∧
      (Kept.of (genWeight first.secrets) (finitelyMany_genWeight _) :
        Kept ℕ HashBefore maxSecrets) =
          .of (genWeight second.secrets) (finitelyMany_genWeight _) := by
    simpa [point] using points
  have weights : genWeight first.secrets = genWeight second.secrets := by
    rw [← keep_genWeight firstPruned, ← keep_genWeight secondPruned]
    exact congrArg Kept.weight secrets
  have sameSecrets := secrets_eq_of_genWeight_eq roles weights
  have sameGen := UInt64.toNat_inj.mp gen
  have sameCreated := earliest_injective created
  have sameRevoked := earliest_injective revoked
  cases first
  cases second
  simp_all [content]

theorem gen_revoked_eq_of_point_eq {first second : Record}
    (points : first.point = second.point) :
    first.gen = second.gen ∧ first.revoked = second.revoked := by
  have gens : first.gen.toNat = second.gen.toNat :=
    congrArg (fun point : Point => point.2.2.1) points
  have revoked : earliest first.revoked = earliest second.revoked :=
    congrArg (fun point : Point => point.2.2.2.1) points
  exact ⟨UInt64.toNat_inj.mp gens, earliest_injective revoked⟩

/-- A hash of a merged record has the role that one of the two gave it. -/
theorem lookup_merged {record other : Record} {hash : Hash}
    {entry : SecretEntry}
    (found : (record.merged other).secrets[hash]? = some entry) :
    unionEntry record.secrets[hash]? other.secrets[hash]? = some entry := by
  classical
  rw [merged_secrets, lookup_prune, lookup_mergeSecrets] at found
  split at found
  · exact found
  · cases found

theorem role_merged {record other : Record} {hash : Hash}
    {entry : SecretEntry}
    (found : (record.merged other).secrets[hash]? = some entry) :
    ∃ source, (record.secrets[hash]? = some source ∨
      other.secrets[hash]? = some source) ∧ source.role = entry.role := by
  have united := lookup_merged found
  cases stored : record.secrets[hash]? with
  | none =>
      cases added : other.secrets[hash]? with
      | none => simp [stored, added, unionEntry] at united
      | some source =>
          simp only [stored, added, unionEntry, Option.some.injEq] at united
          exact ⟨source, .inr rfl, congrArg _ united⟩
  | some source =>
      refine ⟨source, .inl rfl, ?_⟩
      cases added : other.secrets[hash]? with
      | none =>
          simp only [stored, added, unionEntry, Option.some.injEq] at united
          exact congrArg _ united
      | some newer =>
          simp only [stored, added, unionEntry] at united
          split at united <;> cases united <;> rfl

/-- A merge keeps the roles that the record knows. -/
theorem rolesAgree_merged (record other : Record) :
    RolesAgree (record.merged other).secrets record.secrets := by
  intro hash entry stored found known
  have united := lookup_merged found
  rw [known] at united
  cases added : other.secrets[hash]? with
  | none => simp_all [unionEntry]
  | some newer =>
      simp only [added, unionEntry] at united
      split at united <;> cases united <;> rfl

/-- The merge order is the order of points. -/
theorem below_iff {lower upper : Record} (pruned : Pruned upper.secrets) :
    Below lower upper ↔ lower.point ≤ upper.point := by
  have points := point_merged upper lower
  constructor
  · intro below
    have : (upper.merged lower).content.point = upper.content.point :=
      congrArg point below
    rw [← sup_eq_left, ← points]
    exact this
  · intro lessEqual
    exact content_eq_of_point_eq rfl (rolesAgree_merged upper lower)
      (pruned_prune _) pruned (points.trans (sup_eq_left.mpr lessEqual))

end Record

end FfmucSalt.MeetReserve
