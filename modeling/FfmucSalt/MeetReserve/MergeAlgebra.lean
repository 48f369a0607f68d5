import FfmucSalt.MeetReserve.RecordOrder

/-!
# Merging is a join

Up to the local change time, `merge` is commutative, associative and
idempotent, so copies of a room can be folded in any order and any number of
times.  Roles have to agree: a merge keeps the role it already knows.
-/

namespace FfmucSalt.MeetReserve

namespace Record

/-- Every secret has the role that one of the records gives its hash. -/
def RolesFrom (records : List Record) (secrets : Secrets) : Prop :=
  ∀ (hash : Hash) (entry : SecretEntry), secrets[hash]? = some entry →
    ∃ record ∈ records, ∃ source : SecretEntry,
      record.secrets[hash]? = some source ∧ source.role = entry.role

variable {records more : List Record} {first second third : Record}

theorem RolesFrom.self (member : first ∈ records) :
    RolesFrom records first.secrets :=
  fun _ entry found => ⟨first, member, entry, found, rfl⟩

theorem RolesFrom.empty (room : RoomName) :
    RolesFrom records (Record.empty room).secrets := by
  intro hash entry found
  simp [Record.empty] at found

theorem RolesFrom.merged (left : RolesFrom records first.secrets)
    (right : RolesFrom records second.secrets) :
    RolesFrom records (first.merged second).secrets := by
  intro hash entry found
  obtain ⟨source, stored | added, sameRole⟩ := role_merged found
  · rw [← sameRole]
    exact left hash source stored
  · rw [← sameRole]
    exact right hash source added

theorem RolesFrom.foldl (start : RolesFrom records first.secrets)
    (included : more ⊆ records) :
    RolesFrom records (more.foldl Record.merged first).secrets := by
  induction more generalizing first with
  | nil => exact start
  | cons head tail induction =>
      obtain ⟨headMember, tailIncluded⟩ := List.cons_subset.mp included
      exact induction (start.merged (.self headMember)) tailIncluded

/-- Any two of the records agree on the roles of their secrets. -/
def Agree (records : List Record) : Prop :=
  ∀ first ∈ records, ∀ second ∈ records,
    RolesAgree first.secrets second.secrets

theorem Agree.rolesAgree (agree : Agree records) {left right : Secrets}
    (leftFrom : RolesFrom records left) (rightFrom : RolesFrom records right) :
    RolesAgree left right := by
  intro hash entry other leftFound rightFound
  obtain ⟨first, firstMember, source, found, sameRole⟩ :=
    leftFrom hash entry leftFound
  obtain ⟨second, secondMember, target, known, otherRole⟩ :=
    rightFrom hash other rightFound
  rw [← sameRole, ← otherRole]
  exact agree first firstMember second secondMember found known

/-! ## Folding copies -/

/-- Points grow with every copy that is merged. -/
theorem point_foldl_merged (results : List Record) (start : Record) :
    (results.foldl merged start).point =
      results.foldl (fun point result => point ⊔ result.point) start.point := by
  induction results generalizing start with
  | nil => rfl
  | cons result results induction =>
      rw [List.foldl_cons, List.foldl_cons, induction, point_merged]

/-- Folding copies gives their least upper bound. -/
theorem point_foldl_merged_le {results : List Record} {start : Record}
    {bound : Point} :
    (results.foldl merged start).point ≤ bound ↔
      start.point ≤ bound ∧ ∀ result ∈ results, result.point ≤ bound := by
  induction results generalizing start with
  | nil => simp
  | cons result results induction =>
      rw [List.foldl_cons, induction, point_merged, sup_le_iff,
        List.forall_mem_cons, and_assoc]

theorem room_foldl_merged (results : List Record) (start : Record) :
    (results.foldl merged start).room = start.room := by
  induction results generalizing start with
  | nil => rfl
  | cons result results induction => rw [List.foldl_cons, induction, merged_room]

theorem updated_foldl_merged (results : List Record) (start : Record) :
    (results.foldl merged start).updated = start.updated := by
  induction results generalizing start with
  | nil => rfl
  | cons result results induction =>
      rw [List.foldl_cons, induction, merged_updated]

theorem pruned_foldl_merged {results : List Record} {start : Record}
    (pruned : Pruned start.secrets) :
    Pruned (results.foldl merged start).secrets := by
  induction results generalizing start with
  | nil => exact pruned
  | cons result results induction => exact induction (pruned_prune _)

theorem pruned_empty (room : RoomName) : Pruned (empty room).secrets := by
  simp [Pruned, empty]

/-! ## The laws of a join -/

theorem eq_of_content_eq (contents : first.content = second.content)
    (updated : first.updated = second.updated) : first = second := by
  cases first
  cases second
  simp_all [content]

theorem merged_comm (room : first.room = second.room)
    (agree : RolesAgree first.secrets second.secrets) :
    (first.merged second).content = (second.merged first).content := by
  have both : Agree [first, second] := by
    intro left leftMember right rightMember hash entry other found known
    simp only [List.mem_cons, List.not_mem_nil, or_false] at leftMember
    simp only [List.mem_cons, List.not_mem_nil, or_false] at rightMember
    rcases leftMember with rfl | rfl
    · rcases rightMember with rfl | rfl
      · rw [found] at known
        cases known
        rfl
      · exact agree found known
    · rcases rightMember with rfl | rfl
      · exact (agree known found).symm
      · rw [found] at known
        cases known
        rfl
  have firstFrom : RolesFrom [first, second] first.secrets := .self (by simp)
  have secondFrom : RolesFrom [first, second] second.secrets := .self (by simp)
  refine content_eq_of_point_eq room ?_ (pruned_prune _) (pruned_prune _) ?_
  · exact both.rolesAgree (firstFrom.merged secondFrom)
      (secondFrom.merged firstFrom)
  · rw [point_merged, point_merged, sup_comm]

theorem merged_assoc (agree : Agree [first, second, third]) :
    ((first.merged second).merged third).content =
      (first.merged (second.merged third)).content := by
  have firstFrom : RolesFrom [first, second, third] first.secrets :=
    .self (by simp)
  have secondFrom : RolesFrom [first, second, third] second.secrets :=
    .self (by simp)
  have thirdFrom : RolesFrom [first, second, third] third.secrets :=
    .self (by simp)
  refine content_eq_of_point_eq rfl ?_ (pruned_prune _) (pruned_prune _) ?_
  · exact agree.rolesAgree ((firstFrom.merged secondFrom).merged thirdFrom)
      (firstFrom.merged (secondFrom.merged thirdFrom))
  · simp only [point_merged, sup_assoc]

/-- A record with at most `maxSecrets` secrets absorbs itself, without a
change to report. -/
theorem merge_self (pruned : Pruned first.secrets) :
    first.merge first = (first, false) := by
  have union : mergeSecrets first.secrets first.secrets =
      (first.secrets, false) := by
    refine FiniteMap.foldl_keeps
      (motive := fun state : Secrets × Bool => state = (first.secrets, false))
      rfl ?_
    intro state hash entry found held
    subst held
    unfold mergeSecret
    rw [found]
    simp
  simp [merge, union, prune_of_pruned pruned]

/-- A later copy of a record only raises its expiry. -/
theorem merged_raised (pruned : Pruned first.secrets) {expires : Int}
    (later : first.expires < expires) :
    first.merged { first with expires } = { first with expires } := by
  have self : first.merged first = first := congrArg Prod.fst (merge_self pruned)
  calc first.merged { first with expires }
      = { first.merged first with
          expires := (first.merged { first with expires }).expires } := rfl
    _ = { first with expires } := by
        rw [self, merged_expires, max_eq_right later.le]

private theorem mergeSecrets_empty (secrets : Secrets) :
    (mergeSecrets ∅ secrets).1 = secrets := by
  refine FiniteMap.ext_lookup fun hash => ?_
  rw [lookup_mergeSecrets]
  simp only [Std.ExtTreeMap.getElem?_empty]
  cases secrets[hash]? <;> rfl

/-- Merging into a new record copies it. -/
theorem merged_empty (room : RoomName) (pruned : Pruned first.secrets) :
    (empty room).merged first =
      { first with room, expires := max 0 first.expires, updated := 0 } := by
  have created : ((empty room).merged first).created = first.created := by
    rw [merged_created]
    by_cases unset : first.created = 0 <;> simp [unset, empty]
  have expires : ((empty room).merged first).expires =
      max 0 first.expires := by
    rw [merged_expires]
    rfl
  have gen : ((empty room).merged first).gen = first.gen := by
    rw [merged_gen]
    split
    · rfl
    · rename_i notLess
      exact UInt64.le_antisymm (UInt64.le_iff_toNat_le.mpr (Nat.zero_le _))
        (UInt64.not_lt.mp notLess)
  have revoked : ((empty room).merged first).revoked = first.revoked := by
    rw [merged_revoked]
    by_cases unset : first.revoked = 0 <;> simp [unset, empty]
  have legacy : ((empty room).merged first).legacy = first.legacy := by
    rw [merged_legacy]
    rfl
  have secrets : ((empty room).merged first).secrets = first.secrets := by
    rw [merged_secrets, show (empty room).secrets = ∅ from rfl,
      mergeSecrets_empty, prune_of_pruned pruned]
  calc (empty room).merged first
      = { room
          created := ((empty room).merged first).created
          expires := ((empty room).merged first).expires
          gen := ((empty room).merged first).gen
          revoked := ((empty room).merged first).revoked
          legacy := ((empty room).merged first).legacy
          secrets := ((empty room).merged first).secrets
          updated := 0 } := rfl
    _ = { first with room, expires := max 0 first.expires, updated := 0 } := by
        rw [created, expires, gen, revoked, legacy, secrets]

/-- `merge` is a semilattice join up to the local change time, and folding
copies of a room into an empty record depends on which copies there are
only. -/
theorem merge_is_join :
    (∀ first second : Record, first.room = second.room →
      RolesAgree first.secrets second.secrets →
        (first.merged second).content = (second.merged first).content) ∧
    (∀ first second third : Record, Agree [first, second, third] →
      ((first.merged second).merged third).content =
        (first.merged (second.merged third)).content) ∧
    (∀ record : Record, record.secrets.size ≤ maxSecrets →
      record.merge record = (record, false)) ∧
    ∀ (room : RoomName) (records others : List Record), Agree records →
      (∀ record, record ∈ records ↔ record ∈ others) →
        records.foldl merged (Record.empty room) =
          others.foldl merged (Record.empty room) := by
  refine ⟨fun _ _ => merged_comm, fun _ _ _ => merged_assoc,
    fun _ => merge_self, ?_⟩
  intro room records others agree same
  have points : (records.foldl merged (Record.empty room)).point =
      (others.foldl merged (Record.empty room)).point := by
    refine eq_of_forall_ge_iff fun bound => ?_
    rw [point_foldl_merged_le, point_foldl_merged_le]
    simp only [same]
  have contents : (records.foldl merged (Record.empty room)).content =
      (others.foldl merged (Record.empty room)).content := by
    refine content_eq_of_point_eq ?_ ?_ (pruned_foldl_merged (pruned_empty room))
      (pruned_foldl_merged (pruned_empty room)) points
    · rw [room_foldl_merged, room_foldl_merged]
    · exact agree.rolesAgree (.foldl (.empty room) (List.Subset.refl _))
        (.foldl (.empty room) fun record => (same record).mpr)
  refine eq_of_content_eq contents ?_
  rw [updated_foldl_merged, updated_foldl_merged]

end Record

namespace Sample

/-- Host secrets of these generations. -/
def secretsOf (gens : List Nat) : Secrets :=
  gens.foldl (fun secrets gen =>
    secrets.insert [gen.toUInt8] { role := roleHost, gen := gen.toUInt64 }) ∅

/-- Three copies of a room: as reserved, rotated ten times, and deleted by a
signer that missed the last rotations. -/
def copies : List Record :=
  let reserved := { Record.empty (ascii "r-x") with
    created := 10, expires := 100, secrets := secretsOf [0] }
  [reserved,
    { reserved with gen := 10, secrets := secretsOf [3, 4, 5, 6, 7, 8, 9, 10] },
    { reserved with
      gen := 6, revoked := 70, legacy := true
      secrets := secretsOf [0, 1, 2, 3, 4, 5, 6] }]

private theorem copies_agree : Record.Agree copies := by
  have role : ∀ record ∈ copies, ∀ (hash : Hash) (entry : SecretEntry),
      record.secrets[hash]? = some entry → entry.role = roleHost := by
    intro record member hash entry found
    have hosts : ∀ record ∈ copies, ∀ entry ∈ record.secrets.values,
        entry.role = roleHost := by
      decide
    exact hosts record member entry (FiniteMap.mem_values.mpr ⟨hash, found⟩)
  intro first firstMember second secondMember hash entry other found known
  rw [role first firstMember hash entry found,
    role second secondMember hash other known]

/-- The copies can arrive in another order, and more than once, although each
order prunes other secrets on the way. -/
theorem copies_in_any_order :
    (copies.flatMap fun record => record.secrets.keys).eraseDups.length = 11 ∧
    (copies.foldl Record.merged (Record.empty (ascii "r-x"))).secrets.size =
      maxSecrets ∧
    copies.foldl Record.merged (Record.empty (ascii "r-x")) =
      (copies.reverse ++ copies).foldl Record.merged
        (Record.empty (ascii "r-x")) := by
  refine ⟨by decide, by decide, ?_⟩
  refine Record.merge_is_join.2.2.2 _ _ _ copies_agree ?_
  simp

end Sample

end FfmucSalt.MeetReserve
