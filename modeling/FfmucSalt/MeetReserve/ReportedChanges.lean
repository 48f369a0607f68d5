import FfmucSalt.MeetReserve.StoreInvariant

/-!
# Which changes a merge reports

A merge reports that it added a hash even if `prune` cuts that hash again in
the same call.  The record is then stamped and sent to all peers as it was.
-/

namespace FfmucSalt.MeetReserve

open TopK

namespace Record

/-- The other record knows nothing newer, but it has hashes that the record
does not store, and the `maxSecrets` hashes that it does store come before all
of these. -/
structure Wasted (record other : Record) : Prop where
  created : ¬ (other.created ≠ 0 ∧
    (record.created = 0 ∨ other.created < record.created))
  expires : other.expires ≤ record.expires
  gen : other.gen ≤ record.gen
  revoked : ¬ (other.revoked ≠ 0 ∧
    (record.revoked = 0 ∨ other.revoked < record.revoked))
  legacy : other.legacy → record.legacy
  notNewer : ∀ (hash : Hash) (stored entry : SecretEntry),
    record.secrets[hash]? = some stored →
      other.secrets[hash]? = some entry → entry.gen ≤ stored.gen
  full : record.secrets.size = maxSecrets
  missing : ∃ hash : Hash, record.secrets[hash]? = none ∧
    ∃ entry : SecretEntry, other.secrets[hash]? = some entry
  outranked : ∀ (hash : Hash) (entry : SecretEntry),
    record.secrets[hash]? = none → other.secrets[hash]? = some entry →
      ∀ (kept : Hash) (stored : SecretEntry),
        record.secrets[kept]? = some stored →
          entry.gen < stored.gen ∨
            stored.gen = entry.gen ∧ HashBefore kept hash

variable {record other : Record}

/-! ## What is reported -/

/-- The union is reported if a hash or a generation is new. -/
theorem mergeSecrets_reports_iff {stored other : Secrets} :
    (mergeSecrets stored other).2 = false ↔
      ∀ (hash : Hash) (entry : SecretEntry), other[hash]? = some entry →
        ∃ kept : SecretEntry, stored[hash]? = some kept ∧
          entry.gen ≤ kept.gen := by
  constructor
  · intro unreported hash entry found
    have lookups := lookup_mergeSecrets stored other hash
    rw [mergeSecrets_of_unchanged unreported, found] at lookups
    cases known : stored[hash]? with
    | none =>
        rw [known] at lookups
        cases lookups
    | some kept =>
        refine ⟨kept, rfl, ?_⟩
        by_contra newer
        rw [known, unionEntry, if_pos (UInt64.not_le.mp newer)] at lookups
        have sameGen := congrArg SecretEntry.gen (Option.some.inj lookups)
        exact newer (UInt64.le_of_eq sameGen.symm)
  · intro known
    have kept : mergeSecrets stored other = (stored, false) := by
      refine FiniteMap.foldl_keeps
        (motive := fun state : Secrets × Bool => state = (stored, false))
        rfl ?_
      rintro _ hash entry found rfl
      obtain ⟨kept, isKept, older⟩ := known hash entry found
      unfold mergeSecret
      dsimp only
      rw [isKept]
      exact if_neg (UInt64.not_lt.mpr older)
    rw [kept]

/-- A merge reports nothing if nothing is newer and no hash is new. -/
theorem merge_unreported (pruned : Pruned record.secrets)
    (created : ¬ (other.created ≠ 0 ∧
      (record.created = 0 ∨ other.created < record.created)))
    (expires : other.expires ≤ record.expires) (gen : other.gen ≤ record.gen)
    (revoked : ¬ (other.revoked ≠ 0 ∧
      (record.revoked = 0 ∨ other.revoked < record.revoked)))
    (legacy : other.legacy → record.legacy)
    (known : ∀ (hash : Hash) (entry : SecretEntry),
      other.secrets[hash]? = some entry →
        ∃ kept : SecretEntry, record.secrets[hash]? = some kept ∧
          entry.gen ≤ kept.gen) :
    (record.merge other).2 = false := by
  have union := mergeSecrets_reports_iff.mpr known
  have same := mergeSecrets_of_unchanged union
  have noLegacy : ¬ (other.legacy ∧ ¬ record.legacy) := by
    rintro ⟨isLegacy, isNot⟩
    exact isNot (legacy isLegacy)
  simp only [merge, if_neg created, if_neg (not_lt.mpr expires),
    if_neg (UInt64.not_lt.mpr gen), if_neg revoked, if_neg noLegacy, same,
    union, prune_of_pruned pruned, Bool.or_false]

/-! ## What changes -/

theorem merged_eq_iff : record.merged other = record ↔
    ¬ (other.created ≠ 0 ∧
      (record.created = 0 ∨ other.created < record.created)) ∧
    other.expires ≤ record.expires ∧ other.gen ≤ record.gen ∧
    ¬ (other.revoked ≠ 0 ∧
      (record.revoked = 0 ∨ other.revoked < record.revoked)) ∧
    (other.legacy → record.legacy) ∧
    (record.merged other).secrets = record.secrets := by
  constructor
  · intro same
    refine ⟨?_, ?_, ?_, ?_, ?_, congrArg secrets same⟩
    · intro earlier
      have created := congrArg created same
      rw [merged_created, if_pos earlier] at created
      omega
    · have expires := congrArg expires same
      rw [merged_expires] at expires
      omega
    · exact congrArg gen same ▸ other_gen_le_merged record other
    · intro earlier
      have revoked := congrArg revoked same
      rw [merged_revoked, if_pos earlier] at revoked
      omega
    · intro isLegacy
      have legacy := congrArg legacy same
      rw [merged_legacy, isLegacy, Bool.or_true] at legacy
      exact legacy.symm
  · rintro ⟨created, expires, gen, revoked, legacy, secrets⟩
    have sameCreated := merged_created record other
    have sameExpires := merged_expires record other
    have sameGen := merged_gen record other
    have sameRevoked := merged_revoked record other
    have sameLegacy := merged_legacy record other
    rw [if_neg created] at sameCreated
    rw [max_eq_left expires] at sameExpires
    rw [if_neg (UInt64.not_lt.mpr gen)] at sameGen
    rw [if_neg revoked] at sameRevoked
    have noLegacy : (record.legacy || other.legacy) = record.legacy := by
      cases isLegacy : other.legacy with
      | false => exact Bool.or_false _
      | true => rw [legacy isLegacy, Bool.or_true]
    rw [noLegacy] at sameLegacy
    have sameRoom := merged_room record other
    have sameUpdated := merged_updated record other
    generalize record.merged other = later at *
    cases later
    cases record
    simp_all

/-- The secrets stay as they are if no stored hash is newer, and each new hash
is cut again. -/
theorem merged_secrets_eq_iff (pruned : Pruned record.secrets) :
    (record.merged other).secrets = record.secrets ↔
      (∀ (hash : Hash) (stored entry : SecretEntry),
        record.secrets[hash]? = some stored →
          other.secrets[hash]? = some entry → entry.gen ≤ stored.gen) ∧
      ∀ (hash : Hash) (entry : SecretEntry),
        record.secrets[hash]? = none → other.secrets[hash]? = some entry →
          record.secrets.size = maxSecrets ∧
            ∀ (kept : Hash) (stored : SecretEntry),
              record.secrets[kept]? = some stored →
                entry.gen < stored.gen ∨
                  stored.gen = entry.gen ∧ HashBefore kept hash := by
  have few : {hash | genWeight record.secrets hash ≠ ⊥}.encard ≤
      maxSecrets := by
    rw [encard_genWeight]
    exact_mod_cast pruned
  have byWeight : (record.merged other).secrets = record.secrets ↔
      keep HashBefore maxSecrets
        (genWeight record.secrets ⊔ genWeight other.secrets) =
          genWeight record.secrets := by
    rw [← genWeight_merged]
    exact ⟨congrArg genWeight,
      secrets_eq_of_genWeight_eq (rolesAgree_merged record other)⟩
  rw [byWeight, keep_sup_eq_left_iff (finitelyMany_genWeight _)
    (finitelyMany_genWeight _) few, encard_genWeight]
  constructor
  · rintro ⟨older, outranked⟩
    constructor
    · intro hash stored entry known found
      have weight := older hash (genWeight_ne_bot.mpr ⟨stored, known⟩)
      rw [genWeight_of_lookup known, genWeight_of_lookup found,
        WithBot.coe_le_coe] at weight
      exact UInt64.le_iff_toNat_le.mpr weight
    · intro hash entry unknown found
      obtain ⟨full, ahead⟩ := outranked hash (genWeight_eq_bot.mpr unknown)
        (genWeight_ne_bot.mpr ⟨entry, found⟩)
      refine ⟨by exact_mod_cast full, ?_⟩
      intro kept stored known
      have order := ahead kept (genWeight_ne_bot.mpr ⟨stored, known⟩)
      rw [genWeight_of_lookup known, genWeight_of_lookup found,
        WithBot.coe_lt_coe, WithBot.coe_inj] at order
      exact order.imp UInt64.lt_iff_toNat_lt.mpr
        (And.imp_left UInt64.toNat_inj.mp)
  · rintro ⟨older, outranked⟩
    constructor
    · intro hash present
      obtain ⟨stored, known⟩ := genWeight_ne_bot.mp present
      cases found : other.secrets[hash]? with
      | none =>
          rw [genWeight_eq_bot.mpr found]
          exact bot_le
      | some entry =>
          rw [genWeight_of_lookup known, genWeight_of_lookup found,
            WithBot.coe_le_coe]
          exact UInt64.le_iff_toNat_le.mp (older hash stored entry known found)
    · intro hash absent present
      obtain ⟨entry, found⟩ := genWeight_ne_bot.mp present
      obtain ⟨full, ahead⟩ :=
        outranked hash entry (genWeight_eq_bot.mp absent) found
      refine ⟨by exact_mod_cast full, ?_⟩
      intro kept isPresent
      obtain ⟨stored, known⟩ := genWeight_ne_bot.mp isPresent
      rw [genWeight_of_lookup known, genWeight_of_lookup found,
        WithBot.coe_lt_coe, WithBot.coe_inj]
      exact (ahead kept stored known).imp UInt64.lt_iff_toNat_lt.mp
        (And.imp_left (congrArg UInt64.toNat))

/-- A change is reported and not made in exactly one case. -/
theorem wasted_iff (pruned : Pruned record.secrets) :
    record.Wasted other ↔
      (record.merge other).2 = true ∧ record.merged other = record := by
  constructor
  · intro wasted
    constructor
    · obtain ⟨hash, unknown, entry, found⟩ := wasted.missing
      by_contra unreported
      have union : (mergeSecrets record.secrets other.secrets).2 = false := by
        have unreported := eq_false_of_ne_true unreported
        simp only [merge, Bool.or_eq_false_iff] at unreported
        exact unreported.1.2
      obtain ⟨kept, known, -⟩ := mergeSecrets_reports_iff.mp union hash entry found
      rw [unknown] at known
      cases known
    · refine merged_eq_iff.mpr ⟨wasted.created, wasted.expires, wasted.gen,
        wasted.revoked, wasted.legacy, ?_⟩
      exact (merged_secrets_eq_iff pruned).mpr ⟨wasted.notNewer,
        fun hash entry unknown found =>
          ⟨wasted.full, wasted.outranked hash entry unknown found⟩⟩
  · rintro ⟨reported, same⟩
    obtain ⟨created, expires, gen, revoked, legacy, secrets⟩ :=
      merged_eq_iff.mp same
    obtain ⟨notNewer, outranked⟩ := (merged_secrets_eq_iff pruned).mp secrets
    have missing : ∃ hash : Hash, record.secrets[hash]? = none ∧
        ∃ entry : SecretEntry, other.secrets[hash]? = some entry := by
      by_contra complete
      rw [merge_unreported pruned created expires gen revoked legacy] at reported
      · cases reported
      · intro hash entry found
        cases known : record.secrets[hash]? with
        | none => exact (complete ⟨hash, known, entry, found⟩).elim
        | some kept => exact ⟨kept, rfl, notNewer hash kept entry known found⟩
    obtain ⟨hash, unknown, entry, found⟩ := missing
    exact
      { created, expires, gen, revoked, legacy, notNewer
        full := (outranked hash entry unknown found).1
        missing := ⟨hash, unknown, entry, found⟩
        outranked := fun hash entry unknown found =>
          (outranked hash entry unknown found).2 }

/-! ## What is stamped -/

/-- A stored record is stamped anew if its merge reports a change. -/
theorem updated_mergeRecord {store : Store} (wellFormed : store.WellFormed)
    (stored : store.rooms[other.room]? = some record) (now : Int) :
    ((store.mergeRecord other now).1.recordOr other.room).updated ≠
        record.updated ↔ (record.merge other).2 = true := by
  have known : store.recordOr other.room = record := by
    rw [Store.recordOr, stored, Option.getD_some]
  have report : (store.mergeRecord other now).2 = (record.merge other).2 := by
    unfold Store.mergeRecord
    rw [stored]
    dsimp only [Option.getD_some]
    split
    · rename_i reported
      exact (reported.resolve_right (by simp)).symm
    · rename_i unreported
      exact (eq_false_of_ne_true (not_or.mp unreported).1).symm
  have later : (store.mergeRecord other now).1.recordOr other.room =
      store.mergedRecord other now := by
    rw [Store.recordOr, Store.mergeRecord_rooms, FiniteMap.lookup_insert,
      if_pos rfl, Option.getD_some]
  rw [later, Store.mergedRecord, known, report]
  constructor
  · intro stamped
    by_contra unreported
    rw [if_neg unreported] at stamped
    exact stamped rfl
  · intro reported
    rw [if_pos reported]
    have older := wellFormed.stamped stored
    have newer := store.last_lt_stamp now
    exact ne_of_gt (older.trans_lt newer)

/-- The report of a merge is right, and with it the stamp that a record gets
when a peer sends another copy, but for the case that all the copy brings is
cut again. -/
theorem merge_reports_iff (record other : Record)
    (few : record.secrets.size ≤ maxSecrets) :
    (((record.merge other).2 = true ↔ record.merged other ≠ record) ↔
      ¬ record.Wasted other) ∧
    ∀ (store : Store) (now : Int), store.WellFormed →
      store.rooms[other.room]? = some record →
        ((((store.mergeRecord other now).1.recordOr other.room).updated ≠
            record.updated ↔ record.merged other ≠ record) ↔
          ¬ record.Wasted other) := by
  have exact_unless : ((record.merge other).2 = true ↔
      record.merged other ≠ record) ↔ ¬ record.Wasted other := by
    rw [wasted_iff few, not_and]
    constructor
    · exact Iff.mp
    · intro really
      refine ⟨really, fun changes => ?_⟩
      by_contra unreported
      exact changes (merged_of_unchanged (eq_false_of_ne_true unreported))
  refine ⟨exact_unless, ?_⟩
  intro store now wellFormed stored
  rw [updated_mergeRecord wellFormed stored, exact_unless]

end Record

/-! ## A copy that is behind -/

namespace Sample

/-- The secrets of a room that are left after so many rotations. -/
def pairs (rotations : List Nat) : Secrets :=
  rotations.foldl (fun secrets rotation =>
    let gen : UInt64 := (rotation * 2 ^ 32).toUInt64
    (secrets.insert (ascii "host" ++ formatUint 10 rotation)
      { role := roleHost, gen }).insert
        (ascii "speaker" ++ formatUint 10 rotation)
        { role := roleSpeaker, gen }) ∅

/-- A room that was rotated four times. -/
def rotated : Record :=
  { Record.empty (ascii "r-bcdfghjkmnpqrs") with
    created := 10, expires := 100, gen := (4 * 2 ^ 32 : Nat).toUInt64
    secrets := pairs [1, 2, 3, 4] }

/-- The copy of a peer that missed all rotations. -/
def missed : Record :=
  { Record.empty (ascii "r-bcdfghjkmnpqrs") with
    created := 10, expires := 100, secrets := pairs [0] }

/-- The other way round the report is right. -/
theorem merge_reports_iff_missed :
    (missed.merge rotated).2 = true ↔ missed.merged rotated ≠ missed := by
  refine (Record.merge_reports_iff missed rotated (by decide)).1.mpr ?_
  intro wasted
  exact absurd wasted.full (by decide)

/-- A merge that reports a change and makes none. -/
theorem reports_without_change :
    rotated.secrets.size ≤ maxSecrets ∧ missed.room = rotated.room ∧
      (rotated.merge missed).2 = true ∧ rotated.merged missed = rotated := by
  refine ⟨by decide, by decide, by decide, ?_⟩
  refine Record.merged_eq_iff.mpr ⟨by decide, by decide,
    by decide, by decide, by decide, ?_⟩
  exact Std.ExtTreeMap.toList_inj.mp (by decide)

end Sample

end FfmucSalt.MeetReserve
