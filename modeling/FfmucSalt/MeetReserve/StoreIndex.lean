import FfmucSalt.MeetReserve.StoreInvariant

/-!
# The index of secrets

As long as no hash belongs to two rooms, the index of a store maps a hash to
a room exactly if the room's record has it, whatever the store goes through.
-/

namespace FfmucSalt.MeetReserve

/-- No hash belongs to two rooms. -/
def Apart (rooms : FiniteMap RoomName Record) : Prop :=
  ∀ ⦃first second : RoomName⦄ ⦃record other : Record⦄ ⦃hash : Hash⦄,
    rooms[first]? = some record → rooms[second]? = some other →
      hash ∈ record.secrets → hash ∈ other.secrets → first = second

namespace Store

variable {store : Store}

/-- The index agrees with the records. -/
def Indexed (store : Store) : Prop :=
  ∀ (hash : Hash) (name : RoomName), store.secrets[hash]? = some name ↔
    ∃ record : Record, store.rooms[name]? = some record ∧ hash ∈ record.secrets

theorem bySecret_of_index {name : RoomName} {record : Record} {hash : Hash}
    {entry : SecretEntry} (found : store.secrets[hash]? = some name)
    (stored : store.rooms[name]? = some record)
    (has : record.secrets[hash]? = some entry) :
    store.bySecret hash = some (record, entry) := by
  simp [Store.bySecret, found, stored, has]

/-- What the index finds. -/
theorem Indexed.bySecret (indexed : store.Indexed) {name : RoomName}
    {record : Record} {hash : Hash} {entry : SecretEntry}
    (stored : store.rooms[name]? = some record)
    (has : record.secrets[hash]? = some entry) :
    store.bySecret hash = some (record, entry) := by
  have found := (indexed hash name).mpr
    ⟨record, stored, FiniteMap.mem_iff_lookup.mpr ⟨entry, has⟩⟩
  exact bySecret_of_index found stored has

theorem bySecret_eq_some {hash : Hash} {record : Record} {entry : SecretEntry}
    (found : store.bySecret hash = some (record, entry)) :
    store.rooms[store.secrets[hash]?.getD []]? = some record ∧
      record.secrets[hash]? = some entry := by
  unfold Store.bySecret at found
  split at found
  · cases found
  · rename_i stored
    obtain ⟨has, isEntry, same⟩ := Option.map_eq_some_iff.mp found
    cases same
    exact ⟨stored, isEntry⟩

theorem Indexed.newStore (disk : Option (List Record)) :
    (newStore disk).Indexed := by
  intro hash name
  simp [MeetReserve.newStore]

/-- Storing a record of a room and indexing it. -/
private theorem Indexed.index (indexed : store.Indexed) {name : RoomName}
    {record : Record} {later : Store} {before : List Hash}
    (rooms : later.rooms = store.rooms.insert name record)
    (secrets : later.secrets = (store.index record before).secrets)
    (keyed : record.room = name)
    (complete : ∀ {old : Record} {hash : Hash},
      store.rooms[name]? = some old → hash ∈ old.secrets → hash ∈ before)
    (apart : Apart later.rooms) : later.Indexed := by
  have stored : later.rooms[name]? = some record := by simp [rooms]
  have others : ∀ {other : RoomName}, other ≠ name →
      later.rooms[other]? = store.rooms[other]? := by
    intro other different
    rw [rooms, FiniteMap.lookup_insert, if_neg (Ne.symm different)]
  intro hash other
  rw [secrets, lookup_index, keyed]
  by_cases own : hash ∈ record.secrets
  · rw [if_pos own]
    constructor
    · rintro ⟨rfl⟩
      exact ⟨record, stored, own⟩
    · rintro ⟨found, isFound, has⟩
      rw [apart stored isFound own has]
  · rw [if_neg own]
    by_cases same : other = name
    · subst same
      constructor
      · intro kept
        split at kept
        · cases kept
        · rename_i notForgotten
          obtain ⟨old, isOld, has⟩ := (indexed _ _).mp kept
          exact (notForgotten ⟨complete isOld has, by simp [kept]⟩).elim
      · rintro ⟨found, isFound, has⟩
        rw [stored] at isFound
        cases isFound
        exact (own has).elim
    · rw [others same, ← indexed]
      split
      · rename_i forgotten
        constructor
        · intro impossible
          cases impossible
        · intro kept
          rw [kept] at forgotten
          exact (same forgotten.2).elim
      · rfl

private theorem mem_hashes_recordOr {name : RoomName} {old : Record}
    {hash : Hash} (stored : store.rooms[name]? = some old)
    (has : hash ∈ old.secrets) :
    hash ∈ (store.recordOr name).secretHashes := by
  simpa [Record.secretHashes, recordOr, stored] using has

theorem Indexed.commit (indexed : store.Indexed)
    (wellFormed : store.WellFormed) (room : RoomName) (next : Record)
    (now : Int) (saves : Bool)
    (apart : Apart (store.commit room next now saves).2.rooms) :
    (store.commit room next now saves).2.Indexed := by
  refine indexed.index (commit_rooms ..) (commit_secrets ..) ?_
    mem_hashes_recordOr apart
  rw [commit_out]
  exact recordOr_room wellFormed room

theorem Indexed.mergeRecord (indexed : store.Indexed)
    (wellFormed : store.WellFormed) {other : Record} {now : Int}
    (apart : Apart (store.mergeRecord other now).1.rooms) :
    (store.mergeRecord other now).1.Indexed := by
  have secrets := store.mergeRecord_secrets other now
  have rooms := store.mergeRecord_rooms other now
  cases changed : (store.mergeRecord other now).2 with
  | true =>
      rw [changed, if_pos rfl] at secrets
      refine indexed.index rooms secrets ?_ mem_hashes_recordOr apart
      unfold mergedRecord
      rw [changed]
      exact recordOr_room wellFormed other.room
  | false =>
      rw [changed, if_neg (by simp)] at secrets
      have same := mergeRecord_rooms_of_unchanged changed
      intro hash name
      rw [secrets, same]
      exact indexed hash name

theorem Indexed.gc (indexed : store.Indexed) (apart : Apart store.rooms)
    (now : Time) (keep : Duration) (legacyLimit : Record → Int) (saves : Bool) :
    (store.gc now keep legacyLimit saves).Indexed := by
  intro hash name
  rw [lookup_gc_secrets, lookup_gc]
  constructor
  · intro found
    split at found
    · cases found
    · rename_i notEnded
      obtain ⟨record, stored, has⟩ := (indexed _ _).mp found
      refine ⟨record, ?_, has⟩
      rw [stored, Option.bind_some, collected, if_pos]
      by_contra ended
      exact notEnded ⟨name, record, stored, has, not_le.mp ended⟩
  · rintro ⟨record, kept, has⟩
    obtain ⟨old, stored, isKept⟩ := Option.bind_eq_some_iff.mp kept
    unfold collected at isKept
    split at isKept
    · rename_i late
      cases isKept
      rw [if_neg]
      · exact (indexed _ _).mpr ⟨record, stored, has⟩
      · rintro ⟨other, ended, otherStored, otherHas, early⟩
        have same := apart stored otherStored has otherHas
        subst same
        rw [stored] at otherStored
        cases otherStored
        exact not_lt.mpr late early
    · split at isKept
      · cases isKept
        simp at has
      · cases isKept

/-! ## Restart -/

private theorem loadRecord_secrets (start : Store) {record : Record}
    (named : record.room ≠ []) (pruned : record.secrets.size ≤ maxSecrets)
    (hash : Hash) :
    (start.loadRecord record).secrets[hash]? =
      if hash ∈ record.secrets then some record.room
      else start.secrets[hash]? := by
  have loaded : (start.loadRecord record).secrets =
      ({ start with rooms := start.rooms.insert record.room record }.index
        record []).secrets := by
    unfold loadRecord
    rw [if_neg named, Record.prune_of_pruned pruned]
    dsimp only
    split <;> rfl
  rw [loaded, lookup_index]
  simp

/-- What loading a list of records puts into the index. -/
private theorem secrets_of_loaded (records : List Record) (start : Store)
    (proper : ∀ record ∈ records, record.room ≠ [] ∧
      record.secrets.size ≤ maxSecrets) (hash : Hash) :
    (∃ record ∈ records, hash ∈ record.secrets ∧
      (records.foldl loadRecord start).secrets[hash]? = some record.room) ∨
    (∀ record ∈ records, hash ∉ record.secrets) ∧
      (records.foldl loadRecord start).secrets[hash]? =
        start.secrets[hash]? := by
  induction records generalizing start with
  | nil => right; simp
  | cons first records induction =>
      obtain ⟨named, pruned⟩ := proper first (by simp)
      have rest := induction (start.loadRecord first)
        fun record member => proper record (by simp [member])
      rw [List.foldl_cons]
      rcases rest with ⟨record, member, has, found⟩ | ⟨none, found⟩
      · exact .inl ⟨record, by simp [member], has, found⟩
      · rw [loadRecord_secrets start named pruned] at found
        by_cases own : hash ∈ first.secrets
        · rw [if_pos own] at found
          exact .inl ⟨first, by simp, own, found⟩
        · rw [if_neg own] at found
          refine .inr ⟨?_, found⟩
          rintro record (_ | ⟨_, member⟩)
          · exact own
          · exact none record member

/-- The index after loading the records of a store, in any order. -/
theorem Indexed.loaded {rooms : FiniteMap RoomName Record}
    (proper : WellFormedRooms rooms) (apart : Apart rooms)
    {records : List Record}
    (lists : ∀ record, record ∈ records ↔
      ∃ name : RoomName, rooms[name]? = some record)
    (disk : Option (List Record)) :
    (records.foldl loadRecord (MeetReserve.newStore disk)).Indexed := by
  intro hash name
  rw [rooms_of_loaded proper lists disk]
  have cases := secrets_of_loaded records (MeetReserve.newStore disk)
    (fun record member => by
      obtain ⟨name, stored⟩ := (lists record).mp member
      rw [proper.keyed stored]
      exact ⟨ne_nil_of_validRoomName (proper.valid stored),
        proper.pruned stored⟩) hash
  rcases cases with ⟨record, member, has, found⟩ | ⟨none, found⟩
  · obtain ⟨other, stored⟩ := (lists record).mp member
    rw [found, proper.keyed stored]
    constructor
    · rintro ⟨rfl⟩
      exact ⟨record, stored, has⟩
    · rintro ⟨another, isStored, alsoHas⟩
      rw [apart stored isStored has alsoHas]
  · rw [found]
    constructor
    · intro impossible
      simp [MeetReserve.newStore] at impossible
    · rintro ⟨record, stored, has⟩
      exact (none record ((lists record).mpr ⟨name, stored⟩) has).elim

/-- A restart finds no hash that no record has. -/
theorem restart_secrets_eq_none (wellFormed : store.WellFormed) {hash : Hash}
    (absent : ∀ (name : RoomName) (record : Record),
      store.restart.rooms[name]? = some record → hash ∉ record.secrets) :
    store.restart.secrets[hash]? = none := by
  cases saved : store.disk with
  | none =>
      rw [restart_of_unsaved saved]
      simp [MeetReserve.newStore]
  | some records =>
      obtain ⟨rooms, proper, isValues⟩ := wellFormed.disk saved
      subst isValues
      rw [restart_rooms proper saved] at absent
      rw [restart_eq saved]
      have cases := secrets_of_loaded (FiniteMap.values rooms)
        (MeetReserve.newStore store.disk) (fun record member => by
          obtain ⟨name, stored⟩ := FiniteMap.mem_values.mp member
          rw [proper.keyed stored]
          exact ⟨ne_nil_of_validRoomName (proper.valid stored),
            proper.pruned stored⟩) hash
      rcases cases with ⟨record, member, has, -⟩ | ⟨-, found⟩
      · obtain ⟨name, stored⟩ := FiniteMap.mem_values.mp member
        exact (absent name record stored has).elim
      · rw [found]
        simp [MeetReserve.newStore]

theorem Indexed.restart (wellFormed : store.WellFormed)
    (apart : Apart store.restart.rooms) : store.restart.Indexed := by
  cases saved : store.disk with
  | none =>
      rw [restart_of_unsaved saved]
      exact Indexed.newStore none
  | some records =>
      obtain ⟨rooms, proper, rfl⟩ := wellFormed.disk saved
      rw [restart_rooms proper saved] at apart
      rw [restart_eq saved]
      exact .loaded proper apart (fun _ => FiniteMap.mem_values) _

/-- The records determine an index that agrees with them. -/
theorem Indexed.secrets_eq {other : Store} (indexed : store.Indexed)
    (otherIndexed : other.Indexed) (rooms : store.rooms = other.rooms) :
    store.secrets = other.secrets := by
  ext1 hash
  apply Option.ext
  intro name
  rw [indexed hash name, otherIndexed hash name, rooms]

end Store

end FfmucSalt.MeetReserve
