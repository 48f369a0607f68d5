import FfmucSalt.MeetReserve.StoreEvery
import FfmucSalt.MeetReserve.StoreIndex
import FfmucSalt.MeetReserve.Tombstone

/-!
# The representation of a reachable store

If no secret hash ever belongs to two rooms, the index of a store agrees with
its records after any operations, so that `bySecret` finds exactly what the
records have.
-/

namespace FfmucSalt.MeetReserve

section Owners

variable {server : Server} {owner : Hash → RoomName}

/-- Every secret belongs to the room of the record. -/
def Record.Owned (owner : Hash → RoomName) (record : Record) : Prop :=
  ∀ hash ∈ record.secrets, owner hash = record.room

/-- The secrets that come in with an operation belong to the rooms they come
in for: those of delivered copies, and those a successful update writes. -/
def Server.KeepsOwners (server : Server) (owner : Hash → RoomName)
    (store : Store) (operation : Operation) (result : Option Record) : Prop :=
  (∀ record ∈ operation.received, record.Owned owner) ∧
    (result.isSome → ∀ pair, server.writes store operation = some pair →
      owner pair.host = pair.room ∧ owner pair.speaker = pair.room)

theorem Record.Owned.stable : Record.Stable (Record.Owned owner) where
  stamp _ owned := owned
  strip _ _ := by
    intro hash member
    simp at member

theorem Record.Owned.startsFrom {room : RoomName} {record : Record}
    (start : Record.StartsFrom (Record.Owned owner) room record) :
    record.room = room ∧ record.Owned owner := by
  rcases start with isEmpty | ⟨owned, named⟩
  · subst isEmpty
    refine ⟨rfl, ?_⟩
    intro hash member
    simp [Record.empty] at member
  · exact ⟨named, owned⟩

theorem Record.Owned.merged {record other : Record} (owned : record.Owned owner)
    (otherOwned : ∀ hash ∈ other.secrets, owner hash = record.room) :
    (record.merged other).Owned owner := by
  intro hash member
  obtain ⟨entry, found⟩ := FiniteMap.mem_iff_lookup.mp member
  obtain ⟨source, stored | added, -⟩ := Record.role_merged found
  · exact owned hash (FiniteMap.mem_iff_lookup.mpr ⟨source, stored⟩)
  · exact otherOwned hash (FiniteMap.mem_iff_lookup.mpr ⟨source, added⟩)

theorem Store.Every.apart {store : Store}
    (every : store.Every (Record.Owned owner))
    (wellFormed : store.WellFormed) : Apart store.rooms := by
  intro first second record other hash firstStored secondStored has alsoHas
  rw [← wellFormed.rooms.keyed firstStored,
    ← wellFormed.rooms.keyed secondStored,
    ← every.rooms firstStored hash has, every.rooms secondStored hash alsoHas]

/-- Records with owned secrets, and an index that agrees with them. -/
def Indexes (owner : Hash → RoomName) (store : Store) : Prop :=
  store.Every (Record.Owned owner) ∧ store.Indexed

theorem indexes_mergeRemote {store : Store}
    (wellFormed : store.WellFormed) (indexes : Indexes owner store)
    {recs : List (Option Record × Int)}
    (owned : ∀ record ∈ Operation.received (.mergeRemote recs),
      record.Owned owner) :
    Indexes owner (store.mergeRemote recs).1 := by
  have all : (store.mergeRemote recs).1.WellFormed ∧
      Indexes owner (store.mergeRemote recs).1 := by
    apply Store.mergeRemote_keeps
      (motive := fun store => store.WellFormed ∧ Indexes owner store)
      ⟨wellFormed, indexes⟩
    · intro store other now member valid held
      obtain ⟨wellFormed, every, indexed⟩ := held
      obtain ⟨named, known⟩ :=
        Record.Owned.startsFrom (every.startsFrom wellFormed other.room)
      have laterEvery : (store.mergeRecord other now).1.Every _ :=
        every.mergeRecord Record.Owned.stable (known.merged fun hash has => by
          rw [named]
          exact owned other ⟨now, member⟩ hash has)
      have later := wellFormed.mergeRecord valid now
      exact ⟨later, laterEvery,
        indexed.mergeRecord wellFormed (laterEvery.apart later)⟩
    · intro store dirty held
      obtain ⟨wellFormed, every, indexed⟩ := held
      exact ⟨wellFormed.setDirty dirty, ⟨every.rooms, every.disk⟩, indexed⟩
  exact all.2

private theorem indexes_run {store later : Store} {operation : Operation}
    {result : Option Record} (wellFormed : store.WellFormed)
    (indexes : Indexes owner store)
    (owners : server.KeepsOwners owner store operation result)
    (legal : server.Legal operation)
    (done : server.run store operation = some (result, later)) :
    Indexes owner later := by
  have laterWellFormed := wellFormed.run legal done
  obtain ⟨received, writes⟩ := owners
  obtain ⟨every, indexed⟩ := indexes
  cases operation with
  | update room change random now saves =>
      obtain ⟨⟨outcome, after⟩, updated, same⟩ := Option.map_eq_some_iff.mp done
      obtain ⟨isResult, isLater⟩ := Prod.mk.inj same
      subst isLater
      cases outcome with
      | error error =>
          exact (Store.update_error updated).2 ▸ ⟨every, indexed⟩
      | ok out =>
          obtain ⟨next, returned, committed⟩ := Store.update_ok updated
          have start := every.startsFrom wellFormed room
          obtain ⟨named, known⟩ := Record.Owned.startsFrom start
          have drawn : ∀ hash ∈ next.secrets, owner hash = room := by
            intro hash member
            have source := @Server.mem_secrets_of_returns _ _ _ _ _ now saves _
              _ (server.returns_of_ok returned) member
            rcases source with
              ⟨pair, written, isRoom, isHost | isSpeaker⟩ | ⟨record, stored, has⟩
            · rw [isHost, (writes (isResult ▸ rfl) pair written).1, isRoom]
            · rw [isSpeaker, (writes (isResult ▸ rfl) pair written).2, isRoom]
            · rw [every.rooms stored hash has, wellFormed.rooms.keyed stored]
          have laterEvery : (store.commit room next now saves).2.Every _ :=
            every.commit Record.Owned.stable (known.merged fun hash has => by
              rw [named]
              exact drawn hash has)
          have laterIndexed := indexed.commit wellFormed room next now saves
          rw [committed] at laterEvery laterIndexed
          exact ⟨laterEvery,
            laterIndexed (laterEvery.apart laterWellFormed)⟩
  | mergeRemote recs =>
      cases done
      exact indexes_mergeRemote wellFormed ⟨every, indexed⟩ received
  | gc now saves =>
      cases done
      exact ⟨every.gc Record.Owned.stable now gcKeep _ saves,
        indexed.gc (every.apart wellFormed) now gcKeep _ saves⟩
  | restart =>
      cases done
      have restarted := every.restart wellFormed
      exact ⟨restarted,
        .restart wellFormed (restarted.apart laterWellFormed)⟩

/-- Whatever a store goes through. -/
theorem Server.History.indexes {store : Store}
    (history : server.History (server.KeepsOwners owner) (newStore none) store) :
    store.WellFormed ∧ Indexes owner store :=
  history.keeps .newStore ⟨.newStore, .newStore none⟩
    fun wellFormed indexes owners legal done =>
      indexes_run wellFormed indexes owners legal done

/-- The representation invariant: records are stored under their names with
few secrets and different change times up to the last stamp, and the index and
`bySecret` agree with them. -/
theorem store_represents {store : Store}
    (history : server.History (server.KeepsOwners owner) (newStore none) store) :
    (∀ (name : RoomName) (record : Record), store.rooms[name]? = some record →
      record.room = name ∧ record.secrets.size ≤ maxSecrets ∧
        record.updated ≤ store.last) ∧
    (∀ (first second : RoomName) (record other : Record),
      store.rooms[first]? = some record → store.rooms[second]? = some other →
        first ≠ second → record.updated ≠ other.updated) ∧
    (∀ (hash : Hash) (name : RoomName), store.secrets[hash]? = some name ↔
      ∃ record : Record, store.rooms[name]? = some record ∧
        hash ∈ record.secrets) ∧
    ∀ (hash : Hash) (record : Record) (entry : SecretEntry),
      store.bySecret hash = some (record, entry) ↔
        (∃ name : RoomName, store.rooms[name]? = some record) ∧
          record.secrets[hash]? = some entry := by
  obtain ⟨wellFormed, -, indexed⟩ := history.indexes
  refine ⟨?_, ?_, indexed, ?_⟩
  · intro name record stored
    exact ⟨wellFormed.rooms.keyed stored, wellFormed.rooms.pruned stored,
      wellFormed.stamped stored⟩
  · intro first second record other firstStored secondStored different same
    exact different (wellFormed.rooms.distinct firstStored secondStored same)
  · intro hash record entry
    constructor
    · intro found
      obtain ⟨stored, has⟩ := Store.bySecret_eq_some found
      exact ⟨⟨_, stored⟩, has⟩
    · intro known
      obtain ⟨⟨name, stored⟩, has⟩ := known
      exact indexed.bySecret stored has

end Owners

namespace Sample

theorem reserved_then_restarted :
    server.History (server.KeepsOwners fun _ => room) (newStore none)
      reservedStore.restart := by
  have legal : server.Legal (.update room
      (.reserve (Time.ofUnix 1000) (72 * hour) host) 0 0 true) := by
    change isShortName room ∧ 0 < Time.unix (Time.ofUnix 1000)
    decide
  refine .tail (.single ⟨_, _, ⟨?_, ?_⟩, legal, run_changed (by decide)⟩)
    ⟨.restart, none, ⟨?_, ?_⟩, trivial, rfl⟩
  · simp [Operation.received]
  · intro _ pair isPair
    cases isPair
    exact ⟨rfl, rfl⟩
  · simp [Operation.received]
  · simp

/-- The secret of the reserved room is found after a restart. -/
theorem store_represents_after_restart :
    ∃ record entry, reservedStore.restart.bySecret (server.hashSecret host) =
      some (record, entry) := by
  have represents := store_represents reserved_then_restarted
  have stored : reservedStore.restart.rooms[room]?.isSome := by decide
  have has : (reservedStore.restart.recordOr room).secrets[
      server.hashSecret host]?.isSome := by
    decide
  obtain ⟨record, isRecord⟩ := Option.isSome_iff_exists.mp stored
  obtain ⟨entry, isEntry⟩ := Option.isSome_iff_exists.mp has
  have isStored : reservedStore.restart.recordOr room = record := by
    rw [Store.recordOr, isRecord]
    rfl
  rw [isStored] at isEntry
  exact ⟨record, entry, (represents.2.2.2 _ _ _).mpr ⟨⟨room, isRecord⟩, isEntry⟩⟩

end Sample

end FfmucSalt.MeetReserve
