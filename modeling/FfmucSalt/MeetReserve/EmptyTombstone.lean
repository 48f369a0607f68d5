import FfmucSalt.MeetReserve.StoreEvery
import FfmucSalt.MeetReserve.StoreIndex
import FfmucSalt.MeetReserve.Tombstone

/-!
# Tombstones without secrets

`gc` empties the record of a deleted room and forgets the hashes of its
secrets.  They stay away until a copy of the room that still carries secrets is
delivered, or a migration of the room was under way.
-/

namespace FfmucSalt.MeetReserve

section Emptied

variable {server : Server} {store later : Store} {room : RoomName}
variable {old : Secrets}

/-- The room is deleted and its record has no secrets. -/
def Store.Emptied (store : Store) (room : RoomName) : Prop :=
  ∃ record : Record, store.rooms[room]? = some record ∧ record.revoked ≠ 0 ∧
    record.secrets = ∅

/-- The hashes are in no record and not in the index. -/
structure Store.Forgot (store : Store) (old : Secrets) : Prop where
  records : ∀ {name : RoomName} {record : Record},
    store.rooms[name]? = some record → ∀ hash ∈ old, hash ∉ record.secrets
  index : ∀ hash ∈ old, store.secrets[hash]? = none

/-- The operation brings no secrets to the room: it delivers no copy of it with
secrets, does not migrate it, and restarts only from a snapshot in which it is
deleted and has none. -/
def Store.Spares (room : RoomName) (store : Store) : Operation → Prop
  | .update name change _ _ _ => name = room →
      ∀ now exp host speaker, change ≠ .migrate now exp host speaker
  | .mergeRemote recs => ∀ record ∈ Operation.received (.mergeRemote recs),
      record.room = room → record.secrets = ∅
  | .gc _ _ => True
  | .restart => ∃ saved, store.disk = some saved ∧
      ∃ record ∈ saved, record.room = room ∧ record.revoked ≠ 0 ∧
        record.secrets = ∅

/-- The operation brings the hashes to no room. -/
def Server.LeavesOut (server : Server) (old : Secrets) (store : Store)
    (operation : Operation) (result : Option Record) : Prop :=
  (∀ record ∈ operation.received, ∀ hash ∈ old, hash ∉ record.secrets) ∧
    (result.isSome → ∀ pair, server.writes store operation = some pair →
      pair.host ∉ old ∧ pair.speaker ∉ old) ∧
    (operation = .restart → ∀ saved, store.disk = some saved →
      ∀ record ∈ saved, ∀ hash ∈ old, hash ∉ record.secrets)

/-! ## The record stays empty -/

private theorem secrets_merged_empty {record other : Record}
    (empty : record.secrets = ∅) (otherEmpty : other.secrets = ∅) :
    (record.merged other).secrets = ∅ := by
  refine FiniteMap.ext_lookup fun hash => ?_
  cases found : (record.merged other).secrets[hash]? with
  | none => simp
  | some entry =>
      have united := Record.lookup_merged found
      rw [empty, otherEmpty] at united
      simp [Record.unionEntry] at united

/-- Storing another record of the room, without secrets and still deleted. -/
private theorem Store.Emptied.stores (emptied : store.Emptied room)
    {name : RoomName} {record : Record}
    (rooms : later.rooms = store.rooms.insert name record)
    (keeps : name = room → (store.recordOr name).revoked ≠ 0 →
      (store.recordOr name).secrets = ∅ →
        record.revoked ≠ 0 ∧ record.secrets = ∅) :
    later.Emptied room := by
  obtain ⟨known, stored, deleted, empty⟩ := emptied
  by_cases same : name = room
  · subst same
    have isKnown : store.recordOr name = known := by
      rw [Store.recordOr, stored]
      rfl
    rw [isKnown] at keeps
    refine ⟨record, ?_, keeps rfl deleted empty⟩
    rw [rooms, FiniteMap.lookup_insert, if_pos rfl]
  · refine ⟨known, ?_, deleted, empty⟩
    rw [rooms, FiniteMap.lookup_insert, if_neg same, stored]

private theorem secrets_of_returns {change : Change} {random : UInt32}
    {known next : Record}
    (returns : server.Returns change random (some known) next)
    (deleted : known.revoked ≠ 0) (empty : known.secrets = ∅)
    (notMigrate : ∀ now exp host speaker,
      change ≠ .migrate now exp host speaker) :
    next.secrets = ∅ := by
  cases returns with
  | raise => exact empty
  | migrate => exact (notMigrate _ _ _ _ rfl).elim
  | extend alive => exact (deleted alive).elim
  | rotate alive => exact (deleted alive).elim
  | revoke =>
      split
      · exact empty
      · exact empty

/-- A restart brings the records of the snapshot back. -/
private theorem rooms_restart (wellFormed : store.WellFormed)
    {saved : List Record} (isSaved : store.disk = some saved) :
    WellFormedRooms store.restart.rooms ∧ saved = store.restart.rooms.values := by
  obtain ⟨rooms, proper, isValues⟩ := wellFormed.disk isSaved
  rw [isValues] at isSaved
  rw [Store.restart_rooms proper isSaved]
  exact ⟨proper, isValues⟩

private theorem lookup_restart (wellFormed : store.WellFormed)
    {saved : List Record} (isSaved : store.disk = some saved) {record : Record}
    (member : record ∈ saved) :
    store.restart.rooms[record.room]? = some record := by
  obtain ⟨proper, isValues⟩ := rooms_restart wellFormed isSaved
  rw [isValues] at member
  obtain ⟨name, stored⟩ := FiniteMap.mem_values.mp member
  rwa [proper.keyed stored]

theorem Store.Emptied.run (emptied : store.Emptied room)
    (wellFormed : store.WellFormed) {operation : Operation}
    {result : Option Record} (spares : store.Spares room operation)
    (done : server.run store operation = some (result, later)) :
    later.Emptied room := by
  cases operation with
  | update name change random now saves =>
      obtain ⟨⟨outcome, after⟩, updated, same⟩ := Option.map_eq_some_iff.mp done
      obtain ⟨-, isLater⟩ := Prod.mk.inj same
      subst isLater
      cases outcome with
      | error error => exact (Store.update_error updated).2 ▸ emptied
      | ok out =>
          obtain ⟨next, returned, committed⟩ := Store.update_ok updated
          have isAfter : after = (store.commit name next now saves).2 := by
            rw [committed]
          rw [isAfter]
          refine emptied.stores (Store.commit_rooms ..) ?_
          intro named deleted empty
          rw [Store.commit_out]
          refine ⟨(Record.revoked_merged deleted _).1,
            secrets_merged_empty empty ?_⟩
          subst named
          obtain ⟨known, stored, knownDeleted, knownEmpty⟩ := emptied
          rw [stored] at returned
          have isNext : next.secrets = ∅ :=
            secrets_of_returns (server.returns_of_ok returned) knownDeleted
              knownEmpty (spares rfl)
          exact isNext
  | mergeRemote recs =>
      cases done
      apply Store.mergeRemote_keeps
        (motive := fun store => store.Emptied room) emptied
      · intro store other now member _ held
        refine held.stores (store.mergeRecord_rooms other now) ?_
        intro named deleted empty
        unfold Store.mergedRecord
        dsimp only
        have kept := (Record.revoked_merged deleted other).1
        have none := secrets_merged_empty empty
          (spares other ⟨now, member⟩ named)
        split
        · exact ⟨kept, none⟩
        · exact ⟨kept, none⟩
      · exact fun _ _ held => held
  | gc now saves =>
      cases done
      obtain ⟨record, stored, deleted, empty⟩ := emptied
      unfold Store.Emptied
      rw [Store.lookup_gc, stored, Option.bind_some]
      unfold Store.collected
      split
      · exact ⟨record, rfl, deleted, empty⟩
      · exact ⟨_, rfl, deleted, rfl⟩
  | restart =>
      cases done
      obtain ⟨saved, isSaved, record, member, isRoom, deleted, empty⟩ := spares
      exact ⟨record, isRoom ▸ lookup_restart wellFormed isSaved member, deleted,
        empty⟩

/-! ## The index stays without its hashes -/

private theorem forgotten_merged {record other : Record}
    (none : ∀ hash ∈ old, hash ∉ record.secrets)
    (otherNone : ∀ hash ∈ old, hash ∉ other.secrets) :
    ∀ hash ∈ old, hash ∉ (record.merged other).secrets := by
  intro hash isOld member
  obtain ⟨entry, found⟩ := FiniteMap.mem_iff_lookup.mp member
  obtain ⟨source, stored | added, -⟩ := Record.role_merged found
  · exact none hash isOld (FiniteMap.mem_iff_lookup.mpr ⟨source, stored⟩)
  · exact otherNone hash isOld (FiniteMap.mem_iff_lookup.mpr ⟨source, added⟩)

private theorem Store.Forgot.recordOr (forgot : store.Forgot old)
    (name : RoomName) : ∀ hash ∈ old, hash ∉ (store.recordOr name).secrets := by
  unfold Store.recordOr
  cases stored : store.rooms[name]? with
  | none => simp [Record.empty]
  | some record => exact forgot.records stored

private theorem Store.Forgot.stores (forgot : store.Forgot old)
    {name : RoomName} {record : Record}
    (rooms : later.rooms = store.rooms.insert name record)
    (secrets : later.secrets = store.secrets ∨
      ∃ before, later.secrets = (store.index record before).secrets)
    (none : ∀ hash ∈ old, hash ∉ record.secrets) : later.Forgot old := by
  constructor
  · intro other found stored
    rw [rooms, FiniteMap.lookup_insert] at stored
    split at stored
    · cases stored
      exact none
    · exact forgot.records stored
  · intro hash isOld
    rcases secrets with same | ⟨before, indexed⟩
    · rw [same]
      exact forgot.index hash isOld
    · rw [indexed, Store.lookup_index, if_neg (none hash isOld),
        forgot.index hash isOld]
      simp

theorem Store.Forgot.run (forgot : store.Forgot old)
    (wellFormed : store.WellFormed) {operation : Operation}
    {result : Option Record} (spares : store.Spares room operation)
    (leavesOut : server.LeavesOut old store operation result)
    (done : server.run store operation = some (result, later)) :
    later.Forgot old := by
  obtain ⟨received, writes, restarts⟩ := leavesOut
  cases operation with
  | update name change random now saves =>
      obtain ⟨⟨outcome, after⟩, updated, same⟩ := Option.map_eq_some_iff.mp done
      obtain ⟨isResult, isLater⟩ := Prod.mk.inj same
      subst isLater
      cases outcome with
      | error error => exact (Store.update_error updated).2 ▸ forgot
      | ok out =>
          obtain ⟨next, returned, committed⟩ := Store.update_ok updated
          have isAfter : after = (store.commit name next now saves).2 := by
            rw [committed]
          rw [isAfter]
          refine forgot.stores (Store.commit_rooms ..)
            (.inr ⟨_, Store.commit_secrets ..⟩) ?_
          rw [Store.commit_out]
          refine forgotten_merged (forgot.recordOr name) ?_
          intro hash isOld member
          have source := @Server.mem_secrets_of_returns _ _ _ _ _ now saves _ _
            (server.returns_of_ok returned) member
          rcases source with
            ⟨pair, written, -, isHost | isSpeaker⟩ | ⟨record, stored, has⟩
          · exact (writes (isResult ▸ rfl) pair written).1 (isHost ▸ isOld)
          · exact (writes (isResult ▸ rfl) pair written).2 (isSpeaker ▸ isOld)
          · exact forgot.records stored hash isOld has
  | mergeRemote recs =>
      cases done
      apply Store.mergeRemote_keeps
        (motive := fun store => store.Forgot old) forgot
      · intro store other now member _ held
        have none := forgotten_merged (held.recordOr other.room)
          (received other ⟨now, member⟩)
        have secrets := store.mergeRecord_secrets other now
        refine held.stores (store.mergeRecord_rooms other now) ?_ ?_
        · split at secrets
          · exact .inr ⟨_, secrets⟩
          · exact .inl secrets
        · unfold Store.mergedRecord
          dsimp only
          split
          · exact none
          · exact none
      · exact fun _ _ held => ⟨held.records, held.index⟩
  | gc now saves =>
      cases done
      constructor
      · intro name record found hash isOld
        rw [Store.lookup_gc] at found
        obtain ⟨known, stored, kept⟩ := Option.bind_eq_some_iff.mp found
        unfold Store.collected at kept
        split at kept
        · cases kept
          exact forgot.records stored hash isOld
        · split at kept
          · cases kept
            simp
          · cases kept
      · intro hash isOld
        rw [Store.lookup_gc_secrets, forgot.index hash isOld]
        simp
  | restart =>
      cases done
      obtain ⟨saved, isSaved, -⟩ := spares
      obtain ⟨-, isValues⟩ := rooms_restart wellFormed isSaved
      have records : ∀ {name : RoomName} {record : Record},
          store.restart.rooms[name]? = some record →
            ∀ hash ∈ old, hash ∉ record.secrets := by
        intro name record found
        apply restarts rfl saved isSaved
        rw [isValues]
        exact FiniteMap.mem_values.mpr ⟨name, found⟩
      refine ⟨records, ?_⟩
      intro hash isOld
      exact Store.restart_secrets_eq_none wellFormed fun name record stored =>
        records stored hash isOld

/-- `gc` empties the record of a deleted room. -/
structure Store.Empties (server : Server) (store : Store) (room : RoomName)
    (record : Record) (now : Time) : Prop where
  wellFormed : store.WellFormed
  stored : store.rooms[room]? = some record
  deleted : record.revoked ≠ 0
  ended : max record.expires (max record.revoked (server.legacyLimit record)) <
    Time.unix (now - gcKeep)

/-- The secrets of the room's record are in no other room. -/
def Store.Alone (store : Store) (room : RoomName) (record : Record) : Prop :=
  ∀ (name : RoomName) (other : Record), store.rooms[name]? = some other →
    name ≠ room → ∀ hash ∈ record.secrets, hash ∉ other.secrets

theorem Store.Empties.emptied {record : Record} {now : Time}
    (empties : store.Empties server room record now) (saves : Bool) :
    (store.gc now gcKeep server.legacyLimit saves).Emptied room := by
  unfold Store.Emptied
  rw [Store.lookup_gc, empties.stored, Option.bind_some, Store.collected,
    if_neg (not_le.mpr empties.ended), if_pos empties.deleted]
  exact ⟨_, rfl, empties.deleted, rfl⟩

theorem Store.Empties.forgot {record : Record} {now : Time}
    (empties : store.Empties server room record now)
    (alone : store.Alone room record) (saves : Bool) :
    (store.gc now gcKeep server.legacyLimit saves).Forgot record.secrets := by
  constructor
  · intro name other found hash isOld
    rw [Store.lookup_gc] at found
    obtain ⟨known, stored, kept⟩ := Option.bind_eq_some_iff.mp found
    unfold Store.collected at kept
    by_cases same : name = room
    · subst same
      rw [empties.stored] at stored
      cases stored
      rw [if_neg (not_le.mpr empties.ended), if_pos empties.deleted] at kept
      cases kept
      simp
    · split at kept
      · cases kept
        exact alone name other stored same hash isOld
      · split at kept
        · cases kept
          simp
        · cases kept
  · intro hash isOld
    rw [Store.lookup_gc_secrets, if_pos]
    exact ⟨room, record, empties.stored, isOld, empties.ended⟩

/-- Once `gc` has emptied the record of a deleted room, it stays empty as long
as no copy with secrets is delivered for it, no migration hits it and no restart
goes back behind it; and its hashes stay out of the index as long as nothing
brings them to any room. -/
theorem tombstone_stays_empty {record : Record} {now : Time}
    (empties : store.Empties server room record now) (saves : Bool) :
    (∀ later, server.History
        (fun store operation _ => store.Spares room operation)
        (store.gc now gcKeep server.legacyLimit saves) later →
      later.Emptied room) ∧
    (store.Alone room record → ∀ later, server.History
        (fun store operation result => store.Spares room operation ∧
          server.LeavesOut record.secrets store operation result)
        (store.gc now gcKeep server.legacyLimit saves) later →
      later.Emptied room ∧
        ∀ hash ∈ record.secrets, later.secrets[hash]? = none) := by
  have wellFormed := empties.wellFormed.gc now gcKeep server.legacyLimit saves
  have emptied := empties.emptied saves
  constructor
  · intro later history
    have kept := history.keeps (motive := fun store => store.Emptied room)
      wellFormed emptied fun wellFormed emptied spares _ done =>
        emptied.run wellFormed spares done
    exact kept.2
  · intro alone later history
    have kept := history.keeps
      (motive := fun store => store.Emptied room ∧
        store.Forgot record.secrets)
      wellFormed ⟨emptied, empties.forgot alone saves⟩
      fun wellFormed held condition _ done =>
        ⟨held.1.run wellFormed condition.1 done,
          held.2.run wellFormed condition.1 condition.2 done⟩
    exact ⟨kept.2.1, kept.2.2.index⟩

end Emptied

namespace Sample

/-- A time when deleted rooms of the first day have been collected. -/
def collectedAt : Time := Time.ofUnix 9000000

/-- The deleted room without its secrets. -/
def emptiedStore : Store :=
  deletedStore.gc collectedAt gcKeep server.legacyLimit true

/-- The record as a signer has it that missed the deletion. -/
def staleRecord : Record := reservedStore.recordOr room

def deletedRecord : Record := deletedStore.recordOr room

private theorem deletedStore_empties :
    deletedStore.Empties server room deletedRecord collectedAt := by
  have stored : deletedStore.rooms[room]?.isSome := by decide
  refine ⟨deletedStore_reached.wellFormed .newStore, Store.eq_some_recordOr stored, ?_, ?_⟩
  · decide
  · decide

/-- A stale copy brings the secrets back, into the record and into the index. -/
theorem stale_copy_brings_secrets_back :
    deletedStore.Empties server room deletedRecord collectedAt ∧
      server.hashSecret host ∈ deletedRecord.secrets ∧
      ∃ later, server.History (fun _ _ _ => True) emptiedStore later ∧
        ¬ later.Emptied room ∧
        later.secrets[server.hashSecret host]? = some room := by
  refine ⟨deletedStore_empties, by decide,
    (emptiedStore.mergeRemote [(some staleRecord, 0)]).1,
    .single ⟨.mergeRemote [(some staleRecord, 0)], none, trivial, trivial, rfl⟩,
    ?_, by decide⟩
  intro emptied
  obtain ⟨record, stored, -, empty⟩ := emptied
  have filled : ((emptiedStore.mergeRemote [(some staleRecord, 0)]).1.recordOr
      room).secrets ≠ ∅ := by
    decide
  rw [Store.recordOr, stored] at filled
  exact filled empty

/-- The copy of another signer that collected the room as well does no harm. -/
theorem tombstone_stays_empty_after_pull :
    (emptiedStore.mergeRemote
      [(some (emptiedStore.recordOr room), 0)]).1.Emptied room := by
  refine (tombstone_stays_empty deletedStore_empties true).1 _ (.single
    ⟨.mergeRemote [(some (emptiedStore.recordOr room), 0)], none, ?_, trivial,
      rfl⟩)
  intro record received _
  obtain ⟨now, member⟩ := received
  cases List.mem_singleton.mp member
  decide

end Sample

end FfmucSalt.MeetReserve
