import FfmucSalt.MeetReserve.StoreLookup

/-!
# The representation invariant of a store

Records are stored under their own valid names, with few secrets, an expiry
that is not negative, and pairwise different change times that the last stamp
bounds.  Every operation keeps
this, and a restart from a snapshot restores the records that were saved.
-/

namespace FfmucSalt.MeetReserve

/-- What holds of the records of a store. -/
structure WellFormedRooms (rooms : FiniteMap RoomName Record) : Prop where
  keyed : ∀ {name : RoomName} {record : Record},
    rooms[name]? = some record → record.room = name
  valid : ∀ {name : RoomName} {record : Record},
    rooms[name]? = some record → validRoomName name
  pruned : ∀ {name : RoomName} {record : Record},
    rooms[name]? = some record → record.secrets.size ≤ maxSecrets
  nonneg : ∀ {name : RoomName} {record : Record},
    rooms[name]? = some record → 0 ≤ record.expires
  distinct : ∀ {first second : RoomName} {record other : Record},
    rooms[first]? = some record → rooms[second]? = some other →
      record.updated = other.updated → first = second

/-- The representation invariant of a store. -/
structure Store.WellFormed (store : Store) : Prop where
  rooms : WellFormedRooms store.rooms
  stamped : ∀ {name : RoomName} {record : Record},
    store.rooms[name]? = some record → record.updated ≤ store.last
  disk : ∀ {records}, store.disk = some records →
    ∃ rooms, WellFormedRooms rooms ∧ records = FiniteMap.values rooms

theorem ne_nil_of_validRoomName {room : RoomName} (valid : validRoomName room) :
    room ≠ [] := by
  rintro rfl
  revert valid
  decide

namespace WellFormedRooms

variable {rooms later : FiniteMap RoomName Record}

theorem empty : WellFormedRooms ∅ := by
  constructor <;> simp

/-- Storing a record under a fresh stamp. -/
theorem insert (wellFormed : WellFormedRooms rooms) {name : RoomName}
    {record : Record} (keyed : record.room = name) (valid : validRoomName name)
    (pruned : record.secrets.size ≤ maxSecrets) (nonneg : 0 ≤ record.expires)
    (fresh : ∀ {other : RoomName} {stored : Record},
      rooms[other]? = some stored → other ≠ name →
        stored.updated ≠ record.updated) :
    WellFormedRooms (rooms.insert name record) := by
  have slot : ∀ {other : RoomName} {stored : Record},
      (rooms.insert name record)[other]? = some stored →
        other = name ∧ stored = record ∨
          other ≠ name ∧ rooms[other]? = some stored := by
    intro other stored found
    rw [FiniteMap.lookup_insert] at found
    split at found
    · rename_i same
      exact .inl ⟨same.symm, (Option.some.inj found).symm⟩
    · rename_i different
      exact .inr ⟨Ne.symm different, found⟩
  constructor
  · intro other stored found
    rcases slot found with ⟨rfl, rfl⟩ | ⟨-, old⟩
    · exact keyed
    · exact wellFormed.keyed old
  · intro other stored found
    rcases slot found with ⟨rfl, rfl⟩ | ⟨-, old⟩
    · exact valid
    · exact wellFormed.valid old
  · intro other stored found
    rcases slot found with ⟨rfl, rfl⟩ | ⟨-, old⟩
    · exact pruned
    · exact wellFormed.pruned old
  · intro other stored found
    rcases slot found with ⟨rfl, rfl⟩ | ⟨-, old⟩
    · exact nonneg
    · exact wellFormed.nonneg old
  · intro first second one two firstFound secondFound same
    rcases slot firstFound with ⟨rfl, rfl⟩ | ⟨firstOther, firstOld⟩ <;>
      rcases slot secondFound with ⟨rfl, rfl⟩ | ⟨secondOther, secondOld⟩
    · rfl
    · exact (fresh secondOld secondOther same.symm).elim
    · exact (fresh firstOld firstOther same).elim
    · exact wellFormed.distinct firstOld secondOld same

/-- Every remaining record is a stored one, maybe with fewer secrets. -/
theorem shrink (wellFormed : WellFormedRooms rooms)
    (shrinks : ∀ {name : RoomName} {record : Record},
      later[name]? = some record →
        ∃ old : Record, rooms[name]? = some old ∧ record.room = old.room ∧
          record.updated = old.updated ∧ record.expires = old.expires ∧
          record.secrets.size ≤ old.secrets.size) :
    WellFormedRooms later := by
  constructor
  · intro name record found
    obtain ⟨old, stored, room, -, -, -⟩ := shrinks found
    exact room.trans (wellFormed.keyed stored)
  · intro name record found
    obtain ⟨old, stored, -, -, -, -⟩ := shrinks found
    exact wellFormed.valid stored
  · intro name record found
    obtain ⟨old, stored, -, -, -, fewer⟩ := shrinks found
    exact fewer.trans (wellFormed.pruned stored)
  · intro name record found
    obtain ⟨old, stored, -, -, expires, -⟩ := shrinks found
    exact expires ▸ wellFormed.nonneg stored
  · intro first second one two firstFound secondFound same
    obtain ⟨old, stored, -, updated, -, -⟩ := shrinks firstFound
    obtain ⟨other, otherStored, -, otherUpdated, -, -⟩ := shrinks secondFound
    exact wellFormed.distinct stored otherStored
      (updated ▸ otherUpdated ▸ same)

end WellFormedRooms

namespace Store

variable {store : Store}

/-! ## Restart -/

private theorem loadRecord_rooms (store : Store) {record : Record}
    (named : record.room ≠ []) (pruned : record.secrets.size ≤ maxSecrets) :
    (store.loadRecord record).rooms =
      store.rooms.insert record.room record := by
  unfold loadRecord
  rw [if_neg named, Record.prune_of_pruned pruned]
  dsimp only
  split <;> rfl

/-- Loading the records of a store, in any order, restores them. -/
theorem rooms_of_loaded {rooms : FiniteMap RoomName Record}
    (wellFormed : WellFormedRooms rooms) {records : List Record}
    (lists : ∀ record, record ∈ records ↔
      ∃ name : RoomName, rooms[name]? = some record)
    (disk : Option (List Record)) :
    (records.foldl loadRecord (newStore disk)).rooms = rooms := by
  have loop : ∀ (records : List Record) (start : Store),
      (∀ record ∈ records, record.room ≠ [] ∧
        record.secrets.size ≤ maxSecrets) →
      (records.foldl loadRecord start).rooms =
        records.foldl (fun rooms record => rooms.insert record.room record)
          start.rooms := by
    intro records
    induction records with
    | nil => intros; rfl
    | cons record records induction =>
        intro start proper
        obtain ⟨named, pruned⟩ := proper record (by simp)
        rw [List.foldl_cons, List.foldl_cons,
          induction _ fun other member => proper other (by simp [member]),
          loadRecord_rooms start named pruned]
  rw [loop]
  · exact FiniteMap.foldl_insert_listed (fun _ _ => wellFormed.keyed) lists
  · intro record member
    obtain ⟨name, stored⟩ := (lists record).mp member
    rw [wellFormed.keyed stored]
    exact ⟨ne_nil_of_validRoomName (wellFormed.valid stored),
      wellFormed.pruned stored⟩

/-- A restart loads the snapshot. -/
theorem restart_eq {records : List Record} (saved : store.disk = some records) :
    store.restart = records.foldl loadRecord (newStore store.disk) := by
  unfold restart load
  rw [show (newStore store.disk).disk = _ from saved]

/-- A restart without a snapshot. -/
theorem restart_of_unsaved (unsaved : store.disk = none) :
    store.restart = newStore none := by
  unfold restart load
  rw [unsaved]
  rfl

/-- A restart restores the records of the snapshot. -/
theorem restart_rooms {rooms : FiniteMap RoomName Record}
    (wellFormed : WellFormedRooms rooms)
    (saved : store.disk = some (FiniteMap.values rooms)) :
    store.restart.rooms = rooms := by
  rw [restart_eq saved]
  exact rooms_of_loaded wellFormed (fun _ => FiniteMap.mem_values) _

private theorem loadRecord_last (store : Store) (record : Record) :
    store.last ≤ (store.loadRecord record).last ∧
      (record.room ≠ [] → record.updated ≤ (store.loadRecord record).last) := by
  unfold loadRecord
  split
  · rename_i unnamed
    exact ⟨le_rfl, fun named => (named unnamed).elim⟩
  · dsimp only
    split
    · rename_i less
      exact ⟨less.le, fun _ => le_rfl⟩
    · rename_i notLess
      exact ⟨le_rfl, fun _ => not_lt.mp notLess⟩

private theorem loadRecord_disk (store : Store) (record : Record) :
    (store.loadRecord record).disk = store.disk := by
  unfold loadRecord
  split
  · rfl
  · dsimp only
    split <;> rfl

private theorem le_last_of_loaded (records : List Record) (start : Store) :
    start.last ≤ (records.foldl loadRecord start).last ∧
      ∀ record ∈ records, record.room ≠ [] →
        record.updated ≤ (records.foldl loadRecord start).last := by
  induction records generalizing start with
  | nil => simp
  | cons record records induction =>
      obtain ⟨grows, bounded⟩ := loadRecord_last start record
      obtain ⟨growsLater, boundedLater⟩ := induction (start.loadRecord record)
      refine ⟨grows.trans growsLater, ?_⟩
      rintro other (_ | ⟨_, member⟩) named
      · exact (bounded named).trans growsLater
      · exact boundedLater other member named

@[simp] theorem restart_disk (store : Store) :
    store.restart.disk = store.disk := by
  have loop : ∀ (records : List Record) (start : Store),
      (records.foldl loadRecord start).disk = start.disk := by
    intro records
    induction records with
    | nil => intros; rfl
    | cons record records induction =>
        intro start
        rw [List.foldl_cons, induction, loadRecord_disk]
  unfold restart load
  split
  · rfl
  · exact loop _ _

/-! ## The invariant -/

theorem WellFormed.newStore : (newStore none).WellFormed where
  rooms := WellFormedRooms.empty
  stamped found := by simp [MeetReserve.newStore] at found
  disk saved := by simp [MeetReserve.newStore] at saved

theorem WellFormed.restart (wellFormed : store.WellFormed) :
    store.restart.WellFormed := by
  cases saved : store.disk with
  | none =>
      rw [restart_of_unsaved saved]
      exact WellFormed.newStore
  | some records =>
      obtain ⟨rooms, roomsWellFormed, rfl⟩ := wellFormed.disk saved
      have restored := restart_rooms roomsWellFormed saved
      constructor
      · rw [restored]
        exact roomsWellFormed
      · intro name record found
        rw [restored] at found
        have loaded := le_last_of_loaded (FiniteMap.values rooms)
          (MeetReserve.newStore store.disk)
        rw [restart_eq saved]
        refine loaded.2 record (FiniteMap.mem_values.mpr ⟨name, found⟩) ?_
        rw [roomsWellFormed.keyed found]
        exact ne_nil_of_validRoomName (roomsWellFormed.valid found)
      · intro records found
        rw [restart_disk] at found
        exact wellFormed.disk found

theorem WellFormed.saveLocked (wellFormed : store.WellFormed) (saves : Bool) :
    (store.saveLocked saves).WellFormed := by
  constructor
  · rw [saveLocked_rooms]
    exact wellFormed.rooms
  · rw [saveLocked_rooms, saveLocked_last]
    exact wellFormed.stamped
  · intro records found
    unfold Store.saveLocked at found
    split at found
    · exact ⟨store.rooms, wellFormed.rooms, (Option.some.inj found).symm⟩
    · exact wellFormed.disk found

theorem WellFormed.setDirty (wellFormed : store.WellFormed) (dirty : Bool) :
    { store with dirty }.WellFormed :=
  ⟨wellFormed.rooms, wellFormed.stamped, wellFormed.disk⟩

/-- Storing a record under a new stamp, whatever happens to the index. -/
private theorem WellFormed.stores (wellFormed : store.WellFormed) {later : Store}
    {name : RoomName} {record : Record}
    (rooms : later.rooms = store.rooms.insert name record)
    (disk : later.disk = store.disk) (keyed : record.room = name)
    (valid : validRoomName name)
    (pruned : record.secrets.size ≤ maxSecrets) (nonneg : 0 ≤ record.expires)
    (stamp : store.last < record.updated) (last : later.last = record.updated) :
    later.WellFormed := by
  constructor
  · rw [rooms]
    refine wellFormed.rooms.insert keyed valid pruned nonneg ?_
    intro other stored found _
    have := wellFormed.stamped found
    omega
  · intro other stored found
    rw [rooms, FiniteMap.lookup_insert] at found
    rw [last]
    split at found
    · exact (Option.some.inj found) ▸ le_rfl
    · exact (wellFormed.stamped found).trans stamp.le
  · rw [disk]
    exact wellFormed.disk

theorem recordOr_room (wellFormed : store.WellFormed) (room : RoomName) :
    (store.recordOr room).room = room := by
  unfold recordOr
  cases stored : store.rooms[room]? with
  | none => rfl
  | some record => exact wellFormed.rooms.keyed stored

theorem recordOr_nonneg (wellFormed : store.WellFormed) (room : RoomName) :
    0 ≤ (store.recordOr room).expires := by
  unfold recordOr
  cases stored : store.rooms[room]? with
  | none => exact le_rfl
  | some record => exact wellFormed.rooms.nonneg stored

theorem room_commit (wellFormed : store.WellFormed) (room : RoomName)
    (next : Record) (now : Int) (saves : Bool) :
    (store.commit room next now saves).1.room = room := by
  rw [commit_out]
  exact recordOr_room wellFormed room

theorem WellFormed.commit (wellFormed : store.WellFormed) {room : RoomName}
    (valid : validRoomName room) (next : Record) (now : Int) (saves : Bool) :
    (store.commit room next now saves).2.WellFormed := by
  have unsaved : (store.commit room next now false).2.WellFormed := by
    refine wellFormed.stores (commit_rooms ..) rfl ?_ valid ?_ ?_ ?_ ?_
    · exact room_commit wellFormed room next now false
    · exact Record.pruned_prune _
    · rw [commit_out]
      exact le_max_of_le_left (recordOr_nonneg wellFormed room) |>.trans_eq
        (Record.merged_expires ..).symm
    · exact store.last_lt_stamp now
    · rw [commit_last, commit_out]
  have saved : (store.commit room next now saves).2 =
      (store.commit room next now false).2.saveLocked saves := by
    cases saves <;> rfl
  rw [saved]
  exact unsaved.saveLocked saves

theorem WellFormed.update (wellFormed : store.WellFormed) {room : RoomName}
    (valid : validRoomName room) {fn : Callback} {now : Int} {saves : Bool}
    {result : Except Error Record} {later : Store}
    (updated : store.update room fn now saves = some (result, later)) :
    later.WellFormed := by
  cases result with
  | error error => exact (update_error updated).2 ▸ wellFormed
  | ok out =>
      obtain ⟨next, -, committed⟩ := update_ok updated
      have := wellFormed.commit valid next now saves
      rw [committed] at this
      exact this

theorem WellFormed.mergeRecord (wellFormed : store.WellFormed)
    {other : Record} (valid : validRoomName other.room) (now : Int) :
    (store.mergeRecord other now).1.WellFormed := by
  cases changed : (store.mergeRecord other now).2 with
  | true =>
      have merged : store.mergedRecord other now =
          { (store.recordOr other.room).merged other with
            updated := store.stamp now } := by
        rw [mergedRecord, changed]
        rfl
      refine wellFormed.stores (mergeRecord_rooms ..) (mergeRecord_disk ..) ?_
        valid ?_ ?_ ?_ ?_
      · rw [merged]
        exact recordOr_room wellFormed other.room
      · rw [merged]
        exact Record.pruned_prune _
      · rw [merged]
        exact le_max_of_le_left (recordOr_nonneg wellFormed other.room)
          |>.trans_eq (Record.merged_expires ..).symm
      · rw [merged]
        exact store.last_lt_stamp now
      · rw [mergeRecord_last, changed, merged]
        rfl
  | false =>
      have same := mergeRecord_rooms_of_unchanged changed
      constructor
      · rw [same]
        exact wellFormed.rooms
      · rw [same, mergeRecord_last, changed]
        exact wellFormed.stamped
      · rw [mergeRecord_disk]
        exact wellFormed.disk

theorem WellFormed.mergeRemote (wellFormed : store.WellFormed)
    (recs : List (Option Record × Int)) :
    (store.mergeRemote recs).1.WellFormed :=
  mergeRemote_keeps wellFormed
    (fun _ _ now _ valid held => held.mergeRecord valid now)
    fun _ dirty held => held.setDirty dirty

theorem WellFormed.gc (wellFormed : store.WellFormed) (now : Time)
    (keep : Duration) (legacyLimit : Record → Int) (saves : Bool) :
    (store.gc now keep legacyLimit saves).WellFormed := by
  have shrinks : ∀ {name : RoomName} {record : Record},
      (store.gc now keep legacyLimit saves).rooms[name]? = some record →
        ∃ old : Record, store.rooms[name]? = some old ∧
          record.room = old.room ∧ record.updated = old.updated ∧
          record.expires = old.expires ∧
          record.secrets.size ≤ old.secrets.size := by
    intro name record found
    rw [lookup_gc] at found
    obtain ⟨old, stored, kept⟩ := Option.bind_eq_some_iff.mp found
    refine ⟨old, stored, ?_⟩
    unfold collected at kept
    split at kept
    · cases kept
      exact ⟨rfl, rfl, rfl, le_rfl⟩
    · split at kept
      · cases kept
        exact ⟨rfl, rfl, rfl, by simp⟩
      · cases kept
  have rooms := wellFormed.rooms.shrink shrinks
  constructor
  · exact rooms
  · intro name record found
    obtain ⟨old, stored, -, updated, -, -⟩ := shrinks found
    rw [gc_last, updated]
    exact wellFormed.stamped stored
  · intro records saved
    rcases gc_disk store legacyLimit now keep saves with same | written
    · rw [same] at saved
      exact wellFormed.disk saved
    · rw [written] at saved
      exact ⟨_, rooms, (Option.some.inj saved).symm⟩

end Store

end FfmucSalt.MeetReserve
