import FfmucSalt.Foundation.AtomicFile
import FfmucSalt.MeetReserve.Representation
import FfmucSalt.MeetReserve.Snapshot

/-!
# Crashes while a snapshot is written

A snapshot replaces the one before it by a rename.  Wherever writing it stops,
the next start finds one of the two, whole; and what a store has not written
stays marked as dirty.
-/

namespace FfmucSalt.MeetReserve

open AtomicFile Program

/-! ## Writing and reading the file -/

namespace Server

variable (server : Server)

/-- The part of `saveLocked` that fills the temporary file. -/
def fillTemp (b : Bytes) : Files UInt8 Error (Option Error) := do
  let written ← perform (FileAction.write b)
  let synced ← match written with
    | none => perform FileAction.sync
    | some err => pure (some err)
  let closed ← perform FileAction.close
  return synced.or closed

/-- `saveLocked` on the files, which returns the error and leaves `dirty`.
The records come in the order of a loop over a Go map, which is any order. -/
def saveLocked (store : Store) (records : List Record) :
    Files UInt8 Error (Option Error × Bool) := do
  match ← perform FileAction.create with
  | some err => return (some err, store.dirty)
  | none =>
    match ← fillTemp (server.lib.marshal (snapshot records)) with
    | some err =>
      let _ ← perform FileAction.remove
      return (some err, store.dirty)
    | none =>
      match ← perform FileAction.rename with
      | some err => return (some err, store.dirty)
      | none => return (none, false)

/-- What `json.Unmarshal` makes of the file. -/
def readSnapshot (bytes : Bytes) : Option (List Record) :=
  (server.lib.unmarshal bytes).bind Json.toSnapshot

/-- `load` on a disk; there is no store if it fails. -/
def load (disk : Disk UInt8) : Option Store :=
  match disk.path with
  | none => some (newStore none)
  | some file => (server.readSnapshot file.bytes).map fun records =>
      records.foldl Store.loadRecord (newStore (some records))

/-- The file is synced, and holds the records in some order. -/
def Holds (saved : Option (List Record)) (disk : Disk UInt8) : Prop :=
  match saved with
  | none => disk.path = none
  | some saved => ∃ file records, disk.path = some file ∧ file.synced ∧
      server.readSnapshot file.bytes = some records ∧ records.Perm saved

end Server

section Files

variable {server : Server} {store : Store} {disk later : Disk UInt8}

/-- The path on the way: the file as it was, or the new one complete. -/
private def Between (b : Bytes) (disk later : Disk UInt8) : Prop :=
  later.path = disk.path ∨ later.path = some { bytes := b, synced := true }

/-- The path at the end. -/
private def Ends (b : Bytes) (store : Store) (disk : Disk UInt8)
    (outcome : Option Error × Bool) (later : Disk UInt8) : Prop :=
  match outcome.1 with
  | none => outcome.2 = false ∧
      later.path = some { bytes := b, synced := true }
  | some _ => outcome.2 = store.dirty ∧ later.path = disk.path

/-- The temporary file is filled, unless there was an error. -/
private def Filled (b : Bytes) (disk : Disk UInt8) (outcome : Option Error)
    (later : Disk UInt8) : Prop :=
  later.path = disk.path ∧
    (outcome = none → later.temp = some { bytes := b, synced := true })

private theorem fillTemp_upholds {b : Bytes} {opened : Disk UInt8}
    (created : opened.temp = some { bytes := [], synced := false })
    (kept : opened.path = disk.path) :
    Upholds AtomicFile.machine (Between b disk) (Filled b disk)
      (Server.fillTemp b) opened := by
  have closes : ∀ {synced : Option Error} {full : Disk UInt8},
      Filled b disk synced full →
      Upholds AtomicFile.machine (Between b disk) (Filled b disk)
        (perform FileAction.close >>= fun closed => pure (synced.or closed))
        full := by
    intro synced full filled
    obtain ⟨kept, complete⟩ := filled
    apply Upholds.action (.inl kept)
    intro closed later closes
    have atLater := (closes.path_eq (by simp)).trans kept
    refine .pure (.inl atLater) ⟨atLater, ?_⟩
    intro none
    obtain ⟨noSync, noClose⟩ := Option.or_eq_none_iff.mp none
    subst noClose
    rw [closes.temp_of_close]
    exact complete noSync
  apply Upholds.action (.inl kept)
  intro written full writes
  have atFull := (writes.path_eq (by simp)).trans kept
  cases written with
  | some err => exact closes ⟨atFull, by simp⟩
  | none =>
      have isFull := writes.temp_of_write created
      apply Upholds.action (.inl atFull)
      intro synced later syncs
      have atLater := (syncs.path_eq (by simp)).trans atFull
      apply closes ⟨atLater, ?_⟩
      rintro rfl
      exact syncs.temp_of_sync isFull

private theorem saveLocked_upholds (store : Store) (records : List Record)
    (disk : Disk UInt8) :
    Upholds AtomicFile.machine
      (Between (server.lib.marshal (snapshot records)) disk)
      (Ends (server.lib.marshal (snapshot records)) store disk)
      (server.saveLocked store records) disk := by
  apply Upholds.action (.inl rfl)
  intro created opened creates
  have atOpened := creates.path_eq (by simp)
  cases created with
  | some err => exact .pure (.inl atOpened) ⟨rfl, atOpened⟩
  | none =>
  apply Upholds.bind _ (fillTemp_upholds creates.temp_of_create atOpened)
  intro filled full isFilled
  obtain ⟨atFull, complete⟩ := isFilled
  cases filled with
  | some err =>
      apply Upholds.action (.inl atFull)
      intro _ removed removes
      have atRemoved := (removes.path_eq (by simp)).trans atFull
      exact .pure (.inl atRemoved) ⟨rfl, atRemoved⟩
  | none =>
      apply Upholds.action (.inl atFull)
      intro renamed later renames
      cases renamed with
      | some err =>
          have atLater := renames.path_of_fails.trans atFull
          exact .pure (.inl atLater) ⟨rfl, atLater⟩
      | none =>
          have isNew := renames.path_of_rename (complete rfl)
          exact .pure (.inr isNew) ⟨rfl, isNew⟩

/-! ## The next start -/

/-- A start loads the snapshot, in whatever order it was written. -/
theorem load_of_holds (wellFormed : store.WellFormed)
    (holds : server.Holds store.disk disk) :
    ∃ loaded, server.load disk = some loaded ∧
      loaded.rooms = store.restart.rooms ∧
      ∀ owner, Indexes owner store →
        loaded.secrets = store.restart.secrets := by
  cases saved : store.disk with
  | none =>
      rw [saved] at holds
      refine ⟨newStore none, ?_, ?_⟩
      · unfold Server.load
        rw [show disk.path = none from holds]
      · rw [Store.restart_of_unsaved saved]
        exact ⟨rfl, fun _ _ => rfl⟩
  | some records =>
      rw [saved] at holds
      obtain ⟨file, read, isFile, -, reads, order⟩ := holds
      obtain ⟨rooms, proper, isValues⟩ := wellFormed.disk saved
      subst isValues
      have lists : ∀ record, record ∈ read ↔
          ∃ name : RoomName, rooms[name]? = some record :=
        fun record => order.mem_iff.trans FiniteMap.mem_values
      have sameRooms := Store.restart_rooms proper saved
      have loads := Store.rooms_of_loaded proper lists (some read)
      refine ⟨_, ?_, loads.trans sameRooms.symm, ?_⟩
      · unfold Server.load
        simp [isFile, reads]
      · intro owner indexes
        have apart := (indexes.1.restart wellFormed).apart wellFormed.restart
        have restarted : store.restart.Indexed := .restart wellFormed apart
        rw [sameRooms] at apart
        exact (Store.Indexed.loaded proper apart lists _).secrets_eq restarted
          (loads.trans sameRooms.symm)

end Files

/-! ## What is not dirty is on the disk -/

namespace Store

variable {store : Store}

/-- Without unsaved changes a restart restores the records. -/
def Flushed (store : Store) : Prop :=
  store.dirty = false → store.restart.rooms = store.rooms

private theorem flushed_of_dirty (dirty : store.dirty) : store.Flushed := by
  intro clean
  rw [dirty] at clean
  cases clean

private theorem restart_rooms_congr {later : Store}
    (disk : later.disk = store.disk) :
    later.restart.rooms = store.restart.rooms := by
  unfold restart
  rw [disk]

/-- What a turn of `mergeRemote` leaves as it was. -/
private structure Calm (state later : Store × Nat) : Prop where
  disk : later.1.disk = state.1.disk
  dirty : later.1.dirty = state.1.dirty
  grows : state.2 ≤ later.2
  rooms : later.2 = state.2 → later.1.rooms = state.1.rooms

private theorem Calm.refl (state : Store × Nat) : Calm state state :=
  ⟨rfl, rfl, le_rfl, fun _ => rfl⟩

private theorem Calm.trans {first second third : Store × Nat}
    (left : Calm first second) (right : Calm second third) :
    Calm first third := by
  refine ⟨right.disk.trans left.disk, right.dirty.trans left.dirty,
    left.grows.trans right.grows, ?_⟩
  intro same
  have lower := left.grows
  have upper := right.grows
  exact (right.rooms (by omega)).trans (left.rooms (by omega))

private theorem calm_mergeTurn (state : Store × Nat)
    (rec : Option Record × Int) : Calm state (mergeTurn state rec) := by
  obtain ⟨record, now⟩ := rec
  unfold mergeTurn
  cases record with
  | none => exact .refl state
  | some other =>
      dsimp only
      split
      · exact .refl state
      · refine ⟨mergeRecord_disk .., mergeRecord_dirty .., ?_, ?_⟩
        · dsimp only
          split <;> omega
        · intro same
          apply mergeRecord_rooms_of_unchanged
          cases changed : (state.1.mergeRecord other now).2 with
          | false => rfl
          | true => simp [changed] at same

private theorem calm_mergeTurns (recs : List (Option Record × Int))
    (state : Store × Nat) : Calm state (recs.foldl mergeTurn state) := by
  induction recs generalizing state with
  | nil => exact .refl state
  | cons rec recs induction =>
      exact (calm_mergeTurn state rec).trans (induction _)

theorem Flushed.mergeRemote (flushed : store.Flushed)
    (recs : List (Option Record × Int)) :
    (store.mergeRemote recs).1.Flushed := by
  have calm := calm_mergeTurns recs (store, 0)
  unfold Store.mergeRemote
  dsimp only
  split
  · exact flushed_of_dirty rfl
  · rename_i none
    intro clean
    rw [restart_rooms_congr calm.disk, calm.rooms (Nat.eq_zero_of_not_pos none)]
    exact flushed (calm.dirty ▸ clean)

/-- A loop of `gc` that leaves the store clean leaves it as it was. -/
private theorem gcRecord_clean {cut : Int} {legacyLimit : Record → Int}
    {start : Store}
    (clean : (start.rooms.foldl (gcRecord cut legacyLimit) start).dirty = false) :
    start.dirty = false ∧
      (start.rooms.foldl (gcRecord cut legacyLimit) start).rooms =
        start.rooms ∧
      (start.rooms.foldl (gcRecord cut legacyLimit) start).disk =
        start.disk := by
  refine FiniteMap.foldl_keeps
    (motive := fun store : Store => store.dirty = false →
      start.dirty = false ∧ store.rooms = start.rooms ∧
        store.disk = start.disk) (fun clean => ⟨clean, rfl, rfl⟩) ?_ clean
  intro store name record _ held
  unfold gcRecord
  dsimp only
  split
  · exact held
  · split
    · split
      · simp
      · exact held
    · simp

theorem Flushed.gc (flushed : store.Flushed) (wellFormed : store.WellFormed)
    (now : Time) (keep : Duration) (legacyLimit : Record → Int) (saves : Bool) :
    (store.gc now keep legacyLimit saves).Flushed := by
  intro clean
  have later := wellFormed.gc now keep legacyLimit saves
  unfold Store.gc at clean later ⊢
  dsimp only at clean later ⊢
  split at clean
  · rename_i dirty
    rw [if_pos dirty] at later ⊢
    cases saves with
    | true => exact restart_rooms later.rooms rfl
    | false =>
        have impossible : true = false := dirty.symm.trans clean
        cases impossible
  · rename_i notDirty
    rw [if_neg notDirty]
    obtain ⟨wasClean, rooms, disk⟩ := gcRecord_clean clean
    rw [restart_rooms_congr disk, rooms]
    exact flushed wasClean

theorem Flushed.run {server : Server} {later : Store} {operation : Operation}
    {result : Option Record} (flushed : store.Flushed)
    (wellFormed : store.WellFormed) (legal : server.Legal operation)
    (done : server.run store operation = some (result, later)) :
    later.Flushed := by
  have laterWellFormed := wellFormed.run legal done
  cases operation with
  | update room change random now saves =>
      obtain ⟨⟨outcome, after⟩, updated, same⟩ := Option.map_eq_some_iff.mp done
      cases same
      cases outcome with
      | error error => exact (update_error updated).2 ▸ flushed
      | ok out =>
          obtain ⟨next, -, committed⟩ := update_ok updated
          have isAfter : after = (store.commit room next now saves).2 := by
            rw [committed]
          rw [isAfter] at laterWellFormed ⊢
          cases saves with
          | true => exact fun _ => restart_rooms laterWellFormed.rooms rfl
          | false => exact flushed_of_dirty rfl
  | mergeRemote recs =>
      cases done
      exact flushed.mergeRemote recs
  | gc now saves =>
      cases done
      exact flushed.gc wellFormed now gcKeep _ saves
  | restart =>
      cases done
      exact fun _ => restart_rooms_congr (restart_disk store)

/-- `gc` writes a dirty store, and leaves it dirty if that fails. -/
theorem gc_of_dirty (dirty : store.dirty) (now : Time) (keep : Duration)
    (legacyLimit : Record → Int) (saves : Bool) :
    if saves then
      (store.gc now keep legacyLimit saves).dirty = false ∧
        (store.gc now keep legacyLimit saves).disk =
          some (store.gc now keep legacyLimit saves).rooms.values
    else (store.gc now keep legacyLimit saves).dirty := by
  have stays : (store.rooms.foldl
      (gcRecord (Time.unix (now - keep)) legacyLimit) store).dirty := by
    apply FiniteMap.foldl_keeps (motive := fun store : Store => store.dirty) dirty
    intro store name record _ held
    unfold gcRecord
    dsimp only
    split
    · exact held
    · split
      · split
        · rfl
        · exact held
      · rfl
  unfold gc
  dsimp only
  rw [if_pos stays]
  cases saves with
  | true => exact ⟨rfl, rfl⟩
  | false => exact stays

/-- A dirty store stays dirty until it is written. -/
theorem dirty_of_run {server : Server} {later : Store} {operation : Operation}
    {result : Option Record} (dirty : store.dirty)
    (running : operation ≠ .restart)
    (done : server.run store operation = some (result, later)) :
    later.dirty ∨ later.disk = some later.rooms.values := by
  cases operation with
  | update room change random now saves =>
      obtain ⟨⟨outcome, after⟩, updated, same⟩ := Option.map_eq_some_iff.mp done
      cases same
      cases outcome with
      | error error => exact .inl ((update_error updated).2 ▸ dirty)
      | ok out =>
          obtain ⟨next, -, committed⟩ := update_ok updated
          have isAfter : after = (store.commit room next now saves).2 := by
            rw [committed]
          rw [isAfter]
          cases saves with
          | true => exact .inr rfl
          | false => exact .inl rfl
  | mergeRemote recs =>
      cases done
      unfold Store.mergeRemote
      dsimp only
      split
      · exact .inl rfl
      · exact .inl ((calm_mergeTurns recs (store, 0)).dirty.trans dirty)
  | gc now saves =>
      cases done
      have writes := gc_of_dirty dirty now gcKeep server.legacyLimit saves
      cases saves with
      | true => exact .inr writes.2
      | false => exact .inl writes
  | restart => exact (running rfl).elim

end Store

/-- A store that was reached without a hash that belongs to two rooms. -/
def Server.ReachesApart (server : Server) (store : Store) : Prop :=
  ∃ owner, server.History (server.KeepsOwners owner) (newStore none) store

section Safety

variable {server : Server} {owner : Hash → RoomName}

theorem Server.Holds.of_path {saved : Option (List Record)}
    {disk later : Disk UInt8} (holds : server.Holds saved disk)
    (same : later.path = disk.path) : server.Holds saved later := by
  cases saved with
  | none => exact same.trans holds
  | some saved =>
      obtain ⟨file, records, isFile, rest⟩ := holds
      exact ⟨file, records, same.trans isFile, rest⟩

theorem Server.Holds.synced {saved : Option (List Record)} {disk : Disk UInt8}
    (holds : server.Holds saved disk) {file : File UInt8}
    (isFile : disk.path = some file) : file.synced := by
  cases saved with
  | none =>
      rw [show disk.path = none from holds] at isFile
      cases isFile
  | some saved =>
      obtain ⟨found, records, isFound, synced, -⟩ := holds
      rw [isFound] at isFile
      cases isFile
      exact synced

theorem Indexes.saveLocked {store : Store} (indexes : Indexes owner store) :
    Indexes owner (store.saveLocked true) := by
  obtain ⟨every, indexed⟩ := indexes
  refine ⟨⟨every.rooms, ?_⟩, indexed⟩
  intro records saved record member
  cases saved
  obtain ⟨name, stored⟩ := FiniteMap.mem_values.mp member
  exact every.rooms stored

/-- A restart from a new snapshot restores the index. -/
theorem Indexes.restart_saveLocked {store : Store}
    (indexes : Indexes owner store) (wellFormed : store.WellFormed) :
    (store.saveLocked true).restart.secrets = store.secrets := by
  have saved := wellFormed.saveLocked true
  have every := indexes.saveLocked.1.restart saved
  exact (Store.Indexed.restart saved (every.apart saved.restart)).secrets_eq
    indexes.2 (Store.restart_rooms wellFormed.rooms rfl)

theorem Server.History.flushed {store : Store}
    {condition : Store → Operation → Option Record → Prop}
    (history : server.History condition (newStore none) store) :
    store.Flushed :=
  (history.keeps .newStore (motive := Store.Flushed) (fun _ => rfl)
    fun wellFormed flushed _ legal done =>
      flushed.run wellFormed legal done).2

/-- What a start finds after `saveLocked` on the files of a reachable store:
the new snapshot once it was completed, the one before it if it failed, and one
of the two if the process died on the way.  The index comes back with the
records if no hash ever belonged to two rooms. -/
theorem saveLocked_crash_safe {store : Store} {disk : Disk UInt8}
    {records : List Record}
    (history : server.History (fun _ _ _ => True) (newStore none) store)
    (holds : server.Holds store.disk disk)
    (lists : records.Perm store.rooms.values)
    (roundTrips : server.readSnapshot (server.lib.marshal (snapshot records)) =
      some records) :
    (∀ dirty later, Run AtomicFile.machine.alone
        (server.saveLocked store records) disk (none, dirty) later →
      dirty = false ∧ server.Holds (store.saveLocked true).disk later ∧
        ∃ loaded, server.load later = some loaded ∧
          loaded.rooms = store.rooms ∧
          (server.ReachesApart store → loaded.secrets = store.secrets)) ∧
    (∀ err dirty later, Run AtomicFile.machine.alone
        (server.saveLocked store records) disk (some err, dirty) later →
      dirty = store.dirty ∧ server.Holds store.disk later) ∧
    (∀ middle later, Passes AtomicFile.machine
        (server.saveLocked store records) disk middle →
        middle.Survives later →
      ∃ loaded, server.load later = some loaded ∧
        (server.Holds store.disk later ∧
            loaded.rooms = store.restart.rooms ∧
            (server.ReachesApart store →
              loaded.secrets = store.restart.secrets) ∨
          server.Holds (store.saveLocked true).disk later ∧
            loaded.rooms = store.rooms ∧
            (server.ReachesApart store → loaded.secrets = store.secrets))) ∧
    (store.dirty = false → store.restart.rooms = store.rooms) ∧
    (store.dirty →
      (∀ operation result later, operation ≠ .restart →
        server.run store operation = some (result, later) →
          later.dirty ∨ later.disk = some later.rooms.values) ∧
      ∀ now,
        (store.gc now gcKeep server.legacyLimit true).disk =
          some (store.gc now gcKeep server.legacyLimit true).rooms.values ∧
        (store.gc now gcKeep server.legacyLimit false).dirty) := by
  obtain ⟨wellFormed, -⟩ :=
    history.keeps .newStore trivial (motive := fun _ => True)
      fun _ _ _ _ _ => trivial
  have upholds := @saveLocked_upholds server store records disk
  have holdsOld : ∀ {later : Disk UInt8}, later.path = disk.path →
      server.Holds store.disk later := fun same => holds.of_path same
  have holdsNew : ∀ {later : Disk UInt8}, later.path = some
      { bytes := server.lib.marshal (snapshot records), synced := true } →
      server.Holds (store.saveLocked true).disk later :=
    fun isNew => ⟨_, records, isNew, rfl, roundTrips, lists⟩
  have loadsNew : ∀ {later : Disk UInt8},
      server.Holds (store.saveLocked true).disk later →
      ∃ loaded, server.load later = some loaded ∧
        loaded.rooms = store.rooms ∧
        (server.ReachesApart store → loaded.secrets = store.secrets) := by
    intro later holds
    obtain ⟨loaded, loads, rooms, secrets⟩ :=
      load_of_holds (wellFormed.saveLocked true) holds
    refine ⟨loaded, loads,
      rooms.trans (Store.restart_rooms wellFormed.rooms rfl), ?_⟩
    intro ⟨owner, owners⟩
    have indexes := owners.indexes.2
    exact (secrets owner indexes.saveLocked).trans
      (indexes.restart_saveLocked wellFormed)
  refine ⟨?_, ?_, ?_, history.flushed, ?_⟩
  · intro dirty later run
    obtain ⟨clean, isNew⟩ := upholds.run run
    exact ⟨clean, holdsNew isNew, loadsNew (holdsNew isNew)⟩
  · intro err dirty later run
    obtain ⟨same, isOld⟩ := upholds.run run
    exact ⟨same, holdsOld isOld⟩
  · intro middle later passes survives
    rcases upholds.passes passes with isOld | isNew
    · have kept := survives.path fun file isFile =>
        holds.synced (isOld ▸ isFile)
      have holdsLater := holdsOld (kept.trans isOld)
      obtain ⟨loaded, loads, rooms, secrets⟩ :=
        load_of_holds wellFormed holdsLater
      refine ⟨loaded, loads, .inl ⟨holdsLater, rooms, ?_⟩⟩
      exact fun ⟨owner, owners⟩ => secrets owner owners.indexes.2
    · have kept := survives.path fun file isFile => by
        rw [isNew] at isFile
        cases isFile
        rfl
      have holdsLater := holdsNew (kept.trans isNew)
      obtain ⟨loaded, loads, found⟩ := loadsNew holdsLater
      exact ⟨loaded, loads, .inr ⟨holdsLater, found⟩⟩
  · intro dirty
    constructor
    · intro operation result later running done
      exact Store.dirty_of_run dirty running done
    · intro now
      exact ⟨(Store.gc_of_dirty dirty now gcKeep _ true).2,
        Store.gc_of_dirty dirty now gcKeep _ false⟩

end Safety

namespace Sample

/-- A reservation whose snapshot was not written. -/
def reserveUnsaved : Option Record × Store :=
  (server.run (newStore none) (.update room
    (.reserve (Time.ofUnix 1000) (72 * hour) host) 0 0 false)).getD
      (none, newStore none)

def unsaved : Store := reserveUnsaved.2

/-- Read one text only. -/
def unmarshalOnly (json : Json) (text : Bytes) : Option Json :=
  if text = marshal json then some json else none

private theorem unmarshalOnly_marshal (json : Json) :
    unmarshalOnly json (marshal json) = some json :=
  if_pos rfl

/-- The signer, with a library that reads the snapshot of some records. -/
def reader (records : List Record) : Server :=
  { server with
    lib := { library with unmarshal := unmarshalOnly (snapshot records) } }

private theorem reads_snapshot {records : List Record}
    (fits : ∀ record ∈ records,
      (-(2 ^ 63 : Int) ≤ record.created ∧ record.created < 2 ^ 63) ∧
      (-(2 ^ 63 : Int) ≤ record.expires ∧ record.expires < 2 ^ 63) ∧
      (-(2 ^ 63 : Int) ≤ record.revoked ∧ record.revoked < 2 ^ 63) ∧
      (-(2 ^ 63 : Int) ≤ record.updated ∧ record.updated < 2 ^ 63)) :
    (reader records).readSnapshot (marshal (snapshot records)) =
      some records := by
  have isReader : (reader records).lib.unmarshal =
      unmarshalOnly (snapshot records) := rfl
  unfold Server.readSnapshot
  rw [isReader, unmarshalOnly_marshal, Option.bind_some]
  apply toSnapshot_snapshot
  intro record member
  obtain ⟨created, expires, revoked, updated⟩ := fits record member
  exact ⟨created, expires, revoked, updated⟩

/-- The first snapshot of a signer is written. -/
private theorem first_run (store : Store) (records : List Record) :
    Run AtomicFile.machine.alone ((reader records).saveLocked store records)
      { path := none, temp := none } (none, false)
      { path := some
          { bytes := marshal (snapshot records), synced := true }
        temp := none } :=
  .call .created (.call (.written rfl) (.call (.synced rfl) (.call .closed
    (.call (.renamed rfl) .done))))

private theorem unsaved_reached (records : List Record) :
    (reader records).History ((reader records).KeepsOwners fun _ => room)
      (newStore none) unsaved := by
  have legal : (reader records).Legal (.update room
      (.reserve (Time.ofUnix 1000) (72 * hour) host) 0 0 false) := by
    change isShortName room ∧ 0 < Time.unix (Time.ofUnix 1000)
    decide
  have done : server.run (newStore none) (.update room
      (.reserve (Time.ofUnix 1000) (72 * hour) host) 0 0 false) =
        some reserveUnsaved :=
    eq_some_getD (by decide)
  refine .single ⟨_, _, ⟨?_, ?_⟩, legal, done⟩
  · simp [Operation.received]
  · intro _ pair isPair
    cases isPair
    exact ⟨rfl, rfl⟩

/-- The first snapshot is written to an empty disk, and read back. -/
theorem saveLocked_crash_safe_first :
    ∃ loaded, (reader unsaved.rooms.values).load
      { path := some
          { bytes := marshal (snapshot unsaved.rooms.values), synced := true }
        temp := none } = some loaded ∧
      loaded.rooms = unsaved.rooms ∧ loaded.secrets = unsaved.secrets := by
  have nothing : unsaved.disk = none := by decide
  have holds : (reader unsaved.rooms.values).Holds unsaved.disk
      { path := none, temp := none } := by
    rw [nothing]
    rfl
  have owners := unsaved_reached unsaved.rooms.values
  have history : (reader unsaved.rooms.values).History (fun _ _ _ => True)
      (newStore none) unsaved := by
    refine Relation.ReflTransGen.mono ?_ _ _ owners
    intro _ _ ⟨operation, result, _, runs⟩
    exact ⟨operation, result, trivial, runs⟩
  obtain ⟨-, -, loaded, loads, rooms, secrets⟩ := (saveLocked_crash_safe
    history holds (.refl _) (reads_snapshot (by decide))).1 _ _
      (first_run unsaved unsaved.rooms.values)
  exact ⟨loaded, loads, rooms, secrets ⟨_, owners⟩⟩

/-! ## Two rooms with one hash -/

def otherRoom : RoomName := newRoomName (List.replicate 14 0)

/-- The record of the sample's room, and one with its hashes for an other
room. -/
def shared : List (Option Record × Int) :=
  [(some (reservedStore.recordOr room), 0),
   (some { reservedStore.recordOr room with room := otherRoom }, 0)]

def sharedStore : Store := ((newStore none).mergeRemote shared).1

/-- After a restart a hash of both leads to the other room. -/
theorem load_moves_shared_hash :
    ¬ ∀ (server : Server) (store : Store) (disk : Disk UInt8)
        (records : List Record),
      server.History (fun _ _ _ => True) (newStore none) store →
      server.Holds store.disk disk → records.Perm store.rooms.values →
      server.readSnapshot (server.lib.marshal (snapshot records)) =
        some records →
      ∀ dirty later, Run AtomicFile.machine.alone
          (server.saveLocked store records) disk (none, dirty) later →
        ∃ loaded, server.load later = some loaded ∧
          loaded.rooms = store.rooms ∧ loaded.secrets = store.secrets := by
  intro claimed
  let records := sharedStore.rooms.values
  have history : (reader records).History (fun _ _ _ => True) (newStore none)
      sharedStore :=
    .single ⟨.mergeRemote shared, none, trivial, trivial, rfl⟩
  have nothing : sharedStore.disk = none := by decide
  have holds : (reader records).Holds sharedStore.disk
      { path := none, temp := none } := by
    rw [nothing]
    rfl
  have reads := @reads_snapshot records (by decide)
  obtain ⟨loaded, loads, -, secrets⟩ := claimed (reader records) sharedStore
    _ records history holds (.refl _) reads false _
    (first_run sharedStore records)
  have found : sharedStore.secrets[server.hashSecret host]? =
      some otherRoom := by
    decide
  have isLoaded : loaded =
      records.foldl Store.loadRecord (newStore (some records)) := by
    unfold Server.load at loads
    simp only [reads, Option.map_some, Option.some.injEq] at loads
    exact loads.symm
  have moved : (records.foldl Store.loadRecord
      (newStore (some records))).secrets[server.hashSecret host]? =
        some room := by
    decide
  rw [← secrets, isLoaded, moved] at found
  revert found
  decide

end Sample

end FfmucSalt.MeetReserve
