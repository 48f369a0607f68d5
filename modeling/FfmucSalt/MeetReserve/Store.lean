import FfmucSalt.MeetReserve.Names

/-!
# The store of a signer

All records of a signer and the index from secret hashes to rooms, as in
`store.go`.  Every operation here is one critical section of the source; the
times it reads from the clock, and whether the disk takes a snapshot, are
arguments.
-/

namespace FfmucSalt.MeetReserve

structure Store where
  rooms : FiniteMap RoomName Record
  /-- Secret hash to room. -/
  secrets : FiniteMap Hash RoomName
  dirty : Bool
  /-- Last `updated` handed out, keeps the cursor strictly increasing. -/
  last : Int
  /-- The snapshot on disk. -/
  disk : Option (List Record)
  deriving DecidableEq

/-- What a callback of `update` does: it returns a record or an error, or it
dereferences nil. -/
inductive CallbackResult where
  | ok (record : Record)
  | err (error : Error)
  | nilDereference
  deriving DecidableEq

abbrev Callback : Type := Option Record → CallbackResult

def Record.secretHashes (record : Record) : List Hash := record.secrets.keys

/-- `newStore`, on a disk with or without a snapshot. -/
def newStore (disk : Option (List Record)) : Store :=
  { rooms := ∅, secrets := ∅, dirty := false, last := 0, disk }

namespace Store

/-! ## Index -/

/-- `index` maps the record's secrets to it and forgets pruned ones. -/
def index (store : Store) (record : Record) (before : List Hash) : Store :=
  let kept := before.foldl (fun (secrets : FiniteMap Hash RoomName) hash =>
    if hash ∉ record.secrets ∧ secrets[hash]?.getD [] = record.room then
      secrets.erase hash
    else secrets) store.secrets
  { store with
    secrets := record.secrets.foldl
      (fun secrets hash _ => secrets.insert hash record.room) kept }

/-! ## Snapshots -/

/-- One turn of the loop in `load`. -/
def loadRecord (store : Store) (record : Record) : Store :=
  if record.room = [] then store
  else
    let record := { record with secrets := (Record.prune record.secrets).1 }
    let store :=
      { store with rooms := store.rooms.insert record.room record }.index
        record []
    if store.last < record.updated then { store with last := record.updated }
    else store

/-- `load` reads the snapshot on disk, if there is one. -/
def load (store : Store) : Store :=
  match store.disk with
  | none => store
  | some records => records.foldl loadRecord store

/-- `saveLocked` replaces the snapshot on disk, unless writing it fails. -/
def saveLocked (store : Store) (saves : Bool) : Store :=
  if saves then { store with disk := some store.rooms.values, dirty := false }
  else store

/-- A new process on the same disk. -/
def restart (store : Store) : Store := (newStore store.disk).load

/-! ## Reading -/

def get (store : Store) (room : RoomName) : Option Record := store.rooms[room]?

/-- `bySecret` returns the room a secret belongs to plus the secret's entry. -/
def bySecret (store : Store) (hash : Hash) : Option (Record × SecretEntry) :=
  match store.rooms[store.secrets[hash]?.getD []]? with
  | none => none
  | some record => record.secrets[hash]?.map fun entry => (record, entry)

/-- `since` returns up to `limit` records changed locally after `ms`, oldest
change first, and whether more are left. -/
def since (store : Store) (ms : Int) (limit : Nat) : List Record × Bool :=
  let changed := store.rooms.values.filter fun record => ms < record.updated
  let sorted := sortFunc
    (fun first second => compare first.updated second.updated) changed
  if limit < sorted.length then (sorted.take limit, true) else (sorted, false)

/-! ## Changing -/

/-- `stamp`, at `now` milliseconds. -/
def stamp (store : Store) (now : Int) : Int :=
  if now ≤ store.last then store.last + 1 else now

/-- What `update` does with the record its callback returns. -/
def commit (store : Store) (room : RoomName) (next : Record) (now : Int)
    (saves : Bool) : Record × Store :=
  let next := { next with room }
  let stored := store.rooms[room]?.getD (Record.empty room)
  let before := stored.secretHashes
  let updated := store.stamp now
  let stored := { stored.merged next with updated }
  let store :=
    { store with rooms := store.rooms.insert room stored, last := updated }
  let store := { store.index stored before with dirty := true }
  (stored, store.saveLocked saves)

/-- `update` applies `fn` to the room's record under the store lock.  If `fn`
dereferences nil there is no result, and the lock stays taken. -/
def update (store : Store) (room : RoomName) (fn : Callback) (now : Int)
    (saves : Bool) : Option (Except Error Record × Store) :=
  match fn store.rooms[room]? with
  | .nilDereference => none
  | .err error => some (.error error, store)
  | .ok next =>
      let (out, store) := store.commit room next now saves
      some (.ok out, store)

/-- What `mergeRemote` does with a record that passed its check, and whether
the record counts as changed. -/
def mergeRecord (store : Store) (other : Record) (now : Int) : Store × Bool :=
  let known := store.rooms[other.room]?
  let cur := known.getD (Record.empty other.room)
  let before := cur.secretHashes
  let (merged, changed) := cur.merge other
  if changed ∨ known = none then
    let updated := store.stamp now
    let merged := { merged with updated }
    let store := { store with
      rooms := store.rooms.insert other.room merged, last := updated }
    (store.index merged before, true)
  else
    -- `merge` works on the stored record itself
    ({ store with rooms := store.rooms.insert other.room merged }, false)

/-- One turn of the loop in `mergeRemote`, with the count of changes. -/
def mergeTurn (state : Store × Nat) (rec : Option Record × Int) : Store × Nat :=
  match rec.1 with
  | none => state
  | some other =>
      if other.room = [] ∨ ¬ validRoomName other.room then state
      else
        let (store, changed) := state.1.mergeRecord other rec.2
        (store, if changed then state.2 + 1 else state.2)

/-- `mergeRemote` folds records from a peer in and returns how many changed.
Each record comes with the time the clock shows at its turn. -/
def mergeRemote (store : Store) (recs : List (Option Record × Int)) :
    Store × Nat :=
  let (store, n) := recs.foldl mergeTurn (store, 0)
  (if 0 < n then { store with dirty := true } else store, n)

/-- One turn of the loop in `gc`. -/
def gcRecord (cut : Int) (legacyLimit : Record → Int) (store : Store)
    (name : RoomName) (record : Record) : Store :=
  let ends := max record.expires (max record.revoked (legacyLimit record))
  if cut ≤ ends then store
  else
    let store := { store with
      secrets := record.secrets.foldl
        (fun secrets hash _ => secrets.erase hash) store.secrets }
    if record.revoked ≠ 0 then
      if 0 < record.secrets.size then
        { store with
          rooms := store.rooms.insert name { record with secrets := ∅ }
          dirty := true }
      else store
    else { store with rooms := store.rooms.erase name, dirty := true }

/-- `gc` drops records that ended more than `keep` ago and flushes pending
merges.  Deleted rooms stay as small tombstones without secrets, forever. -/
def gc (store : Store) (now : Time) (keep : Duration)
    (legacyLimit : Record → Int) (saves : Bool) : Store :=
  let cut := Time.unix (now - keep)
  let store := store.rooms.foldl (gcRecord cut legacyLimit) store
  if store.dirty then store.saveLocked saves else store

end Store

/-- Expired rooms are kept this long. -/
def gcKeep : Duration := 30 * 24 * hour

end FfmucSalt.MeetReserve
