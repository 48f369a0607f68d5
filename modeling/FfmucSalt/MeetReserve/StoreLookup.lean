import FfmucSalt.MeetReserve.RecordOrder
import FfmucSalt.MeetReserve.Store

/-!
# What store operations do to one room and one hash

Each operation is described by the records and the index entries it leaves,
so that later proofs do not open the loops of `Store` again.
-/

namespace FfmucSalt.MeetReserve.Store

variable (store : Store)

/-! ## Index -/

section Index

variable (record : Record) (before : List Hash)

@[simp] theorem index_rooms : (store.index record before).rooms = store.rooms :=
  rfl

@[simp] theorem index_last : (store.index record before).last = store.last :=
  rfl

@[simp] theorem index_disk : (store.index record before).disk = store.disk :=
  rfl

/-- A loop that sets every key of a record's secrets. -/
private theorem lookup_insert_all (secrets : Secrets) (room : RoomName)
    (start : FiniteMap Hash RoomName) (hash : Hash) :
    (secrets.foldl (fun index hash _ => index.insert hash room) start)[hash]? =
      if hash ∈ secrets then some room else start[hash]? := by
  rw [FiniteMap.lookup_foldl (fun _ _ _ => some room)]
  · cases found : secrets[hash]? with
    | none =>
        have : hash ∉ secrets := by
          simp [FiniteMap.mem_iff_lookup, found]
        rw [if_neg this]
    | some entry =>
        rw [if_pos (FiniteMap.mem_iff_lookup.mpr ⟨entry, found⟩)]
  · intro map key value other
    exact FiniteMap.lookup_insert map key other room

private theorem lookup_forget (hashes : List Hash)
    (start : FiniteMap Hash RoomName) (hash : Hash) :
    (hashes.foldl (fun (index : FiniteMap Hash RoomName) hash =>
      if hash ∉ record.secrets ∧ index[hash]?.getD [] = record.room then
        index.erase hash
      else index) start)[hash]? =
      if hash ∈ hashes ∧ hash ∉ record.secrets ∧
          start[hash]?.getD [] = record.room then none
      else start[hash]? := by
  induction hashes generalizing start with
  | nil => simp
  | cons first rest induction =>
      rw [List.foldl_cons, induction]
      by_cases here : first = hash
      · subst here
        by_cases forgotten : first ∉ record.secrets ∧
            start[first]?.getD [] = record.room
        · rw [if_pos forgotten]
          simp [forgotten]
        · rw [if_neg forgotten]
          simp [forgotten]
      · have notHere : hash ≠ first := Ne.symm here
        split
        · simp [FiniteMap.lookup_erase, here, notHere]
        · simp [notHere]

/-- The index after a record was stored. -/
theorem lookup_index (hash : Hash) :
    (store.index record before).secrets[hash]? =
      if hash ∈ record.secrets then some record.room
      else if hash ∈ before ∧ store.secrets[hash]?.getD [] = record.room then
        none
      else store.secrets[hash]? := by
  unfold index
  dsimp only
  rw [lookup_insert_all, lookup_forget]
  by_cases stored : hash ∈ record.secrets
  · simp [stored]
  · simp [stored]

end Index

@[simp] theorem saveLocked_rooms (saves : Bool) :
    (store.saveLocked saves).rooms = store.rooms := by
  unfold saveLocked
  split <;> rfl

@[simp] theorem saveLocked_secrets (saves : Bool) :
    (store.saveLocked saves).secrets = store.secrets := by
  unfold saveLocked
  split <;> rfl

@[simp] theorem saveLocked_last (saves : Bool) :
    (store.saveLocked saves).last = store.last := by
  unfold saveLocked
  split <;> rfl

theorem last_lt_stamp (now : Int) : store.last < store.stamp now := by
  unfold stamp
  split <;> omega

theorem le_stamp (now : Int) : now ≤ store.stamp now := by
  unfold stamp
  split <;> omega

/-! ## Update -/

/-- The record a room has from a merge's point of view. -/
def recordOr (room : RoomName) : Record :=
  store.rooms[room]?.getD (Record.empty room)

theorem eq_some_recordOr {store : Store} {room : RoomName}
    (known : store.rooms[room]?.isSome) :
    store.rooms[room]? = some (store.recordOr room) := by
  obtain ⟨record, stored⟩ := Option.isSome_iff_exists.mp known
  rw [recordOr, stored]
  rfl

section Commit

variable (room : RoomName) (next : Record) (now : Int) (saves : Bool)

theorem commit_out : (store.commit room next now saves).1 =
    { (store.recordOr room).merged { next with room } with
      updated := store.stamp now } :=
  rfl

@[simp] theorem commit_rooms : (store.commit room next now saves).2.rooms =
    store.rooms.insert room (store.commit room next now saves).1 := by
  simp [commit]

@[simp] theorem commit_last :
    (store.commit room next now saves).2.last = store.stamp now := by
  simp [commit]

theorem commit_secrets : (store.commit room next now saves).2.secrets =
    (store.index (store.commit room next now saves).1
      (store.recordOr room).secretHashes).secrets := by
  cases saves <;> rfl

end Commit

/-- A successful update committed what its callback returned. -/
theorem update_ok {store later : Store} {room : RoomName} {fn : Callback}
    {now : Int} {saves : Bool} {out : Record}
    (updated : store.update room fn now saves = some (.ok out, later)) :
    ∃ next, fn store.rooms[room]? = .ok next ∧
      store.commit room next now saves = (out, later) := by
  unfold update at updated
  split at updated
  · cases updated
  · cases updated
  · rename_i next returned
    simp only [Option.some.injEq, Prod.mk.injEq, Except.ok.injEq] at updated
    exact ⟨next, returned, Prod.ext updated.1 updated.2⟩

/-- A failed update changed nothing. -/
theorem update_error {store later : Store} {room : RoomName} {fn : Callback}
    {now : Int} {saves : Bool} {error : Error}
    (updated : store.update room fn now saves = some (.error error, later)) :
    fn store.rooms[room]? = .err error ∧ later = store := by
  unfold update at updated
  split at updated
  · cases updated
  · rename_i failed returned
    simp only [Option.some.injEq, Prod.mk.injEq, Except.error.injEq] at updated
    exact ⟨updated.1 ▸ returned, updated.2.symm⟩
  · simp at updated

/-! ## Merging from peers -/

section MergeRecord

variable (other : Record) (now : Int)

/-- The record that a merge from a peer leaves behind. -/
def mergedRecord : Record :=
  let record := (store.recordOr other.room).merged other
  if (store.mergeRecord other now).2 then
    { record with updated := store.stamp now }
  else record

theorem mergedRecord_of_unchanged {store : Store} {other : Record} {now : Int}
    (unchanged : (store.mergeRecord other now).2 = false) :
    store.mergedRecord other now = store.recordOr other.room := by
  have report : ((store.recordOr other.room).merge other).2 = false := by
    unfold mergeRecord at unchanged
    dsimp only at unchanged
    split at unchanged
    · simp at unchanged
    · rename_i notChanged
      exact eq_false_of_ne_true (not_or.mp notChanged).1
  unfold mergedRecord
  rw [unchanged]
  exact Record.merged_of_unchanged report

theorem mergeRecord_rooms : (store.mergeRecord other now).1.rooms =
    store.rooms.insert other.room (store.mergedRecord other now) := by
  unfold mergedRecord mergeRecord recordOr Record.merged
  dsimp only
  split <;> simp

theorem mergeRecord_last :
    (store.mergeRecord other now).1.last =
      if (store.mergeRecord other now).2 then store.stamp now
      else store.last := by
  unfold mergeRecord
  dsimp only
  split <;> simp

theorem mergeRecord_secrets :
    (store.mergeRecord other now).1.secrets =
      if (store.mergeRecord other now).2 then
        (store.index (store.mergedRecord other now)
          (store.recordOr other.room).secretHashes).secrets
      else store.secrets := by
  unfold mergedRecord mergeRecord recordOr Record.merged
  dsimp only
  split <;> rfl

theorem mergeRecord_disk :
    (store.mergeRecord other now).1.disk = store.disk := by
  unfold mergeRecord
  dsimp only
  split <;> simp

theorem mergeRecord_dirty :
    (store.mergeRecord other now).1.dirty = store.dirty := by
  unfold mergeRecord
  dsimp only
  split <;> rfl

/-- A merge that reports no change leaves the records alone. -/
theorem mergeRecord_rooms_of_unchanged {store : Store} {other : Record}
    {now : Int} (unchanged : (store.mergeRecord other now).2 = false) :
    (store.mergeRecord other now).1.rooms = store.rooms := by
  have known : store.rooms[other.room]? ≠ none := by
    unfold mergeRecord at unchanged
    dsimp only at unchanged
    split at unchanged
    · simp at unchanged
    · rename_i notChanged
      exact (not_or.mp notChanged).2
  obtain ⟨record, stored⟩ := Option.ne_none_iff_exists'.mp known
  rw [mergeRecord_rooms, mergedRecord_of_unchanged unchanged]
  ext1 name
  rw [FiniteMap.lookup_insert]
  split
  · rename_i same
    rw [← same, recordOr, stored]
    rfl
  · rfl

end MergeRecord

/-- One turn of the loop of `mergeRemote`, without the count. -/
def receive (store : Store) (rec : Option Record × Int) : Store :=
  match rec.1 with
  | none => store
  | some other =>
      if other.room = [] ∨ ¬ validRoomName other.room then store
      else (store.mergeRecord other rec.2).1

/-- `mergeRemote` receives one record after the other. -/
theorem mergeRemote_eq (recs : List (Option Record × Int)) :
    ∃ dirty, (store.mergeRemote recs).1 =
      { recs.foldl receive store with dirty } := by
  have loop : (recs.foldl mergeTurn (store, 0)).1 = recs.foldl receive store := by
    refine (List.foldl_hom Prod.fst ?_).symm
    rintro state ⟨record, now⟩
    unfold receive mergeTurn
    cases record with
    | none => rfl
    | some other =>
        dsimp only
        split <;> rfl
  unfold mergeRemote
  dsimp only
  split
  · exact ⟨true, by rw [← loop]⟩
  · exact ⟨(recs.foldl receive store).dirty, by rw [← loop]⟩

/-- The rule for the loop of `mergeRemote`: what every merge of a valid record
keeps, and setting `dirty` keeps, the loop keeps. -/
theorem mergeRemote_keeps {store : Store} {motive : Store → Prop}
    {recs : List (Option Record × Int)} (holds : motive store)
    (turn : ∀ (store : Store) other now, (some other, now) ∈ recs →
      validRoomName other.room → motive store →
        motive (store.mergeRecord other now).1)
    (setDirty : ∀ (store : Store) dirty, motive store →
      motive { store with dirty }) :
    motive (store.mergeRemote recs).1 := by
  obtain ⟨dirty, same⟩ := store.mergeRemote_eq recs
  rw [same]
  refine setDirty _ dirty (List.foldlRecOn _ _ holds ?_)
  rintro state held ⟨record, now⟩ member
  unfold receive
  cases record with
  | none => exact held
  | some other =>
      dsimp only
      split
      · exact held
      · rename_i accepted
        exact turn state other now member
          (not_not.mp (not_or.mp accepted).2) held

/-! ## Garbage collection -/

section Collect

variable (cut : Int) (legacyLimit : Record → Int)

/-- What `gc` leaves of a record. -/
def collected (record : Record) : Option Record :=
  if cut ≤ max record.expires (max record.revoked (legacyLimit record)) then
    some record
  else if record.revoked ≠ 0 then some { record with secrets := ∅ }
  else none

/-- What one turn of the loop leaves of a record's slot. -/
private def collectSlot (old : Option Record) (record : Record) :
    Option Record :=
  if cut ≤ max record.expires (max record.revoked (legacyLimit record)) then old
  else if record.revoked ≠ 0 then
    if 0 < record.secrets.size then some { record with secrets := ∅ } else old
  else none

private def gcRooms (rooms : FiniteMap RoomName Record) (name : RoomName)
    (record : Record) : FiniteMap RoomName Record :=
  (gcRecord cut legacyLimit { newStore none with rooms } name record).rooms

private theorem gcRecord_rooms (store : Store) (name : RoomName)
    (record : Record) :
    (gcRecord cut legacyLimit store name record).rooms =
      gcRooms cut legacyLimit store.rooms name record := by
  unfold gcRooms gcRecord
  dsimp only
  split
  · rfl
  · split
    · split <;> rfl
    · rfl

private theorem lookup_gcRooms (rooms : FiniteMap RoomName Record)
    (name : RoomName) (record : Record) (other : RoomName) :
    (gcRooms cut legacyLimit rooms name record)[other]? =
      if name = other then collectSlot cut legacyLimit rooms[name]? record
      else rooms[other]? := by
  unfold gcRooms gcRecord collectSlot
  dsimp only
  split
  · by_cases same : name = other <;> simp [same]
  · split
    · split
      · simp only [FiniteMap.lookup_insert]
      · by_cases same : name = other <;> simp [same]
    · simp only [FiniteMap.lookup_erase]

/-- The records after `gc`. -/
theorem lookup_gc (now : Time) (keep : Duration) (saves : Bool)
    (name : RoomName) :
    (store.gc now keep legacyLimit saves).rooms[name]? =
      store.rooms[name]?.bind
        (collected (Time.unix (now - keep)) legacyLimit) := by
  have rooms : (store.gc now keep legacyLimit saves).rooms =
      store.rooms.foldl (gcRooms (Time.unix (now - keep)) legacyLimit)
        store.rooms := by
    rw [← FiniteMap.foldl_hom (f := Store.rooms)
      (gcRecord_rooms (Time.unix (now - keep)) legacyLimit)]
    unfold gc
    dsimp only
    split
    · exact saveLocked_rooms _ _
    · rfl
  rw [rooms, FiniteMap.lookup_foldl (fun _ => collectSlot _ legacyLimit)
    (lookup_gcRooms (Time.unix (now - keep)) legacyLimit)]
  cases stored : store.rooms[name]? with
  | none => rfl
  | some record =>
      simp only [collectSlot, collected, Option.bind_some]
      split
      · rfl
      · split
        · split
          · rfl
          · rename_i noSecrets
            have empty : record.secrets = ∅ := by
              rw [Std.ExtTreeMap.eq_empty_iff_size_eq_zero]
              omega
            rw [← empty]
        · rfl

private theorem lookup_erase_all (secrets : Secrets)
    (start : FiniteMap Hash RoomName) (hash : Hash) :
    (secrets.foldl (fun index hash _ => index.erase hash) start)[hash]? =
      if hash ∈ secrets then none else start[hash]? := by
  rw [FiniteMap.lookup_foldl (fun _ _ _ => none)]
  · cases found : secrets[hash]? with
    | none =>
        have : hash ∉ secrets := by
          simp [FiniteMap.mem_iff_lookup, found]
        rw [if_neg this]
    | some entry =>
        rw [if_pos (FiniteMap.mem_iff_lookup.mpr ⟨entry, found⟩)]
  · intro map key value other
    exact FiniteMap.lookup_erase map key other

open Classical in
/-- The index after `gc`: it forgets the hashes of the records that ended. -/
theorem lookup_gc_secrets (now : Time) (keep : Duration) (saves : Bool)
    (hash : Hash) :
    (store.gc now keep legacyLimit saves).secrets[hash]? =
      if ∃ (name : RoomName) (record : Record),
          store.rooms[name]? = some record ∧ hash ∈ record.secrets ∧
          max record.expires (max record.revoked (legacyLimit record)) <
            Time.unix (now - keep) then none
      else store.secrets[hash]? := by
  have secrets : (store.gc now keep legacyLimit saves).secrets =
      (store.rooms.foldl (gcRecord (Time.unix (now - keep)) legacyLimit)
        store).secrets := by
    unfold gc
    dsimp only
    split
    · exact saveLocked_secrets _ _
    · rfl
  rw [secrets]
  refine FiniteMap.foldl_cleared
    (fun state : Store => state.secrets[hash]?)
    (fun _ record => hash ∈ record.secrets ∧
      max record.expires (max record.revoked (legacyLimit record)) <
        Time.unix (now - keep)) ?_ store.rooms store
  intro state name record
  unfold gcRecord
  dsimp only
  split
  · rename_i kept
    rw [if_neg fun own => not_lt.mpr kept own.2]
  · rename_i ended
    simp only [not_le.mp ended, and_true, ← lookup_erase_all]
    split
    · split <;> rfl
    · rfl

private theorem gcRecord_frame (state : Store) (name : RoomName)
    (record : Record) :
    (gcRecord cut legacyLimit state name record).last = state.last ∧
      (gcRecord cut legacyLimit state name record).disk = state.disk := by
  unfold gcRecord
  dsimp only
  split
  · exact ⟨rfl, rfl⟩
  · split
    · split <;> exact ⟨rfl, rfl⟩
    · exact ⟨rfl, rfl⟩

private theorem gc_loop_frame :
    (store.rooms.foldl (gcRecord cut legacyLimit) store).last = store.last ∧
      (store.rooms.foldl (gcRecord cut legacyLimit) store).disk =
        store.disk := by
  refine FiniteMap.foldl_keeps
    (motive := fun state : Store => state.last = store.last ∧
      state.disk = store.disk) ⟨rfl, rfl⟩ ?_
  intro state name record _ held
  have turn := gcRecord_frame cut legacyLimit state name record
  exact ⟨turn.1.trans held.1, turn.2.trans held.2⟩

theorem gc_last (now : Time) (keep : Duration) (saves : Bool) :
    (store.gc now keep legacyLimit saves).last = store.last := by
  unfold gc
  dsimp only
  split
  · rw [saveLocked_last, (store.gc_loop_frame _ legacyLimit).1]
  · exact (store.gc_loop_frame _ legacyLimit).1

/-- `gc` leaves the snapshot alone or saves what it left. -/
theorem gc_disk (now : Time) (keep : Duration) (saves : Bool) :
    (store.gc now keep legacyLimit saves).disk = store.disk ∨
      (store.gc now keep legacyLimit saves).disk =
        some (store.gc now keep legacyLimit saves).rooms.values := by
  unfold gc
  dsimp only
  split
  · cases saves with
    | true => exact .inr rfl
    | false => exact .inl (store.gc_loop_frame _ legacyLimit).2
  · exact .inl (store.gc_loop_frame _ legacyLimit).2

end Collect

end FfmucSalt.MeetReserve.Store
