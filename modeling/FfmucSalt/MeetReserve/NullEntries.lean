import FfmucSalt.MeetReserve.Pulling
import FfmucSalt.MeetReserve.Representation

/-!
# Payloads with null entries

What JSON decoding makes of a peer's payload: records and entries of their
maps of secrets may be nil.  `mergeRemote` skips nil records and dereferences
nil entries, half way through a record.
-/

namespace FfmucSalt.MeetReserve

/-- A record as it is decoded, with the map of secrets in the order in which
the loop of `merge` visits it. -/
structure DecodedRecord where
  room : RoomName
  created : Int
  expires : Int
  gen : UInt64
  revoked : Int
  legacy : Bool
  secrets : List (Hash × Option SecretEntry)
  updated : Int
  distinct : (secrets.map Prod.fst).Nodup

namespace DecodedRecord

/-- The entries that are not nil. -/
def entries (other : DecodedRecord) : List (Hash × SecretEntry) :=
  other.secrets.filterMap fun (hash, entry) => entry.map (hash, ·)

/-- The record without the nil entries. -/
def record (other : DecodedRecord) : Record :=
  { room := other.room
    created := other.created
    expires := other.expires
    gen := other.gen
    revoked := other.revoked
    legacy := other.legacy
    secrets := FiniteMap.ofList other.entries
    updated := other.updated }

/-- No entry is nil. -/
def Complete (other : DecodedRecord) : Prop :=
  ∀ visited ∈ other.secrets, visited.2 ≠ none

end DecodedRecord

/-- A payload as it is decoded. -/
structure DecodedResponse where
  now : Int
  rooms : List (Option DecodedRecord)
  more : Bool

/-- The records of a page, each with the time that the clock shows at its
turn. -/
def DecodedResponse.recs (page : DecodedResponse) (clock : Nat → Int) :
    List (Option DecodedRecord × Int) :=
  page.rooms.zipIdx.map fun (other, turn) => (other, clock turn)

theorem DecodedResponse.forall_recs {page : DecodedResponse}
    {clock : Nat → Int} {motive : Option DecodedRecord → Prop} :
    (∀ rec ∈ page.recs clock, motive rec.1) ↔ ∀ rec ∈ page.rooms, motive rec := by
  have rooms : (page.recs clock).map Prod.fst = page.rooms := by
    rw [recs, List.map_map]
    exact List.zipIdx_map_fst 0 page.rooms
  rw [← rooms, List.forall_mem_map]

/-! ## Merging -/

namespace Record

/-- One turn of the loop in `merge`.  At a nil entry it ends in a panic, with
the secrets as they are by then. -/
def mergeEntry (state : Secrets × Bool) (visited : Hash × Option SecretEntry) :
    Except Secrets (Secrets × Bool) :=
  match visited.2 with
  | none => .error state.1
  | some entry => .ok (mergeSecret state visited.1 entry)

/-- `merge` with a decoded record.  After a panic the record stays as it is by
then. -/
def mergeDecoded (record : Record) (other : DecodedRecord) :
    Except Record (Record × Bool) :=
  let (created, createdChanged) :=
    if other.created ≠ 0 ∧
        (record.created = 0 ∨ other.created < record.created) then
      (other.created, true)
    else (record.created, false)
  let (expires, expiresChanged) :=
    if record.expires < other.expires then (other.expires, true)
    else (record.expires, false)
  let (gen, genChanged) :=
    if record.gen < other.gen then (other.gen, true) else (record.gen, false)
  let (revoked, revokedChanged) :=
    if other.revoked ≠ 0 ∧
        (record.revoked = 0 ∨ other.revoked < record.revoked) then
      (other.revoked, true)
    else (record.revoked, false)
  let (legacy, legacyChanged) :=
    if other.legacy ∧ ¬ record.legacy then (true, true)
    else (record.legacy, false)
  match other.secrets.foldlM mergeEntry (record.secrets, false) with
  | .error secrets =>
      .error { record with created, expires, gen, revoked, legacy, secrets }
  | .ok (union, unionChanged) =>
      let (secrets, pruned) := prune union
      .ok ({ record with created, expires, gen, revoked, legacy, secrets },
        createdChanged || expiresChanged || genChanged || revokedChanged ||
          legacyChanged || unionChanged || pruned)

end Record

namespace Store

/-- What `mergeRemote` does with a decoded record that passed its check.  A
record that is stored is merged in place. -/
def mergeDecodedRecord (store : Store) (other : DecodedRecord) (now : Int) :
    Except Store (Store × Bool) :=
  let known := store.rooms[other.room]?
  let cur := known.getD (Record.empty other.room)
  let before := cur.secretHashes
  match cur.mergeDecoded other with
  | .error cur =>
      .error (if known = none then store
        else { store with rooms := store.rooms.insert other.room cur })
  | .ok (merged, changed) =>
      if changed ∨ known = none then
        let updated := store.stamp now
        let merged := { merged with updated }
        let store := { store with
          rooms := store.rooms.insert other.room merged, last := updated }
        .ok (store.index merged before, true)
      else
        .ok ({ store with rooms := store.rooms.insert other.room merged }, false)

/-- One turn of the loop in `mergeRemote`. -/
def mergeDecodedTurn (state : Store × Nat) (rec : Option DecodedRecord × Int) :
    Except Store (Store × Nat) :=
  match rec.1 with
  | none => .ok state
  | some other =>
      if other.room = [] ∨ ¬ validRoomName other.room then .ok state
      else
        match state.1.mergeDecodedRecord other rec.2 with
        | .error half => .error half
        | .ok (store, changed) =>
            .ok (store, if changed then state.2 + 1 else state.2)

/-- `mergeRemote` on decoded records: the store and the count of changes, or
the store that a panic leaves behind. -/
def mergeDecoded (store : Store) (recs : List (Option DecodedRecord × Int)) :
    Except Store (Store × Nat) :=
  match recs.foldlM mergeDecodedTurn (store, 0) with
  | .error half => .error half
  | .ok (store, n) =>
      .ok (if 0 < n then { store with dirty := true } else store, n)

/-- What `pullPage` does with a page, at times the clock shows: the store, the
cursor and whether the round goes on. -/
def pullDecoded (store : Store) (page : DecodedResponse) (clock : Nat → Int)
    (now : Int) : Except Store (Store × Int × Bool) :=
  match store.mergeDecoded (page.recs clock) with
  | .error half => .error half
  | .ok (store, _) =>
      if page.more ∧ page.rooms ≠ [] then
        match page.rooms.getLast? with
        | some (some last) => .ok (store, last.updated, true)
        -- `sr.Rooms[len(sr.Rooms)-1].Updated` on nil
        | _ => .error store
      else
        .ok (store, max 0 (min page.now now - syncOverlap.milliseconds), false)

end Store

/-! ## Records without nil entries -/

namespace Record

/-- What one turn of the loop puts under its hash, if anything. -/
private def replacement (stored : Option SecretEntry) (entry : SecretEntry) :
    Option SecretEntry :=
  match stored with
  | none => some entry
  | some stored =>
      if stored.gen < entry.gen then some { stored with gen := entry.gen }
      else none

private theorem mergeSecret_eq (state : Secrets × Bool) (hash : Hash)
    (entry : SecretEntry) : mergeSecret state hash entry =
      (replacement state.1[hash]? entry).elim state
        fun new => (state.1.insert hash new, true) := by
  unfold mergeSecret replacement
  cases state.1[hash]? with
  | none => rfl
  | some stored =>
      dsimp only
      split
      · rfl
      · rfl

/-- Turns for different hashes do not meet. -/
theorem mergeSecret_comm (state : Secrets × Bool) {first second : Hash}
    (different : first ≠ second) (entry other : SecretEntry) :
    mergeSecret (mergeSecret state first entry) second other =
      mergeSecret (mergeSecret state second other) first entry := by
  have swap : ∀ new newer : SecretEntry,
      (state.1.insert first new).insert second newer =
        (state.1.insert second newer).insert first new := by
    intro new newer
    ext1 hash
    simp only [FiniteMap.lookup_insert]
    by_cases isFirst : first = hash
    · subst isFirst
      rw [if_neg different.symm, if_pos rfl, if_pos rfl]
    · rw [if_neg isFirst, if_neg isFirst]
  simp only [mergeSecret_eq]
  cases firstNew : replacement state.1[first]? entry with
  | none =>
      cases secondNew : replacement state.1[second]? other with
      | none => simp [firstNew, secondNew]
      | some newer =>
          simp [firstNew, secondNew, FiniteMap.lookup_insert, different.symm]
  | some new =>
      cases secondNew : replacement state.1[second]? other with
      | none => simp [firstNew, secondNew, FiniteMap.lookup_insert, different]
      | some newer =>
          simp [firstNew, secondNew, FiniteMap.lookup_insert, different,
            different.symm, swap]

end Record

namespace DecodedRecord

variable {other : DecodedRecord}

theorem distinct_entries (other : DecodedRecord) :
    (other.entries.map Prod.fst).Nodup := by
  have keys : (other.entries.map Prod.fst).Sublist
      (other.secrets.map Prod.fst) := by
    unfold entries
    induction other.secrets with
    | nil => exact .slnil
    | cons visited secrets induction =>
        obtain ⟨hash, _ | entry⟩ := visited
        · exact induction.cons _
        · exact induction.cons_cons _
  exact keys.nodup other.distinct

end DecodedRecord

namespace Record

/-- Without nil entries the order of the loop makes no difference. -/
theorem mergeDecoded_of_complete (record : Record) {other : DecodedRecord}
    (complete : other.Complete) :
    record.mergeDecoded other = .ok (record.merge other.record) := by
  have loop : other.secrets.foldlM mergeEntry (record.secrets, false) =
      .ok (other.entries.foldl
        (fun state entry => mergeSecret state entry.1 entry.2)
        (record.secrets, false)) := by
    refine foldlM_eq_ok (fun state visited isEntry => ?_) complete _
    obtain ⟨hash, _ | entry⟩ := visited
    · exact (isEntry rfl).elim
    · rfl
  have union : mergeSecrets record.secrets other.record.secrets =
      other.entries.foldl (fun state entry => mergeSecret state entry.1 entry.2)
        (record.secrets, false) :=
    FiniteMap.foldl_ofList (fun state _ entry _ other different =>
      mergeSecret_comm state different entry other) other.distinct_entries _
  unfold mergeDecoded merge
  rw [loop, union]
  rfl

/-- With a nil entry the loop ends in a panic. -/
theorem mergeDecoded_of_not_complete (record : Record) {other : DecodedRecord}
    (incomplete : ¬ other.Complete) :
    ∃ half, record.mergeDecoded other = .error half := by
  obtain ⟨half, crashes⟩ : ∃ half,
      other.secrets.foldlM mergeEntry (record.secrets, false) = .error half := by
    refine foldlM_eq_error (fun state visited isEntry => ?_)
      (fun state visited isNil => ?_) incomplete _
    · obtain ⟨entry, isEntry⟩ := Option.ne_none_iff_exists'.mp isEntry
      unfold mergeEntry
      rw [isEntry]
      exact ⟨_, rfl⟩
    · unfold mergeEntry
      rw [not_not.mp isNil]
      exact ⟨_, rfl⟩
  unfold mergeDecoded
  rw [crashes]
  exact ⟨_, rfl⟩

end Record

/-! ## Payloads -/

/-- The payload without nil entries. -/
def cleaned (recs : List (Option DecodedRecord × Int)) :
    List (Option Record × Int) :=
  recs.map fun (other, now) => (other.map DecodedRecord.record, now)

/-- The record is nil, or refused by its name, or has no nil entry. -/
def Harmless (rec : Option DecodedRecord) : Prop :=
  ∀ other, rec = some other → validRoomName other.room → other.Complete

namespace Store

theorem mergeDecodedRecord_of_complete (store : Store) {other : DecodedRecord}
    (complete : other.Complete) (now : Int) :
    store.mergeDecodedRecord other now =
      .ok (store.mergeRecord other.record now) := by
  unfold mergeDecodedRecord mergeRecord
  dsimp only
  rw [Record.mergeDecoded_of_complete _ complete]
  exact (apply_ite Except.ok _ _ _).symm

theorem mergeDecodedRecord_of_not_complete (store : Store)
    {other : DecodedRecord} (incomplete : ¬ other.Complete) (now : Int) :
    ∃ half, store.mergeDecodedRecord other now = .error half := by
  obtain ⟨half, crashes⟩ := Record.mergeDecoded_of_not_complete
    (store.rooms[other.room]?.getD (Record.empty other.room)) incomplete
  unfold mergeDecodedRecord
  dsimp only
  rw [crashes]
  exact ⟨_, rfl⟩

/-- A turn that meets no nil entry is one of the loop without them. -/
private theorem mergeDecodedTurn_eq_ok (state : Store × Nat)
    {rec : Option DecodedRecord × Int} (fine : Harmless rec.1) :
    mergeDecodedTurn state rec =
      .ok (mergeTurn state (rec.1.map DecodedRecord.record, rec.2)) := by
  obtain ⟨_ | other, now⟩ := rec
  · rfl
  · unfold mergeDecodedTurn mergeTurn
    dsimp only [Option.map_some]
    by_cases refused : other.room = [] ∨ ¬ validRoomName other.room
    · rw [if_pos refused]
      exact congrArg Except.ok (if_pos refused).symm
    · have valid := not_not.mp (not_or.mp refused).2
      rw [if_neg refused,
        mergeDecodedRecord_of_complete _ (fine other rfl valid)]
      exact congrArg Except.ok (if_neg refused).symm

private theorem mergeDecodedTurn_eq_error (state : Store × Nat)
    {rec : Option DecodedRecord × Int} (notFine : ¬ Harmless rec.1) :
    ∃ half, mergeDecodedTurn state rec = .error half := by
  simp only [Harmless, not_forall] at notFine
  obtain ⟨other, isOther, valid, incomplete⟩ := notFine
  have accepted : ¬ (other.room = [] ∨ ¬ validRoomName other.room) :=
    not_or.mpr ⟨ne_nil_of_validRoomName valid, not_not.mpr valid⟩
  obtain ⟨half, crashes⟩ :=
    state.1.mergeDecodedRecord_of_not_complete incomplete rec.2
  unfold mergeDecodedTurn
  rw [isOther]
  dsimp only
  rw [if_neg accepted, crashes]
  exact ⟨half, rfl⟩

/-- Without nil entries `mergeRemote` goes through. -/
theorem mergeDecoded_eq_ok (store : Store)
    {recs : List (Option DecodedRecord × Int)}
    (fine : ∀ rec ∈ recs, Harmless rec.1) :
    store.mergeDecoded recs = .ok (store.mergeRemote (cleaned recs)) := by
  have loop : recs.foldlM mergeDecodedTurn (store, 0) =
      .ok ((recs.filterMap fun rec =>
        some (rec.1.map DecodedRecord.record, rec.2)).foldl mergeTurn
          (store, 0)) :=
    foldlM_eq_ok (fun state _ fine => mergeDecodedTurn_eq_ok state fine) fine _
  rw [List.filterMap_eq_map'] at loop
  unfold mergeDecoded mergeRemote
  rw [loop]
  rfl

/-- At a nil entry `mergeRemote` ends in a panic. -/
theorem mergeDecoded_eq_error (store : Store)
    {recs : List (Option DecodedRecord × Int)}
    (harmful : ¬ ∀ rec ∈ recs, Harmless rec.1) :
    ∃ half, store.mergeDecoded recs = .error half := by
  obtain ⟨half, crashes⟩ : ∃ half,
      recs.foldlM mergeDecodedTurn (store, 0) = .error half :=
    foldlM_eq_error
      (fun state rec fine => ⟨_, @mergeDecodedTurn_eq_ok state rec fine⟩)
      (fun state rec notFine => @mergeDecodedTurn_eq_error state rec notFine)
      harmful _
  unfold mergeDecoded
  rw [crashes]
  exact ⟨half, rfl⟩

end Store

/-! ## Pushes and pulls -/

section Payloads

variable {owner : Hash → RoomName} {store : Store} {page : DecodedResponse}

/-- The index stays right when `mergeRemote` goes through. -/
theorem indexed_mergeRemote_cleaned (wellFormed : store.WellFormed)
    (indexes : Indexes owner store)
    (owned : ∀ other, some other ∈ page.rooms → other.record.Owned owner)
    (clock : Nat → Int) :
    (store.mergeRemote (cleaned (page.recs clock))).1.Indexed := by
  refine (indexes_mergeRemote wellFormed indexes ?_).2
  rintro record ⟨now, member⟩
  obtain ⟨rec, isRec, same⟩ := List.mem_map.mp member
  obtain ⟨other, isOther, rfl⟩ :=
    Option.map_eq_some_iff.mp (Prod.mk.inj same).1
  have all := (@DecodedResponse.forall_recs page clock fun rec =>
    ∀ other, rec = some other → other.record.Owned owner).mpr
      fun rec member other isOther => owned other (isOther ▸ member)
  exact all rec isRec other isOther

/-- `mergeRemote` on what a signed request of a peer decodes to, as
`handlePush` calls it and as `pullPage` goes on after it, goes through and
keeps the index right, unless something that they look at is nil. -/
theorem payload_finishes_iff (wellFormed : store.WellFormed)
    (indexes : Indexes owner store)
    (owned : ∀ other, some other ∈ page.rooms → other.record.Owned owner)
    (clock : Nat → Int) (now : Int) :
    ((∃ later n, store.mergeDecoded (page.recs clock) = .ok (later, n) ∧
        (later, n) = store.mergeRemote (cleaned (page.recs clock)) ∧
        later.Indexed) ↔
      ∀ rec ∈ page.rooms, Harmless rec) ∧
    ((∃ later cursor more,
        store.pullDecoded page clock now = .ok (later, cursor, more) ∧
        later = (store.mergeRemote (cleaned (page.recs clock))).1 ∧
        later.Indexed) ↔
      (∀ rec ∈ page.rooms, Harmless rec) ∧
        ¬ (page.more ∧ page.rooms.getLast? = some none)) := by
  have keeps := indexed_mergeRemote_cleaned wellFormed indexes owned clock
  rw [← @DecodedResponse.forall_recs page clock Harmless]
  by_cases fine : ∀ rec ∈ page.recs clock, Harmless rec.1
  · have finishes := store.mergeDecoded_eq_ok fine
    refine ⟨⟨fun _ => fine, fun _ => ⟨_, _, finishes, rfl, keeps⟩⟩, ?_⟩
    unfold Store.pullDecoded
    rw [finishes]
    dsimp only
    by_cases goesOn : page.more ∧ page.rooms ≠ []
    · rw [if_pos goesOn]
      cases isLast : page.rooms.getLast? with
      | none => exact (goesOn.2 (List.getLast?_eq_none_iff.mp isLast)).elim
      | some last =>
          cases last with
          | none => simp [goesOn.1]
          | some last =>
              refine ⟨fun _ => ⟨fine, by simp⟩, fun _ => ?_⟩
              exact ⟨_, _, _, rfl, rfl, keeps⟩
    · rw [if_neg goesOn]
      refine ⟨fun _ => ⟨fine, ?_⟩, fun _ => ⟨_, _, _, rfl, rfl, keeps⟩⟩
      rintro ⟨more, isLast⟩
      refine goesOn ⟨more, fun isEmpty => ?_⟩
      rw [isEmpty] at isLast
      cases isLast
  · obtain ⟨half, crashes⟩ := store.mergeDecoded_eq_error fine
    constructor
    · refine ⟨?_, fun all => (fine all).elim⟩
      rintro ⟨later, n, finishes, -⟩
      rw [crashes] at finishes
      cases finishes
    · refine ⟨?_, fun all => (fine all.1).elim⟩
      rintro ⟨later, cursor, more, finishes, -⟩
      rw [Store.pullDecoded, crashes] at finishes
      cases finishes

end Payloads

/-! ## A push with a null entry -/

namespace Sample

/-- A copy of the reserved room that expires later, with these secrets. -/
def laterCopy (secrets : List (Hash × Option SecretEntry))
    (distinct : (secrets.map Prod.fst).Nodup) : DecodedRecord :=
  { room, created := 0, expires := 9000000000, gen := 0, revoked := 0
    legacy := false, secrets, updated := 0, distinct }

/-- `{"rooms": [null, {"room": ..., "expires": 9000000000}]}` -/
def harmlessPage : DecodedResponse :=
  { now := 0, rooms := [none, some (laterCopy [] (by decide))], more := true }

/-- `{"rooms": [{"room": ..., "expires": 9000000000,
"secrets": {"aa": null}}]}` -/
def nullEntryPage : DecodedResponse :=
  { now := 0, rooms := [some (laterCopy [(ascii "aa", none)] (by simp))]
    more := false }

/-- The page without a null entry is merged. -/
theorem payload_finishes_harmless :
    ∃ later n, reservedStore.restart.mergeDecoded
        (harmlessPage.recs fun _ => 0) = .ok (later, n) ∧
      (later, n) = reservedStore.restart.mergeRemote
        (cleaned (harmlessPage.recs fun _ => 0)) ∧ later.Indexed := by
  obtain ⟨wellFormed, indexes⟩ := reserved_then_restarted.indexes
  have owned : ∀ other, some other ∈ harmlessPage.rooms →
      other.record.Owned fun _ => room := by
    intro other member hash _
    have isOther : other = laterCopy [] (by decide) := by
      simpa [harmlessPage] using member
    rw [isOther]
    rfl
  refine (payload_finishes_iff wellFormed indexes owned (fun _ => 0) 0).1.mpr ?_
  intro rec member other isOther _ visited isVisited
  have isOther : other = laterCopy [] (by decide) := by
    simpa [harmlessPage, isOther] using member
  rw [isOther] at isVisited
  cases isVisited

/-- The null entry makes `mergeRemote` crash, and leaves the expiry of the
stored record changed under its old stamp. -/
theorem null_entry_crashes :
    ∃ half, reservedStore.restart.mergeDecoded
        (nullEntryPage.recs fun _ => 0) = .error half ∧
      (half.recordOr room).expires ≠
        (reservedStore.restart.recordOr room).expires ∧
      (half.recordOr room).updated =
        (reservedStore.restart.recordOr room).updated := by
  have crashes : (match reservedStore.restart.mergeDecoded
      (nullEntryPage.recs fun _ => 0) with
    | .error half => decide ((half.recordOr room).expires ≠
          (reservedStore.restart.recordOr room).expires ∧
        (half.recordOr room).updated =
          (reservedStore.restart.recordOr room).updated)
    | .ok _ => false) = true := by
    decide
  split at crashes
  · rename_i half happens
    exact ⟨half, happens, of_decide_eq_true crashes⟩
  · cases crashes

end Sample

end FfmucSalt.MeetReserve
