import FfmucSalt.MeetReserve.Cluster

/-!
# What holds of every record

A fact about single records that survives what a store does on its own holds
of every record of the store and of its snapshot, if merges and the changes of
handlers establish it.
-/

namespace FfmucSalt.MeetReserve

/-- A fact that neither a stamp nor the collection of secrets breaks. -/
structure Record.Stable (fact : Record → Prop) : Prop where
  stamp : ∀ {record : Record} (updated : Int),
    fact record → fact { record with updated }
  strip : ∀ {record : Record}, fact record → record.revoked ≠ 0 →
    fact { record with secrets := ∅ }

/-- What a merge or an update starts from: nothing, or a record with the fact. -/
def Record.StartsFrom (fact : Record → Prop) (room : RoomName)
    (record : Record) : Prop :=
  record = Record.empty room ∨ fact record ∧ record.room = room

namespace Store

/-- All records, stored and saved, have the fact. -/
structure Every (fact : Record → Prop) (store : Store) : Prop where
  rooms : ∀ {name : RoomName} {record : Record},
    store.rooms[name]? = some record → fact record
  disk : ∀ {records : List Record}, store.disk = some records →
    ∀ record ∈ records, fact record

variable {fact : Record → Prop} {store later : Store}

theorem Every.newStore : (newStore none).Every fact := by
  constructor
  · intro name record found
    simp [MeetReserve.newStore] at found
  · intro records saved
    simp [MeetReserve.newStore] at saved

theorem Every.imp {weaker : Record → Prop} (every : store.Every fact)
    (implies : ∀ {record : Record}, fact record → weaker record) :
    store.Every weaker := by
  constructor
  · exact fun stored => implies (every.rooms stored)
  · exact fun saved record member => implies (every.disk saved record member)

theorem Every.startsFrom (every : store.Every fact)
    (wellFormed : store.WellFormed) (room : RoomName) :
    Record.StartsFrom fact room (store.recordOr room) := by
  unfold recordOr
  cases stored : store.rooms[room]? with
  | none => exact .inl rfl
  | some record => exact .inr ⟨every.rooms stored, wellFormed.rooms.keyed stored⟩

/-- Records as before or from the store, and a snapshot as before or of them. -/
private theorem Every.of_rooms (every : store.Every fact)
    (rooms : ∀ {name : RoomName} {record : Record},
      later.rooms[name]? = some record → fact record)
    (disk : later.disk = store.disk ∨ later.disk = some later.rooms.values) :
    later.Every fact := by
  refine ⟨rooms, ?_⟩
  intro records saved
  rcases disk with same | written
  · rw [same] at saved
    exact every.disk saved
  · rw [written] at saved
    cases saved
    intro record member
    obtain ⟨name, stored⟩ := FiniteMap.mem_values.mp member
    exact rooms stored

private theorem lookup_of_insert {rooms : FiniteMap RoomName Record}
    {name other : RoomName} {record found : Record}
    (stored : (rooms.insert name record)[other]? = some found) :
    found = record ∨ rooms[other]? = some found := by
  rw [FiniteMap.lookup_insert] at stored
  split at stored
  · exact .inl (Option.some.inj stored).symm
  · exact .inr stored

theorem commit_disk (store : Store) (room : RoomName) (next : Record)
    (now : Int) (saves : Bool) :
    (store.commit room next now saves).2.disk = store.disk ∨
      (store.commit room next now saves).2.disk =
        some (store.commit room next now saves).2.rooms.values := by
  cases saves with
  | true => exact .inr rfl
  | false => exact .inl rfl

theorem Every.commit (stable : Record.Stable fact) (every : store.Every fact)
    {room : RoomName} {next : Record} {now : Int} {saves : Bool}
    (merged : fact ((store.recordOr room).merged { next with room })) :
    (store.commit room next now saves).2.Every fact := by
  refine every.of_rooms ?_ (store.commit_disk room next now saves)
  intro name record found
  rw [commit_rooms] at found
  rcases lookup_of_insert found with isNew | old
  · rw [isNew, commit_out]
    exact stable.stamp _ merged
  · exact every.rooms old

theorem Every.mergeRecord (stable : Record.Stable fact)
    (every : store.Every fact) {other : Record} {now : Int}
    (merged : fact ((store.recordOr other.room).merged other)) :
    (store.mergeRecord other now).1.Every fact := by
  refine every.of_rooms ?_ (.inl (store.mergeRecord_disk other now))
  intro name record found
  rw [mergeRecord_rooms] at found
  rcases lookup_of_insert found with isNew | old
  · rw [isNew, mergedRecord]
    split
    · exact stable.stamp _ merged
    · exact merged
  · exact every.rooms old

theorem Every.mergeRemote (stable : Record.Stable fact)
    (every : store.Every fact) (wellFormed : store.WellFormed)
    {recs : List (Option Record × Int)}
    (merges : ∀ {known other : Record},
      Record.StartsFrom fact other.room known →
      (∃ now, (some other, now) ∈ recs) → validRoomName other.room →
        fact (known.merged other)) :
    (store.mergeRemote recs).1.Every fact := by
  have both : (store.mergeRemote recs).1.Every fact ∧
      (store.mergeRemote recs).1.WellFormed := by
    apply mergeRemote_keeps
      (motive := fun store => store.Every fact ∧ store.WellFormed)
      ⟨every, wellFormed⟩
    · intro store other now member valid held
      obtain ⟨every, wellFormed⟩ := held
      exact ⟨every.mergeRecord stable
        (merges (every.startsFrom wellFormed other.room) ⟨now, member⟩ valid),
        wellFormed.mergeRecord valid now⟩
    · intro store dirty held
      exact ⟨⟨held.1.rooms, held.1.disk⟩, held.2.setDirty dirty⟩
  exact both.1

theorem Every.gc (stable : Record.Stable fact) (every : store.Every fact)
    (now : Time) (keep : Duration) (legacyLimit : Record → Int) (saves : Bool) :
    (store.gc now keep legacyLimit saves).Every fact := by
  refine every.of_rooms ?_ (store.gc_disk legacyLimit now keep saves)
  intro name record found
  rw [lookup_gc] at found
  obtain ⟨old, stored, kept⟩ := Option.bind_eq_some_iff.mp found
  unfold collected at kept
  split at kept
  · cases kept
    exact every.rooms stored
  · split at kept
    · rename_i deleted
      cases kept
      exact stable.strip (every.rooms stored) deleted
    · cases kept

theorem Every.restart (every : store.Every fact)
    (wellFormed : store.WellFormed) : store.restart.Every fact := by
  refine every.of_rooms ?_ (.inl (restart_disk store))
  intro name record found
  cases saved : store.disk with
  | none =>
      rw [restart_of_unsaved saved] at found
      simp [MeetReserve.newStore] at found
  | some records =>
      obtain ⟨rooms, proper, isValues⟩ := wellFormed.disk saved
      subst isValues
      rw [restart_rooms proper saved] at found
      exact every.disk saved record (FiniteMap.mem_values.mpr ⟨name, found⟩)

/-- The rule of an operation. -/
theorem Every.run {server : Server} {operation : Operation}
    {result : Option Record} (stable : Record.Stable fact)
    (every : store.Every fact) (wellFormed : store.WellFormed)
    (done : server.run store operation = some (result, later))
    (merges : ∀ {known other : Record},
      Record.StartsFrom fact other.room known → other ∈ operation.received →
        validRoomName other.room → fact (known.merged other))
    (changes : ∀ {room change random now saves next},
      operation = .update room change random now saves → result.isSome →
      server.Returns change random store.rooms[room]? next →
        fact ((store.recordOr room).merged { next with room })) :
    later.Every fact := by
  cases operation with
  | update room change random now saves =>
      obtain ⟨⟨outcome, after⟩, updated, same⟩ := Option.map_eq_some_iff.mp done
      obtain ⟨isResult, isLater⟩ := Prod.mk.inj same
      subst isLater
      cases outcome with
      | error error => exact (update_error updated).2 ▸ every
      | ok out =>
          obtain ⟨next, returned, committed⟩ := update_ok updated
          have kept : (store.commit room next now saves).2.Every fact :=
            every.commit stable (changes rfl (isResult ▸ rfl)
              (server.returns_of_ok returned))
          rwa [committed] at kept
  | mergeRemote recs =>
      cases done
      exact every.mergeRemote stable wellFormed fun known member valid =>
        merges known member valid
  | gc now saves =>
      cases done
      exact every.gc stable now gcKeep server.legacyLimit saves
  | restart =>
      cases done
      exact every.restart wellFormed

end Store

/-- All records that signers store, saved, or sent have the fact. -/
structure Cluster.Every {ι : Type} (fact : Record → Prop)
    (cluster : Cluster ι) : Prop where
  stores : ∀ site, (cluster.stores site).Every fact
  copies : ∀ record ∈ cluster.copies, fact record

namespace Cluster

variable {ι : Type} {fact : Record → Prop} {cluster later : Cluster ι}

theorem Every.initial : (initial : Cluster ι).Every fact :=
  ⟨fun _ => .newStore, fun _ none => none.elim⟩

theorem Every.imp {weaker : Record → Prop} (every : cluster.Every fact)
    (implies : ∀ {record : Record}, fact record → weaker record) :
    cluster.Every weaker := by
  constructor
  · exact fun site => (every.stores site).imp implies
  · exact fun record sent => implies (every.copies record sent)

/-- An operation of one signer changes and sends what this signer stores. -/
theorem Every.after [DecidableEq ι] {server : Server} {site : ι}
    {operation : Operation} {result : Option Record} {store : Store}
    (every : cluster.Every fact) (own : store.Every fact) :
    (cluster.after server site operation result store).Every fact := by
  constructor
  · intro other
    by_cases same : other = site
    · subst same
      simpa [Cluster.after] using own
    · simpa [Cluster.after, same] using every.stores other
  · rintro record (old | ⟨room, stored⟩)
    · exact every.copies record old
    · exact own.rooms stored

/-- The rule of an operation of one signer. -/
theorem Every.step [DecidableEq ι] {server : Server} {site : ι}
    {operation : Operation} (stable : Record.Stable fact)
    (every : cluster.Every fact)
    (wellFormed : ∀ site, (cluster.stores site).WellFormed)
    (step : Step server cluster site operation later)
    (merges : ∀ {known other : Record},
      Record.StartsFrom fact other.room known → fact other →
        validRoomName other.room → fact (known.merged other))
    (changes : ∀ {room change random now saves next},
      operation = .update room change random now saves →
      server.Makes room change →
      server.Returns change random (cluster.stores site).rooms[room]? next →
        fact (((cluster.stores site).recordOr room).merged
          { next with room })) :
    later.Every fact := by
  obtain ⟨legal, sent, done⟩ := step
  have own : Store.Every fact _ := (every.stores site).run stable
    (wellFormed site) done
    (fun start received valid =>
      merges start (every.copies _ (sent received)) valid)
    (fun same _ returns => changes same (by subst same; exact legal) returns)
  exact every.after own

end Cluster

/-! ## Where secrets come from -/

theorem Server.mem_pair {server : Server} {secrets : Secrets}
    {host speaker : Bytes} {gen : UInt64} {hash : Hash}
    (member : hash ∈ server.pair secrets host speaker gen) :
    hash = server.hashSecret host ∨ hash = server.hashSecret speaker ∨
      hash ∈ secrets := by
  obtain ⟨entry, found⟩ := FiniteMap.mem_iff_lookup.mp member
  rw [Server.lookup_pair] at found
  split at found
  · rename_i isSpeaker
    exact .inr (.inl isSpeaker.symm)
  · split at found
    · rename_i isHost
      exact .inl isHost.symm
    · exact .inr (.inr (FiniteMap.mem_iff_lookup.mpr ⟨entry, found⟩))

/-- The secrets that a change leaves are those it writes and those that the
room had. -/
theorem Server.mem_secrets_of_returns {server : Server} {store : Store}
    {room : RoomName} {change : Change} {random : UInt32} {now : Int}
    {saves : Bool} {next : Record} {hash : Hash}
    (returns : server.Returns change random store.rooms[room]? next)
    (member : hash ∈ next.secrets) :
    (∃ pair,
      server.writes store (.update room change random now saves) = some pair ∧
        pair.room = room ∧ (hash = pair.host ∨ hash = pair.speaker)) ∨
    ∃ record : Record, store.rooms[room]? = some record ∧
      hash ∈ record.secrets := by
  generalize isCur : store.rooms[room]? = cur at returns
  cases returns with
  | reserve =>
      rcases Server.mem_pair member with isHost | isSpeaker | none
      · exact .inl ⟨_, rfl, rfl, .inl isHost⟩
      · exact .inl ⟨_, rfl, rfl, .inr isSpeaker⟩
      · simp at none
  | raise => exact .inr ⟨_, rfl, member⟩
  | migrate =>
      rcases Server.mem_pair member with isHost | isSpeaker | none
      · exact .inl ⟨_, rfl, rfl, .inl isHost⟩
      · exact .inl ⟨_, rfl, rfl, .inr isSpeaker⟩
      · simp at none
  | extend => exact .inr ⟨_, rfl, member⟩
  | rotate =>
      rcases Server.mem_pair member with isHost | isSpeaker | old
      · exact .inl ⟨_, rfl, rfl, .inl isHost⟩
      · exact .inl ⟨_, rfl, rfl, .inr isSpeaker⟩
      · exact .inr ⟨_, rfl, old⟩
  | revoke =>
      refine .inr ⟨_, rfl, ?_⟩
      split at member
      · exact member
      · exact member
  | block => simp [Record.empty] at member

/-! ## One signer over time -/

/-- Operations of one signer, each of which meets a condition on the store
before it and on what it returns. -/
def Server.History (server : Server)
    (condition : Store → Operation → Option Record → Prop) :
    Store → Store → Prop :=
  Relation.ReflTransGen fun store later => ∃ operation result,
    condition store operation result ∧ server.Legal operation ∧
      server.run store operation = some (result, later)

/-- What every operation keeps holds of every store in a history. -/
theorem Server.History.keeps {server : Server}
    {condition : Store → Operation → Option Record → Prop}
    {motive : Store → Prop} {store later : Store}
    (history : server.History condition store later)
    (wellFormed : store.WellFormed) (holds : motive store)
    (step : ∀ {store later operation result}, store.WellFormed →
      motive store → condition store operation result →
      server.Legal operation →
      server.run store operation = some (result, later) → motive later) :
    later.WellFormed ∧ motive later := by
  induction history with
  | refl => exact ⟨wellFormed, holds⟩
  | tail _ last induction =>
      obtain ⟨operation, result, allowed, legal, done⟩ := last
      exact ⟨induction.1.run legal done,
        step induction.1 induction.2 allowed legal done⟩

end FfmucSalt.MeetReserve
