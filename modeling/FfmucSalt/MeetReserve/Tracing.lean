import FfmucSalt.MeetReserve.Pairs
import FfmucSalt.MeetReserve.StoreIndex

/-!
# Every record is made of pairs

In every reachable state of a cluster whose random draws are fresh, each copy
of a record is made of the pairs that reservations, migrations and rotations
wrote, and the indexes of all signers agree with their records.
-/

namespace FfmucSalt.MeetReserve

/-- The pair of a v1 room that was never rotated. -/
def Server.legacyPair (server : Server) (room : RoomName) : Pair :=
  { room
    gen := 0
    host := server.hashSecret (server.legacyHostSecret room)
    speaker := server.hashSecret
      (server.speakerSecret (server.legacyHostSecret room)) }

/-- What is drawn at random, or hashed, is new: secrets, room names and
generations.  The rotation counter does not wrap. -/
structure Cluster.Fresh {ι : Type} (server : Server) (cluster : Cluster ι)
    (site : ι) (operation : Operation) : Prop where
  secrets : ∀ {pair}, server.writes (cluster.stores site) operation = some pair →
    pair.host ≠ pair.speaker ∧
      ∀ other ∈ cluster.written, other ≠ pair → ¬ other.Shares pair
  names : ∀ {room now ttl host random time saves},
    operation = .update room (.reserve now ttl host) random time saves →
      ∀ copy ∈ cluster.copies, copy.room ≠ room
  gens : ∀ {room host random time saves},
    operation = .update room (.rotate host) random time saves →
      ∀ other ∈ cluster.written,
        other.gen ≠ nextGen ((cluster.stores site).recordOr room).gen random
  noWrap : ∀ {room host random time saves},
    operation = .update room (.rotate host) random time saves →
      ((cluster.stores site).recordOr room).gen.toNat / 2 ^ 32 + 1 < 2 ^ 32

/-! ## What callbacks write -/

section Returns

variable {server : Server} {written : List Pair} {room : RoomName}

private theorem sound_pair {secrets : Secrets} {pair : Pair}
    {host speaker : Bytes} (sound : Sound written room pair.gen secrets)
    (member : pair ∈ written) (named : pair.room = room)
    (isHost : pair.host = server.hashSecret host)
    (isSpeaker : pair.speaker = server.hashSecret speaker) :
    Sound written room pair.gen (server.pair secrets host speaker pair.gen) := by
  intro hash entry found
  rw [Server.lookup_pair] at found
  split at found
  · rename_i same
    cases found
    exact ⟨UInt64.le_refl _, pair, member, named, rfl,
      .inr ⟨same.symm.trans isSpeaker.symm, rfl⟩⟩
  · split at found
    · rename_i same
      cases found
      exact ⟨UInt64.le_refl _, pair, member, named, rfl,
        .inl ⟨same.symm.trans isHost.symm, rfl⟩⟩
    · exact sound found

private theorem within_pair {secrets : Secrets} {pair : Pair}
    {host speaker : Bytes} (apart : pair.host ≠ pair.speaker)
    (isHost : pair.host = server.hashSecret host)
    (isSpeaker : pair.speaker = server.hashSecret speaker) :
    pair.Within (server.pair secrets host speaker pair.gen) := by
  constructor
  · rw [Server.lookup_pair, ← isHost, ← isSpeaker, if_neg (Ne.symm apart),
      if_pos rfl]
  · rw [Server.lookup_pair, ← isSpeaker, if_pos rfl]

private theorem sound_empty {gen : UInt64} : Sound written room gen ∅ := by
  intro hash entry found
  simp at found

/-- A record whose current pair has just been written. -/
private theorem FromPairs.of_pair {record : Record} {secrets : Secrets}
    {pair : Pair} {host speaker : Bytes}
    (sound : Sound written record.room pair.gen secrets)
    (member : pair ∈ written) (named : pair.room = record.room)
    (isGen : pair.gen = record.gen)
    (isHost : pair.host = server.hashSecret host)
    (isSpeaker : pair.speaker = server.hashSecret speaker)
    (isSecrets : record.secrets = server.pair secrets host speaker pair.gen)
    (apart : pair.host ≠ pair.speaker) : FromPairs written record := by
  constructor
  · rw [isSecrets, ← isGen]
    exact sound_pair sound member named isHost isSpeaker
  · intro _
    refine ⟨pair, member, named, isGen, ?_⟩
    rw [isSecrets]
    exact within_pair apart isHost isSpeaker

/-- Being made of pairs is about room, generation and secrets. -/
private theorem FromPairs.congr {record other : Record}
    (fromPairs : FromPairs written record) (room : other.room = record.room)
    (gen : other.gen = record.gen) (secrets : other.secrets = record.secrets)
    (revoked : other.revoked = 0 → record.revoked = 0) :
    FromPairs written other := by
  constructor
  · rw [room, gen, secrets]
    exact fromPairs.sound
  · intro alive
    unfold HasCurrent
    rw [room, gen, secrets]
    exact fromPairs.current (revoked alive)

/-- What a callback returns is made of pairs again. -/
private theorem fromPairs_of_returns {store : Store} {change : Change}
    {random : UInt32} {now : Int} {saves : Bool} {next : Record}
    (returns : server.Returns change random store.rooms[room]? next)
    (makes : server.Makes room change)
    (known : ∀ {record}, store.rooms[room]? = some record →
      record.room = room ∧ FromPairs written record)
    (distinct : Distinct written)
    (includes : ∀ {pair}, server.writes store
      (.update room change random now saves) = some pair → pair ∈ written)
    (noWrap : ∀ {host}, change = .rotate host →
      (store.recordOr room).gen.toNat / 2 ^ 32 + 1 < 2 ^ 32) :
    FromPairs written { next with room } := by
  generalize stored : store.rooms[room]? = cur at returns
  cases returns with
  | reserve =>
      have member := includes rfl
      exact .of_pair sound_empty member rfl rfl rfl rfl rfl
        (distinct.apart member)
  | raise => exact (known stored).2.congr (known stored).1.symm rfl rfl id
  | migrate =>
      have member := includes rfl
      exact .of_pair sound_empty member rfl rfl rfl rfl rfl
        (distinct.apart member)
  | extend => exact (known stored).2.congr (known stored).1.symm rfl rfl id
  | rotate alive =>
      rename_i host cur
      have isCur : store.recordOr room = cur := by
        rw [Store.recordOr, stored]
        rfl
      have member := includes rfl
      have higher := noWrap rfl
      rw [isCur] at member higher
      obtain ⟨named, fromPairs⟩ := known stored
      have sound : Sound written room (nextGen cur.gen random) cur.secrets := by
        rw [← named]
        exact fromPairs.sound.mono (List.Subset.refl _)
          (UInt64.le_of_lt (lt_nextGen higher))
      exact .of_pair sound member rfl rfl rfl rfl rfl (distinct.apart member)
  | revoke =>
      obtain ⟨named, fromPairs⟩ := known stored
      split
      · refine fromPairs.congr named.symm rfl rfl fun impossible => ?_
        exact absurd impossible makes.2.2.ne'
      · exact fromPairs.congr named.symm rfl rfl id
  | block =>
      constructor
      · exact sound_empty
      · intro impossible
        exact absurd impossible makes.2.2.ne'

end Returns

/-! ## Stores made of pairs -/

/-- Every record of a store is made of pairs. -/
def Store.Traced (written : List Pair) (store : Store) : Prop :=
  ∀ ⦃name : RoomName⦄ ⦃record : Record⦄,
    store.rooms[name]? = some record → FromPairs written record

section Stores

variable {server : Server} {written : List Pair} {store : Store}

/-- Different rooms have different pairs, and so different hashes. -/
private theorem apart_of_traced {rooms : FiniteMap RoomName Record}
    (keyed : ∀ {name : RoomName} {record : Record},
      rooms[name]? = some record → record.room = name)
    (traced : ∀ ⦃name : RoomName⦄ ⦃record : Record⦄,
      rooms[name]? = some record → FromPairs written record)
    (distinct : Distinct written) : Apart rooms := by
  intro first second record other hash stored otherStored has otherHas
  obtain ⟨entry, found⟩ := FiniteMap.mem_iff_lookup.mp has
  obtain ⟨otherEntry, otherFound⟩ := FiniteMap.mem_iff_lookup.mp otherHas
  obtain ⟨-, pair, member, named, -, covers⟩ := (traced stored).sound found
  obtain ⟨-, rival, isRival, rivalNamed, -, rivalCovers⟩ :=
    (traced otherStored).sound otherFound
  have shares : pair.Shares rival := by
    rcases covers with ⟨own, -⟩ | ⟨own, -⟩ <;>
      rcases rivalCovers with ⟨foreign, -⟩ | ⟨foreign, -⟩ <;>
      simp [Pair.Shares, ← own, ← foreign]
  have same := distinct.secrets member isRival shares
  rw [← keyed stored, ← keyed otherStored, ← named, ← rivalNamed, same]

private theorem recordOr_sound (traced : store.Traced written) (room : RoomName) :
    Sound written (store.recordOr room).room (store.recordOr room).gen
        (store.recordOr room).secrets ∧
      ((store.recordOr room).revoked = 0 →
        (store.recordOr room).gen = 0 ∨
          HasCurrent written (store.recordOr room)) := by
  unfold Store.recordOr
  cases stored : store.rooms[room]? with
  | none => exact ⟨sound_empty, fun _ => .inl rfl⟩
  | some record =>
      exact ⟨(traced stored).sound, fun alive => .inr ((traced stored).current alive)⟩

/-- A store after a record of pairs was merged into it. -/
private theorem traced_insert {later : Store} {name : RoomName}
    {record : Record} (traced : store.Traced written)
    (rooms : later.rooms = store.rooms.insert name record)
    (fromPairs : FromPairs written record) : later.Traced written := by
  intro other found stored
  rw [rooms, FiniteMap.lookup_insert] at stored
  split at stored
  · cases stored
    exact fromPairs
  · exact traced stored

private theorem traced_mergeRecord (wellFormed : store.WellFormed)
    (traced : store.Traced written) (distinct : Distinct written)
    {other : Record} (fromPairs : FromPairs written other) (now : Int) :
    (store.mergeRecord other now).1.Traced written := by
  apply traced_insert traced (store.mergeRecord_rooms other now)
  obtain ⟨sound, current⟩ := recordOr_sound traced other.room
  have merged := FromPairs.merged distinct
    (Store.recordOr_room wellFormed other.room).symm sound current fromPairs
  unfold Store.mergedRecord
  dsimp only
  split
  · exact merged.congr rfl rfl rfl id
  · exact merged

private theorem traced_commit (wellFormed : store.WellFormed)
    (traced : store.Traced written) (distinct : Distinct written)
    {room : RoomName} {next : Record}
    (fromPairs : FromPairs written { next with room }) (now : Int)
    (saves : Bool) : (store.commit room next now saves).2.Traced written := by
  apply traced_insert traced (store.commit_rooms room next now saves)
  obtain ⟨sound, current⟩ := recordOr_sound traced room
  have merged := FromPairs.merged distinct
    (Store.recordOr_room wellFormed room).symm sound current fromPairs
  rw [Store.commit_out]
  exact merged.congr rfl rfl rfl id

private theorem traced_gc (traced : store.Traced written) (now : Time)
    (keep : Duration) (legacyLimit : Record → Int) (saves : Bool) :
    (store.gc now keep legacyLimit saves).Traced written := by
  intro name record found
  rw [Store.lookup_gc] at found
  obtain ⟨old, stored, kept⟩ := Option.bind_eq_some_iff.mp found
  unfold Store.collected at kept
  split at kept
  · cases kept
    exact traced stored
  · split at kept
    · rename_i deleted
      cases kept
      exact ⟨sound_empty, fun alive => (deleted alive).elim⟩
    · cases kept

/-- One operation on a store made of pairs. -/
private theorem traced_run {later : Store} {operation : Operation}
    {result : Option Record} (wellFormed : store.WellFormed)
    (indexed : store.Indexed) (traced : store.Traced written)
    (distinct : Distinct written) (legal : server.Legal operation)
    (received : ∀ record ∈ operation.received, FromPairs written record)
    (disk : ∀ {records}, store.disk = some records →
      ∀ record ∈ records, FromPairs written record)
    (includes : ∀ {pair}, result.isSome →
      server.writes store operation = some pair → pair ∈ written)
    (noWrap : ∀ {room host random time saves},
      operation = .update room (.rotate host) random time saves →
        (store.recordOr room).gen.toNat / 2 ^ 32 + 1 < 2 ^ 32)
    (done : server.run store operation = some (result, later)) :
    later.Traced written ∧ later.Indexed := by
  have laterWellFormed := wellFormed.run legal done
  have apart : ∀ {store : Store}, store.WellFormed → store.Traced written →
      Apart store.rooms := fun wellFormed traced =>
    apart_of_traced wellFormed.rooms.keyed traced distinct
  cases operation with
  | update room change random now saves =>
      obtain ⟨⟨outcome, after⟩, updated, same⟩ := Option.map_eq_some_iff.mp done
      obtain ⟨rfl, rfl⟩ := Prod.mk.inj same
      cases outcome with
      | error error =>
          obtain ⟨-, rfl⟩ := Store.update_error updated
          exact ⟨traced, indexed⟩
      | ok out =>
          obtain ⟨next, returned, committed⟩ := Store.update_ok updated
          have fromPairs := fromPairs_of_returns (server.returns_of_ok returned)
            legal (fun stored => ⟨wellFormed.rooms.keyed stored, traced stored⟩)
            distinct (includes rfl) (fun same => noWrap (by rw [same]))
          have tracedLater :=
            traced_commit wellFormed traced distinct fromPairs now saves
          have indexedLater := indexed.commit wellFormed room next now saves
          rw [committed] at tracedLater indexedLater
          exact ⟨tracedLater, indexedLater (apart laterWellFormed tracedLater)⟩
  | mergeRemote recs =>
      obtain ⟨-, rfl⟩ := Prod.mk.inj (Option.some.inj done)
      have all : (store.mergeRemote recs).1.WellFormed ∧
          (store.mergeRemote recs).1.Traced written ∧
          (store.mergeRemote recs).1.Indexed := by
        apply Store.mergeRemote_keeps
          (motive := fun store => store.WellFormed ∧ store.Traced written ∧
            store.Indexed) ⟨wellFormed, traced, indexed⟩
        · intro store other now member valid held
          obtain ⟨wellFormed, traced, indexed⟩ := held
          have tracedLater := traced_mergeRecord wellFormed traced distinct
            (received other ⟨now, member⟩) now
          have wellFormedLater := wellFormed.mergeRecord valid now
          exact ⟨wellFormedLater, tracedLater,
            indexed.mergeRecord wellFormed (apart wellFormedLater tracedLater)⟩
        · intro store dirty held
          exact ⟨held.1.setDirty dirty, held.2⟩
      exact all.2
  | gc now saves =>
      obtain ⟨-, rfl⟩ := Prod.mk.inj (Option.some.inj done)
      exact ⟨traced_gc traced now gcKeep server.legacyLimit saves,
        indexed.gc (apart wellFormed traced) now gcKeep server.legacyLimit saves⟩
  | restart =>
      obtain ⟨-, rfl⟩ := Prod.mk.inj (Option.some.inj done)
      have tracedLater : store.restart.Traced written := by
        intro name record stored
        cases saved : store.disk with
        | none =>
            simp [Store.restart, Store.load, newStore, saved] at stored
        | some records =>
            obtain ⟨rooms, proper, rfl⟩ := wellFormed.disk saved
            rw [Store.restart_rooms proper saved] at stored
            exact disk saved record (FiniteMap.mem_values.mpr ⟨name, stored⟩)
      exact ⟨tracedLater, Store.Indexed.restart wellFormed
        (apart wellFormed.restart tracedLater)⟩

/-- The snapshot after an operation is the one before, or holds what is
stored now. -/
private theorem disk_run {later : Store} {operation : Operation}
    {result : Option Record}
    (done : server.run store operation = some (result, later)) :
    later.disk = store.disk ∨
      later.disk = some (FiniteMap.values later.rooms) := by
  cases operation with
  | update room change random now saves =>
      obtain ⟨⟨outcome, after⟩, updated, same⟩ := Option.map_eq_some_iff.mp done
      obtain ⟨rfl, rfl⟩ := Prod.mk.inj same
      cases outcome with
      | error error =>
          obtain ⟨-, rfl⟩ := Store.update_error updated
          exact .inl rfl
      | ok out =>
          obtain ⟨next, -, committed⟩ := Store.update_ok updated
          have later : after = (store.commit room next now saves).2 := by
            rw [committed]
          rw [later]
          cases saves with
          | true => exact .inr rfl
          | false => exact .inl rfl
  | mergeRemote recs =>
      obtain ⟨-, rfl⟩ := Prod.mk.inj (Option.some.inj done)
      left
      apply Store.mergeRemote_keeps
        (motive := fun later : Store => later.disk = store.disk)
      · rfl
      · intro middle other now _ _ held
        rw [Store.mergeRecord_disk, held]
      · intro middle dirty held
        exact held
  | gc now saves =>
      obtain ⟨-, rfl⟩ := Prod.mk.inj (Option.some.inj done)
      exact store.gc_disk server.legacyLimit now gcKeep saves
  | restart =>
      obtain ⟨-, rfl⟩ := Prod.mk.inj (Option.some.inj done)
      exact .inl store.restart_disk

end Stores

/-! ## The invariant of a cluster -/

variable {ι : Type}

/-- All copies are made of pairs that can be told apart. -/
structure Traced (server : Server) (cluster : Cluster ι) : Prop where
  wellFormed : ∀ site, (cluster.stores site).WellFormed
  indexed : ∀ site, (cluster.stores site).Indexed
  distinct : Distinct cluster.written
  copies : ∀ record ∈ cluster.copies, FromPairs cluster.written record
  stored : ∀ {site} {name : RoomName} {record : Record},
    (cluster.stores site).rooms[name]? = some record → record ∈ cluster.copies
  disk : ∀ {site records}, (cluster.stores site).disk = some records →
    ∀ record ∈ records, record ∈ cluster.copies
  known : ∀ pair ∈ cluster.written, ∃ copy ∈ cluster.copies,
    copy.room = pair.room
  legacy : ∀ pair ∈ cluster.written, pair.gen = 0 →
    isShortName pair.room ∨ pair = server.legacyPair pair.room

namespace Traced

variable {server : Server} {cluster later : Cluster ι}

theorem initial : Traced server (Cluster.initial : Cluster ι) where
  wellFormed _ := Store.WellFormed.newStore
  indexed _ := Store.Indexed.newStore none
  distinct :=
    { apart := fun member => by simp [Cluster.initial] at member
      secrets := fun member => by simp [Cluster.initial] at member
      gens := fun member => by simp [Cluster.initial] at member }
  copies _ copy := copy.elim
  stored found := by simp [Cluster.initial, newStore] at found
  disk saved := by simp [Cluster.initial, newStore] at saved
  known _ member := by simp [Cluster.initial] at member
  legacy _ member := by simp [Cluster.initial] at member

private theorem Pair.shares_symm {first second : Pair}
    (shares : first.Shares second) : second.Shares first := by
  unfold Pair.Shares at shares ⊢
  rcases shares with same | same | same | same <;> simp [same]

/-- A fresh pair can be told apart from those before it. -/
private theorem gens_of_fresh (traced : Traced server cluster) {site : ι}
    {operation : Operation} (fresh : cluster.Fresh server site operation)
    (legal : server.Legal operation) {pair other : Pair}
    (writes : server.writes (cluster.stores site) operation = some pair)
    (member : other ∈ cluster.written) (room : other.room = pair.room)
    (gen : other.gen = pair.gen) : other = pair := by
  cases operation with
  | mergeRemote => cases writes
  | gc => cases writes
  | restart => cases writes
  | update name change random now saves =>
      cases change with
      | reserve =>
          cases writes
          obtain ⟨copy, isCopy, named⟩ := traced.known other member
          exact (fresh.names rfl copy isCopy (named.trans room)).elim
      | rotate =>
          cases writes
          exact (fresh.gens rfl other member gen).elim
      | migrate =>
          obtain ⟨isLegacy, -, isHost, isSpeaker⟩ := legal
          cases writes
          dsimp only at room gen
          rcases traced.legacy other member gen with short | same
          · have := isShortName_length short
            have := isLegacyName_length isLegacy
            rw [room] at *
            omega
          · rw [same, room, Server.legacyPair, isSpeaker, isHost]
      | raise => cases writes
      | extend => cases writes
      | revoke => cases writes

private theorem distinct_append (traced : Traced server cluster) {site : ι}
    {operation : Operation} (fresh : cluster.Fresh server site operation)
    (legal : server.Legal operation) {pair : Pair}
    (writes : server.writes (cluster.stores site) operation = some pair) :
    Distinct (cluster.written ++ [pair]) := by
  obtain ⟨apart, secrets⟩ := fresh.secrets writes
  constructor
  · intro first member
    rcases List.mem_append.mp member with old | new
    · exact traced.distinct.apart old
    · cases List.mem_singleton.mp new
      exact apart
  · intro first second firstMember secondMember shares
    rcases List.mem_append.mp firstMember with firstOld | firstNew <;>
      rcases List.mem_append.mp secondMember with secondOld | secondNew
    · exact traced.distinct.secrets firstOld secondOld shares
    · cases List.mem_singleton.mp secondNew
      by_contra different
      exact secrets first firstOld different shares
    · cases List.mem_singleton.mp firstNew
      by_contra different
      exact secrets second secondOld (Ne.symm different)
        (Pair.shares_symm shares)
    · rw [List.mem_singleton.mp firstNew, List.mem_singleton.mp secondNew]
  · intro first second firstMember secondMember room gen
    rcases List.mem_append.mp firstMember with firstOld | firstNew <;>
      rcases List.mem_append.mp secondMember with secondOld | secondNew
    · exact traced.distinct.gens firstOld secondOld room gen
    · cases List.mem_singleton.mp secondNew
      exact traced.gens_of_fresh fresh legal writes firstOld room gen
    · cases List.mem_singleton.mp firstNew
      exact (traced.gens_of_fresh fresh legal writes secondOld room.symm
        gen.symm).symm
    · rw [List.mem_singleton.mp firstNew, List.mem_singleton.mp secondNew]

/-- The room of a pair that was just written is stored. -/
private theorem stored_of_writes {store after : Store} {operation : Operation}
    {result : Option Record} {pair : Pair} (success : result.isSome)
    (done : server.run store operation = some (result, after))
    (writes : server.writes store operation = some pair) :
    ∃ record : Record, after.rooms[pair.room]? = some record := by
  cases operation with
  | mergeRemote => cases writes
  | gc => cases writes
  | restart => cases writes
  | update room change random now saves =>
      obtain ⟨⟨outcome, later⟩, updated, same⟩ := Option.map_eq_some_iff.mp done
      obtain ⟨rfl, rfl⟩ := Prod.mk.inj same
      cases outcome with
      | error error => cases success
      | ok out =>
          obtain ⟨next, -, committed⟩ := Store.update_ok updated
          have named : pair.room = room := by
            cases change <;> cases writes <;> rfl
          have isLater : later = (store.commit room next now saves).2 := by
            rw [committed]
          rw [named, isLater, Store.commit_rooms, FiniteMap.lookup_insert,
            if_pos rfl]
          exact ⟨_, rfl⟩

/-- Pairs of generation 0 are those of short rooms and of v1 rooms. -/
private theorem legacy_of_writes {store : Store} {operation : Operation}
    {pair : Pair} (legal : server.Legal operation)
    (noWrap : ∀ {room host random time saves},
      operation = .update room (.rotate host) random time saves →
        (store.recordOr room).gen.toNat / 2 ^ 32 + 1 < 2 ^ 32)
    (writes : server.writes store operation = some pair) (zero : pair.gen = 0) :
    isShortName pair.room ∨ pair = server.legacyPair pair.room := by
  cases operation with
  | mergeRemote => cases writes
  | gc => cases writes
  | restart => cases writes
  | update room change random now saves =>
      cases change with
      | reserve =>
          cases writes
          exact .inl legal.1
      | migrate =>
          obtain ⟨-, -, isHost, isSpeaker⟩ := legal
          cases writes
          right
          rw [Server.legacyPair, isSpeaker, isHost]
      | rotate =>
          cases writes
          have higher : (store.recordOr room).gen <
              nextGen (store.recordOr room).gen random := lt_nextGen (noWrap rfl)
          rw [show nextGen _ random = 0 from zero, UInt64.lt_iff_toNat_lt]
            at higher
          simp at higher
      | raise => cases writes
      | extend => cases writes
      | revoke => cases writes

variable [DecidableEq ι]

theorem step {site : ι} {operation : Operation}
    (traced : Traced server cluster)
    (fresh : cluster.Fresh server site operation)
    (step : Cluster.Step server cluster site operation later) :
    Traced server later := by
  obtain ⟨legal, sent, done⟩ := step
  rename_i result store
  let new := (result.bind fun _ =>
    server.writes (cluster.stores site) operation).toList
  have grows : cluster.written ⊆ cluster.written ++ new :=
    List.subset_append_left _ _
  have isNew : ∀ {pair}, pair ∈ new → result.isSome ∧
      server.writes (cluster.stores site) operation = some pair := by
    intro pair member
    obtain ⟨out, isOut, writes⟩ :=
      Option.bind_eq_some_iff.mp (Option.mem_toList.mp member)
    exact ⟨by rw [isOut]; rfl, writes⟩
  have distinct : Distinct (cluster.written ++ new) := by
    cases written : new with
    | nil => simpa using traced.distinct
    | cons pair rest =>
        have member : pair ∈ new := by simp [written]
        have writes := (isNew member).2
        have alone : rest = [] := by
          have length : new.length ≤ 1 := Option.length_toList_le
          rw [written] at length
          simpa using length
        rw [alone]
        exact traced.distinct_append fresh legal writes
  have tracedStore : (cluster.stores site).Traced (cluster.written ++ new) :=
    fun name record found => (traced.copies record (traced.stored found)).mono
      grows
  obtain ⟨tracedLater, indexedLater⟩ := traced_run (traced.wellFormed site)
    (traced.indexed site) tracedStore distinct legal
    (fun record received => (traced.copies record (sent received)).mono grows)
    (fun saved record member =>
      (traced.copies record (traced.disk saved record member)).mono grows)
    (fun success writes => by
      apply List.mem_append_right
      obtain ⟨out, isOut⟩ := Option.isSome_iff_exists.mp success
      simp [new, isOut, writes])
    fresh.noWrap done
  have wellFormedLater := (traced.wellFormed site).run legal done
  have inCopies : ∀ {name : RoomName} {record : Record},
      store.rooms[name]? = some record →
        record ∈ (cluster.after server site operation result store).copies :=
    fun found => .inr ⟨_, found⟩
  constructor
  · intro other
    by_cases same : other = site
    · subst same
      simpa [Cluster.after] using wellFormedLater
    · simpa [Cluster.after, same] using traced.wellFormed other
  · intro other
    by_cases same : other = site
    · subst same
      simpa [Cluster.after] using indexedLater
    · simpa [Cluster.after, same] using traced.indexed other
  · exact distinct
  · intro record copy
    rcases copy with old | ⟨name, found⟩
    · exact (traced.copies record old).mono grows
    · exact tracedLater found
  · intro other name record found
    by_cases same : other = site
    · subst same
      exact inCopies (by simpa [Cluster.after] using found)
    · exact .inl (traced.stored (by simpa [Cluster.after, same] using found))
  · intro other records saved record member
    by_cases same : other = site
    · subst same
      have saved : store.disk = some records := by
        simpa [Cluster.after] using saved
      rcases disk_run done with unchanged | written
      · rw [unchanged] at saved
        exact .inl (traced.disk saved record member)
      · rw [written] at saved
        cases saved
        obtain ⟨name, found⟩ := FiniteMap.mem_values.mp member
        exact inCopies found
    · exact .inl (traced.disk (by simpa [Cluster.after, same] using saved)
        record member)
  · intro pair member
    rcases List.mem_append.mp member with old | added
    · obtain ⟨copy, isCopy, named⟩ := traced.known pair old
      exact ⟨copy, .inl isCopy, named⟩
    · obtain ⟨success, writes⟩ := isNew added
      obtain ⟨record, found⟩ := stored_of_writes success done writes
      exact ⟨record, inCopies found, wellFormedLater.rooms.keyed found⟩
  · intro pair member zero
    rcases List.mem_append.mp member with old | added
    · exact traced.legacy pair old zero
    · exact legacy_of_writes legal fresh.noWrap (isNew added).2 zero

theorem run (run : Cluster.Run server (Cluster.Fresh server) cluster later)
    (traced : Traced server cluster) : Traced server later :=
  run.keeps traced fun traced fresh step => traced.step fresh step

end Traced

end FfmucSalt.MeetReserve
