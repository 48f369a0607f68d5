import FfmucSalt.MeetReserve.Convergence
import FfmucSalt.MeetReserve.Tracing

/-!
# One set of links

In every reachable state of a cluster a record that is not deleted has exactly
two current secrets, the pair of the one reservation, migration or rotation
that drew its generation.  After an exchange all signers agree on that pair,
however many rotations ran at once.
-/

namespace FfmucSalt.MeetReserve

/-! ## Generations only grow while signers replicate -/

section Grows

variable {server : Server} {store after : Store}

/-- Every room has a generation that is at least the one before. -/
def Store.GensGrow (store after : Store) : Prop :=
  ∀ ⦃name : RoomName⦄ ⦃record : Record⦄, store.rooms[name]? = some record →
    ∃ now : Record, after.rooms[name]? = some now ∧ record.gen ≤ now.gen

private theorem gensGrow_insert {name : RoomName} {now : Record}
    (rooms : after.rooms = store.rooms.insert name now)
    (grows : (store.recordOr name).gen ≤ now.gen) : store.GensGrow after := by
  intro other record stored
  rw [rooms, FiniteMap.lookup_insert]
  by_cases same : name = other
  · subst same
    rw [if_pos rfl]
    refine ⟨now, rfl, ?_⟩
    rwa [Store.recordOr, stored] at grows
  · rw [if_neg same]
    exact ⟨record, stored, UInt64.le_refl _⟩

private theorem gensGrow_run {operation : Operation} {result : Option Record}
    (replicates : operation.Replicates)
    (done : server.run store operation = some (result, after)) :
    store.GensGrow after := by
  cases operation with
  | gc => exact replicates.elim
  | restart => exact replicates.elim
  | update room change random now saves =>
      obtain ⟨⟨outcome, later⟩, updated, same⟩ := Option.map_eq_some_iff.mp done
      obtain ⟨rfl, rfl⟩ := Prod.mk.inj same
      cases outcome with
      | error error =>
          obtain ⟨-, rfl⟩ := Store.update_error updated
          exact fun _ _ stored => ⟨_, stored, UInt64.le_refl _⟩
      | ok out =>
          obtain ⟨next, -, committed⟩ := Store.update_ok updated
          have isLater : later = (store.commit room next now saves).2 := by
            rw [committed]
          rw [isLater]
          exact gensGrow_insert (store.commit_rooms room next now saves)
            (Record.gen_le_merged _ _)
  | mergeRemote recs =>
      obtain ⟨-, rfl⟩ := Prod.mk.inj (Option.some.inj done)
      apply Store.mergeRemote_keeps (motive := store.GensGrow)
      · exact fun _ _ stored => ⟨_, stored, UInt64.le_refl _⟩
      · intro middle other now _ _ held name record stored
        obtain ⟨next, isNext, grows⟩ := held stored
        have step : middle.GensGrow (middle.mergeRecord other now).1 := by
          apply gensGrow_insert (middle.mergeRecord_rooms other now)
          unfold Store.mergedRecord
          dsimp only
          split <;> exact Record.gen_le_merged _ _
        obtain ⟨last, isLast, growsAgain⟩ := step isNext
        exact ⟨last, isLast, UInt64.le_trans grows growsAgain⟩
      · exact fun _ _ held => held

/-- What an update wrote is not above what it stored. -/
private theorem gen_of_writes {operation : Operation} {result : Option Record}
    {pair : Pair} (success : result.isSome)
    (done : server.run store operation = some (result, after))
    (writes : server.writes store operation = some pair) :
    ∃ record : Record, after.rooms[pair.room]? = some record ∧
      pair.gen ≤ record.gen := by
  cases operation with
  | mergeRemote => cases writes
  | gc => cases writes
  | restart => cases writes
  | update room change random now saves =>
      obtain ⟨⟨outcome, later⟩, updated, same⟩ := Option.map_eq_some_iff.mp done
      obtain ⟨rfl, rfl⟩ := Prod.mk.inj same
      cases outcome with
      | error error => cases success
      | ok out =>
          obtain ⟨next, returned, committed⟩ := Store.update_ok updated
          have isLater : later = (store.commit room next now saves).2 := by
            rw [committed]
          have named : pair.room = room := by
            cases change <;> cases writes <;> rfl
          have drawn : pair.gen = next.gen := by
            have returns := server.returns_of_ok returned
            generalize stored : store.rooms[room]? = cur at returns
            cases returns <;> cases writes
            · rfl
            · rfl
            · rw [Store.recordOr, stored]
              rfl
          rw [isLater, named, Store.commit_rooms, FiniteMap.lookup_insert,
            if_pos rfl, drawn]
          exact ⟨_, rfl, Record.other_gen_le_merged _ _⟩

end Grows

/-! ## One winner -/

/-- The link of a secret works. -/
def Store.Works (store : Store) (room : RoomName) (hash : Hash)
    (role : Bytes) : Prop :=
  ∃ record entry, store.bySecret hash = some (record, entry) ∧
    record.room = room ∧ record.revoked = 0 ∧ record.current (some entry) ∧
    entry.role = role

/-- A full exchange: what one signer holds of a room, all hold. -/
def Cluster.Agrees {ι : Type} (cluster : Cluster ι) (room : RoomName) : Prop :=
  ∀ site other record, (cluster.stores site).rooms[room]? = some record →
    ∃ now, (cluster.stores other).rooms[room]? = some now ∧ record.Below now

section Winner

variable {ι : Type} [DecidableEq ι] {server : Server}
variable {cluster later : Cluster ι}

omit [DecidableEq ι] in
/-- Signers that hold the same of a room hold the same generation, and all or
none of them a deleted record. -/
private theorem same_of_agrees (wellFormed : ∀ site, (later.stores site).WellFormed)
    {room : RoomName} (agrees : later.Agrees room) {site other : ι}
    {record now : Record}
    (stored : (later.stores site).rooms[room]? = some record)
    (otherStored : (later.stores other).rooms[room]? = some now) :
    record.gen = now.gen ∧ record.revoked = now.revoked := by
  have below : ∀ {site other : ι} {record now : Record},
      (later.stores site).rooms[room]? = some record →
      (later.stores other).rooms[room]? = some now →
        record.point ≤ now.point := by
    intro site other record now stored otherStored
    obtain ⟨found, isFound, isBelow⟩ := agrees site other record stored
    rw [otherStored] at isFound
    cases isFound
    exact (Record.below_iff
      ((wellFormed other).rooms.pruned otherStored)).mp isBelow
  exact Record.gen_revoked_eq_of_point_eq
    (le_antisymm (below stored otherStored) (below otherStored stored))

/-- Pairs that were written while signers only replicate are not above what is
stored. -/
private theorem gen_of_phase
    (run : Cluster.Run server (fun cluster site operation =>
      cluster.Fresh server site operation ∧ operation.Replicates) cluster later) :
    ∀ rival ∈ later.written, rival ∉ cluster.written →
      ∃ site record, (later.stores site).rooms[rival.room]? = some record ∧
        rival.gen ≤ record.gen := by
  apply run.keeps
    (motive := fun later => ∀ rival ∈ later.written,
      rival ∉ cluster.written → ∃ site record,
        (later.stores site).rooms[rival.room]? = some record ∧
          rival.gen ≤ record.gen)
  · intro rival member notBefore
    exact (notBefore member).elim
  · intro middle after site operation held condition step rival member notBefore
    obtain ⟨-, -, done⟩ := step
    rename_i result store
    rcases List.mem_append.mp member with old | new
    · obtain ⟨other, record, stored, bounded⟩ := held rival old notBefore
      by_cases same : other = site
      · subst same
        obtain ⟨now, isNow, grows⟩ := gensGrow_run condition.2 done stored
        exact ⟨other, now, by simpa [Cluster.after] using isNow,
          UInt64.le_trans bounded grows⟩
      · exact ⟨other, record, by simpa [Cluster.after, same] using stored,
          bounded⟩
    · obtain ⟨out, isOut, writes⟩ :=
        Option.bind_eq_some_iff.mp (Option.mem_toList.mp new)
      obtain ⟨record, stored, bounded⟩ :=
        gen_of_writes (by rw [isOut]; rfl) done writes
      exact ⟨site, record, by simpa [Cluster.after] using stored, bounded⟩

/-- The current secrets of a record made of pairs. -/
private theorem current_iff {written : List Pair} {record : Record}
    (distinct : Distinct written) (fromPairs : FromPairs written record)
    {pair : Pair} (member : pair ∈ written) (named : pair.room = record.room)
    (gen : pair.gen = record.gen) (within : pair.Within record.secrets)
    (hash : Hash) (entry : SecretEntry) :
    record.secrets[hash]? = some entry ∧ record.current (some entry) ↔
      hash = pair.host ∧ entry = { role := roleHost, gen := record.gen } ∨
      hash = pair.speaker ∧
        entry = { role := roleSpeaker, gen := record.gen } := by
  constructor
  · intro both
    obtain ⟨found, isCurrent⟩ := both
    have entryGen : entry.gen = record.gen := by
      simpa [Record.current] using isCurrent
    obtain ⟨-, source, isSource, sourceRoom, sourceGen, covers⟩ :=
      fromPairs.sound found
    obtain rfl : source = pair := distinct.gens isSource member
      (sourceRoom.trans named.symm) (by rw [← sourceGen, entryGen, gen])
    rcases covers with ⟨isHost, role⟩ | ⟨isSpeaker, role⟩
    · exact .inl ⟨isHost, by rw [← entryGen, ← role]⟩
    · exact .inr ⟨isSpeaker, by rw [← entryGen, ← role]⟩
  · intro either
    rcases either with ⟨isHost, isEntry⟩ | ⟨isSpeaker, isEntry⟩
    · rw [isHost, isEntry, ← gen]
      exact ⟨within.1, by simp [Record.current, gen]⟩
    · rw [isSpeaker, isEntry, ← gen]
      exact ⟨within.2, by simp [Record.current, gen]⟩

/-- The links of the current pair work. -/
private theorem works_of_current {store : Store} (indexed : store.Indexed)
    (keyed : ∀ {name : RoomName} {record : Record},
      store.rooms[name]? = some record → record.room = name)
    {room : RoomName} {record : Record}
    (stored : store.rooms[room]? = some record) (alive : record.revoked = 0)
    {pair : Pair} (gen : pair.gen = record.gen)
    (within : pair.Within record.secrets) :
    store.Works room pair.host roleHost ∧
      store.Works room pair.speaker roleSpeaker := by
  constructor
  · exact ⟨record, _, indexed.bySecret stored within.1, keyed stored, alive,
      by simp [Record.current, gen], rfl⟩
  · exact ⟨record, _, indexed.bySecret stored within.2, keyed stored, alive,
      by simp [Record.current, gen], rfl⟩

/-- A link that works belongs to the pair of the record's generation. -/
private theorem eq_of_works {store : Store} {written : List Pair}
    (wellFormed : store.WellFormed) (traced : store.Traced written)
    (distinct : Distinct written) {room : RoomName} {record : Record}
    (stored : store.rooms[room]? = some record) {pair rival : Pair}
    (member : pair ∈ written) (named : pair.room = room)
    (gen : pair.gen = record.gen) (isRival : rival ∈ written)
    {hash : Hash} (own : hash = rival.host ∨ hash = rival.speaker)
    {role : Bytes} (works : store.Works room hash role) : rival = pair := by
  obtain ⟨found, entry, bySecret, foundRoom, -, isCurrent, -⟩ := works
  obtain ⟨foundStored, has⟩ := Store.bySecret_eq_some bySecret
  have isRecord : found = record := by
    have name := wellFormed.rooms.keyed foundStored
    rw [← name, foundRoom, stored] at foundStored
    exact (Option.some.inj foundStored).symm
  subst isRecord
  have entryGen : entry.gen = found.gen := by
    simpa [Record.current] using isCurrent
  obtain ⟨-, source, isSource, sourceRoom, sourceGen, covers⟩ :=
    (traced stored).sound has
  have shares : rival.Shares source := by
    rcases covers with ⟨foreign, -⟩ | ⟨foreign, -⟩ <;>
      rcases own with own | own <;> simp [Pair.Shares, ← own, ← foreign]
  rw [distinct.secrets isRival isSource shares]
  exact distinct.gens isSource member
    (sourceRoom.trans (foundRoom.trans named.symm))
    (by rw [← sourceGen, entryGen, gen])

/-- Every stored record that is not deleted has exactly two current secrets,
the pair of the one write that drew its generation; and after a full exchange
exactly one pair of links works, on every signer, which no rotation since the
signers only replicate is above. -/
theorem one_pair_of_links
    (before : Cluster.Run server (Cluster.Fresh server) Cluster.initial cluster)
    (run : Cluster.Run server (fun cluster site operation =>
      cluster.Fresh server site operation ∧ operation.Replicates) cluster later) :
    (∀ site room record, (later.stores site).rooms[room]? = some record →
      record.revoked = 0 →
      ∃ pair ∈ later.written, pair.room = room ∧ pair.gen = record.gen ∧
        pair.host ≠ pair.speaker ∧
        (∀ other ∈ later.written, other.room = room →
          other.gen = record.gen → other = pair) ∧
        ∀ hash entry,
          record.secrets[hash]? = some entry ∧ record.current (some entry) ↔
            hash = pair.host ∧
              entry = { role := roleHost, gen := record.gen } ∨
            hash = pair.speaker ∧
              entry = { role := roleSpeaker, gen := record.gen }) ∧
    (∀ room, later.Agrees room → ∀ site record,
      (later.stores site).rooms[room]? = some record → record.revoked = 0 →
      ∃ pair ∈ later.written, pair.room = room ∧
        (∀ rival ∈ later.written, rival ∉ cluster.written →
          rival.room = room → rival.gen ≤ pair.gen) ∧
        ∀ other, (later.stores other).Works room pair.host roleHost ∧
          (later.stores other).Works room pair.speaker roleSpeaker ∧
          ∀ rival ∈ later.written, rival ≠ pair → ∀ role,
            ¬ (later.stores other).Works room rival.host role ∧
            ¬ (later.stores other).Works room rival.speaker role) := by
  have traced : Traced server later := by
    have wholeRun : Cluster.Run server (Cluster.Fresh server) cluster later :=
      run.mono fun _ _ _ condition => condition.1
    exact (Traced.initial.run before).run wholeRun
  have storeTraced : ∀ site, (later.stores site).Traced later.written :=
    fun site name record stored => traced.copies record (traced.stored stored)
  constructor
  · intro site room record stored alive
    have named := (traced.wellFormed site).rooms.keyed stored
    have fromPairs := storeTraced site stored
    obtain ⟨pair, member, pairRoom, gen, within⟩ := fromPairs.current alive
    refine ⟨pair, member, pairRoom.trans named, gen,
      traced.distinct.apart member, ?_, ?_⟩
    · intro other isOther otherRoom otherGen
      exact traced.distinct.gens isOther member
        (otherRoom.trans (pairRoom.trans named).symm) (otherGen.trans gen.symm)
    · exact current_iff traced.distinct fromPairs member pairRoom gen within
  · intro room agrees site record stored alive
    have named := (traced.wellFormed site).rooms.keyed stored
    obtain ⟨pair, member, pairRoom, gen, within⟩ :=
      (storeTraced site stored).current alive
    refine ⟨pair, member, pairRoom.trans named, ?_, ?_⟩
    · intro rival isRival notBefore rivalRoom
      obtain ⟨other, found, isFound, bounded⟩ :=
        gen_of_phase run rival isRival notBefore
      rw [rivalRoom] at isFound
      rw [gen, (same_of_agrees traced.wellFormed agrees stored isFound).1]
      exact bounded
    · intro other
      obtain ⟨now, otherStored, -⟩ := agrees site other record stored
      obtain ⟨sameGen, sameRevoked⟩ :=
        same_of_agrees traced.wellFormed agrees stored otherStored
      obtain ⟨otherPair, isOther, otherRoom, otherGen, otherWithin⟩ :=
        (storeTraced other otherStored).current (sameRevoked ▸ alive)
      have nowNamed := (traced.wellFormed other).rooms.keyed otherStored
      obtain rfl : otherPair = pair := traced.distinct.gens isOther member
        (otherRoom.trans (nowNamed.trans (pairRoom.trans named).symm))
        (otherGen.trans (sameGen.symm.trans gen.symm))
      obtain ⟨hostWorks, speakerWorks⟩ := works_of_current
        (traced.indexed other) (traced.wellFormed other).rooms.keyed otherStored
        (sameRevoked ▸ alive) otherGen otherWithin
      refine ⟨hostWorks, speakerWorks, ?_⟩
      intro rival isRival different role
      have fails : ∀ {hash : Hash}, hash = rival.host ∨ hash = rival.speaker →
          ¬ (later.stores other).Works room hash role := fun own works =>
        different (eq_of_works (traced.wellFormed other) (storeTraced other)
          traced.distinct otherStored member (pairRoom.trans named) otherGen
          isRival own works)
      exact ⟨fails (.inl rfl), fails (.inr rfl)⟩

end Winner

namespace Sample

private theorem fresh_reserve :
    Cluster.Fresh server (Cluster.initial : Cluster Bool) false reserve := by
  constructor
  · intro pair writes
    cases writes
    constructor
    · decide
    · intro other member
      cases member
  · intro _ _ _ _ _ _ _ _ copy isCopy
    exact isCopy.elim
  · intro _ _ _ _ _ isRotate
    cases isRotate
  · intro _ _ _ _ _ isRotate
    cases isRotate

private theorem fresh_pull (cluster : Cluster Bool) (site : Bool)
    (store : Store) : cluster.Fresh server site (pull store) := by
  constructor
  · intro _ writes
    cases writes
  · intro _ _ _ _ _ _ _ isReserve
    cases isReserve
  · intro _ _ _ _ _ isRotate
    cases isRotate
  · intro _ _ _ _ _ isRotate
    cases isRotate

def rotate (drawn : Bytes) (bits : UInt32) : Operation :=
  .update room (.rotate drawn) bits 2000000 true

/-- What each signer makes of the room that both of them hold. -/
def leftRotated : Option Record × Store :=
  (server.run reserved.2 (rotate secondHost 7)).getD (none, newStore none)

def rightRotated : Option Record × Store :=
  (server.run pulled.2 (rotate thirdHost 9)).getD (none, newStore none)

def rightPulled : Option Record × Store :=
  (server.run rightRotated.2 (pull leftRotated.2)).getD (none, newStore none)

def leftPulled : Option Record × Store :=
  (server.run leftRotated.2 (pull rightPulled.2)).getD (none, newStore none)

def afterLeft : Cluster Bool :=
  afterPull.after server false (rotate secondHost 7) leftRotated.1 leftRotated.2

def afterRight : Cluster Bool :=
  afterLeft.after server true (rotate thirdHost 9) rightRotated.1 rightRotated.2

def afterRightPull : Cluster Bool :=
  afterRight.after server true (pull leftRotated.2) rightPulled.1 rightPulled.2

/-- Two rotations at the same time, and a pull in each direction. -/
def afterRotations : Cluster Bool :=
  afterRightPull.after server false (pull rightPulled.2) leftPulled.1
    leftPulled.2

private theorem left_step :
    Cluster.Step server afterPull false (rotate secondHost 7) afterLeft := by
  refine .intro ?_ (Set.empty_subset _) ?_
  · change validRoomName room
    decide
  · change server.run reserved.2 (rotate secondHost 7) = some leftRotated
    exact eq_some_getD (by decide)

private theorem right_step :
    Cluster.Step server afterLeft true (rotate thirdHost 9) afterRight := by
  refine .intro ?_ (Set.empty_subset _) ?_
  · change validRoomName room
    decide
  · change server.run pulled.2 (rotate thirdHost 9) = some rightRotated
    exact eq_some_getD (by decide)

private theorem rightPull_step :
    Cluster.Step server afterRight true (pull leftRotated.2) afterRightPull := by
  refine .intro trivial ?_ ?_
  · exact fun record received => .inl (.inr (received_pull received))
  · change server.run rightRotated.2 (pull leftRotated.2) = some rightPulled
    exact eq_some_getD (by decide)

private theorem leftPull_step :
    Cluster.Step server afterRightPull false (pull rightPulled.2)
      afterRotations := by
  refine .intro trivial ?_ ?_
  · exact fun record received => .inr (received_pull received)
  · change server.run leftRotated.2 (pull rightPulled.2) = some leftPulled
    exact eq_some_getD (by decide)

private theorem fresh_rotate {cluster : Cluster Bool} {site : Bool}
    {drawn : Bytes} {bits : UInt32}
    (secrets : ∀ pair ∈ server.writes (cluster.stores site) (rotate drawn bits),
      pair.host ≠ pair.speaker ∧
        ∀ other ∈ cluster.written, ¬ other.Shares pair)
    (gens : ∀ other ∈ cluster.written,
      other.gen ≠ nextGen ((cluster.stores site).recordOr room).gen bits)
    (noWrap : ((cluster.stores site).recordOr room).gen.toNat / 2 ^ 32 + 1 <
      2 ^ 32) :
    cluster.Fresh server site (rotate drawn bits) := by
  constructor
  · intro pair writes
    obtain ⟨apart, unused⟩ := secrets pair writes
    exact ⟨apart, fun other member _ => unused other member⟩
  · intro _ _ _ _ _ _ _ isReserve
    cases isReserve
  · intro _ _ _ _ _ isRotate
    cases isRotate
    exact gens
  · intro _ _ _ _ _ isRotate
    cases isRotate
    exact noWrap

private theorem fresh_left :
    afterPull.Fresh server false (rotate secondHost 7) := by
  apply fresh_rotate
  · decide
  · decide
  · decide

private theorem fresh_right :
    afterLeft.Fresh server true (rotate thirdHost 9) := by
  apply fresh_rotate
  · decide
  · decide
  · decide

private theorem stores_afterRotations (site : Bool) :
    afterRotations.stores site ∈ [leftPulled.2, rightPulled.2] := by
  cases site <;>
    simp [afterRotations, afterRightPull, afterRight, afterLeft, afterPull,
      Cluster.after]

private theorem afterRotations_agrees : afterRotations.Agrees room := by
  have below : ∀ first ∈ [leftPulled.2, rightPulled.2],
      ∀ second ∈ [leftPulled.2, rightPulled.2],
        second.rooms[room]?.isSome ∧
        ∀ record ∈ first.rooms.values, ∀ now ∈ second.rooms.values,
          record.Below now := by
    decide
  intro site other record stored
  obtain ⟨isSome, below⟩ := below _ (stores_afterRotations site) _
    (stores_afterRotations other)
  obtain ⟨now, found⟩ := Option.isSome_iff_exists.mp isSome
  exact ⟨now, found, below record (FiniteMap.mem_values.mpr ⟨room, stored⟩)
    now (FiniteMap.mem_values.mpr ⟨room, found⟩)⟩

/-- Two signers rotate at the same time.  After a pull in each direction the
links of one rotation work on both, and neither those of the other one nor the
first ones do. -/
theorem one_pair_of_links_after_rotations :
    afterRotations.written.length = 3 ∧
    ∃ pair ∈ afterRotations.written, ∀ site,
      (afterRotations.stores site).Works room pair.host roleHost ∧
        (afterRotations.stores site).Works room pair.speaker roleSpeaker ∧
        ∀ rival ∈ afterRotations.written, rival ≠ pair → ∀ role,
          ¬ (afterRotations.stores site).Works room rival.host role ∧
          ¬ (afterRotations.stores site).Works room rival.speaker role := by
  have before : Cluster.Run server (Cluster.Fresh server) Cluster.initial
      afterReserve :=
    .single ⟨false, reserve, fresh_reserve, reserve_step⟩
  have run : Cluster.Run server (fun cluster site operation =>
      cluster.Fresh server site operation ∧ operation.Replicates) afterReserve
      afterRotations :=
    .tail (.tail (.tail (.tail (.single
      ⟨true, pull reserved.2, ⟨fresh_pull _ _ _, trivial⟩, pull_step⟩)
      ⟨false, rotate secondHost 7, ⟨fresh_left, trivial⟩, left_step⟩)
      ⟨true, rotate thirdHost 9, ⟨fresh_right, trivial⟩, right_step⟩)
      ⟨true, pull leftRotated.2, ⟨fresh_pull _ _ _, trivial⟩, rightPull_step⟩)
      ⟨false, pull rightPulled.2, ⟨fresh_pull _ _ _, trivial⟩, leftPull_step⟩
  have alive : ∀ record ∈ rightPulled.2.rooms.values, record.revoked = 0 := by
    decide
  have stored : (afterRotations.stores true).rooms[room]? =
      some (rightPulled.2.recordOr room) :=
    Store.eq_some_recordOr (by decide)
  refine ⟨by decide, ?_⟩
  obtain ⟨pair, written, -, -, works⟩ :=
    (one_pair_of_links before run).2 room afterRotations_agrees true _ stored
      (alive _ (FiniteMap.mem_values.mpr ⟨room, stored⟩))
  exact ⟨pair, written, works⟩

end Sample

end FfmucSalt.MeetReserve
