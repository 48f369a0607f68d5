import FfmucSalt.MeetReserve.Convergence

/-!
# Pulling pages from a peer

A peer that updates and merges, and a signer that pulls its changes page by
page.  The cursor means the exact `updated` of the last record inside a round,
and a time that both clocks have passed after it; no change of the peer ever
falls behind it.
-/

namespace FfmucSalt.MeetReserve

/-! ## Pages -/

/-- `syncOverlap`: re-fetch a little, merging is idempotent. -/
def syncOverlap : Duration := 10 * nanosPerSecond

/-- `d.Milliseconds()` -/
def Duration.milliseconds (duration : Duration) : Int := duration.tdiv 1000000

/-- `syncResponse` -/
structure SyncResponse where
  now : Int
  rooms : List Record
  /-- Page full, continue after the last record's `updated`. -/
  more : Bool

/-- Whether the round goes on after a page. -/
def SyncResponse.goesOn (page : SyncResponse) : Prop :=
  page.more ∧ page.rooms ≠ []

/-- The cursor after a page, at a time the puller's clock shows. -/
def SyncResponse.cursor (page : SyncResponse) (now : Int) : Int :=
  match page.more, page.rooms.getLast? with
  | true, some last => last.updated
  -- a peer clock (or peer) far ahead must not make us skip its later changes
  | _, _ => max 0 (min page.now now - syncOverlap.milliseconds)

namespace Store

variable {store : Store} {ms : Int} {limit : Nat}

private theorem pairwise_values (wellFormed : store.WellFormed) :
    store.rooms.values.Pairwise fun first second =>
      compare first.updated second.updated ≠ .eq := by
  rw [FiniteMap.values, List.pairwise_map]
  have keys : store.rooms.toList.Pairwise fun first second =>
      ¬ compare first.1 second.1 = .eq :=
    Std.ExtTreeMap.distinct_keys_toList
  refine keys.imp_of_mem ?_
  intro first second firstMember secondMember different same
  have firstStored :=
    Std.ExtTreeMap.mem_toList_iff_getElem?_eq_some.mp firstMember
  have secondStored :=
    Std.ExtTreeMap.mem_toList_iff_getElem?_eq_some.mp secondMember
  apply different
  rw [wellFormed.rooms.distinct firstStored secondStored
    (Std.LawfulEqOrd.eq_of_compare same)]
  exact Std.ReflOrd.compare_self

theorem mem_since {record : Record}
    (member : record ∈ (store.since ms limit).1) :
    ∃ name : RoomName, store.rooms[name]? = some record := by
  have changed : record ∈ sortFunc
      (fun first second => compare first.updated second.updated)
      (store.rooms.values.filter fun record => ms < record.updated) := by
    unfold since at member
    dsimp only at member
    split at member
    · exact List.mem_of_mem_take member
    · exact member
  rw [mem_sortFunc, List.mem_filter] at changed
  exact FiniteMap.mem_values.mp changed.1

/-- What a page leaves out is younger than all of it. -/
theorem mem_since_or (wellFormed : store.WellFormed) (positive : 0 < limit)
    {name : RoomName} {record : Record}
    (stored : store.rooms[name]? = some record) (newer : ms < record.updated) :
    record ∈ (store.since ms limit).1 ∨
      (store.since ms limit).2 = true ∧
        ∃ last, (store.since ms limit).1.getLast? = some last ∧
          last.updated < record.updated := by
  let sorted := sortFunc
    (fun first second : Record => compare first.updated second.updated)
    (store.rooms.values.filter fun record => ms < record.updated)
  have found : record ∈ sorted := by
    rw [mem_sortFunc, List.mem_filter]
    exact ⟨FiniteMap.mem_values.mpr ⟨name, stored⟩, by simpa using newer⟩
  have ordered : sorted.Pairwise fun first second =>
      compare first.updated second.updated = .lt :=
    have : Std.TransCmp fun first second : Record =>
        compare first.updated second.updated :=
      inferInstanceAs (Std.TransCmp (compareOn Record.updated))
    pairwise_sortFunc ((pairwise_values wellFormed).filter _)
  have page : store.since ms limit =
      if limit < sorted.length then (sorted.take limit, true)
      else (sorted, false) := rfl
  rw [page]
  by_cases long : limit < sorted.length
  · rw [if_pos long]
    rw [← List.take_append_drop limit sorted, List.mem_append] at found
    rcases found with inPage | left
    · exact .inl inPage
    · right
      have notEmpty : sorted.take limit ≠ [] := by
        rw [← List.length_pos_iff, List.length_take]
        omega
      refine ⟨rfl, _, List.getLast?_eq_some_getLast notEmpty, ?_⟩
      rw [← List.take_append_drop limit sorted] at ordered
      exact Std.compare_eq_lt.mp ((List.pairwise_append.mp ordered).2.2 _
        (List.getLast_mem notEmpty) _ left)
  · rw [if_neg long]
    exact .inl found

/-- What a store changed since an earlier moment got an `updated` above all
that it stored then, and above `bound`. -/
structure Advances (bound : Int) (earlier later : Store) : Prop where
  last : earlier.last ≤ later.last
  changed : ∀ {name : RoomName} {record : Record},
    later.rooms[name]? = some record → earlier.rooms[name]? = some record ∨
      bound < record.updated ∧ earlier.last < record.updated

section Advances

variable {bound : Int} {earlier middle later : Store}

theorem Advances.refl : Advances bound store store :=
  ⟨le_rfl, .inl⟩

theorem Advances.trans (first : Advances bound earlier middle)
    (second : Advances bound middle later) : Advances bound earlier later := by
  refine ⟨first.last.trans second.last, ?_⟩
  intro name record stored
  rcases second.changed stored with old | ⟨above, fresh⟩
  · exact first.changed old
  · exact .inr ⟨above, first.last.trans_lt fresh⟩

theorem Advances.mono {weaker : Int} (advances : Advances bound earlier later)
    (below : weaker ≤ bound) : Advances weaker earlier later :=
  ⟨advances.last, fun stored => (advances.changed stored).imp_right
    fun above => ⟨below.trans_lt above.1, above.2⟩⟩

/-- Storing a record under a stamp. -/
private theorem Advances.stores {name : RoomName} {record : Record} {now : Int}
    (rooms : later.rooms = earlier.rooms.insert name record)
    (last : later.last = earlier.stamp now)
    (stamped : record.updated = earlier.stamp now) (above : bound < now) :
    Advances bound earlier later := by
  have fresh := earlier.last_lt_stamp now
  refine ⟨by omega, ?_⟩
  intro other stored found
  rw [rooms, FiniteMap.lookup_insert] at found
  split at found
  · cases found
    have := earlier.le_stamp now
    right
    omega
  · exact .inl found

theorem Advances.update {name : RoomName} {fn : Callback} {now : Int}
    {saves : Bool} {outcome : Except Error Record}
    (done : earlier.update name fn now saves = some (outcome, later))
    (above : bound < now) : Advances bound earlier later := by
  cases outcome with
  | error error => exact (update_error done).2 ▸ .refl
  | ok out =>
      obtain ⟨next, -, committed⟩ := update_ok done
      have isLater : later = (earlier.commit name next now saves).2 := by
        rw [committed]
      rw [isLater]
      exact .stores (commit_rooms ..) (commit_last ..) rfl above

theorem Advances.mergeRecord (other : Record) {now : Int} (above : bound < now) :
    Advances bound store (store.mergeRecord other now).1 := by
  cases changed : (store.mergeRecord other now).2 with
  | true =>
      refine .stores (store.mergeRecord_rooms other now) ?_ ?_ above
      · rw [mergeRecord_last, if_pos changed]
      · rw [mergedRecord, if_pos changed]
  | false =>
      have rooms := mergeRecord_rooms_of_unchanged changed
      refine ⟨?_, ?_⟩
      · rw [mergeRecord_last, changed]
        exact le_rfl
      · intro name record stored
        rw [rooms] at stored
        exact .inl stored

theorem Advances.mergeRemote {recs : List (Option Record × Int)}
    (above : ∀ record now, (record, now) ∈ recs → bound < now) :
    Advances bound store (store.mergeRemote recs).1 := by
  apply mergeRemote_keeps (motive := Advances bound store) .refl
  · intro current other now member _ held
    exact held.trans (.mergeRecord other (above _ now member))
  · exact fun _ _ held => ⟨held.last, held.changed⟩

end Advances

end Store

/-! ## A peer and a puller -/

/-- Where a page request is. -/
inductive Exchange where
  | idle
  | asked (since : Int)
  /-- `handleSync` has read the clock. -/
  | clocked (since now : Int)
  /-- The response, and what the peer held when it made the page. -/
  | served (page : SyncResponse) (held : Store)

structure Sync where
  peer : Store
  /-- The latest time the peer's clock showed. -/
  highest : Int
  puller : Store
  cursor : Int
  exchange : Exchange

namespace Sync

/-- A reading of the peer's clock: it never goes back by `syncOverlap` or
more. -/
def Reads (sync : Sync) (now : Int) : Prop :=
  0 < now ∧ sync.highest - syncOverlap.milliseconds < now

/-- After a page: its records are merged, each at a time the puller's clock
shows, and the cursor moves. -/
def received (sync : Sync) (page : SyncResponse)
    (recs : List (Option Record × Int)) (now : Int) : Sync :=
  { sync with
    puller := (sync.puller.mergeRemote recs).1
    cursor := page.cursor now
    exchange := .idle }

inductive Step (server : Server) (limit : Nat) (sync : Sync) : Sync → Prop where
  | peerUpdates {room : RoomName} {change : Change} {random : UInt32} {now : Int}
      {saves : Bool} {outcome : Except Error Record} {peer : Store}
      (makes : server.Makes room change) (reads : sync.Reads now)
      (done : sync.peer.update room (server.callback change random) now saves =
        some (outcome, peer)) :
      Step server limit sync { sync with peer, highest := max sync.highest now }
  | peerMerges {recs : List (Option Record × Int)}
      (reads : ∀ record now, (record, now) ∈ recs → sync.Reads now) :
      Step server limit sync
        { sync with
          peer := (sync.peer.mergeRemote recs).1
          highest := (recs.map Prod.snd).foldl max sync.highest }
  | pullerUpdates {room : RoomName} {change : Change} {random : UInt32}
      {now : Int} {saves : Bool} {outcome : Except Error Record} {puller : Store}
      (makes : server.Makes room change)
      (done : sync.puller.update room (server.callback change random) now saves =
        some (outcome, puller)) :
      Step server limit sync { sync with puller }
  | pullerMerges (recs : List (Option Record × Int)) :
      Step server limit sync
        { sync with puller := (sync.puller.mergeRemote recs).1 }
  | asks (idle : sync.exchange = .idle) :
      Step server limit sync { sync with exchange := .asked sync.cursor }
  | clocks {since now : Int} (asked : sync.exchange = .asked since)
      (reads : sync.Reads now) :
      Step server limit sync
        { sync with
          highest := max sync.highest now
          exchange := .clocked since now }
  | serves {since now : Int} (clocked : sync.exchange = .clocked since now) :
      Step server limit sync
        { sync with
          exchange := .served
            { now
              rooms := (sync.peer.since since limit).1
              more := (sync.peer.since since limit).2 } sync.peer }
  /-- The request fails, wherever it is; a later round tries again. -/
  | fails : Step server limit sync { sync with exchange := .idle }
  | receives {page : SyncResponse} {held : Store}
      {recs : List (Option Record × Int)} (now : Int)
      (served : sync.exchange = .served page held)
      (rooms : recs.map Prod.fst = page.rooms.map some) :
      Step server limit sync (sync.received page recs now)

def Run (server : Server) (limit : Nat) : Sync → Sync → Prop :=
  Relation.ReflTransGen (Step server limit)

/-- A signer that has not pulled from the peer yet. -/
structure Begins (sync : Sync) : Prop where
  peer : sync.peer.WellFormed
  puller : sync.puller.WellFormed
  positive : ∀ {name : RoomName} {record : Record},
    sync.peer.rooms[name]? = some record → 0 < record.updated
  cursor : sync.cursor = 0
  exchange : sync.exchange = .idle

/-- The cursor has passed a record of the peer only if the puller has it. -/
def Caught (sync : Sync) (held : Store) : Prop :=
  ∀ {name : RoomName} {record : Record}, held.rooms[name]? = some record →
    record.updated ≤ sync.cursor →
      (record.point : WithBot Record.Point) ≤ sync.puller.pointOf name

/-- No later stamp of the peer can be below this, see `Reads`. -/
def floor (time : Int) : Int := max 0 (time - syncOverlap.milliseconds)

/-- What holds of a request on its way. -/
def Fair (limit : Nat) (sync : Sync) : Exchange → Prop
  | .idle => True
  | .asked since => since = sync.cursor
  | .clocked since now => since = sync.cursor ∧ now ≤ sync.highest
  | .served page held => page.now ≤ sync.highest ∧ held.WellFormed ∧
      (page.rooms, page.more) = held.since sync.cursor limit ∧
      held.Advances (floor page.now) sync.peer ∧ sync.Caught held

structure Invariant (limit : Nat) (sync : Sync) : Prop where
  peer : sync.peer.WellFormed
  puller : sync.puller.WellFormed
  /-- The next stamp of the peer is above the cursor. -/
  ahead : sync.cursor ≤ max sync.peer.last (floor sync.highest)
  caught : sync.Caught sync.peer
  fair : sync.Fair limit sync.exchange

variable {server : Server} {limit : Nat} {sync later : Sync}

private theorem floor_mono {earlier later : Int} (ordered : earlier ≤ later) :
    floor earlier ≤ floor later := by
  unfold floor
  omega

theorem Reads.above {now : Int} (reads : sync.Reads now) :
    floor sync.highest < now := by
  obtain ⟨positive, steady⟩ := reads
  unfold floor
  omega

/-- A step changes the peer under stamps above `floor`, or leaves it alone. -/
theorem Step.peer (step : Step server limit sync later) :
    sync.peer.Advances (floor sync.highest) later.peer ∧
        later.cursor = sync.cursor ∨ later.peer = sync.peer := by
  cases step with
  | peerUpdates makes reads done => exact .inl ⟨.update done reads.above, rfl⟩
  | peerMerges reads =>
      exact .inl ⟨.mergeRemote fun record now member =>
        (reads record now member).above, rfl⟩
  | pullerUpdates => exact .inr rfl
  | pullerMerges => exact .inr rfl
  | asks => exact .inr rfl
  | clocks => exact .inr rfl
  | serves => exact .inr rfl
  | fails => exact .inr rfl
  | receives => exact .inr rfl

namespace Invariant

theorem begins (begins : sync.Begins) : sync.Invariant limit where
  peer := begins.peer
  puller := begins.puller
  ahead := by
    rw [begins.cursor]
    exact le_max_of_le_right (le_max_left _ _)
  caught := by
    intro name record stored old
    have := begins.positive stored
    rw [begins.cursor] at old
    omega
  fair := by
    rw [begins.exchange]
    trivial

/-- The peer changes its store, under stamps above `floor`. -/
private theorem peerChanges (invariant : sync.Invariant limit) {peer : Store}
    {highest : Int} (wellFormed : peer.WellFormed)
    (advances : sync.peer.Advances (floor sync.highest) peer)
    (higher : sync.highest ≤ highest) :
    { sync with peer, highest }.Invariant limit := by
  have ahead := invariant.ahead
  refine ⟨wellFormed, invariant.puller, ?_, ?_, ?_⟩
  · have := floor_mono higher
    have := advances.last
    change sync.cursor ≤ max peer.last (floor highest)
    omega
  · intro name record stored old
    rcases advances.changed stored with same | ⟨above, fresh⟩
    · exact invariant.caught same old
    · change record.updated ≤ sync.cursor at old
      omega
  · have fair := invariant.fair
    change Fair limit { sync with peer, highest } sync.exchange
    cases isExchange : sync.exchange with
    | idle => trivial
    | asked since =>
        rw [isExchange] at fair
        exact fair
    | clocked since now =>
        rw [isExchange] at fair
        exact ⟨fair.1, fair.2.trans higher⟩
    | served page held =>
        rw [isExchange] at fair
        obtain ⟨before, heldWellFormed, isPage, since, caught⟩ := fair
        exact ⟨before.trans higher, heldWellFormed, isPage,
          since.trans (advances.mono (floor_mono before)), caught⟩

/-- The puller learns more. -/
private theorem pullerGrows (invariant : sync.Invariant limit) {puller : Store}
    (wellFormed : puller.WellFormed)
    (grows : ∀ room, sync.puller.pointOf room ≤ puller.pointOf room) :
    { sync with puller }.Invariant limit := by
  have caught : ∀ {held : Store}, sync.Caught held →
      { sync with puller }.Caught held :=
    fun caught _ _ stored old => (caught stored old).trans (grows _)
  refine ⟨invariant.peer, wellFormed, invariant.ahead,
    caught invariant.caught, ?_⟩
  have fair := invariant.fair
  change Fair limit { sync with puller } sync.exchange
  cases isExchange : sync.exchange with
  | idle => trivial
  | asked since =>
      rw [isExchange] at fair
      exact fair
  | clocked since now =>
      rw [isExchange] at fair
      exact fair
  | served page held =>
      rw [isExchange] at fair
      obtain ⟨before, heldWellFormed, isPage, since, heldCaught⟩ := fair
      exact ⟨before, heldWellFormed, isPage, since, caught heldCaught⟩

/-- The request moves on. -/
private theorem exchanges (invariant : sync.Invariant limit) {highest : Int}
    {exchange : Exchange} (higher : sync.highest ≤ highest)
    (fair : { sync with highest }.Fair limit exchange) :
    { sync with highest, exchange }.Invariant limit := by
  refine ⟨invariant.peer, invariant.puller, ?_, invariant.caught, ?_⟩
  · have ahead := invariant.ahead
    have := floor_mono higher
    change sync.cursor ≤ max sync.peer.last (floor highest)
    omega
  · cases exchange <;> exact fair

/-- What the peer held when it made a page is below the new cursor only if the
puller has it once it received the page. -/
private theorem caught_received (invariant : sync.Invariant limit)
    (positive : 0 < limit) {page : SyncResponse} {held : Store}
    (served : sync.exchange = .served page held)
    {recs : List (Option Record × Int)}
    (rooms : recs.map Prod.fst = page.rooms.map some) {name : RoomName}
    {record : Record} (stored : held.rooms[name]? = some record) :
    (record.point : WithBot Record.Point) ≤
        (sync.puller.mergeRemote recs).1.pointOf name ∨
      page.more = true ∧ ∃ last, page.rooms.getLast? = some last ∧
        last.updated < record.updated := by
  have fair := invariant.fair
  rw [served] at fair
  obtain ⟨-, wellFormed, isPage, -, caught⟩ := fair
  obtain ⟨isRooms, isMore⟩ := Prod.mk.inj isPage
  by_cases old : record.updated ≤ sync.cursor
  · exact .inl ((caught stored old).trans
      (sync.puller.pointOf_le_mergeRemote recs name))
  · rcases Store.mem_since_or wellFormed positive stored (not_le.mp old) with
      inPage | left
    · left
      have sent : some record ∈ recs.map Prod.fst := by
        rw [rooms, isRooms]
        exact List.mem_map_of_mem inPage
      obtain ⟨⟨received, now⟩, member, isRecord⟩ := List.mem_map.mp sent
      cases isRecord
      have named := wellFormed.rooms.keyed stored
      have valid := wellFormed.rooms.valid stored
      rw [← named] at valid ⊢
      exact sync.puller.le_pointOf_mergeRemote member valid
    · right
      rw [isRooms, isMore]
      exact left

private theorem receives (invariant : sync.Invariant limit)
    (positive : 0 < limit) {page : SyncResponse} {held : Store}
    (served : sync.exchange = .served page held)
    {recs : List (Option Record × Int)} (now : Int)
    (rooms : recs.map Prod.fst = page.rooms.map some) :
    (sync.received page recs now).Invariant limit := by
  have fair := invariant.fair
  rw [served] at fair
  obtain ⟨before, wellFormed, isPage, advances, -⟩ := fair
  have isRooms := congrArg Prod.fst isPage
  -- the new cursor is a stamp of the peer or below its clock
  have bounded : page.cursor now ≤ max held.last (floor page.now) := by
    unfold SyncResponse.cursor
    split
    · rename_i last _ isLast
      obtain ⟨name, stored⟩ : ∃ name : RoomName,
          held.rooms[name]? = some last := by
        apply Store.mem_since
        rw [← isRooms]
        exact List.mem_of_getLast? isLast
      exact le_max_of_le_left (wellFormed.stamped stored)
    · unfold floor
      omega
  refine ⟨invariant.peer, invariant.puller.mergeRemote recs, ?_, ?_, trivial⟩
  · have := advances.last
    have := floor_mono before
    change page.cursor now ≤ max sync.peer.last (floor sync.highest)
    omega
  · intro name record stored old
    change record.updated ≤ page.cursor now at old
    rcases advances.changed stored with same | ⟨above, fresh⟩
    · rcases invariant.caught_received positive served rooms same with
        caught | ⟨more, last, isLast, younger⟩
      · exact caught
      · rw [SyncResponse.cursor, more, isLast] at old
        dsimp only at old
        omega
    · omega

private theorem le_foldl_max (times : List Int) (start : Int) :
    start ≤ times.foldl max start := by
  induction times generalizing start with
  | nil => exact le_rfl
  | cons time times induction =>
      exact (le_max_left start time).trans (induction _)

theorem step (invariant : sync.Invariant limit) (positive : 0 < limit)
    (step : Step server limit sync later) : later.Invariant limit := by
  cases step with
  | peerUpdates makes reads done =>
      exact invariant.peerChanges (invariant.peer.update makes.valid done)
        (.update done reads.above) (le_max_left _ _)
  | peerMerges reads =>
      exact invariant.peerChanges (invariant.peer.mergeRemote _)
        (.mergeRemote fun record now member => (reads record now member).above)
        (le_foldl_max _ _)
  | pullerUpdates makes done =>
      exact invariant.pullerGrows (invariant.puller.update makes.valid done)
        (sync.puller.pointOf_le_update done)
  | pullerMerges recs =>
      exact invariant.pullerGrows (invariant.puller.mergeRemote recs)
        (sync.puller.pointOf_le_mergeRemote recs)
  | asks idle => exact invariant.exchanges le_rfl rfl
  | clocks asked reads =>
      have fair := invariant.fair
      rw [asked] at fair
      exact invariant.exchanges (le_max_left _ _) ⟨fair, le_max_right _ _⟩
  | serves clocked =>
      have fair := invariant.fair
      rw [clocked] at fair
      obtain ⟨isSince, before⟩ := fair
      subst isSince
      exact invariant.exchanges le_rfl
        ⟨before, invariant.peer, rfl, .refl, invariant.caught⟩
  | fails => exact invariant.exchanges le_rfl trivial
  | receives now served rooms =>
      exact invariant.receives positive served now rooms

theorem run (invariant : sync.Invariant limit) (positive : 0 < limit)
    (run : Run server limit sync later) : later.Invariant limit := by
  induction run with
  | refl => exact invariant
  | tail _ last induction => exact induction.step positive last

end Invariant

/-! ## No change is skipped -/

end Sync

namespace Sample

/-- What the peer answers to the first request. -/
def page : SyncResponse :=
  { now := 1000005
    rooms := (reserved.2.since 0 2000).1
    more := (reserved.2.since 0 2000).2 }

end Sample

end FfmucSalt.MeetReserve
