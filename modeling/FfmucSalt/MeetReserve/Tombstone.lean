import FfmucSalt.MeetReserve.Process

/-!
# Deletion is final

Once the stored record of a room is deleted, it stays so through everything
that can happen to the store, and no link of the room does anything any more.
-/

namespace FfmucSalt.MeetReserve

/-! ## What happens to a store -/

/-- One operation on the store of a signer: the update of a handler, a merge of
arbitrary records, a collection with any `keep`, or saving and loading. -/
inductive Server.Operates (server : Server) (store : Store) : Store → Prop where
  | update {room : RoomName} {change : Change} {random : UInt32} {now : Int}
      {saves : Bool} {outcome : Except Error Record} {later : Store}
      (makes : server.Makes room change)
      (done : store.update room (server.callback change random) now saves =
        some (outcome, later)) :
      Operates server store later
  | mergeRemote (recs : List (Option Record × Int)) :
      Operates server store (store.mergeRemote recs).1
  | gc (now : Time) (keep : Duration) (saves : Bool) :
      Operates server store (store.gc now keep server.legacyLimit saves)
  | reload : Operates server store (store.saveLocked true).restart

/-- Any number of operations. -/
def Server.Reaches (server : Server) : Store → Store → Prop :=
  Relation.ReflTransGen server.Operates

/-- The room was deleted, at `time` or before. -/
def Store.Deleted (store : Store) (room : RoomName) (time : Int) : Prop :=
  ∃ record : Record, store.rooms[room]? = some record ∧ record.revoked ≠ 0 ∧
    record.revoked ≤ time

section Operates

variable {server : Server} {store later : Store} {room : RoomName} {time : Int}

theorem Server.Operates.wellFormed (operates : server.Operates store later)
    (wellFormed : store.WellFormed) : later.WellFormed := by
  cases operates with
  | update makes done => exact wellFormed.update makes.valid done
  | mergeRemote recs => exact wellFormed.mergeRemote recs
  | gc now keep saves => exact wellFormed.gc now keep _ saves
  | reload => exact (wellFormed.saveLocked true).restart

/-- A merge keeps a deletion and never moves it later. -/
theorem Record.revoked_merged {record : Record} (deleted : record.revoked ≠ 0)
    (other : Record) :
    (record.merged other).revoked ≠ 0 ∧
      (record.merged other).revoked ≤ record.revoked := by
  rw [Record.merged_revoked]
  split <;> omega

/-- Storing a record that is at most as late deleted as the one before. -/
private theorem Store.Deleted.stores (deleted : store.Deleted room time)
    {name : RoomName} {record : Record}
    (rooms : later.rooms = store.rooms.insert name record)
    (keeps : (store.recordOr name).revoked ≠ 0 →
      record.revoked ≠ 0 ∧ record.revoked ≤ (store.recordOr name).revoked) :
    later.Deleted room time := by
  obtain ⟨old, stored, oldDeleted, bounded⟩ := deleted
  by_cases same : name = room
  · subst same
    have isOld : store.recordOr name = old := by
      rw [Store.recordOr, stored]
      rfl
    rw [isOld] at keeps
    refine ⟨record, ?_, (keeps oldDeleted).1, (keeps oldDeleted).2.trans bounded⟩
    rw [rooms, FiniteMap.lookup_insert, if_pos rfl]
  · refine ⟨old, ?_, oldDeleted, bounded⟩
    rw [rooms, FiniteMap.lookup_insert, if_neg same, stored]

theorem Store.Deleted.update (deleted : store.Deleted room time)
    {name : RoomName} {fn : Callback} {now : Int} {saves : Bool}
    {outcome : Except Error Record}
    (done : store.update name fn now saves = some (outcome, later)) :
    later.Deleted room time := by
  cases outcome with
  | error error => exact (Store.update_error done).2 ▸ deleted
  | ok out =>
      obtain ⟨next, -, committed⟩ := Store.update_ok done
      have isLater : later = (store.commit name next now saves).2 := by
        rw [committed]
      rw [isLater]
      apply deleted.stores (Store.commit_rooms ..)
      exact fun old => Record.revoked_merged old _

theorem Store.Deleted.mergeRemote (deleted : store.Deleted room time)
    (recs : List (Option Record × Int)) :
    (store.mergeRemote recs).1.Deleted room time := by
  apply Store.mergeRemote_keeps (motive := fun store => store.Deleted room time)
    deleted
  · intro store other now _ _ held
    apply held.stores (store.mergeRecord_rooms other now)
    intro old
    unfold Store.mergedRecord
    dsimp only
    split <;> exact Record.revoked_merged old _
  · exact fun _ _ held => held

theorem Store.Deleted.gc (deleted : store.Deleted room time) (now : Time)
    (keep : Duration) (legacyLimit : Record → Int) (saves : Bool) :
    (store.gc now keep legacyLimit saves).Deleted room time := by
  obtain ⟨record, stored, oldDeleted, bounded⟩ := deleted
  unfold Store.Deleted
  rw [Store.lookup_gc, stored, Option.bind_some]
  unfold Store.collected
  split
  · exact ⟨record, rfl, oldDeleted, bounded⟩
  · exact ⟨_, rfl, oldDeleted, bounded⟩

theorem Server.Operates.deleted (operates : server.Operates store later)
    (wellFormed : store.WellFormed) (deleted : store.Deleted room time) :
    later.Deleted room time := by
  cases operates with
  | update makes done => exact deleted.update done
  | mergeRemote recs => exact deleted.mergeRemote recs
  | gc now keep saves => exact deleted.gc now keep _ saves
  | reload =>
      have rooms : (store.saveLocked true).restart.rooms = store.rooms :=
        Store.restart_rooms wellFormed.rooms rfl
      unfold Store.Deleted
      rwa [rooms]

/-- What one operation keeps, any number of them keeps. -/
theorem Server.Reaches.wellFormed (reaches : server.Reaches store later)
    (wellFormed : store.WellFormed) : later.WellFormed := by
  induction reaches with
  | refl => exact wellFormed
  | tail _ last induction => exact last.wellFormed induction

theorem Server.Reaches.deleted (reaches : server.Reaches store later)
    (wellFormed : store.WellFormed) (deleted : store.Deleted room time) :
    later.Deleted room time := by
  induction reaches with
  | refl => exact deleted
  | tail reached last induction =>
      exact last.deleted (Reaches.wellFormed reached wellFormed) induction

/-- What happens to a process happens to its store, if anything does. -/
theorem Server.Happens.operates {process after : Process} {event : Event}
    (happens : server.Happens process event after) :
    after.store = process.store ∨ server.Operates process.store after.store := by
  cases happens with
  | forget => exact .inl rfl
  | @store operation result store free legal running done =>
      right
      cases operation with
      | update room change random now saves =>
          obtain ⟨⟨outcome, later⟩, updated, same⟩ :=
            Option.map_eq_some_iff.mp done
          cases same
          exact .update legal updated
      | mergeRemote recs =>
          cases done
          exact .mergeRemote recs
      | gc now saves =>
          cases done
          exact .gc now gcKeep saves
      | restart => exact (running rfl).elim

end Operates

/-! ## Requests about a deleted room -/

/-- The request was refused. -/
def Response.Refuses : Response → Prop
  | .error _ => True
  | .gone _ => True
  | _ => False

/-- The key in a request that joins, extends or rotates. -/
def Server.joinKeyOf (server : Server) : Request → Option Bytes
  | .extend _ body => body.map fun body => server.extractKey body.key
  | .rotate _ body => body.map fun body => server.extractKey body.key
  | .apiJoin _ body => body.map fun body => server.extractKey body.key
  | .join role path => some
      (trimPrefix path (server.cfg.basePath ++ ascii "/" ++ role.take 1 ++
        ascii "/"))
  | _ => none

/-- If a key opens a room at all, it is this one. -/
def Server.OpensOnly (server : Server) (room : RoomName) (key : Bytes)
    (store : Store) : Prop :=
  if validSecret key then
    ∀ record entry, store.bySecret (server.hashSecret key) =
      some (record, entry) → record.room = room
  else ∀ claims, server.parseLegacyHostToken key = .ok claims →
    claims.room = room

section Refused

open Program

/-- Requests change nothing but a deleted room. -/
private def Voids (room : RoomName) : Action → Prop
  | .update name change => name = room ∧ ∃ host, change = .rotate host
  | _ => True

/-- What a signer answers about a deleted room. -/
private def Buries (server : Server) (room : RoomName) (key : Bytes) :
    (action : Action) → Answer action → Prop
  | .get name, answer => name = room →
      ∃ record, answer = some record ∧ record.revoked ≠ 0
  | .bySecret hash, answer => validSecret key → hash = server.hashSecret key →
      ∀ record entry, answer = some (record, entry) →
        record.room = room ∧ record.revoked ≠ 0
  | .update _ _, answer => ∃ error, answer = .error error
  | _, _ => True

/-- Nothing but a deleted room is resolved. -/
private def Dead (room : RoomName) :
    Except Error (Record × Bytes × Bool) → Prop
  | .error _ => True
  | .ok (record, _, _) => record.room = room ∧ record.revoked ≠ 0

variable {server : Server} {room : RoomName} {key : Bytes}

theorem refuses_ofError (error : Error) :
    (Response.ofError error).Refuses := by
  cases error <;> trivial

private theorem bySecretOrPull_buries (valid : validSecret key) :
    Ensures (Voids room) (Buries server room key)
      (fun found => ∀ record entry, found = some (record, entry) →
        record.room = room ∧ record.revoked ≠ 0)
      (Server.bySecretOrPull (server.hashSecret key)) := by
  apply Ensures.action trivial
  intro found permitted
  cases found with
  | some found => exact .pure (permitted valid rfl)
  | none =>
      exact .action trivial fun _ _ =>
        .call trivial fun _ again => .done (again valid rfl)

private theorem resolve_buries {raw : Bytes} (isKey : server.extractKey raw = key)
    (opens : ¬ validSecret key → ∀ claims,
      server.parseLegacyHostToken key = .ok claims → claims.room = room)
    (now : Time) :
    Ensures (Voids room) (Buries server room key) (Dead room)
      (server.resolve raw now) := by
  subst isKey
  unfold Server.resolve
  dsimp only
  apply Ensures.ite
  · intro valid
    apply Ensures.bind _ (bySecretOrPull_buries valid)
    intro found dead
    cases found with
    | none => exact .pure trivial
    | some found =>
        obtain ⟨record, entry⟩ := found
        apply Ensures.ite
        · exact fun _ => .pure trivial
        intro _
        apply Ensures.ite
        · exact fun _ => .pure trivial
        exact fun _ => .pure (dead record entry rfl)
  · intro invalid
    split
    · exact .pure trivial
    rename_i claims parsed
    apply Ensures.action trivial
    intro cur permitted
    obtain ⟨record, isRecord, deleted⟩ := permitted (opens invalid claims parsed)
    subst isRecord
    apply Ensures.ite
    · exact fun _ => .pure trivial
    · exact fun alive => (alive deleted).elim

private theorem handleExtend_buries {isPost : Bool} {body : Option ExtendBody}
    (opens : ∀ req, body = some req → server.extractKey req.key = key ∧
      (¬ validSecret key → ∀ claims,
        server.parseLegacyHostToken key = .ok claims → claims.room = room)) :
    Ensures (Voids room) (Buries server room key) Response.Refuses
      (server.handleExtend isPost body) := by
  unfold Server.handleExtend
  split
  · exact .pure (refuses_ofError _)
  rename_i req decoded
  obtain ⟨isKey, claimed⟩ := opens req (body_of_decode decoded)
  split
  · exact .pure (refuses_ofError _)
  apply Ensures.action trivial
  intro now _
  apply Ensures.bind _ (resolve_buries isKey claimed now)
  intro outcome dead
  cases outcome with
  | error error => exact .pure (refuses_ofError _)
  | ok found =>
      obtain ⟨record, host, migrated⟩ := found
      apply Ensures.ite
      · exact fun _ => .pure trivial
      · exact fun alive => (alive dead.2).elim

private theorem handleRotate_buries {isPost : Bool} {body : Option ManageBody}
    (opens : ∀ req, body = some req → server.extractKey req.key = key ∧
      (¬ validSecret key → ∀ claims,
        server.parseLegacyHostToken key = .ok claims → claims.room = room)) :
    Ensures (Voids room) (Buries server room key) Response.Refuses
      (server.handleRotate isPost body) := by
  unfold Server.handleRotate
  split
  · exact .pure (refuses_ofError _)
  rename_i req decoded
  obtain ⟨isKey, claimed⟩ := opens req (body_of_decode decoded)
  apply Ensures.action trivial
  intro now _
  apply Ensures.bind _ (resolve_buries isKey claimed now)
  intro outcome dead
  cases outcome with
  | error error => exact .pure (refuses_ofError _)
  | ok found =>
      obtain ⟨record, host, migrated⟩ := found
      apply Ensures.action trivial
      intro random _
      cases random with
      | error error => exact .pure (refuses_ofError _)
      | ok random =>
          apply Ensures.action
          · exact ⟨dead.1, _, rfl⟩
          intro answer refused
          obtain ⟨error, isError⟩ := refused
          subst isError
          exact .pure (refuses_ofError _)

private theorem handleAPIJoin_buries {isPost : Bool} {body : Option JoinBody}
    (opens : ∀ req, body = some req → server.extractKey req.key = key ∧
      (¬ validSecret key → ∀ claims,
        server.parseLegacyHostToken key = .ok claims → claims.room = room)) :
    Ensures (Voids room) (Buries server room key) Response.Refuses
      (server.handleAPIJoin isPost body) := by
  unfold Server.handleAPIJoin
  split
  · exact .pure (refuses_ofError _)
  rename_i req decoded
  obtain ⟨isKey, claimed⟩ := opens req (body_of_decode decoded)
  apply Ensures.ite
  · exact fun _ => .pure (refuses_ofError _)
  intro _
  apply Ensures.action trivial
  intro now _
  have joined : Ensures (Voids room) (Buries server room key)
      (fun outcome => ∃ error, outcome = .error error)
      (server.resolveJoin req.key now) := by
    refine Ensures.bind (fun outcome => ∃ error,
      outcome = .error error) ?_ ?_
    · apply Ensures.ite
      · intro valid
        rw [isKey] at valid ⊢
        apply Ensures.bind _ (bySecretOrPull_buries valid)
        intro found dead
        cases found with
        | none => exact .pure ⟨_, rfl⟩
        | some found =>
            obtain ⟨record, entry⟩ := found
            apply Ensures.ite
            · exact fun _ => .pure ⟨_, rfl⟩
            · exact fun alive => (alive (dead record entry rfl).2).elim
      · intro _
        apply Ensures.bind _ (resolve_buries isKey claimed now)
        intro outcome dead
        cases outcome with
        | error error => exact .pure ⟨_, rfl⟩
        | ok found =>
            obtain ⟨record, host, migrated⟩ := found
            apply Ensures.ite
            · exact fun _ => .pure ⟨_, rfl⟩
            · exact fun alive => (alive dead.2).elim
    · intro outcome failed
      obtain ⟨error, isError⟩ := failed
      subst isError
      exact .pure ⟨_, rfl⟩
  apply Ensures.bind _ joined
  intro outcome failed
  obtain ⟨error, isError⟩ := failed
  subst isError
  exact .pure (refuses_ofError _)

private theorem handleJoin_buries {role path : Bytes}
    (isKey : trimPrefix path (server.cfg.basePath ++ ascii "/" ++ role.take 1 ++
      ascii "/") = key) :
    Ensures (Voids room) (Buries server room key) Response.Refuses
      (server.handleJoin role path) := by
  unfold Server.handleJoin
  dsimp only
  rw [isKey]
  apply Ensures.ite
  · exact fun _ => .pure trivial
  intro valid
  apply Ensures.bind _ (bySecretOrPull_buries (not_not.mp valid))
  intro found dead
  apply Ensures.action trivial
  intro now _
  cases found with
  | none => exact .pure trivial
  | some found =>
      obtain ⟨record, entry⟩ := found
      apply Ensures.ite
      · exact fun _ => .pure trivial
      intro _
      apply Ensures.ite
      · exact fun _ => .pure trivial
      · exact fun alive => (alive (dead record entry rfl).2).elim

private theorem handle_buries {request : Request}
    (isKey : server.joinKeyOf request = some key)
    (opens : ¬ validSecret key → ∀ claims,
      server.parseLegacyHostToken key = .ok claims → claims.room = room) :
    Ensures (Voids room) (Buries server room key) Response.Refuses
      (server.handle request) := by
  have opened : ∀ {α : Type} {body : Option α} {extract : α → Bytes},
      body.map extract = some key → ∀ req, body = some req →
        extract req = key ∧ (¬ validSecret key → ∀ claims,
          server.parseLegacyHostToken key = .ok claims →
            claims.room = room) := by
    intro α body extract mapped req isReq
    subst isReq
    exact ⟨Option.some.inj mapped, opens⟩
  cases request with
  | extend isPost body => exact handleExtend_buries (opened isKey)
  | rotate isPost body => exact handleRotate_buries (opened isKey)
  | apiJoin isPost body => exact handleAPIJoin_buries (opened isKey)
  | join role path => exact handleJoin_buries (Option.some.inj isKey)
  | _ => cases isKey

variable {time : Int}

/-- A signer that stores a deleted room. -/
private structure Grave (server : Server) (room : RoomName) (time : Int)
    (store : Store) : Prop where
  wellFormed : store.WellFormed
  deleted : store.Deleted room time

private theorem Grave.happens {process later : Process} {event : Event}
    (grave : Grave server room time process.store)
    (happens : server.Happens process event later) :
    Grave server room time later.store := by
  rcases happens.operates with same | operates
  · rwa [same]
  · exact ⟨operates.wellFormed grave.wellFormed,
      operates.deleted grave.wellFormed grave.deleted⟩

private theorem Grave.performs {process later : Process} {action : Action}
    {answer : Answer action} (grave : Grave server room time process.store)
    (opens : server.OpensOnly room key process.store) (voids : Voids room action)
    (performs : server.Performs process action answer later) :
    Buries server room key action answer ∧ later.store = process.store := by
  obtain ⟨record, stored, deleted, -⟩ := grave.deleted
  cases performs with
  | get free =>
      refine ⟨?_, rfl⟩
      intro named
      subst named
      exact ⟨record, stored, deleted⟩
  | bySecret free =>
      refine ⟨?_, rfl⟩
      intro valid isHash found entry isFound
      subst isHash
      rw [Server.OpensOnly, if_pos valid] at opens
      have named := opens found entry isFound
      obtain ⟨foundStored, -⟩ := Store.bySecret_eq_some isFound
      rw [← grave.wellFormed.rooms.keyed foundStored, named, stored] at foundStored
      cases foundStored
      exact ⟨named, deleted⟩
  | @update name change random now saves outcome store free done =>
      obtain ⟨named, host, rotates⟩ := voids
      subst named rotates
      have refused : server.callback (.rotate host) random
          process.store.rooms[name]? =
            .err (fail 410 reasonDeleted "room was deleted") := by
        rw [stored]
        exact if_pos deleted
      unfold Store.update at done
      rw [refused] at done
      cases done
      exact ⟨⟨_, rfl⟩, rfl⟩
  | now positive => exact ⟨trivial, rfl⟩
  | pullSoon => exact ⟨trivial, rfl⟩
  | randRead complete => exact ⟨trivial, rfl⟩
  | randReadFails => exact ⟨trivial, rfl⟩
  | randInts complete inside => exact ⟨trivial, rfl⟩
  | randIntsFails => exact ⟨trivial, rfl⟩
  | spend fresh => exact ⟨trivial, rfl⟩
  | replay known => exact ⟨trivial, rfl⟩

private theorem Grave.refuses {process final : Process} {request : Request}
    {response : Response} (grave : Grave server room time process.store)
    (isKey : server.joinKeyOf request = some key)
    (opens : server.OpensOnly room key process.store)
    (run : Run (server.machine.within fun process =>
      server.OpensOnly room key process.store) (server.handle request) process
        response final) : response.Refuses := by
  have claimed : ¬ validSecret key → ∀ claims,
      server.parseLegacyHostToken key = .ok claims → claims.room = room := by
    intro invalid
    rwa [Server.OpensOnly, if_neg invalid] at opens
  refine (run.ensures (fun process =>
    Grave server room time process.store ∧
      server.OpensOnly room key process.store) ?_ ?_
    (handle_buries isKey claimed) ⟨grave, opens⟩).1
  · intro process action answer later held voids performs
    obtain ⟨buries, same⟩ := held.1.performs held.2 voids performs
    exact ⟨buries, by rwa [same]⟩
  · intro process event later held happens
    exact ⟨held.1.happens happens.1, happens.2⟩

private theorem Grave.answers {process final : Process} {response : Response}
    (grave : Grave server room time process.store)
    (run : Run server.machine (server.handleRoom true
      (server.cfg.basePath ++ ascii "/api/room/" ++ room)) process response
        final) : response = .status (ascii "deleted") none none := by
  have valid : validRoomName room := by
    obtain ⟨record, stored, -⟩ := grave.deleted
    exact grave.wellFormed.rooms.valid stored
  have ensures : Ensures
      (fun action => action = .now ∨ action = .get room)
      (Buries server room []) (· = .status (ascii "deleted") none none)
      (server.handleRoom true
        (server.cfg.basePath ++ ascii "/api/room/" ++ room)) := by
    unfold Server.handleRoom
    dsimp only
    rw [trimPrefix_append]
    apply Ensures.ite
    · exact fun wrong => (wrong rfl).elim
    intro _
    apply Ensures.ite
    · exact fun invalid => (invalid valid).elim
    intro _
    refine Ensures.bind (fun stored =>
      ∃ record, stored = some record ∧ record.revoked ≠ 0) ?_ ?_
    · apply Ensures.action (.inr rfl)
      intro stored buried
      obtain ⟨record, isRecord, deleted⟩ := buried rfl
      subst isRecord
      exact .pure ⟨record, rfl, deleted⟩
    · intro stored buried
      obtain ⟨record, isRecord, deleted⟩ := buried
      subst isRecord
      apply Ensures.action (.inl rfl)
      intro now _
      exact .pure (if_pos deleted)
  refine (run.ensures (fun process =>
    Grave server room time process.store) ?_ ?_ ensures grave).1
  · intro process action answer later held asked performs
    rcases asked with isNow | isGet
    · subst isNow
      cases performs
      exact ⟨trivial, held⟩
    · subst isGet
      cases performs
      obtain ⟨record, stored, deleted, -⟩ := held.deleted
      exact ⟨fun _ => ⟨record, stored, deleted⟩, held⟩
  · intro process event later held happens
    exact held.happens happens

end Refused

/-- Whatever happens to a store, a deleted room stays deleted, not later than
before: its record stays, Prosody hears that it is deleted, and no key of the
room joins, extends or rotates it. -/
theorem deletion_is_final {server : Server} {store later : Store}
    (reached : server.Reaches (newStore none) store)
    (run : server.Reaches store later) {room : RoomName} {record : Record}
    (stored : store.rooms[room]? = some record) (deleted : record.revoked ≠ 0) :
    (∃ now : Record, later.rooms[room]? = some now ∧ now.revoked ≠ 0 ∧
      now.revoked ≤ record.revoked) ∧
    ∀ process final response, process.store = later →
      (Program.Run server.machine (server.handleRoom true
          (server.cfg.basePath ++ ascii "/api/room/" ++ room)) process response
          final → response = .status (ascii "deleted") none none) ∧
      ∀ request key, server.joinKeyOf request = some key →
        server.OpensOnly room key later →
        Program.Run (server.machine.within fun process =>
            server.OpensOnly room key process.store) (server.handle request)
          process response final → response.Refuses := by
  have wellFormed := reached.wellFormed .newStore
  have remains : later.Deleted room record.revoked :=
    run.deleted wellFormed ⟨record, stored, deleted, le_rfl⟩
  refine ⟨remains, ?_⟩
  intro process final response isLater
  subst isLater
  have grave : Grave server room record.revoked process.store :=
    ⟨run.wellFormed wellFormed, remains⟩
  exact ⟨grave.answers, fun request key isKey opens requestRun =>
    grave.refuses isKey opens requestRun⟩

namespace Sample

/-- A store after a change of the sample's room. -/
def changed (store : Store) (change : Change) : Except Error Record × Store :=
  (store.update room (server.callback change 0) 0 true).getD
    (.error errNoHostLink, store)

theorem run_changed {store : Store} {change : Change}
    (returns : (store.update room (server.callback change 0) 0 true).isSome) :
    server.run store (.update room change 0 0 true) =
      some ((changed store change).1.toOption, (changed store change).2) := by
  have done : store.update room (server.callback change 0) 0 true =
      some (changed store change) :=
    eq_some_getD returns
  change (store.update room (server.callback change 0) 0 true).map _ = _
  rw [done]
  rfl

theorem changed_operates {store : Store} {change : Change}
    (makes : server.Makes room change)
    (returns : (store.update room (server.callback change 0) 0 true).isSome) :
    server.Operates store (changed store change).2 :=
  .update makes (eq_some_getD returns)

def reservedStore : Store :=
  (changed (newStore none) (.reserve (Time.ofUnix 1000) (72 * hour) host)).2

def deletedStore : Store :=
  (changed reservedStore (.revoke room (Time.ofUnix 2000))).2

theorem reservedStore_reached : server.Reaches (newStore none) reservedStore := by
  refine .single (changed_operates ?_ (by decide))
  change isShortName room ∧ 0 < Time.unix (Time.ofUnix 1000)
  decide

theorem deletedStore_reached : server.Reaches (newStore none) deletedStore := by
  refine reservedStore_reached.tail (changed_operates ?_ (by decide))
  change room = room ∧ validRoomName room ∧ 0 < Time.unix (Time.ofUnix 2000)
  decide

/-- The deleted room outlives a late collection and a restart. -/
theorem deletion_is_final_after_gc :
    ∃ now : Record,
      ((deletedStore.gc (Time.ofUnix 9000000) gcKeep server.legacyLimit
        false).saveLocked true).restart.rooms[room]? = some now ∧
      now.revoked ≠ 0 ∧ now.revoked ≤ 2000 := by
  have stored : deletedStore.rooms[room]?.isSome := by decide
  have deleted : (deletedStore.rooms[room]?.getD (Record.empty room)).revoked =
      2000 := by decide
  rw [← deleted]
  refine (deletion_is_final deletedStore_reached
    (.tail (.single (.gc (Time.ofUnix 9000000) gcKeep false)) .reload)
    (eq_some_getD stored) ?_).1
  rw [deleted]
  decide

end Sample

end FfmucSalt.MeetReserve
