import FfmucSalt.MeetReserve.StorePoints
import FfmucSalt.MeetReserve.Tombstone

/-!
# The lock of the store

`update` runs its callback with the lock taken and does not release it if the
callback panics.  The callback that raises the expiry of a migrated v1 room
dereferences the record that an earlier `get` returned; `gc` can remove that
record in between.  Every other callback takes any record, or none.
-/

namespace FfmucSalt.MeetReserve

open Program

section Requests

variable {server : Server}

/-! ## Raising follows a read -/

/-- A room is raised only if the answer before was its record. -/
def Allows (known : Option RoomName) : Action → Prop
  | .update room (.raise _) => known = some room
  | _ => True

/-- A `get` that finds a record teaches that the room is stored. -/
def teaches : (action : Action) → Answer action → Option RoomName
  | .get room, some _ => some room
  | _, _ => none

theorem of_teaches {action : Action} {answer : Answer action}
    {room : RoomName} (learned : teaches action answer = some room) :
    ∃ record : Record, action = .get room ∧ HEq answer (some record) := by
  cases action with
  | get name =>
      cases answer with
      | none => cases learned
      | some record =>
          cases learned
          exact ⟨record, rfl, .rfl⟩
  | _ => cases learned

abbrev Careful {α : Type} (known : Option RoomName) (program : Handler α) : Prop :=
  Heeds Allows teaches known program

section Careful

variable {known : Option RoomName}

private theorem checkPoW_careful (challenge nonce : Bytes) (now : Time) :
    Careful known (server.checkPoW challenge nonce now) := by
  unfold Server.checkPoW
  split
  · apply Heeds.ite
    · exact fun _ => .pure
    intro _
    apply Heeds.ite
    · exact fun _ => .pure
    intro _
    split
    · exact .pure
    apply Heeds.ite
    · exact fun _ => .pure
    intro _
    apply Heeds.ite
    · exact fun _ => .pure
    exact fun _ => .action trivial fun _ => .pure
  · exact .pure

private theorem bySecretOrPull_careful (hash : Hash) :
    Careful known (Server.bySecretOrPull hash) := by
  apply Heeds.action trivial
  intro found
  cases found with
  | none => exact .action trivial fun _ => .call trivial fun _ => .done
  | some found => exact .pure

private theorem resolveLegacy_careful (claims : LegacyClaims) (now : Time) :
    Careful known (server.resolveLegacy claims now) := by
  apply Heeds.action trivial
  intro cur
  cases cur with
  | none =>
      apply Heeds.ite
      · exact fun _ => .pure
      exact fun _ => .action trivial fun _ => .pure
  | some cur =>
      apply Heeds.ite
      · exact fun _ => .pure
      intro _
      apply Heeds.ite
      · exact fun _ => .pure
      intro _
      apply Heeds.ite
      · exact fun _ => .pure
      -- the only `raise` there is
      exact fun _ => .action rfl fun _ => .pure

private theorem resolveSecret_careful (key : Bytes) :
    Careful known (server.resolveSecret key) := by
  apply Heeds.bind (bySecretOrPull_careful _)
  intro known found
  cases found with
  | none => exact .pure
  | some found =>
      apply Heeds.ite
      · exact fun _ => .pure
      exact fun _ => .ite (fun _ => .pure) fun _ => .pure

private theorem resolve_careful (raw : Bytes) (now : Time) :
    Careful known (server.resolve raw now) := by
  apply Heeds.ite
  · exact fun _ => resolveSecret_careful _
  intro _
  split
  · exact .pure
  · exact resolveLegacy_careful _ now

private theorem joinSecret_careful (key : Bytes) :
    Careful known (server.joinSecret key) := by
  apply Heeds.bind (bySecretOrPull_careful _)
  intro known found
  cases found with
  | none => exact .pure
  | some found =>
      apply Heeds.ite
      · exact fun _ => .pure
      exact fun _ => .ite (fun _ => .pure) fun _ => .pure

private theorem joinLegacy_careful (raw : Bytes) (now : Time) :
    Careful known (server.joinLegacy raw now) := by
  apply Heeds.bind (resolve_careful raw now)
  intro known outcome
  cases outcome with
  | error error => exact .pure
  | ok found => exact .ite (fun _ => .pure) fun _ => .pure

private theorem resolveJoin_careful (raw : Bytes) (now : Time) :
    Careful known (server.resolveJoin raw now) := by
  have joined : Careful known (server.joinKey raw now) :=
    .ite (fun _ => joinSecret_careful _) fun _ => joinLegacy_careful raw now
  apply Heeds.bind joined
  intro known outcome
  cases outcome with
  | error error => exact .pure
  | ok found => exact .ite (fun _ => .pure) fun _ => .pure

private theorem reserveRoom_careful (now : Time) (ttl : Duration)
    (host : Bytes) (attempts : Nat) :
    Careful known (Server.reserveRoom now ttl host attempts) := by
  induction attempts generalizing known with
  | zero => exact .pure
  | succ attempts induction =>
      apply Heeds.action trivial
      intro draws
      cases draws with
      | error error => exact .pure
      | ok draws =>
          apply Heeds.action trivial
          intro outcome
          cases outcome with
          | error error => exact induction
          | ok record => exact .pure

private theorem handleReserve_careful (isPost : Bool)
    (body : Option ReserveBody) :
    Careful known (server.handleReserve isPost body) := by
  unfold Server.handleReserve
  split
  · exact .pure
  split
  · exact .pure
  apply Heeds.action trivial
  intro now
  apply Heeds.bind (checkPoW_careful _ _ _)
  intro known rejected
  cases rejected with
  | some reason => exact .pure
  | none =>
      apply Heeds.action trivial
      intro random
      cases random with
      | error error => exact .pure
      | ok random =>
          apply Heeds.bind (reserveRoom_careful _ _ _ _)
          intro known outcome
          cases outcome <;> exact .pure

private theorem handleManage_careful (isPost : Bool)
    (body : Option ManageBody) :
    Careful known (server.handleManage isPost body) := by
  unfold Server.handleManage
  split
  · exact .pure
  apply Heeds.action trivial
  intro now
  apply Heeds.bind (resolve_careful _ now)
  intro known outcome
  cases outcome <;> exact .pure

private theorem handleExtend_careful (isPost : Bool)
    (body : Option ExtendBody) :
    Careful known (server.handleExtend isPost body) := by
  unfold Server.handleExtend
  split
  · exact .pure
  split
  · exact .pure
  apply Heeds.action trivial
  intro now
  apply Heeds.bind (resolve_careful _ now)
  intro known outcome
  cases outcome with
  | error error => exact .pure
  | ok found =>
      apply Heeds.ite
      · exact fun _ => .pure
      intro _
      apply Heeds.ite
      · exact fun _ => .pure
      intro _
      apply Heeds.bind (checkPoW_careful _ _ _)
      intro known rejected
      cases rejected with
      | some reason => exact .pure
      | none =>
          apply Heeds.action trivial
          intro outcome
          cases outcome <;> exact .pure

private theorem handleRotate_careful (isPost : Bool)
    (body : Option ManageBody) :
    Careful known (server.handleRotate isPost body) := by
  unfold Server.handleRotate
  split
  · exact .pure
  apply Heeds.action trivial
  intro now
  apply Heeds.bind (resolve_careful _ now)
  intro known outcome
  cases outcome with
  | error error => exact .pure
  | ok found =>
      apply Heeds.action trivial
      intro random
      cases random with
      | error error => exact .pure
      | ok random =>
          apply Heeds.action trivial
          intro outcome
          cases outcome <;> exact .pure

private theorem handleDelete_careful (isPost : Bool)
    (body : Option ManageBody) :
    Careful known (server.handleDelete isPost body) := by
  unfold Server.handleDelete
  split
  · exact .pure
  apply Heeds.action trivial
  intro now
  apply Heeds.bind (resolve_careful _ now)
  intro known outcome
  cases outcome with
  | error error => exact .pure
  | ok found =>
      apply Heeds.action trivial
      intro outcome
      cases outcome <;> exact .pure

private theorem handleJoin_careful (role path : Bytes) :
    Careful known (server.handleJoin role path) := by
  unfold Server.handleJoin
  apply Heeds.ite
  · exact fun _ => .pure
  intro _
  apply Heeds.bind (bySecretOrPull_careful _)
  intro known found
  apply Heeds.action trivial
  intro now
  cases found with
  | none => exact .pure
  | some found =>
      apply Heeds.ite
      · exact fun _ => .pure
      intro _
      apply Heeds.ite
      · exact fun _ => .pure
      intro _
      apply Heeds.ite
      · exact fun _ => .pure
      exact fun _ => .ite (fun _ => .pure) fun _ => .pure

private theorem handleAPIJoin_careful (isPost : Bool) (body : Option JoinBody) :
    Careful known (server.handleAPIJoin isPost body) := by
  unfold Server.handleAPIJoin
  split
  · exact .pure
  apply Heeds.ite
  · exact fun _ => .pure
  intro _
  apply Heeds.action trivial
  intro now
  apply Heeds.bind (resolveJoin_careful _ now)
  intro known outcome
  cases outcome with
  | error error => exact .pure
  | ok found => exact .ite (fun _ => .pure) fun _ => .pure

private theorem handleRoom_careful (isGet : Bool) (path : Bytes) :
    Careful known (server.handleRoom isGet path) := by
  unfold Server.handleRoom
  apply Heeds.ite
  · exact fun _ => .pure
  intro _
  apply Heeds.ite
  · exact fun _ => .pure
  intro _
  refine Heeds.bind ?_ fun _ _ => .action trivial fun _ => .pure
  apply Heeds.action trivial
  intro stored
  cases stored with
  | some stored => exact .pure
  | none =>
      apply Heeds.ite
      · exact fun _ => .action trivial fun _ => .call trivial fun _ => .done
      · exact fun _ => .pure

private theorem handleAdminRevoke_careful (room : RoomName) :
    Careful known (Server.handleAdminRevoke room) := by
  unfold Server.handleAdminRevoke
  apply Heeds.ite
  · exact fun _ => .pure
  intro _
  apply Heeds.action trivial
  intro now
  apply Heeds.action trivial
  intro outcome
  cases outcome <;> exact .pure

/-- No request raises a room that it has not just read. -/
theorem handle_careful (request : Request) :
    Careful known (server.handle request) := by
  cases request with
  | reserve isPost body => exact handleReserve_careful isPost body
  | manage isPost body => exact handleManage_careful isPost body
  | extend isPost body => exact handleExtend_careful isPost body
  | rotate isPost body => exact handleRotate_careful isPost body
  | delete isPost body => exact handleDelete_careful isPost body
  | join role path => exact handleJoin_careful role path
  | apiJoin isPost body => exact handleAPIJoin_careful isPost body
  | room isGet path => exact handleRoom_careful isGet path
  | adminRevoke room => exact handleAdminRevoke_careful room

end Careful

/-! ## Callbacks that dereference nil -/

theorem callback_nilDereference_iff {change : Change} {random : UInt32}
    {cur : Option Record} :
    server.callback change random cur = .nilDereference ↔
      (∃ exp, change = .raise exp) ∧ cur = none := by
  cases change with
  | raise exp => cases cur <;> simp [Server.callback]
  | reserve now ttl host => cases cur <;> simp [Server.callback]
  | migrate now exp host speaker => simp [Server.callback]
  | extend now ttl =>
      cases cur with
      | none => simp [Server.callback]
      | some cur =>
          simp only [Server.callback]
          split
          · simp
          · split <;> simp
  | rotate host =>
      cases cur with
      | none => simp [Server.callback]
      | some cur =>
          simp only [Server.callback]
          split <;> simp
  | revoke room now =>
      cases cur with
      | none =>
          simp only [Server.callback]
          split <;> simp
      | some cur => simp [Server.callback]

/-- A room that is known stays known, except for `gc`. -/
def Store.Knows (store : Store) (room : RoomName) : Prop :=
  store.pointOf room ≠ ⊥

theorem Store.knows_iff {store : Store} {room : RoomName} :
    store.Knows room ↔ ∃ record, store.rooms[room]? = some record := by
  unfold Knows pointOf
  cases store.rooms[room]? <;> simp

theorem Store.Knows.of_le {store later : Store} {room : RoomName}
    (knows : store.Knows room)
    (grows : store.pointOf room ≤ later.pointOf room) : later.Knows room :=
  ne_bot_of_le_ne_bot knows grows

/-- `gc` at this time keeps the record: it ended at most `gcKeep` ago, or its
room is deleted. -/
def Server.Outlives (server : Server) (now : Time) (record : Record) : Prop :=
  Time.unix (now - gcKeep) ≤
      max record.expires (max record.revoked (server.legacyLimit record)) ∨
    record.revoked ≠ 0

theorem Store.knows_gc_iff {store : Store} {room : RoomName} {record : Record}
    {now : Time} {saves : Bool} (stored : store.rooms[room]? = some record) :
    (store.gc now gcKeep server.legacyLimit saves).Knows room ↔
      server.Outlives now record := by
  rw [knows_iff, lookup_gc, stored, Option.bind_some]
  unfold collected Server.Outlives
  split
  · rename_i recent
    simp [recent]
  · rename_i ended
    split <;> simp_all

/-- What `gc` does not keep is unknown afterwards. -/
theorem Store.gc_eq_none {store : Store} {room : RoomName} {record : Record}
    {now : Time} {saves : Bool} (stored : store.rooms[room]? = some record)
    (ended : ¬ server.Outlives now record) :
    (store.gc now gcKeep server.legacyLimit saves).rooms[room]? = none := by
  by_contra known
  rw [← Store.knows_gc_iff stored, Store.knows_iff] at ended
  exact ended (Option.ne_none_iff_exists'.mp known)

theorem Server.Performs.knows {process later : Process} {action : Action}
    {answer : Answer action}
    (performs : server.Performs process action answer later) {room : RoomName}
    (knows : process.store.Knows room) : later.store.Knows room := by
  cases performs with
  | update free done => exact knows.of_le (Store.pointOf_le_update _ done room)
  | _ => exact knows

/-! ## Any number of requests -/

theorem Server.Performs.of_get {process later : Process} {room : RoomName}
    {answer : Option Record}
    (performs : server.Performs process (.get room) answer later) :
    answer = process.store.rooms[room]? ∧ later = process := by
  cases performs
  exact ⟨rfl, rfl⟩

/-- A signer with the requests that are under way. -/
abbrev Signer := Pool Action Answer Response Process

namespace Signer

abbrev Event := Pool.Event Action Answer Response MeetReserve.Event

abbrev Step (server : Server) (signer : Signer) (what : Event)
    (later : Signer) : Prop :=
  Pool.Step server.machine signer what later

/-- The programs that arrive are requests, and only requests update. -/
def Serves (server : Server) : Event → Prop
  | .arrives program => ∃ request, program = server.handle request
  | .environment (.store (.update ..)) => False
  | _ => True

/-- The next action of the request raises the room. -/
def Raises (program : Handler Response) (room : RoomName) : Prop :=
  ∃ exp next, program = .call (.update room (.raise exp)) next

/-- A tick of `gc` keeps the records that requests are about to raise. -/
def Spares (server : Server) (signer : Signer) : Event → Prop
  | .environment (.store (.gc now _)) =>
      ∀ program ∈ signer.threads, ∀ room record, Raises program room →
        signer.state.store.rooms[room]? = some record →
          server.Outlives now record
  | _ => True

/-- A tick spares the only request if it keeps the record of its room. -/
theorem spares_one {process : Process} {program : Handler Response}
    {room : RoomName} {record : Record} {now : Time} {saves : Bool}
    (raises : Raises program room)
    (stored : process.store.rooms[room]? = some record) :
    Spares server { state := process, threads := [program] }
        (.environment (.store (.gc now saves))) ↔
      server.Outlives now record := by
  constructor
  · intro spares
    exact spares program List.mem_cons_self room record raises stored
  · intro outlives other member otherRoom otherRecord otherRaises otherStored
    cases List.mem_singleton.mp member
    obtain ⟨exp, next, isRaise⟩ := raises
    obtain ⟨_, _, isOther⟩ := otherRaises
    rw [isRaise] at isOther
    cases isOther
    rw [stored] at otherStored
    cases otherStored
    exact outlives

/-- Runs in which `gc` spares what requests are about to raise. -/
abbrev SparingRun (server : Server) : Signer → Signer → Prop :=
  Pool.RunUnder server.machine fun signer what =>
    Serves server what ∧ Spares server signer what

/-- A signer without requests under way. -/
structure Begins (signer : Signer) : Prop where
  free : signer.state.locked = false
  threads : signer.threads = []

/-- The lock is free, and a request that is about to raise a room does so
after it read the room's record, which is still there. -/
structure Guarded (signer : Signer) : Prop where
  free : signer.state.locked = false
  careful : ∀ program ∈ signer.threads, ∃ known, Careful known program
  stored : ∀ program ∈ signer.threads, ∀ room, Raises program room →
    signer.state.store.Knows room

variable {signer later : Signer}

theorem Guarded.begins (begins : signer.Begins) : signer.Guarded := by
  refine ⟨begins.free, ?_, ?_⟩
  · simp [begins.threads]
  · simp [begins.threads]

/-- What a guarded signer passes to a callback, the callback can take. -/
theorem Guarded.takes (guarded : signer.Guarded) {room : RoomName}
    {change : Change} {next : Except Error Record → Handler Response}
    (member : .call (.update room change) next ∈ signer.threads)
    (random : UInt32) :
    server.callback change random signer.state.store.rooms[room]? ≠
      .nilDereference := by
  intro panics
  obtain ⟨⟨exp, isRaise⟩, unknown⟩ := callback_nilDereference_iff.mp panics
  subst isRaise
  obtain ⟨record, stored⟩ :=
    Store.knows_iff.mp (guarded.stored _ member room ⟨exp, next, rfl⟩)
  rw [unknown] at stored
  cases stored

theorem Guarded.not_crashes (guarded : signer.Guarded) {thread : Nat} :
    ¬ Step server signer (.crashes thread) later := by
  intro step
  cases step with
  | crashes atAction crashes =>
      cases crashes with
      | @update room change random now saves free panics =>
          refine @Guarded.takes server _ guarded _ _ _
            (List.mem_of_getElem? atAction) random ?_
          unfold Store.update at panics
          split at panics
          · assumption
          · cases panics
          · cases panics

/-- After an action, the request can only raise what the action read. -/
private theorem Guarded.next (guarded : signer.Guarded) {action : Action}
    {next : Answer action → Handler Response} {answer : Answer action}
    {process : Process} (member : .call action next ∈ signer.threads)
    (performs : server.Performs signer.state action answer process) :
    (∃ known, Careful known (next answer)) ∧
      ∀ room, Raises (next answer) room → process.store.Knows room := by
  obtain ⟨known, careful⟩ := guarded.careful _ member
  cases careful with
  | call allowed rest =>
      refine ⟨⟨_, rest answer⟩, ?_⟩
      intro room raises
      obtain ⟨exp, after, isRaise⟩ := raises
      have learned := rest answer
      rw [isRaise] at learned
      cases learned with
      | call allowed _ =>
          obtain ⟨record, isGet, isStored⟩ := of_teaches allowed
          subst isGet
          obtain ⟨isAnswer, same⟩ := performs.of_get
          subst same
          exact Store.knows_iff.mpr
            ⟨record, isAnswer.symm.trans (eq_of_heq isStored)⟩

theorem Guarded.step (guarded : signer.Guarded) {what : Event}
    (serves : Serves server what) (spares : Spares server signer what)
    (step : Step server signer what later) : later.Guarded := by
  cases step with
  | arrives program =>
      obtain ⟨request, isRequest⟩ := serves
      subst isRequest
      have careful : Careful none (server.handle request) := handle_careful request
      refine ⟨guarded.free, ?_, ?_⟩
      · intro program member
        rcases List.mem_append.mp member with old | new
        · exact guarded.careful program old
        · cases List.mem_singleton.mp new
          exact ⟨none, careful⟩
      · intro program member room raises
        rcases List.mem_append.mp member with old | new
        · exact guarded.stored program old room raises
        · cases List.mem_singleton.mp new
          obtain ⟨exp, next, isRaise⟩ := raises
          rw [isRaise] at careful
          cases careful with
          | call allowed _ => cases allowed
  | @acts thread action next answer process atAction performs =>
      have member := List.mem_of_getElem? atAction
      obtain ⟨careful, stored⟩ := guarded.next member performs
      refine ⟨?_, ?_, ?_⟩
      · have free := guarded.free
        cases performs <;> exact free
      · intro program member
        rcases List.mem_or_eq_of_mem_set member with old | new
        · exact guarded.careful program old
        · subst new
          exact careful
      · intro program member room raises
        rcases List.mem_or_eq_of_mem_set member with old | new
        · exact performs.knows (guarded.stored program old room raises)
        · subst new
          exact stored room raises
  | crashes atAction crashes =>
      exact (guarded.not_crashes (.crashes atAction crashes)).elim
  | environment happens =>
      cases happens with
      | forget => exact ⟨guarded.free, guarded.careful, guarded.stored⟩
      | @store operation result store free legal running done =>
          refine ⟨guarded.free, guarded.careful, ?_⟩
          intro program member room raises
          have knows := guarded.stored program member room raises
          cases operation with
          | update => exact serves.elim
          | mergeRemote recs =>
              cases done
              exact knows.of_le (Store.pointOf_le_mergeRemote _ recs room)
          | gc now saves =>
              cases done
              obtain ⟨record, stored⟩ := Store.knows_iff.mp knows
              exact (Store.knows_gc_iff stored).mpr
                (spares program member room record raises stored)
          | restart => exact (running rfl).elim

/-- The signer after a tick of `gc`. -/
def ticked (server : Server) (signer : Signer) (now : Time) (saves : Bool) :
    Signer :=
  { signer with
    state := { signer.state with
      store := signer.state.store.gc now gcKeep server.legacyLimit saves } }

theorem step_ticked (free : signer.state.locked = false) (now : Time)
    (saves : Bool) :
    Step server signer (.environment (.store (.gc now saves)))
      (signer.ticked server now saves) :=
  .environment (.store free trivial (by simp) rfl)

/-- A request that is about to raise a room crashes if `gc` collects it. -/
private theorem crashes_of_ticked {program : Handler Response}
    {room : RoomName} {record : Record} {now : Time} {saves : Bool}
    (free : signer.state.locked = false) (member : program ∈ signer.threads)
    (raises : Raises program room)
    (stored : signer.state.store.rooms[room]? = some record)
    (ended : ¬ server.Outlives now record) :
    ∃ thread final, Step server (signer.ticked server now saves)
      (.crashes thread) final ∧ final.state.locked = true := by
  obtain ⟨exp, next, isRaise⟩ := raises
  subst isRaise
  obtain ⟨thread, inside, atAction⟩ := List.mem_iff_getElem.mp member
  have unknown := @Store.gc_eq_none server _ _ _ _ saves stored ended
  have panics : (signer.ticked server now saves).state.store.update room
      (server.callback (.raise exp) 0) 0 false = none := by
    unfold Store.update ticked
    rw [unknown]
    rfl
  exact ⟨thread, _, .crashes (by rw [ticked, List.getElem?_eq_getElem inside,
    atAction]) (.update free panics), rfl⟩

/-- If `gc` spares what requests are about to raise, the lock is free between
any two steps, and every callback can take the record it is given.  The first
tick that does not makes a request crash with the lock taken. -/
theorem lock_is_released {start : Signer} (begins : start.Begins)
    (run : SparingRun server start signer) :
    signer.state.locked = false ∧
    (∀ room change next, .call (.update room change) next ∈ signer.threads →
      ∀ random, server.callback change random
        signer.state.store.rooms[room]? ≠ .nilDereference) ∧
    ∀ what later, Serves server what → Step server signer what later →
      (Spares server signer what ↔
        ¬ ∃ thread final, Step server later (.crashes thread) final) := by
  have guarded : signer.Guarded := by
    refine run.invariant ?_ (Guarded.begins begins)
    intro pool what later held condition step
    exact held.step condition.1 condition.2 step
  refine ⟨guarded.free, fun room change next => guarded.takes, ?_⟩
  intro what later serves step
  constructor
  · intro spares crashes
    obtain ⟨thread, final, crashes⟩ := crashes
    exact (guarded.step serves spares step).not_crashes crashes
  · intro safe
    by_contra kills
    cases step with
    | environment happens =>
        cases happens with
        | forget => exact kills trivial
        | @store operation result store free legal running done =>
            cases operation with
            | gc now saves =>
                cases done
                simp only [Spares, not_forall] at kills
                obtain ⟨program, member, room, record, raises, stored, ended⟩ :=
                  kills
                obtain ⟨thread, final, crashes, -⟩ :=
                  crashes_of_ticked free member raises stored ended
                exact safe ⟨thread, final, crashes⟩
            | _ => exact kills trivial
    | _ => exact kills trivial

end Signer

/-- A newer link of a migrated v1 room raises its expiry. -/
private theorem resolveLegacy_raises {claims : LegacyClaims} {cur : Record}
    (now : Time) (alive : cur.revoked = 0)
    (current : cur.current cur.secrets[
      server.hashSecret (server.legacyHostSecret claims.room)]?)
    (newer : cur.expires < server.legacyExp claims) :
    ∃ reads raises,
      server.resolveLegacy claims now = .call (.get claims.room) reads ∧
      reads (some cur) =
        .call (.update claims.room (.raise (server.legacyExp claims))) raises := by
  refine ⟨_, fun updated => .done (updated.map fun record =>
    (record, server.legacyHostSecret claims.room, false)), rfl, ?_⟩
  change (if cur.revoked ≠ 0 then _ else if ¬ cur.current _ then _ else
    if server.legacyExp claims ≤ cur.expires then _ else _) = _
  rw [if_neg (not_not.mpr alive), if_neg (not_not.mpr current),
    if_neg (not_le.mpr newer)]
  rfl

private theorem handleManage_resolves (key : Bytes) :
    ∃ answers : Time → Except Error (Record × Bytes × Bool) → Handler Response,
      server.handle (.manage true (some { key })) =
        .call .now fun now => server.resolve key now >>= answers now :=
  ⟨_, rfl⟩

/-- The only request under way takes a step. -/
theorem acts_one {process later : Process} {action : Action}
    {next : Answer action → Handler Response} {answer : Answer action}
    (performs : server.Performs process action answer later) :
    Signer.Step server { state := process, threads := [.call action next] }
      (.acts 0) { state := later, threads := [next answer] } :=
  @Pool.Step.acts _ _ _ _ _ server.machine
    { state := process, threads := [.call action next] } 0 action next answer
    later rfl performs

section Raising

variable {signer : Signer} {key : Bytes} {claims : LegacyClaims} {cur : Record}
variable {now tick : Time}

/-- A v1 link that is newer than the record of its room brings a request to the
point where it raises the room. -/
theorem Signer.Begins.about_to_raise (begins : signer.Begins)
    (resolves : server.resolve key now = server.resolveLegacy claims now)
    (positive : 0 < now.unix)
    (stored : signer.state.store.rooms[claims.room]? = some cur)
    (alive : cur.revoked = 0)
    (current : cur.current cur.secrets[
      server.hashSecret (server.legacyHostSecret claims.room)]?)
    (newer : cur.expires < server.legacyExp claims) :
    ∃ program, Raises program claims.room ∧
      SparingRun server signer { signer with threads := [program] } := by
  obtain ⟨process, threads⟩ := signer
  obtain ⟨free, none⟩ := begins
  dsimp only at free none stored
  subst none
  obtain ⟨answers, isRequest⟩ := @handleManage_resolves server key
  obtain ⟨reads, raises, isGet, isRaise⟩ :=
    resolveLegacy_raises now alive current newer
  have arrives : Step server { state := process, threads := [] }
      (.arrives (server.handle (.manage true (some { key }))))
      { state := process
        threads := [server.handle (.manage true (some { key }))] } :=
    .arrives _
  have asks : Step server
      { state := process
        threads := [server.handle (.manage true (some { key }))] } (.acts 0)
      { state := process
        threads := [server.resolve key now >>= answers now] } := by
    rw [isRequest]
    exact acts_one (.now positive)
  have gets : Step server
      { state := process
        threads := [server.resolve key now >>= answers now] } (.acts 0)
      { state := process
        threads := [reads (some cur) >>= answers now] } := by
    rw [resolves, isGet, ← stored]
    exact acts_one (.get free)
  have serves : Serves server
      (.arrives (server.handle (.manage true (some { key })))) := ⟨_, rfl⟩
  refine ⟨reads (some cur) >>= answers now, ?_, .tail (.tail (.single
    ⟨_, ⟨serves, trivial⟩, arrives⟩) ⟨.acts 0, ⟨trivial, trivial⟩, asks⟩)
    ⟨.acts 0, ⟨trivial, trivial⟩, gets⟩⟩
  rw [isRaise]
  exact ⟨_, _, rfl⟩

/-- Whenever a v1 link is newer than the record of its room, a tick of `gc`
that collects the record at the wrong moment leaves the lock taken. -/
theorem Signer.Begins.stuck_of_gc (begins : signer.Begins)
    (resolves : server.resolve key now = server.resolveLegacy claims now)
    (positive : 0 < now.unix)
    (stored : signer.state.store.rooms[claims.room]? = some cur)
    (alive : cur.revoked = 0)
    (current : cur.current cur.secrets[
      server.hashSecret (server.legacyHostSecret claims.room)]?)
    (newer : cur.expires < server.legacyExp claims)
    (ended : ¬ server.Outlives tick cur) :
    ∃ stuck : Signer,
      Pool.RunUnder server.machine (fun _ what => Serves server what) signer
        stuck ∧
      stuck.state.locked = true := by
  obtain ⟨program, raises, sparing⟩ :=
    begins.about_to_raise resolves positive stored alive current newer
  have run : Pool.RunUnder server.machine (fun _ what => Serves server what)
      signer { signer with threads := [program] } := by
    apply Relation.ReflTransGen.mono ?_ _ _ sparing
    intro _ _ ⟨what, condition, step⟩
    exact ⟨what, condition.1, step⟩
  let waiting : Signer := { signer with threads := [program] }
  obtain ⟨thread, stuck, crashes, locked⟩ :=
    @crashes_of_ticked server waiting _ _ _ _ false begins.free
      List.mem_cons_self raises stored ended
  have ticks := @step_ticked server waiting begins.free tick false
  exact ⟨stuck, .tail (.tail run
    ⟨.environment (.store (.gc tick false)), trivial, ticks⟩)
    ⟨.crashes thread, trivial, crashes⟩, locked⟩

end Raising

end Requests

namespace Sample

/-- A v1 room that was migrated with a token that expired soon. -/
def migratedStore : Store :=
  (((newStore none).update legacyRoom (server.callback (.migrate issued 2000
    legacyHost (server.speakerSecret legacyHost)) 0) 0 true).getD
      (.error errNoHostLink, newStore none)).2

/-- A signer that knows the v1 room. -/
def signer : Signer :=
  { state := { store := migratedStore, used := ∅, locked := false }
    threads := [] }

/-- Some months after the v1 room could last be used. -/
def muchLater : Time := Time.ofUnix 1810000000

/-- The v1 room is collected between the `get` and the `update` of a request. -/
theorem lock_stays_taken :
    signer.Begins ∧ ∃ stuck : Signer,
      Pool.RunUnder server.machine (fun _ what => Signer.Serves server what)
        signer stuck ∧
      stuck.state.locked = true := by
  have stored : migratedStore.rooms[legacyRoom]?.isSome := by decide
  have begins : signer.Begins := ⟨rfl, rfl⟩
  have known : signer.state.store.rooms[legacyRoom]? =
      some (migratedStore.recordOr legacyRoom) :=
    Store.eq_some_recordOr stored
  have ended : ¬ server.Outlives muchLater (migratedStore.recordOr legacyRoom) := by
    unfold Server.Outlives
    decide +kernel
  exact ⟨begins, begins.stuck_of_gc (resolve_hostToken muchLater)
    (by decide) known (by decide) (by decide)
    (by decide +kernel) ended⟩

/-- The store after a tick of `gc` that collects nothing. -/
def keptStore : Store :=
  migratedStore.gc issued gcKeep server.legacyLimit true

/-- A request is about to raise the v1 room, and a tick of `gc` has kept the
record.  Another tick like that does no harm; one that collects the record lets
the request crash. -/
theorem lock_is_released_after_gc :
    ∃ waiting : Signer, waiting.state.store = keptStore ∧
      (∃ program ∈ waiting.threads, Signer.Raises program legacyRoom) ∧
      waiting.state.locked = false ∧
      (∀ later, Signer.Step server waiting
          (.environment (.store (.gc issued true))) later →
        ¬ ∃ thread final, Signer.Step server later (.crashes thread) final) ∧
      ∀ later, Signer.Step server waiting
          (.environment (.store (.gc muchLater true))) later →
        ∃ thread final, Signer.Step server later (.crashes thread) final := by
  have begins : signer.Begins := ⟨rfl, rfl⟩
  let record := migratedStore.recordOr legacyRoom
  have known : migratedStore.rooms[legacyRoom]? = some record :=
    Store.eq_some_recordOr (by decide)
  have recent : Time.unix (issued - gcKeep) ≤
      max record.expires (max record.revoked (server.legacyLimit record)) := by
    decide +kernel
  have kept : keptStore.rooms[legacyRoom]? = some record := by
    rw [keptStore, Store.lookup_gc, known, Option.bind_some,
      Store.collected, if_pos recent]
  have outlives : server.Outlives issued record := .inl recent
  have ended : ¬ server.Outlives muchLater record := by
    unfold Server.Outlives
    decide +kernel
  obtain ⟨program, raises, run⟩ := begins.about_to_raise
    (resolve_hostToken muchLater) (by decide) known (by decide) (by decide)
      (by decide +kernel)
  let kind (now : Time) : Signer.Event := .environment (.store (.gc now true))
  let asking : Signer := { signer with threads := [program] }
  have ticks : Signer.SparingRun server asking (asking.ticked server issued true) :=
    .single ⟨kind issued, ⟨trivial, (Signer.spares_one raises known).mpr outlives⟩,
      Signer.step_ticked rfl issued true⟩
  let waiting := asking.ticked server issued true
  have spares : ∀ now, waiting.Spares server (kind now) ↔
      server.Outlives now record := fun now =>
    @Signer.spares_one server waiting.state program _ _ now true raises kept
  have released := Signer.lock_is_released begins (run.trans ticks)
  have next := released.2.2
  have isKept : waiting.state.store = keptStore := by
    simp only [waiting, Signer.ticked, asking, signer, keptStore]
  refine ⟨waiting, isKept, ⟨program, List.mem_cons_self, raises⟩, released.1,
    ?_, ?_⟩
  · intro later step
    apply (next (kind issued) later trivial step).mp
    exact (spares issued).mpr outlives
  · intro later step
    by_contra safe
    exact ended ((spares muchLater).mp
      ((next (kind muchLater) later trivial step).mpr safe))

end Sample

end FfmucSalt.MeetReserve
