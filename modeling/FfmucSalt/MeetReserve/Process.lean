import FfmucSalt.MeetReserve.Handlers
import FfmucSalt.MeetReserve.StoreIndex

/-!
# A running signer

One signer process: its store, the challenges used so far, and whether a
handler died with the lock of the store.  Requests are programs on it; the
environment of a request are the updates of other requests, merges of what
peers send, and the ticks of `gc`.
-/

namespace FfmucSalt.MeetReserve

structure Process where
  store : Store
  used : FiniteMap Bytes Time
  /-- A handler panicked while it held the lock of the store. -/
  locked : Bool

/-- What happens to a process besides the request at hand. -/
inductive Event where
  | store (operation : Operation)
  /-- `gc` forgets expired challenges. -/
  | forget (now : Time)

namespace Server

variable (server : Server)

inductive Performs (process : Process) :
    (action : Action) → Answer action → Process → Prop where
  | now {time : Time} (positive : 0 < time.unix) :
      Performs process .now time process
  | get {room : RoomName} (free : process.locked = false) :
      Performs process (.get room) (process.store.get room) process
  | bySecret {hash : Hash} (free : process.locked = false) :
      Performs process (.bySecret hash) (process.store.bySecret hash) process
  | update {room : RoomName} {change : Change} {random : UInt32} {now : Int}
      {saves : Bool} {outcome : Except Error Record} {store : Store}
      (free : process.locked = false)
      (done : process.store.update room (server.callback change random) now
        saves = some (outcome, store)) :
      Performs process (.update room change) outcome { process with store }
  /-- What peers send arrives as a merge of its own. -/
  | pullSoon : Performs process .pullSoon () process
  | randRead {count : Nat} {random : Bytes} (complete : random.length = count) :
      Performs process (.randRead count) (.ok random) process
  | randReadFails {count : Nat} {msg : Bytes} :
      Performs process (.randRead count) (.error (.other msg)) process
  | randInts {count bound : Nat} {draws : List Nat}
      (complete : draws.length = count) (inside : ∀ draw ∈ draws, draw < bound) :
      Performs process (.randInts count bound) (.ok draws) process
  | randIntsFails {count bound : Nat} {msg : Bytes} :
      Performs process (.randInts count bound) (.error (.other msg)) process
  | spend {challenge : Bytes} {forget : Time} (fresh : challenge ∉ process.used) :
      Performs process (.spend challenge forget) true
        { process with used := process.used.insert challenge forget }
  | replay {challenge : Bytes} {forget : Time} (known : challenge ∈ process.used) :
      Performs process (.spend challenge forget) false process

/-- A callback that dereferences nil leaves the lock taken. -/
inductive Crashes (process : Process) : Action → Process → Prop where
  | update {room : RoomName} {change : Change} {random : UInt32} {now : Int}
      {saves : Bool} (free : process.locked = false)
      (panics : process.store.update room (server.callback change random) now
        saves = none) :
      Crashes process (.update room change) { process with locked := true }

inductive Happens (process : Process) : Event → Process → Prop where
  | store {operation : Operation} {result : Option Record} {store : Store}
      (free : process.locked = false) (legal : server.Legal operation)
      (running : operation ≠ .restart)
      (done : server.run process.store operation = some (result, store)) :
      Happens process (.store operation) { process with store }
  | forget {now : Time} :
      Happens process (.forget now)
        { process with
          used := process.used.foldl (fun used challenge exp =>
            if exp < now then used.erase challenge else used) process.used }

def machine : Machine Action Answer Event Process :=
  { performs := server.Performs
    crashes := server.Crashes
    environment := server.Happens }

end Server

/-! ## Requests -/

inductive Request where
  | reserve (isPost : Bool) (body : Option ReserveBody)
  | manage (isPost : Bool) (body : Option ManageBody)
  | extend (isPost : Bool) (body : Option ExtendBody)
  | rotate (isPost : Bool) (body : Option ManageBody)
  | delete (isPost : Bool) (body : Option ManageBody)
  /-- `/h/` and `/s/` -/
  | join (role path : Bytes)
  | apiJoin (isPost : Bool) (body : Option JoinBody)
  | room (isGet : Bool) (path : Bytes)
  | adminRevoke (room : RoomName)

def Server.handle (server : Server) : Request → Handler Response
  | .reserve isPost body => server.handleReserve isPost body
  | .manage isPost body => server.handleManage isPost body
  | .extend isPost body => server.handleExtend isPost body
  | .rotate isPost body => server.handleRotate isPost body
  | .delete isPost body => server.handleDelete isPost body
  | .join role path => server.handleJoin role path
  | .apiJoin isPost body => server.handleAPIJoin isPost body
  | .room isGet path => server.handleRoom isGet path
  | .adminRevoke room => handleAdminRevoke room

/-! ## Updates of handlers are legal -/

section Makes

open Program

/-- The times that handlers compute for a change: a lifetime that is offered,
and an expiry within the window of a v1 room, in the future when it is
migrated. -/
def Server.Computes (server : Server) (room : RoomName) : Change → Prop
  | .reserve _ ttl _ => ∃ hours, server.pickDuration hours = .ok ttl
  | .raise exp => ∃ key claims, server.parseLegacyHostToken key = .ok claims ∧
      claims.room = room ∧ exp = server.legacyExp claims
  | .migrate now exp _ _ => now.unix < exp ∧
      ∃ key claims, server.parseLegacyHostToken key = .ok claims ∧
        claims.room = room ∧ exp = server.legacyExp claims
  | _ => True

/-- Updates are legal, with times that handlers compute. -/
def Server.Issues (server : Server) : Action → Prop
  | .update room change => server.Makes room change ∧ server.Computes room change
  | _ => True

/-- What a process with a well-formed store answers. -/
def Permits : (action : Action) → Answer action → Prop
  | .now, time => 0 < time.unix
  | .get room, answer => ∀ record, answer = some record →
      record.room = room ∧ validRoomName room
  | .bySecret _, answer => ∀ record entry, answer = some (record, entry) →
      validRoomName record.room
  | .update room _, answer => ∀ record, answer = .ok record →
      record.room = room
  | .randInts count bound, answer => ∀ draws, answer = .ok draws →
      draws.length = count ∧ ∀ draw ∈ draws, draw < bound
  | _, _ => True

variable {server : Server}

theorem body_of_decode {α : Type} {isPost : Bool} {body : Option α}
    {req : α} (decoded : decode isPost body = .ok req) : body = some req := by
  unfold decode at decoded
  split at decoded
  · cases decoded
  · split at decoded
    · cases decoded
    · cases decoded
      rfl

theorem checkPoW_ensures {requires : Action → Prop}
    {permits : (action : Action) → Answer action → Prop}
    (spends : ∀ challenge forget, requires (.spend challenge forget))
    (challenge nonce : Bytes) (now : Time) :
    Ensures requires permits (fun _ => True)
      (server.checkPoW challenge nonce now) := by
  unfold Server.checkPoW
  split
  · apply Ensures.ite
    · exact fun _ => .pure trivial
    intro _
    apply Ensures.ite
    · exact fun _ => .pure trivial
    intro _
    split
    · exact .pure trivial
    apply Ensures.ite
    · exact fun _ => .pure trivial
    intro _
    apply Ensures.ite
    · exact fun _ => .pure trivial
    exact fun _ => .action (spends _ _) fun _ _ => .pure trivial
  · exact .pure trivial

private theorem bySecretOrPull_issues (hash : Hash) :
    Ensures server.Issues Permits
      (fun found => ∀ record entry, found = some (record, entry) →
        validRoomName record.room) (Server.bySecretOrPull hash) := by
  apply Ensures.action trivial
  intro found permitted
  cases found with
  | none => exact .action trivial fun _ _ => .call trivial fun _ again => .done again
  | some found => exact .pure permitted

theorem isLegacyName_of_parseLegacyHostToken {input : Bytes}
    {claims : LegacyClaims}
    (parsed : server.parseLegacyHostToken input = .ok claims) :
    ∃ exp, server.parseLegacyRoom claims.room = .ok exp := by
  unfold Server.parseLegacyHostToken at parsed
  repeat' split at parsed
  all_goals cases parsed
  exact ⟨_, by assumption⟩

/-- The result of resolving a key is a record with a valid name. -/
private def Names : Except Error (Record × Bytes × Bool) → Prop
  | .error _ => True
  | .ok (record, _, _) => validRoomName record.room

private theorem resolveSecret_issues (key : Bytes) :
    Ensures server.Issues Permits Names (server.resolveSecret key) := by
  apply Ensures.bind _ (bySecretOrPull_issues _)
  intro found valid
  cases found with
  | none => exact .pure trivial
  | some found =>
      obtain ⟨record, entry⟩ := found
      apply Ensures.ite
      · exact fun _ => .pure trivial
      intro _
      apply Ensures.ite
      · exact fun _ => .pure trivial
      exact fun _ => .pure (valid _ _ rfl)

private theorem resolveLegacy_issues {input : Bytes} {claims : LegacyClaims}
    (parsed : server.parseLegacyHostToken input = .ok claims) {now : Time}
    (positive : 0 < now.unix) :
    Ensures server.Issues Permits Names (server.resolveLegacy claims now) := by
  obtain ⟨exp, isExp⟩ := isLegacyName_of_parseLegacyHostToken parsed
  have isLegacy := isLegacyName_of_parseLegacyRoom isExp
  have valid : validRoomName claims.room := by simp [validRoomName, isLegacy]
  have mapped : ∀ (migrated : Bool) (host : Bytes) (change : Change) answer,
      Permits (.update claims.room change) answer →
        Names (answer.map fun record => (record, host, migrated)) := by
    intro migrated host change answer permitted
    cases answer with
    | error error => trivial
    | ok record =>
        change validRoomName record.room
        rwa [permitted record rfl]
  apply Ensures.action trivial
  intro cur permitted
  cases cur with
  | none =>
      apply Ensures.ite
      · exact fun _ => .pure trivial
      intro later
      apply Ensures.action
      · exact ⟨⟨isLegacy, positive, rfl, rfl⟩, not_le.mp later, input, claims,
          parsed, rfl, rfl⟩
      exact fun answer allowed => .pure (mapped _ _ _ answer allowed)
  | some cur =>
      apply Ensures.ite
      · exact fun _ => .pure trivial
      intro _
      apply Ensures.ite
      · exact fun _ => .pure trivial
      intro _
      apply Ensures.ite
      · intro _
        apply Ensures.pure
        change validRoomName cur.room
        rwa [(permitted cur rfl).1]
      intro _
      apply Ensures.action
      · exact ⟨isLegacy, input, claims, parsed, rfl, rfl⟩
      exact fun answer allowed => .pure (mapped _ _ _ answer allowed)

private theorem resolve_issues (raw : Bytes) {now : Time}
    (positive : 0 < now.unix) :
    Ensures server.Issues Permits Names (server.resolve raw now) := by
  apply Ensures.ite
  · exact fun _ => resolveSecret_issues _
  intro _
  split
  · exact .pure trivial
  · rename_i parsed
    exact resolveLegacy_issues parsed positive

private theorem joinSecret_issues (key : Bytes) :
    Ensures server.Issues Permits (fun _ => True) (server.joinSecret key) := by
  apply Ensures.bind _ (bySecretOrPull_issues _)
  intro found _
  cases found with
  | none => exact .pure trivial
  | some found =>
      obtain ⟨record, entry⟩ := found
      apply Ensures.ite
      · exact fun _ => .pure trivial
      exact fun _ => .ite (fun _ => .pure trivial) fun _ => .pure trivial

private theorem joinLegacy_issues (raw : Bytes) {now : Time}
    (positive : 0 < now.unix) :
    Ensures server.Issues Permits (fun _ => True) (server.joinLegacy raw now) := by
  apply Ensures.bind _ (resolve_issues raw positive)
  intro outcome _
  cases outcome with
  | error error => exact .pure trivial
  | ok found => exact .ite (fun _ => .pure trivial) fun _ => .pure trivial

private theorem resolveJoin_issues (raw : Bytes) {now : Time}
    (positive : 0 < now.unix) :
    Ensures server.Issues Permits (fun _ => True) (server.resolveJoin raw now) := by
  refine Ensures.bind (fun _ => True) ?_ ?_
  · exact .ite (fun _ => joinSecret_issues _)
      fun _ => joinLegacy_issues raw positive
  · intro outcome _
    cases outcome with
    | error error => exact .pure trivial
    | ok found => exact .ite (fun _ => .pure trivial) fun _ => .pure trivial

private theorem reserveRoom_issues {now : Time} (positive : 0 < now.unix)
    {hours : Int} {ttl : Duration} (picked : server.pickDuration hours = .ok ttl)
    (host : Bytes) (attempts : Nat) :
    Ensures server.Issues Permits (fun _ => True)
      (Server.reserveRoom now ttl host attempts) := by
  induction attempts with
  | zero => exact .pure trivial
  | succ attempts induction =>
      apply Ensures.action trivial
      intro draws permitted
      cases draws with
      | error error => exact .pure trivial
      | ok draws =>
          obtain ⟨complete, inside⟩ := permitted draws rfl
          apply Ensures.action ⟨⟨isShortName_newRoomName complete inside, positive⟩,
            hours, picked⟩
          intro outcome _
          cases outcome with
          | error error => exact induction
          | ok record => exact .pure trivial

private theorem spends (challenge : Bytes) (forget : Time) :
    server.Issues (.spend challenge forget) :=
  trivial

private theorem handleReserve_issues (isPost : Bool) (body : Option ReserveBody) :
    Ensures server.Issues Permits (fun _ => True) (server.handleReserve isPost body) := by
  unfold Server.handleReserve
  split
  · exact .pure trivial
  split
  · exact .pure trivial
  rename_i picked
  apply Ensures.action trivial
  intro now positive
  apply Ensures.bind _ (checkPoW_ensures spends _ _ _)
  intro rejected _
  cases rejected with
  | some reason => exact .pure trivial
  | none =>
      apply Ensures.action trivial
      intro random _
      cases random with
      | error error => exact .pure trivial
      | ok random =>
          apply Ensures.bind _ (reserveRoom_issues positive picked _ _)
          intro outcome _
          cases outcome <;> exact .pure trivial

private theorem handleManage_issues (isPost : Bool) (body : Option ManageBody) :
    Ensures server.Issues Permits (fun _ => True) (server.handleManage isPost body) := by
  unfold Server.handleManage
  split
  · exact .pure trivial
  apply Ensures.action trivial
  intro now positive
  apply Ensures.bind _ (resolve_issues _ positive)
  intro outcome _
  cases outcome <;> exact .pure trivial

private theorem handleExtend_issues (isPost : Bool) (body : Option ExtendBody) :
    Ensures server.Issues Permits (fun _ => True) (server.handleExtend isPost body) := by
  unfold Server.handleExtend
  split
  · exact .pure trivial
  split
  · exact .pure trivial
  apply Ensures.action trivial
  intro now positive
  apply Ensures.bind _ (resolve_issues _ positive)
  intro outcome named
  cases outcome with
  | error error => exact .pure trivial
  | ok found =>
      obtain ⟨record, host, migrated⟩ := found
      apply Ensures.ite
      · exact fun _ => .pure trivial
      intro _
      apply Ensures.ite
      · exact fun _ => .pure trivial
      intro _
      apply Ensures.bind _ (checkPoW_ensures spends _ _ _)
      intro rejected _
      cases rejected with
      | some reason => exact .pure trivial
      | none =>
          apply Ensures.action
          · exact ⟨named, trivial⟩
          intro outcome _
          cases outcome <;> exact .pure trivial

private theorem handleRotate_issues (isPost : Bool) (body : Option ManageBody) :
    Ensures server.Issues Permits (fun _ => True) (server.handleRotate isPost body) := by
  unfold Server.handleRotate
  split
  · exact .pure trivial
  apply Ensures.action trivial
  intro now positive
  apply Ensures.bind _ (resolve_issues _ positive)
  intro outcome named
  cases outcome with
  | error error => exact .pure trivial
  | ok found =>
      apply Ensures.action trivial
      intro random _
      cases random with
      | error error => exact .pure trivial
      | ok random =>
          apply Ensures.action
          · exact ⟨named, trivial⟩
          intro outcome _
          cases outcome <;> exact .pure trivial

private theorem handleDelete_issues (isPost : Bool) (body : Option ManageBody) :
    Ensures server.Issues Permits (fun _ => True) (server.handleDelete isPost body) := by
  unfold Server.handleDelete
  split
  · exact .pure trivial
  apply Ensures.action trivial
  intro now positive
  apply Ensures.bind _ (resolve_issues _ positive)
  intro outcome named
  cases outcome with
  | error error => exact .pure trivial
  | ok found =>
      apply Ensures.action
      · exact ⟨⟨rfl, named, positive⟩, trivial⟩
      intro outcome _
      cases outcome <;> exact .pure trivial

private theorem handleJoin_issues (role path : Bytes) :
    Ensures server.Issues Permits (fun _ => True) (server.handleJoin role path) := by
  unfold Server.handleJoin
  apply Ensures.ite
  · exact fun _ => .pure trivial
  intro _
  apply Ensures.bind _ (bySecretOrPull_issues _)
  intro found _
  apply Ensures.action trivial
  intro now _
  cases found with
  | none => exact .pure trivial
  | some found =>
      obtain ⟨record, entry⟩ := found
      apply Ensures.ite
      · exact fun _ => .pure trivial
      intro _
      apply Ensures.ite
      · exact fun _ => .pure trivial
      intro _
      apply Ensures.ite
      · exact fun _ => .pure trivial
      exact fun _ => .ite (fun _ => .pure trivial) fun _ => .pure trivial

private theorem handleAPIJoin_issues (isPost : Bool) (body : Option JoinBody) :
    Ensures server.Issues Permits (fun _ => True) (server.handleAPIJoin isPost body) := by
  unfold Server.handleAPIJoin
  split
  · exact .pure trivial
  apply Ensures.ite
  · exact fun _ => .pure trivial
  intro _
  apply Ensures.action trivial
  intro now positive
  apply Ensures.bind _ (resolveJoin_issues _ positive)
  intro outcome _
  cases outcome with
  | error error => exact .pure trivial
  | ok found => exact .ite (fun _ => .pure trivial) fun _ => .pure trivial

private theorem handleRoom_issues (isGet : Bool) (path : Bytes) :
    Ensures server.Issues Permits (fun _ => True) (server.handleRoom isGet path) := by
  unfold Server.handleRoom
  apply Ensures.ite
  · exact fun _ => .pure trivial
  intro _
  apply Ensures.ite
  · exact fun _ => .pure trivial
  intro _
  refine Ensures.bind _ ?_ fun _ (_ : True) =>
    .action trivial fun _ _ => .pure trivial
  apply Ensures.action trivial
  intro stored _
  cases stored with
  | some stored => exact .pure trivial
  | none =>
      apply Ensures.ite
      · exact fun _ =>
        .action trivial fun _ _ => .call trivial fun _ _ => .done trivial
      · exact fun _ => .pure trivial

private theorem handleAdminRevoke_issues (room : RoomName) :
    Ensures server.Issues Permits (fun _ => True) (Server.handleAdminRevoke room) := by
  unfold Server.handleAdminRevoke
  apply Ensures.ite
  · exact fun _ => .pure trivial
  intro valid
  apply Ensures.action trivial
  intro now positive
  apply Ensures.action ⟨⟨rfl, not_not.mp valid, positive⟩, trivial⟩
  intro outcome _
  cases outcome <;> exact .pure trivial

/-- What handlers do to the store is legal, with the times they compute. -/
theorem handle_issues (request : Request) :
    Ensures server.Issues Permits (fun _ => True) (server.handle request) := by
  cases request with
  | reserve isPost body => exact handleReserve_issues isPost body
  | manage isPost body => exact handleManage_issues isPost body
  | extend isPost body => exact handleExtend_issues isPost body
  | rotate isPost body => exact handleRotate_issues isPost body
  | delete isPost body => exact handleDelete_issues isPost body
  | join role path => exact handleJoin_issues role path
  | apiJoin isPost body => exact handleAPIJoin_issues isPost body
  | room isGet path => exact handleRoom_issues isGet path
  | adminRevoke room => exact handleAdminRevoke_issues room

/-- What a process answers, it permits. -/
theorem Server.Performs.permits {process later : Process} {action : Action}
    {answer : Answer action}
    (performs : server.Performs process action answer later)
    (wellFormed : process.store.WellFormed) : Permits action answer := by
  cases performs with
  | now positive => exact positive
  | get free =>
      intro record stored
      exact ⟨wellFormed.rooms.keyed stored, wellFormed.rooms.valid stored⟩
  | bySecret free =>
      intro record entry found
      obtain ⟨stored, -⟩ := Store.bySecret_eq_some found
      rw [wellFormed.rooms.keyed stored]
      exact wellFormed.rooms.valid stored
  | @update room change random now saves outcome store free done =>
      intro record isRecord
      subst isRecord
      obtain ⟨next, -, committed⟩ := Store.update_ok done
      have := Store.room_commit wellFormed room next now saves
      rwa [committed] at this
  | randInts complete inside =>
      intro draws same
      cases same
      exact ⟨complete, inside⟩
  | randIntsFails =>
      intro draws same
      cases same
  | _ => trivial

end Makes

end FfmucSalt.MeetReserve
