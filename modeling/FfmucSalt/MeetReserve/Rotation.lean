import FfmucSalt.MeetReserve.Horizon
import FfmucSalt.MeetReserve.IssuedSecrets
import FfmucSalt.MeetReserve.JoinPaths
import FfmucSalt.MeetReserve.Links
import FfmucSalt.MeetReserve.StaleKey
import FfmucSalt.MeetReserve.Tracing

/-!
# What a rotation replaces

A rotation that is answered voids all links and v1 tokens of its room, and the
two new ones work.  Nothing else about the room changes.
-/

namespace FfmucSalt.MeetReserve

open Program TopK

/-! ## Refused keys -/

def IsError {α : Type} (answer : Except Error α) : Prop :=
  ∃ error, answer = .error error

/-- Neither `resolve` nor the two ways to join take the key, whatever it was
pasted with. -/
structure Server.Refuses (server : Server) (process : Process) (key : Bytes) :
    Prop where
  resolve : ∀ time raw now, server.extractKey raw = key →
    server.Yields time process (server.resolve raw now) IsError
  join : ∀ time role path, trimPrefix path (server.cfg.basePath ++ ascii "/" ++
      role.take 1 ++ ascii "/") = key →
    server.Yields time process (server.handle (.join role path))
      fun response => ∃ why, response = .gone why
  apiJoin : ∀ time raw role, server.extractKey raw = key →
    server.Yields time process
      (server.handle (.apiJoin true (some { key := raw, role })))
      fun response => ∃ error, response = .error error

section Refusals

variable {server : Server} {process : Process} {key : Bytes}

private theorem apiJoin_error {time : Time} {raw : Bytes} (role : Bytes)
    (fails : server.Yields time process (server.joinKey raw time) IsError) :
    server.Yields time process
      (server.handle (.apiJoin true (some { key := raw, role })))
      fun response => ∃ error, response = .error error := by
  have isError : ∀ error, ∃ failure, Response.ofError error = .error failure := by
    intro error
    cases error with
    | api failure => exact ⟨failure, rfl⟩
    | other msg => exact ⟨_, rfl⟩
  change server.Yields time process (if role ≠ [] ∧ _ then _ else _) _
  split
  · exact .done (isError _)
  · obtain ⟨answer, answers, error, isAnswer⟩ := fails
    subst isAnswer
    exact .bind answers_now
      (.bind (answers_bind answers answers_done) (.done (isError error)))

/-- A secret that the index does not lead to a record in which it is current
is refused. -/
theorem refuses_secret (free : process.locked = false) (valid : validSecret key)
    (stale : ∀ record entry,
      process.store.bySecret (server.hashSecret key) = some (record, entry) →
        ¬ record.current (some entry)) : server.Refuses process key := by
  constructor
  · intro time raw now isKey
    unfold Server.resolve
    dsimp only
    rw [isKey, if_pos valid]
    refine .bind (answers_bySecretOrPull free _) ?_
    cases found : process.store.bySecret (server.hashSecret key) with
    | none => exact .done ⟨_, rfl⟩
    | some pair =>
        obtain ⟨record, entry⟩ := pair
        dsimp only
        rw [if_pos (stale record entry found)]
        split
        · exact .done ⟨_, rfl⟩
        · exact .done ⟨_, rfl⟩
  · intro time role path isKey
    change server.Yields time process (server.handleJoin role path) _
    unfold Server.handleJoin
    dsimp only
    rw [isKey, if_neg (not_not.mpr valid)]
    refine .bind (answers_bySecretOrPull free _) (.bind answers_now ?_)
    cases found : process.store.bySecret (server.hashSecret key) with
    | none => exact .done ⟨_, rfl⟩
    | some pair =>
        obtain ⟨record, entry⟩ := pair
        dsimp only
        rw [if_pos (stale record entry found)]
        split
        · exact .done ⟨_, rfl⟩
        split
        · exact .done ⟨_, rfl⟩
        · exact .done ⟨_, rfl⟩
  · intro time raw role isKey
    apply apiJoin_error
    unfold Server.joinKey
    dsimp only
    rw [isKey, if_pos valid]
    refine .bind (answers_bySecretOrPull free _) ?_
    cases found : process.store.bySecret (server.hashSecret key) with
    | none => exact .done ⟨_, rfl⟩
    | some pair =>
        obtain ⟨record, entry⟩ := pair
        dsimp only
        rw [if_pos (stale record entry found)]
        split
        · exact .done ⟨_, rfl⟩
        · exact .done ⟨_, rfl⟩

/-- A v1 token is refused once the v1 secret of its room is not current. -/
theorem refuses_token (free : process.locked = false) {claims : LegacyClaims}
    (parsed : server.parseLegacyHostToken key = .ok claims) {cur : Record}
    (stored : process.store.rooms[claims.room]? = some cur)
    (stale : ¬ cur.current cur.secrets[
      server.hashSecret (server.legacyHostSecret claims.room)]?) :
    server.Refuses process key := by
  have other := not_validSecret_of_parsed parsed
  have resolves : ∀ time raw now, server.extractKey raw = key →
      server.Yields time process (server.resolve raw now) IsError := by
    intro time raw now isKey
    unfold Server.resolve
    dsimp only
    rw [isKey, if_neg other, parsed]
    refine .bind (answers_get free _) ?_
    rw [stored]
    dsimp only
    rw [if_pos stale]
    split
    · exact .done ⟨_, rfl⟩
    · exact .done ⟨_, rfl⟩
  constructor
  · exact resolves
  · intro time role path isKey
    change server.Yields time process (server.handleJoin role path) _
    unfold Server.handleJoin
    dsimp only
    rw [isKey, if_pos other]
    exact .done ⟨_, rfl⟩
  · intro time raw role isKey
    apply apiJoin_error
    unfold Server.joinKey
    dsimp only
    rw [isKey, if_neg other]
    obtain ⟨answer, answers, error, isAnswer⟩ := resolves time raw time isKey
    subst isAnswer
    exact .bind answers (.done ⟨_, rfl⟩)

/-- What Prosody hears about a stored room. -/
theorem answers_room (free : process.locked = false) {room : RoomName}
    {record : Record} (stored : process.store.rooms[room]? = some record)
    (valid : validRoomName room) {time : Time} {path : Bytes}
    (isRoom : trimPrefix path (server.cfg.basePath ++ ascii "/api/room/") =
      room) :
    server.Answers time process (server.handle (.room true path))
      (Server.roomStatus room (some record) time.unix) := by
  have found : server.Answers time process (Server.getOrPull room)
      (some record) := by
    have looked := @answers_get server time process free room
    rw [stored] at looked
    exact answers_bind looked answers_done
  change server.Answers time process (server.handleRoom true path) _
  unfold Server.handleRoom
  rw [if_neg (not_not.mpr rfl)]
  dsimp only
  rw [isRoom, if_neg (not_not.mpr valid)]
  exact answers_bind found (answers_bind answers_now answers_done)

theorem room_answers (free : process.locked = false) {room : RoomName}
    {record : Record} (stored : process.store.rooms[room]? = some record)
    (valid : validRoomName room) (alive : record.revoked = 0) {time : Time}
    (active : time.unix < record.expires) {path : Bytes}
    (isRoom : trimPrefix path (server.cfg.basePath ++ ascii "/api/room/") =
      room) :
    server.Answers time process (server.handle (.room true path))
      (.status (ascii "active") (some record.expires)
        (some (genClaim record.gen))) := by
  have answers := @answers_room server process free _ _ stored valid time _ isRoom
  unfold Server.roomStatus at answers
  dsimp only at answers
  rwa [if_neg (not_not.mpr alive), if_neg (not_le.mpr active)] at answers

end Refusals

/-! ## The record with its new links -/

/-- What the callback of a rotation returns. -/
def Server.rotate (server : Server) (record : Record) (host : Bytes)
    (random : UInt32) : Record :=
  { record with
    gen := nextGen record.gen random
    secrets := server.pair record.secrets host (server.speakerSecret host)
      (nextGen record.gen random) }

section Rotate

variable {server : Server} {record : Record} {host : Bytes} {random : UInt32}

/-- A rotation leaves alone what is not about links. -/
theorem rotate_frame :
    (record.merged (server.rotate record host random)).created =
        record.created ∧
      (record.merged (server.rotate record host random)).expires =
        record.expires ∧
      (record.merged (server.rotate record host random)).revoked =
        record.revoked := by
  refine ⟨?_, ?_, ?_⟩
  · rw [Record.merged_created]
    exact ite_self _
  · rw [Record.merged_expires]
    exact max_self _
  · rw [Record.merged_revoked]
    exact ite_self _

theorem rotate_gen (noWrap : record.gen.toNat / 2 ^ 32 + 1 < 2 ^ 32) :
    (record.merged (server.rotate record host random)).gen =
      nextGen record.gen random := by
  rw [Record.merged_gen]
  exact if_pos (lt_nextGen noWrap)

private theorem genWeight_undrawn {hash : Hash}
    (notHost : server.hashSecret host ≠ hash)
    (notSpeaker : server.hashSecret (server.speakerSecret host) ≠ hash) :
    Record.genWeight (server.rotate record host random).secrets hash =
      Record.genWeight record.secrets hash := by
  unfold Server.rotate Record.genWeight
  dsimp only
  rw [Server.lookup_pair, if_neg notSpeaker, if_neg notHost]

/-- Secrets that are not drawn get no newer. -/
theorem rotate_old {hash : Hash} (notHost : server.hashSecret host ≠ hash)
    (notSpeaker : server.hashSecret (server.speakerSecret host) ≠ hash) :
    Record.genWeight
        (record.merged (server.rotate record host random)).secrets hash ≤
      Record.genWeight record.secrets hash := by
  rw [Record.genWeight_merged]
  refine keep_le.trans ?_
  rw [Pi.sup_apply, genWeight_undrawn notHost notSpeaker, sup_idem]

/-- At most one secret, the other drawn one, is ahead of a drawn one, so that
pruning keeps both. -/
theorem front_drawn
    (dated : ∀ hash,
      Record.genWeight record.secrets hash ≤ WithBot.some record.gen.toNat)
    (noWrap : record.gen.toNat / 2 ^ 32 + 1 < 2 ^ 32) {hash other : Hash}
    (drawn : ∀ rival, rival ≠ hash → rival ≠ other →
      server.hashSecret host ≠ rival ∧
        server.hashSecret (server.speakerSecret host) ≠ rival)
    (weight : WithBot.some (nextGen record.gen random).toNat ≤
      Record.genWeight (server.rotate record host random).secrets hash) :
    front HashBefore (Record.genWeight (Record.mergeSecrets record.secrets
      (server.rotate record host random).secrets).1) hash ⊆ {other} := by
  intro rival ahead
  by_contra notOther
  have notSelf : rival ≠ hash := by
    intro same
    rw [same] at ahead
    exact Ahead.irrefl ahead
  obtain ⟨notHost, notSpeaker⟩ := drawn rival notSelf notOther
  have lighter : Record.genWeight (Record.mergeSecrets record.secrets
      (server.rotate record host random).secrets).1 rival <
        Record.genWeight (Record.mergeSecrets record.secrets
          (server.rotate record host random).secrets).1 hash := by
    rw [Record.genWeight_mergeSecrets, Pi.sup_apply, Pi.sup_apply,
      genWeight_undrawn notHost notSpeaker, sup_idem]
    refine (dated rival).trans_lt (lt_of_lt_of_le ?_ (weight.trans le_sup_right))
    exact WithBot.coe_lt_coe.mpr
      (UInt64.lt_iff_toNat_lt.mp (lt_nextGen noWrap))
  exact ahead.elim lighter.not_gt fun same => lighter.ne same.1

private theorem lookup_drawn
    (dated : ∀ hash,
      Record.genWeight record.secrets hash ≤ WithBot.some record.gen.toNat)
    (noWrap : record.gen.toNat / 2 ^ 32 + 1 < 2 ^ 32) {hash other : Hash}
    (drawn : ∀ rival, rival ≠ hash → rival ≠ other →
      server.hashSecret host ≠ rival ∧
        server.hashSecret (server.speakerSecret host) ≠ rival)
    (isNew : hash ∉ record.secrets) {entry : SecretEntry}
    (added : (server.rotate record host random).secrets[hash]? = some entry)
    (gen : entry.gen = nextGen record.gen random) :
    (record.merged (server.rotate record host random)).secrets[hash]? =
      some entry := by
  have weight : WithBot.some (nextGen record.gen random).toNat ≤
      Record.genWeight (server.rotate record host random).secrets hash := by
    rw [Record.genWeight_of_lookup added, gen]
  have absent : record.secrets[hash]? = none :=
    Std.ExtTreeMap.getElem?_eq_none isNew
  rw [Record.merged_secrets,
    Record.lookup_prune_of_front (front_drawn dated noWrap drawn weight),
    Record.lookup_mergeSecrets, absent, added]
  rfl

/-- Both new links are stored, whatever was stored before. -/
theorem rotate_drawn
    (dated : ∀ hash,
      Record.genWeight record.secrets hash ≤ WithBot.some record.gen.toNat)
    (noWrap : record.gen.toNat / 2 ^ 32 + 1 < 2 ^ 32)
    (apart : server.hashSecret host ≠
      server.hashSecret (server.speakerSecret host))
    (newHost : server.hashSecret host ∉ record.secrets)
    (newSpeaker :
      server.hashSecret (server.speakerSecret host) ∉ record.secrets) :
    (record.merged (server.rotate record host random)).secrets[
        server.hashSecret host]? =
      some { role := roleHost, gen := nextGen record.gen random } ∧
    (record.merged (server.rotate record host random)).secrets[
        server.hashSecret (server.speakerSecret host)]? =
      some { role := roleSpeaker, gen := nextGen record.gen random } := by
  constructor
  · apply lookup_drawn dated noWrap
    · exact fun rival notHost notSpeaker => ⟨notHost.symm, notSpeaker.symm⟩
    · exact newHost
    · exact (Server.lookup_pair ..).trans
        ((if_neg apart.symm).trans (if_pos rfl))
    · rfl
  · apply lookup_drawn dated noWrap
    · exact fun rival notSpeaker notHost => ⟨notHost.symm, notSpeaker.symm⟩
    · exact newSpeaker
    · exact (Server.lookup_pair ..).trans (if_pos rfl)
    · rfl

/-- Whatever was not drawn is older than the new generation. -/
theorem rotate_stale
    (dated : ∀ hash,
      Record.genWeight record.secrets hash ≤ WithBot.some record.gen.toNat)
    (noWrap : record.gen.toNat / 2 ^ 32 + 1 < 2 ^ 32) {hash : Hash}
    (notHost : server.hashSecret host ≠ hash)
    (notSpeaker : server.hashSecret (server.speakerSecret host) ≠ hash) :
    ¬ (record.merged (server.rotate record host random)).current
      (record.merged (server.rotate record host random)).secrets[hash]? := by
  intro isCurrent
  have weight := (@rotate_old server record host random hash notHost
    notSpeaker).trans (dated hash)
  rw [Record.current_iff_genWeight.mp isCurrent, rotate_gen noWrap] at weight
  exact (WithBot.coe_le_coe.mp weight).not_gt
    (UInt64.lt_iff_toNat_lt.mp (lt_nextGen noWrap))

/-- What an update to new links stores and indexes. -/
theorem rotate_update {store after : Store} (wellFormed : store.WellFormed)
    {room : RoomName} {now : Int} {saves : Bool} {out : Record}
    (stored : store.rooms[room]? = some record)
    (done : store.update room (server.callback (.rotate host) random) now saves =
      some (.ok out, after)) :
    record.revoked = 0 ∧
      out = { record.merged (server.rotate record host random) with
        updated := store.stamp now } ∧
      after.rooms = store.rooms.insert room out ∧
      ∀ hash ∈ out.secrets, after.secrets[hash]? = some room := by
  obtain ⟨next, returned, committed⟩ := Store.update_ok done
  have named := wellFormed.rooms.keyed stored
  have isRecord : store.recordOr room = record := by
    rw [Store.recordOr, stored]
    rfl
  have isOut := store.commit_out room next now saves
  have rooms := store.commit_rooms room next now saves
  have secrets := store.commit_secrets room next now saves
  rw [committed] at isOut rooms secrets
  dsimp only at isOut rooms secrets
  rw [stored] at returned
  simp only [Server.callback] at returned
  split at returned
  · cases returned
  · rename_i alive
    have isNext := CallbackResult.ok.inj returned
    have isRotate : ({ next with room } : Record) =
        server.rotate record host random := by
      rw [← isNext, ← named]
      rfl
    rw [isRecord, isRotate] at isOut
    refine ⟨not_not.mp alive, isOut, rooms, ?_⟩
    intro hash member
    rw [secrets, Store.lookup_index, if_pos member, isOut]
    exact congrArg some named

end Rotate

/-! ## What `resolve` leaves -/

/-- The record of a room when its new links are drawn: what was stored before
the request, with a later expiry if the request has a newer v1 link, or what
the migration of the v1 room stores. -/
inductive Server.Starts (server : Server) (key : Bytes) (room : RoomName) :
    Option Record → Record → Prop where
  | stored {record : Record} : Starts server key room (some record) record
  | raised {record : Record} {claims : LegacyClaims} {updated : Int}
      (parsed : server.parseLegacyHostToken key = .ok claims)
      (named : claims.room = room)
      (newer : record.expires < server.legacyExp claims) :
      Starts server key room (some record)
        { record with expires := server.legacyExp claims, updated }
  | migrated {claims : LegacyClaims} {now : Time} {updated : Int}
      (parsed : server.parseLegacyHostToken key = .ok claims)
      (named : claims.room = room)
      (positive : 0 < now.unix) (inFuture : now.unix < server.legacyExp claims) :
      Starts server key room none
        (server.migratedRecord room now (server.legacyExp claims)
          (server.legacyHostSecret room)
          (server.speakerSecret (server.legacyHostSecret room)) updated)

section Resolved

variable {server : Server} {process later : Process} {key host : Bytes}
variable {now : Time} {record : Record}

theorem Server.Resolves.starts
    (resolves : server.Resolves process key now record host later)
    (wellFormed : process.store.WellFormed) (positive : 0 < now.unix) :
    server.Starts key record.room process.store.rooms[record.room]? record := by
  cases resolves with
  | secret found isCurrent =>
      obtain ⟨stored, -⟩ := Store.bySecret_eq_some found
      rw [wellFormed.rooms.keyed stored, stored]
      exact .stored
  | known parsed stored isCurrent =>
      rw [wellFormed.rooms.keyed stored, stored]
      exact .stored
  | @raised _ cur _ _ _ _ _ parsed stored isCurrent newer done =>
      have named := wellFormed.rooms.keyed stored
      rw [out_of_raise wellFormed stored newer done]
      change server.Starts key cur.room process.store.rooms[cur.room]? _
      rw [← named] at stored
      rw [stored]
      exact .raised parsed named.symm newer
  | migrated parsed unknown inFuture done =>
      rw [out_of_migrate unknown done]
      dsimp only [Server.migratedRecord]
      rw [unknown]
      exact .migrated parsed rfl positive inFuture

/-- `resolve` touches the room that it finds, if any. -/
theorem Server.Resolves.frame
    (resolves : server.Resolves process key now record host later)
    (wellFormed : process.store.WellFormed) :
    later.locked = process.locked ∧ ∀ name : RoomName, name ≠ record.room →
      later.store.rooms[name]? = process.store.rooms[name]? := by
  have others : ∀ {room : RoomName} {fn : Callback} {time : Int} {saves : Bool}
      {out : Record} {after : Store},
      process.store.update room fn time saves = some (.ok out, after) →
      ∀ name : RoomName, name ≠ out.room →
        after.rooms[name]? = process.store.rooms[name]? := by
    intro room fn time saves out after done name other
    obtain ⟨next, -, committed⟩ := Store.update_ok done
    have named := Store.room_commit wellFormed room next time saves
    have rooms := process.store.commit_rooms room next time saves
    rw [committed] at named rooms
    dsimp only at named rooms
    rw [rooms, FiniteMap.lookup_insert, if_neg (named ▸ other.symm)]
  cases resolves with
  | secret => exact ⟨rfl, fun _ _ => rfl⟩
  | known => exact ⟨rfl, fun _ _ => rfl⟩
  | raised _ _ _ _ done => exact ⟨rfl, others done⟩
  | migrated _ _ _ done => exact ⟨rfl, others done⟩

end Resolved

/-! ## The request -/

/-- How a rotation succeeds. -/
inductive Server.Rotates (server : Server) (process : Process) (raw : Bytes) :
    View → Process → Prop where
  | intro {now : Time} {record out : Record} {host random : Bytes}
      {middle : Process} {bits : UInt32} {time : Int} {saves : Bool}
      {after : Store} (positive : 0 < now.unix)
      (resolves : server.Resolves process (server.extractKey raw) now record host
        middle)
      (done : middle.store.update record.room
        (server.callback (.rotate (newSecret random)) bits) time saves =
          some (.ok out, after)) :
      Rotates server process raw (server.view out (newSecret random) now)
        { middle with store := after }

theorem rotates_of_run {server : Server} {process final : Process} {raw : Bytes}
    {isPost : Bool} {view : View}
    (run : Run server.machine.alone
      (server.handle (.rotate isPost (some { key := raw }))) process
      (.view view) final) : server.Rotates process raw view final := by
  change Run server.machine.alone (server.handleRotate isPost _) _ _ _ at run
  unfold Server.handleRotate at run
  split at run
  · rename_i error isError
    have isView := (run_alone_done.mp run).1
    cases error <;> cases isView
  rename_i req decoded
  cases body_of_decode decoded
  obtain ⟨now, _, shows, rest⟩ := run_alone_action run
  cases shows with
  | now positive =>
      obtain ⟨resolved, middle, resolves, rest⟩ := run_alone_bind.mp rest
      cases resolved with
      | error error =>
          have isView := (run_alone_done.mp rest).1
          cases error <;> cases isView
      | ok found =>
          obtain ⟨record, host, migrated⟩ := found
          obtain ⟨drawn, _, draws, rest⟩ := run_alone_action rest
          cases draws with
          | randReadFails =>
              have isView := (run_alone_done.mp rest).1
              cases isView
          | randRead complete =>
              obtain ⟨outcome, _, updates, rest⟩ := run_alone_action rest
              cases updates with
              | update free done =>
                  cases outcome with
                  | error error =>
                      have isView := (run_alone_done.mp rest).1
                      cases error <;> cases isView
                  | ok out =>
                      obtain ⟨isView, isFinal⟩ := run_alone_done.mp rest
                      cases isView
                      subst isFinal
                      exact .intro positive (resolves_of_run resolves) done

/-- A newer v1 link resolves, and raises the expiry of its room. -/
theorem run_raise {server : Server} {process : Process} {claims : LegacyClaims}
    {now : Time} {cur out : Record} {random : UInt32} {time : Int}
    {saves : Bool} {after : Store} (free : process.locked = false)
    (stored : process.store.rooms[claims.room]? = some cur)
    (alive : cur.revoked = 0)
    (current : cur.current cur.secrets[
      server.hashSecret (server.legacyHostSecret claims.room)]?)
    (newer : cur.expires < server.legacyExp claims)
    (done : process.store.update claims.room
      (server.callback (.raise (server.legacyExp claims)) random) time saves =
        some (.ok out, after)) :
    Run server.machine.alone (server.resolveLegacy claims now) process
      (.ok (out, server.legacyHostSecret claims.room, false))
      { process with store := after } := by
  refine run_alone_call.mpr ⟨_, process, .get free, ?_⟩
  rw [Store.get, stored]
  simp only [Program.bind, ne_eq, if_neg (not_not.mpr alive),
    if_neg (not_not.mpr current), if_neg (not_le.mpr newer)]
  exact run_alone_call.mpr
    ⟨_, _, .update free done, run_alone_done.mpr ⟨rfl, rfl⟩⟩

/-- A request whose key resolves draws new links. -/
theorem run_rotate {server : Server} {process middle : Process} {raw : Bytes}
    {now : Time} {record out : Record} {host random : Bytes} {migrated : Bool}
    {bits : UInt32} {time : Int} {saves : Bool} {after : Store}
    (positive : 0 < now.unix)
    (resolves : Run server.machine.alone (server.resolve raw now) process
      (.ok (record, host, migrated)) middle) (free : middle.locked = false)
    (complete : random.length = secretBytes)
    (done : middle.store.update record.room
      (server.callback (.rotate (newSecret random)) bits) time saves =
        some (.ok out, after)) :
    Run server.machine.alone
      (server.handle (.rotate true (some { key := raw }))) process
      (.view (server.view out (newSecret random) now))
      { middle with store := after } := by
  refine run_alone_call.mpr ⟨now, process, .now positive, ?_⟩
  change Run server.machine.alone (server.resolve raw now >>= _) _ _ _
  refine run_alone_bind.mpr ⟨_, middle, resolves, ?_⟩
  refine run_alone_call.mpr ⟨_, middle, .randRead complete, ?_⟩
  exact run_alone_call.mpr
    ⟨_, _, .update free done, run_alone_done.mpr ⟨rfl, rfl⟩⟩

/-! ## What is new -/

/-- The pairs whose secrets are known when a room gets new links: those that
were written, and the one that is derived for a v1 room. -/
def Cluster.knownPairs {ι : Type} (cluster : Cluster ι) (server : Server)
    (room : RoomName) : List Pair :=
  if isLegacyName room then server.legacyPair room :: cluster.written
  else cluster.written

/-- Hashes of secrets are fresh: none came up for two rooms, and those of the
new links did not come up at all. -/
structure Cluster.DrawsNew {ι : Type} (cluster : Cluster ι) (server : Server)
    (room : RoomName) (host : Bytes) : Prop where
  rooms : ∀ first ∈ cluster.knownPairs server room,
    ∀ second ∈ cluster.knownPairs server room, first.Shares second →
      first.room = second.room
  apart : server.hashSecret host ≠
    server.hashSecret (server.speakerSecret host)
  unused : ∀ pair ∈ cluster.knownPairs server room,
    ¬ pair.Has (server.hashSecret host) ∧
      ¬ pair.Has (server.hashSecret (server.speakerSecret host))

/-- The secret is stored and indexed, current and of this role. -/
def Store.Opens (store : Store) (record : Record) (hash : Hash) (role : Bytes) :
    Prop :=
  store.secrets[hash]? = some record.room ∧
    ∃ entry, store.bySecret hash = some (record, entry) ∧ entry.role = role ∧
      record.current (some entry)

/-- What a rotation made of a room whose record was `start`. -/
structure Server.Switched (server : Server) (final : Process) (host : Bytes)
    (start after : Record) : Prop where
  stored : final.store.rooms[start.room]? = some after
  secrets : ∀ secret, validSecret secret →
    start.current start.secrets[server.hashSecret secret]? →
      server.Refuses final secret
  tokens : ∀ token claims, server.parseLegacyHostToken token = .ok claims →
    claims.room = start.room → server.Refuses final token
  hostOpens : final.store.Opens after (server.hashSecret host) roleHost
  speakerOpens : final.store.Opens after
    (server.hashSecret (server.speakerSecret host)) roleSpeaker
  newer : start.gen < after.gen
  reported : ∀ time path,
    trimPrefix path (server.cfg.basePath ++ ascii "/api/room/") = start.room →
    time.unix < after.expires →
      server.Answers time final (server.handle (.room true path))
        (.status (ascii "active") (some after.expires)
          (some (genClaim after.gen)))
  room : after.room = start.room
  created : after.created = start.created
  revoked : after.revoked = start.revoked
  expires : after.expires = start.expires

section Switched

variable {ι : Type} {cluster : Cluster ι} {server : Server}
variable {room : RoomName}

theorem subset_knownPairs : cluster.written ⊆ cluster.knownPairs server room := by
  intro pair member
  unfold Cluster.knownPairs
  split
  · exact List.mem_cons_of_mem _ member
  · exact member

theorem legacyPair_mem_knownPairs (legacy : isLegacyName room) :
    server.legacyPair room ∈ cluster.knownPairs server room := by
  rw [Cluster.knownPairs, if_pos legacy]
  exact List.mem_cons_self

/-- Resolving a key draws no generation. -/
theorem Server.Starts.gen {key : Bytes} {before : Option Record}
    {start : Record} (starts : server.Starts key room before start) :
    start.gen = before.elim 0 Record.gen := by
  cases starts with
  | stored => rfl
  | raised => rfl
  | migrated => rfl

theorem Server.Starts.issued {key : Bytes} {before : Option Record}
    {start : Record} (starts : server.Starts key room before start)
    (issued : ∀ record, before = some record → record.Issued cluster.written) :
    start.Issued (cluster.knownPairs server room) := by
  cases starts with
  | stored => exact (issued _ rfl).mono subset_knownPairs
  | raised =>
      have old := (issued _ rfl).mono (@subset_knownPairs _ cluster server room)
      exact ⟨old.dated, old.written⟩
  | migrated parsed named =>
      have legacy := isLegacyName_of_parsed parsed
      rw [named] at legacy
      constructor
      · intro hash
        refine (genWeight_pair_le _ _ _).trans (sup_le ?_ le_rfl)
        simp [Record.genWeight]
      · intro hash member
        refine ⟨_, legacyPair_mem_knownPairs legacy, rfl, ?_⟩
        rcases Server.mem_pair member with isHost | isSpeaker | none
        · exact .inl isHost
        · exact .inr isSpeaker
        · simp at none

/-- A rotation on its way through `update`. -/
private structure Switching (server : Server) (cluster : Cluster ι)
    (store after : Store) (start out : Record) (host : Bytes) (bits : UInt32) :
    Prop where
  wellFormed : store.WellFormed
  stored : store.rooms[start.room]? = some start
  issued : start.Issued (cluster.knownPairs server start.room)
  others : ∀ (name : RoomName) record, name ≠ start.room →
    store.rooms[name]? = some record →
      record.Issued (cluster.knownPairs server start.room)
  noWrap : start.gen.toNat / 2 ^ 32 + 1 < 2 ^ 32
  new : cluster.DrawsNew server start.room host
  done : ∃ time saves, store.update start.room
    (server.callback (.rotate host) bits) time saves = some (.ok out, after)

section Update

variable {store after : Store} {start out : Record} {host : Bytes}
variable {bits : UInt32}

private theorem Switching.update
    (switching : Switching server cluster store after start out host bits) :
    start.revoked = 0 ∧
      (∃ updated,
        out = { start.merged (server.rotate start host bits) with updated }) ∧
      after.rooms = store.rooms.insert start.room out ∧
      ∀ hash ∈ out.secrets, after.secrets[hash]? = some start.room := by
  obtain ⟨time, saves, done⟩ := switching.done
  obtain ⟨alive, isOut, rooms, indexed⟩ :=
    rotate_update switching.wellFormed switching.stored done
  exact ⟨alive, ⟨_, isOut⟩, rooms, indexed⟩

private theorem Switching.lookup
    (switching : Switching server cluster store after start out host bits) :
    after.rooms[start.room]? = some out := by
  obtain ⟨-, -, rooms, -⟩ := switching.update
  rw [rooms, FiniteMap.lookup_insert, if_pos rfl]

/-- The new secrets are not among the old ones. -/
private theorem Switching.absent
    (switching : Switching server cluster store after start out host bits) :
    server.hashSecret host ∉ start.secrets ∧
      server.hashSecret (server.speakerSecret host) ∉ start.secrets := by
  constructor
  · intro member
    obtain ⟨pair, isKnown, -, has⟩ := switching.issued.written _ member
    exact (switching.new.unused pair isKnown).1 has
  · intro member
    obtain ⟨pair, isKnown, -, has⟩ := switching.issued.written _ member
    exact (switching.new.unused pair isKnown).2 has

private theorem Switching.stale
    (switching : Switching server cluster store after start out host bits)
    {hash : Hash} (notHost : server.hashSecret host ≠ hash)
    (notSpeaker : server.hashSecret (server.speakerSecret host) ≠ hash) :
    ¬ out.current out.secrets[hash]? := by
  obtain ⟨-, ⟨updated, isOut⟩, -, -⟩ := switching.update
  rw [isOut]
  exact rotate_stale switching.issued.dated switching.noWrap notHost notSpeaker

private theorem Switching.opens
    (switching : Switching server cluster store after start out host bits) :
    after.Opens out (server.hashSecret host) roleHost ∧
      after.Opens out (server.hashSecret (server.speakerSecret host))
        roleSpeaker := by
  obtain ⟨-, ⟨updated, isOut⟩, -, indexed⟩ := switching.update
  obtain ⟨hostEntry, speakerEntry⟩ :=
    @rotate_drawn server start host bits switching.issued.dated
      switching.noWrap switching.new.apart switching.absent.1
      switching.absent.2
  have gen : out.gen = nextGen start.gen bits := by
    rw [isOut]
    exact rotate_gen switching.noWrap
  have each : ∀ hash role, out.secrets[hash]? =
      some { role, gen := nextGen start.gen bits } → after.Opens out hash role := by
    intro hash role has
    have found := indexed hash (FiniteMap.mem_iff_lookup.mpr ⟨_, has⟩)
    have named : out.room = start.room := by
      rw [isOut]
      rfl
    refine ⟨named ▸ found, _,
      Store.bySecret_of_index found switching.lookup has, rfl, ?_⟩
    simp [Record.current, gen]
  exact ⟨each _ _ (by rw [isOut]; exact hostEntry),
    each _ _ (by rw [isOut]; exact speakerEntry)⟩

/-- What opened the room before finds nothing current any more. -/
private theorem Switching.replaced
    (switching : Switching server cluster store after start out host bits)
    {hash : Hash} (member : hash ∈ start.secrets) {record : Record}
    {entry : SecretEntry} (found : after.bySecret hash = some (record, entry)) :
    ¬ record.current (some entry) := by
  obtain ⟨-, -, rooms, -⟩ := switching.update
  obtain ⟨newHost, newSpeaker⟩ := switching.absent
  obtain ⟨atName, has⟩ := Store.bySecret_eq_some found
  rw [rooms, FiniteMap.lookup_insert] at atName
  split at atName
  · cases atName
    rw [← has]
    exact switching.stale (fun same => newHost (same ▸ member))
      fun same => newSpeaker (same ▸ member)
  · -- two rooms do not share a secret
    rename_i other
    obtain ⟨pair, isKnown, isRoom, pairHas⟩ :=
      switching.issued.written _ member
    obtain ⟨rival, isRival, rivalRoom, rivalHas⟩ :=
      (switching.others _ _ (Ne.symm other) atName).written _
        (FiniteMap.mem_iff_lookup.mpr ⟨entry, has⟩)
    have same := switching.new.rooms pair isKnown rival isRival
      (Pair.shares_of_has pairHas rivalHas)
    rw [isRoom, rivalRoom, switching.wellFormed.rooms.keyed atName] at same
    exact (other same).elim

private theorem Switching.switched {middle : Process}
    (switching : Switching server cluster middle.store after start out host bits)
    (free : middle.locked = false) :
    server.Switched { middle with store := after } host start out := by
  obtain ⟨alive, ⟨updated, isOut⟩, -, -⟩ := switching.update
  obtain ⟨created, expires, revoked⟩ := @rotate_frame server start host bits
  have gen : out.gen = nextGen start.gen bits := by
    rw [isOut]
    exact rotate_gen switching.noWrap
  have sameRevoked : out.revoked = start.revoked := by
    rw [isOut]
    exact revoked
  refine {
    stored := switching.lookup
    secrets := ?_
    tokens := ?_
    hostOpens := switching.opens.1
    speakerOpens := switching.opens.2
    newer := gen ▸ lt_nextGen switching.noWrap
    reported := ?_
    room := by rw [isOut]; rfl
    created := by rw [isOut]; exact created
    revoked := sameRevoked
    expires := by rw [isOut]; exact expires }
  · intro secret valid isCurrent
    have member : server.hashSecret secret ∈ start.secrets := by
      refine FiniteMap.mem_iff_lookup.mpr (Record.genWeight_ne_bot.mp ?_)
      rw [Record.current_iff_genWeight.mp isCurrent]
      exact WithBot.coe_ne_bot
    exact refuses_secret free valid fun record entry found =>
      switching.replaced member found
  · intro token claims parsed named
    have legacy := isLegacyName_of_parsed parsed
    rw [named] at legacy
    obtain ⟨notHost, notSpeaker⟩ :=
      switching.new.unused _ (legacyPair_mem_knownPairs legacy)
    have isStored := switching.lookup
    rw [← named] at isStored notHost notSpeaker
    exact refuses_token free parsed isStored (switching.stale
      (fun same => notHost (.inl same)) fun same => notSpeaker (.inl same))
  · intro time path isRoom active
    have valid := switching.wellFormed.rooms.valid switching.stored
    exact @room_answers server { middle with store := after } free _ _
      switching.lookup valid (sameRevoked.trans alive) _ active _ isRoom

end Update

end Switched

/-- The signer keeps running, and does not collect its record of the room. -/
def Cluster.KeepsRecord {ι : Type} (server : Server) (site : ι)
    (room : RoomName) (cluster : Cluster ι) (changed : ι)
    (operation : Operation) : Prop :=
  changed = site → operation ≠ .restart ∧
    ∀ result later, server.run (cluster.stores site) operation =
      some (result, later) → (cluster.stores site).rooms[room]?.isSome →
        later.rooms[room]?.isSome

section Rotation

variable {ι : Type} [DecidableEq ι] {server : Server} {cluster : Cluster ι}
variable {condition : Cluster ι → ι → Operation → Prop} {site : ι}

/-- As long as a signer has a record, its generation only grows. -/
private theorem gen_le_of_run {earlier : Cluster ι} {room : RoomName}
    (run : Cluster.Run server (Cluster.KeepsRecord server site room) earlier
      cluster) {record : Record}
    (stored : (earlier.stores site).rooms[room]? = some record) :
    ∃ now, (cluster.stores site).rooms[room]? = some now ∧
      record.gen ≤ now.gen := by
  refine run.keeps
    (motive := fun cluster => ∃ now, (cluster.stores site).rooms[room]? =
      some now ∧ record.gen ≤ now.gen) ⟨record, stored, UInt64.le_refl _⟩ ?_
  rintro middle later changed operation ⟨now, isStored, bounded⟩ keeps
    ⟨-, -, done⟩
  by_cases same : site = changed
  · subst same
    obtain ⟨running, remains⟩ := keeps rfl
    rcases kept_of_run running done isStored with
      ⟨kept, isKept, -, grows⟩ | ⟨-, gone⟩
    · exact ⟨kept, by simpa [Cluster.after] using isKept,
        UInt64.le_trans bounded grows⟩
    · have isSome := remains _ _ done (by rw [isStored]; rfl)
      rw [gone] at isSome
      cases isSome
  · exact ⟨now, by simpa [Cluster.after, same] using isStored, bounded⟩

/-- A rotation that is answered switches the links of its room: none that
worked before and no v1 token is accepted any more, the two new ones work, and
the generation is one that the record never had.  Nothing else changes but
what the v1 link of the request itself migrates or raises. -/
theorem rotation_switches_links
    (run : Cluster.Run server condition Cluster.initial cluster)
    {used : FiniteMap Bytes Time} {isPost : Bool} {raw host : Bytes}
    {view : View} {final : Process}
    (rotates : Run server.machine.alone
      (server.handle (.rotate isPost (some { key := raw })))
      { store := cluster.stores site, used, locked := false } (.view view) final)
    (isHost : view.host_url = server.lead .host ++ host)
    (noWrap : ∀ record,
      (cluster.stores site).rooms[view.room]? = some record →
        record.gen.toNat / 2 ^ 32 < 2 ^ 32 - 1)
    (new : cluster.DrawsNew server view.room host) :
    ∃ start after,
      server.Starts (server.extractKey raw) view.room
        (cluster.stores site).rooms[view.room]? start ∧
      start.room = view.room ∧
      server.Switched final host start after ∧
      view.speaker_url = server.lead .speaker ++ server.speakerSecret host ∧
      ∀ earlier, Cluster.Run server
          (Cluster.KeepsRecord server site view.room) earlier cluster →
        ∀ record, (earlier.stores site).rooms[view.room]? = some record →
          genClaim record.gen ≠ genClaim after.gen := by
  have wellFormed := Cluster.wellFormed_of_run run site
  have every := (Cluster.issued_of_run run).stores site
  obtain ⟨positive, resolves, done⟩ := rotates_of_run rotates
  rename_i now start out owner random middle bits time saves after
  obtain ⟨middleWellFormed, stored, -, -⟩ := resolves.settles wellFormed
  obtain ⟨sameLock, frame⟩ := resolves.frame wellFormed
  obtain ⟨outStored, sameRoom⟩ := stored_of_update middleWellFormed done
  have starts := resolves.starts wellFormed positive
  have isDrawn : newSecret random = host :=
    List.append_cancel_left isHost
  subst isDrawn
  change ∀ record, (cluster.stores site).rooms[out.room]? = some record → _
    at noWrap
  change cluster.DrawsNew server out.room _ at new
  rw [sameRoom] at noWrap new
  have gen := starts.gen
  have startNoWrap : start.gen.toNat / 2 ^ 32 + 1 < 2 ^ 32 := by
    rw [gen]
    cases before : (cluster.stores site).rooms[start.room]? with
    | none => decide
    | some record =>
        have bounded := noWrap record before
        change record.gen.toNat / 2 ^ 32 + 1 < 2 ^ 32
        omega
  have switching : Switching server cluster middle.store after start out
      (newSecret random) bits :=
    { wellFormed := middleWellFormed
      stored
      issued := starts.issued fun record before => every.rooms before
      others := by
        intro name record other found
        rw [frame name other] at found
        exact (every.rooms found).mono subset_knownPairs
      noWrap := startNoWrap
      new
      done := ⟨time, saves, done⟩ }
  have switched := switching.switched sameLock
  refine ⟨start, out, ?_, sameRoom.symm, switched, rfl, ?_⟩
  · change server.Starts _ out.room (cluster.stores site).rooms[out.room]? start
    rw [sameRoom]
    exact starts
  · intro earlier since record found same
    change (earlier.stores site).rooms[out.room]? = some record at found
    change Cluster.Run server (Cluster.KeepsRecord server site out.room) earlier
      cluster at since
    rw [sameRoom] at found since
    obtain ⟨now, isNow, bounded⟩ := gen_le_of_run since found
    rw [isNow] at gen
    change start.gen = now.gen at gen
    have equal := genClaim_injective same
    rw [← gen, equal] at bounded
    exact UInt64.not_lt.mpr bounded switched.newer

end Rotation

namespace Sample

/-- The v1 room is migrated with an older link, which expires earlier. -/
def earlyMigrate : Operation :=
  .update legacyRoom (.migrate issued 40000 legacyHost
    (server.speakerSecret legacyHost)) 0 1000000 true

def earlyMigrated : Option Record × Store :=
  (server.run (newStore none) earlyMigrate).getD (none, newStore none)

def afterEarlyMigrate : Cluster Unit :=
  Cluster.initial.after server () earlyMigrate earlyMigrated.1 earlyMigrated.2

def earlyProcess : Process :=
  { store := earlyMigrated.2, used := ∅, locked := false }

/-- A store after a change of the v1 room. -/
def changedLegacy (store : Store) (change : Change) :
    Except Error Record × Store :=
  (store.update legacyRoom (server.callback change 0) 0 true).getD
    (.error errNoHostLink, store)

def raisedStore : Store := (changedLegacy earlyMigrated.2 (.raise 44200)).2

def switchedStore : Store := (changedLegacy raisedStore (.rotate secondHost)).2

def switchedView : View :=
  server.view (switchedStore.recordOr legacyRoom) secondHost issued

theorem afterEarlyMigrate_reached :
    Cluster.Run server (fun _ _ _ => True) Cluster.initial afterEarlyMigrate := by
  refine .single ⟨(), earlyMigrate, trivial, .intro ?_ (Set.empty_subset _) ?_⟩
  · exact ⟨by decide +kernel, by decide +kernel, by decide +kernel, rfl⟩
  · change server.run (newStore none) earlyMigrate = some earlyMigrated
    exact eq_some_getD (by decide)

private theorem draws_new :
    afterEarlyMigrate.DrawsNew server legacyRoom secondHost := by
  have known : afterEarlyMigrate.knownPairs server legacyRoom =
      [server.legacyPair legacyRoom, server.legacyPair legacyRoom] := by
    decide +kernel
  constructor
  · rw [known]
    decide
  · decide
  · rw [known]
    unfold Pair.Has
    decide

private theorem earlyMigrated_stored : earlyMigrated.2.rooms[legacyRoom]? =
    some (earlyMigrated.2.recordOr legacyRoom) :=
  Store.eq_some_recordOr (by decide)

private theorem switched_stored : switchedStore.rooms[legacyRoom]? =
    some (switchedStore.recordOr legacyRoom) :=
  Store.eq_some_recordOr (by decide)

private theorem raises :
    earlyMigrated.2.update legacyRoom (server.callback (.raise 44200) 0) 0 true =
      some (.ok (raisedStore.recordOr legacyRoom), raisedStore) := by
  decide

private theorem switches : raisedStore.update legacyRoom
    (server.callback (.rotate secondHost) 0) 0 true =
      some (.ok (switchedStore.recordOr legacyRoom), switchedStore) := by
  decide

/-- The request whose link is newer resolves and rotates. -/
private theorem rotates : Run server.machine.alone
    (server.handle (.rotate true (some { key := hostToken }))) earlyProcess
    (.view switchedView) { earlyProcess with store := switchedStore } := by
  have isExp : server.legacyExp readClaims = 44200 := by decide +kernel
  have named : (raisedStore.recordOr legacyRoom).room = legacyRoom := by
    decide
  have resolved : Run server.machine.alone (server.resolveLegacy readClaims
      issued) earlyProcess
      (.ok (raisedStore.recordOr legacyRoom,
        server.legacyHostSecret readClaims.room, false))
      { earlyProcess with store := raisedStore } :=
    run_raise rfl earlyMigrated_stored (by decide) (by decide)
      (by decide +kernel) (by rw [isExp]; exact raises)
  rw [← resolve_hostToken] at resolved
  refine @run_rotate server earlyProcess
    { earlyProcess with store := raisedStore } hostToken issued _ _ _
    (bytes 16 0x11111111111111111111111111111111) _ 0 0 true switchedStore
    (by decide) resolved rfl (by decide) ?_
  rw [named]
  exact switches

/-- A rotation with a newer v1 link than the one its room was migrated with
moves the expiry of the room, which is stored already and not migrated. -/
theorem newer_link_raises_expiry :
    ¬ ∀ (cluster : Cluster Unit),
      Cluster.Run server (fun _ _ _ => True) Cluster.initial cluster →
      ∀ raw drawn view final,
        Run server.machine.alone
          (server.handle (.rotate true (some { key := raw })))
          { store := cluster.stores (), used := ∅, locked := false }
          (.view view) final →
        view.host_url = server.lead .host ++ drawn →
        cluster.DrawsNew server view.room drawn →
        ∀ before after, (cluster.stores ()).rooms[view.room]? = some before →
          before.gen.toNat / 2 ^ 32 < 2 ^ 32 - 1 →
          final.store.rooms[view.room]? = some after →
          after.expires = before.expires := by
  intro keeps
  have named : switchedView.room = legacyRoom := by decide
  have moved : ¬ (switchedStore.recordOr legacyRoom).expires =
      (earlyMigrated.2.recordOr legacyRoom).expires := by
    decide
  refine moved (keeps afterEarlyMigrate afterEarlyMigrate_reached hostToken
    secondHost _ _ rotates rfl ?_ _ _ ?_ (by decide) ?_)
  · rw [named]
    exact draws_new
  · rw [named]
    exact earlyMigrated_stored
  · rw [named]
    exact switched_stored

/-- The links of the v1 room after that rotation. -/
theorem rotation_switches_links_newer : ∃ start after,
    server.Starts hostToken legacyRoom
      (some (earlyMigrated.2.recordOr legacyRoom)) start ∧
    server.Switched { earlyProcess with store := switchedStore } secondHost start
      after := by
  have named : switchedView.room = legacyRoom := by decide
  have noWrap : (earlyMigrated.2.recordOr legacyRoom).gen.toNat / 2 ^ 32 <
      2 ^ 32 - 1 := by
    decide
  obtain ⟨start, after, starts, -, switched, -⟩ :=
    @rotation_switches_links Unit _ server afterEarlyMigrate _ ()
      afterEarlyMigrate_reached ∅ true hostToken secondHost switchedView
      { earlyProcess with store := switchedStore } rotates rfl
      (by
        rw [named]
        intro record stored
        rw [show record = _ from
          Option.some.inj (stored.symm.trans earlyMigrated_stored)]
        exact noWrap)
      (by rw [named]; exact draws_new)
  rw [extractKey_hostToken, named] at starts
  refine ⟨start, after, ?_, switched⟩
  rw [← earlyMigrated_stored]
  exact starts

end Sample

end FfmucSalt.MeetReserve
