import FfmucSalt.MeetReserve.MergeAlgebra
import FfmucSalt.MeetReserve.Tombstone

/-!
# Keys that were replaced

Extending, rotating and deleting are two critical sections: `resolve` checks
the key, `update` changes the room.  The callbacks look again whether the room
is deleted or expired, but not whether the key is still current, so a rotation
in between is not noticed.  Without one, no replaced key changes a room.
-/

namespace FfmucSalt.MeetReserve

open Program TopK

/-! ## Changes that keep a key current -/

namespace Record

variable {server : Server} {change : Change} {random : UInt32}
variable {record next : Record} {hash : Hash}

/-- What a change does to the secrets of a stored record. -/
private theorem genWeight_returns
    (returns : server.Returns change random (some record) next)
    (notMigrate : ∀ now exp host speaker, change ≠ .migrate now exp host speaker)
    (other : Hash) :
    genWeight next.secrets other ≤ genWeight record.secrets other ∨
      (∃ host, change = .rotate host ∧
        (other = server.hashSecret host ∨
          other = server.hashSecret (server.speakerSecret host))) ∧
        next.gen = nextGen record.gen random ∧
        genWeight next.secrets other = WithBot.some next.gen.toNat := by
  cases returns with
  | raise => exact .inl le_rfl
  | extend => exact .inl le_rfl
  | migrate => exact (notMigrate _ _ _ _ rfl).elim
  | revoke =>
      left
      split <;> exact le_rfl
  | @rotate host _ _ alive =>
      dsimp only
      unfold genWeight
      rw [Server.lookup_pair]
      split
      · rename_i same
        exact .inr ⟨⟨host, rfl, .inr same.symm⟩, rfl, rfl⟩
      split
      · rename_i same
        exact .inr ⟨⟨host, rfl, .inl same.symm⟩, rfl, rfl⟩
      · exact .inl le_rfl

/-- As long as the generation stays, so do the current secrets. -/
private theorem current_stays (pruned : Pruned record.secrets)
    (returns : server.Returns change random (some record) next)
    (notMigrate : ∀ now exp host speaker, change ≠ .migrate now exp host speaker)
    {other : Record} (gen : other.gen = next.gen)
    (secrets : other.secrets = next.secrets)
    (same : (record.merged other).gen = record.gen)
    (current : genWeight record.secrets hash = WithBot.some record.gen.toNat) :
    genWeight (record.merged other).secrets hash =
      WithBot.some record.gen.toNat := by
  rw [genWeight_merged, secrets, ← current]
  apply keep_sup_of_lt
  · intro otherHash
    rcases genWeight_returns returns notMigrate otherHash with
      below | ⟨-, drawn, weight⟩
    · exact .inl below
    · right
      have bounded := other_gen_le_merged record other
      rw [same, gen, drawn] at bounded
      -- the counter has wrapped, else the generation had grown
      have wraps : ¬ record.gen.toNat / 2 ^ 32 + 1 < 2 ^ 32 := by
        intro noWrap
        exact UInt64.not_lt.mpr bounded (lt_nextGen noWrap)
      rw [weight, current, drawn, WithBot.coe_lt_coe]
      exact UInt64.lt_iff_toNat_lt.mp (nextGen_lt wraps)
  · rw [keep_genWeight pruned]

end Record

/-- The room has a record, and unless it was rotated since `gen` the secret is
current. -/
def Store.Holds (store : Store) (room : RoomName) (gen : UInt64) (hash : Hash) :
    Prop :=
  ∃ stored : Record, store.rooms[room]? = some stored ∧ gen ≤ stored.gen ∧
    (stored.gen = gen →
      Record.genWeight stored.secrets hash = WithBot.some gen.toNat)

/-- A change that a handler asks for on this store: rooms are migrated once. -/
def Store.Suits (store : Store) (room : RoomName) : Change → Prop
  | .migrate _ _ _ _ => store.rooms[room]? = none
  | _ => True

section Holds

variable {server : Server} {store later : Store} {name room : RoomName}
variable {change : Change} {random : UInt32} {now : Int} {saves : Bool}

theorem Store.Holds.update (wellFormed : store.WellFormed)
    {outcome : Except Error Record}
    (done : store.update name (server.callback change random) now saves =
      some (outcome, later)) (suits : store.Suits name change) {gen : UInt64}
    {hash : Hash} (holds : store.Holds room gen hash) :
    later.Holds room gen hash := by
  cases outcome with
  | error error => exact (Store.update_error done).2 ▸ holds
  | ok out =>
      obtain ⟨next, returned, committed⟩ := Store.update_ok done
      have isLater : later = (store.commit name next now saves).2 := by
        rw [committed]
      rw [isLater]
      obtain ⟨stored, isStored, bounded, current⟩ := holds
      by_cases same : name = room
      · subst same
        have isRecord : store.recordOr name = stored := by
          rw [Store.recordOr, isStored]
          rfl
        have returns := server.returns_of_ok returned
        rw [isStored] at returns
        have notMigrate : ∀ now exp host speaker,
            change ≠ .migrate now exp host speaker := by
          intro at_ exp host speaker isMigrate
          subst isMigrate
          rw [Store.Suits, isStored] at suits
          cases suits
        refine ⟨_, by rw [Store.commit_rooms, FiniteMap.lookup_insert, if_pos rfl],
          ?_, ?_⟩
        · rw [Store.commit_out, isRecord]
          exact UInt64.le_trans bounded (Record.gen_le_merged _ _)
        · rw [Store.commit_out, isRecord]
          intro unchanged
          change (stored.merged { next with room := name }).gen = gen at unchanged
          have grows := Record.gen_le_merged stored { next with room := name }
          rw [unchanged] at grows
          have isGen : stored.gen = gen := UInt64.le_antisymm grows bounded
          rw [← isGen]
          exact Record.current_stays (wellFormed.rooms.pruned isStored)
            returns notMigrate rfl rfl (unchanged.trans isGen.symm)
            (by rw [isGen]; exact current isGen)
      · refine ⟨stored, ?_, bounded, current⟩
        rw [Store.commit_rooms, FiniteMap.lookup_insert, if_neg same, isStored]

/-- The secret is not current in its room, and never was drawn later. -/
def Store.Replaced (store : Store) (room : RoomName) (hash : Hash) : Prop :=
  ∃ stored : Record, store.rooms[room]? = some stored ∧
    Record.genWeight stored.secrets hash < WithBot.some stored.gen.toNat

/-- What a change that does not draw the secret leaves of it. -/
private theorem genWeight_merged_le {record next : Record}
    (returns : server.Returns change random (some record) next)
    (suits : ∀ now exp host speaker, change ≠ .migrate now exp host speaker)
    {hash : Hash} (other : ∀ host, change = .rotate host →
      hash ≠ server.hashSecret host ∧
        hash ≠ server.hashSecret (server.speakerSecret host)) :
    Record.genWeight (record.merged { next with room := name }).secrets hash ≤
      Record.genWeight record.secrets hash := by
  rw [Record.genWeight_merged]
  refine keep_le.trans (sup_le le_rfl ?_)
  rcases Record.genWeight_returns returns suits hash with
    below | ⟨⟨host, isRotate, drawn⟩, -⟩
  · exact below
  · obtain ⟨notHost, notSpeaker⟩ := other host isRotate
    exact (drawn.elim notHost notSpeaker).elim

/-- An update leaves a secret replaced, or replaces it, unless it draws it. -/
private theorem Store.replaced_of_update {outcome : Except Error Record}
    (done : store.update name (server.callback change random) now saves =
      some (outcome, later)) (suits : store.Suits name change)
    {hash : Hash} (other : ∀ host, change = .rotate host →
      hash ≠ server.hashSecret host ∧
        hash ≠ server.hashSecret (server.speakerSecret host))
    {stored : Record} (isStored : store.rooms[room]? = some stored)
    (replaced : Record.genWeight stored.secrets hash <
        WithBot.some stored.gen.toNat ∨
      outcome.isOk ∧ name = room ∧ (∃ host, change = .rotate host) ∧
        stored.gen.toNat / 2 ^ 32 + 1 < 2 ^ 32 ∧
        Record.genWeight stored.secrets hash ≤ WithBot.some stored.gen.toNat) :
    later.Replaced room hash := by
  cases outcome with
  | error error =>
      rw [(Store.update_error done).2]
      refine ⟨stored, isStored, replaced.resolve_right ?_⟩
      intro rotated
      cases rotated.1
  | ok out =>
      obtain ⟨next, returned, committed⟩ := Store.update_ok done
      have isLater : later = (store.commit name next now saves).2 := by
        rw [committed]
      rw [isLater]
      unfold Store.Replaced
      rw [Store.commit_rooms, FiniteMap.lookup_insert]
      by_cases same : name = room
      · subst same
        have isRecord : store.recordOr name = stored := by
          rw [Store.recordOr, isStored]
          rfl
        have returns := server.returns_of_ok returned
        rw [isStored] at returns
        have notMigrate : ∀ now exp host speaker,
            change ≠ .migrate now exp host speaker := by
          intro time exp host speaker isMigrate
          subst isMigrate
          rw [Store.Suits, isStored] at suits
          cases suits
        rw [if_pos rfl, Store.commit_out, isRecord]
        refine ⟨_, rfl, ?_⟩
        have weight : Record.genWeight
            (stored.merged { next with room := name }).secrets hash ≤
              Record.genWeight stored.secrets hash :=
          genWeight_merged_le returns notMigrate other
        have grows := UInt64.le_iff_toNat_le.mp
          (Record.gen_le_merged stored { next with room := name })
        refine weight.trans_lt ?_
        rcases replaced with lighter | ⟨-, -, ⟨host, isRotate⟩, noWrap, atMost⟩
        · exact lighter.trans_le (WithBot.coe_le_coe.mpr grows)
        · subst isRotate
          have drawn : next.gen = nextGen stored.gen random := by
            cases returns
            rfl
          have above := UInt64.le_iff_toNat_le.mp
            (Record.other_gen_le_merged stored { next with room := name })
          have moves : stored.gen.toNat < next.gen.toNat := by
            rw [drawn]
            exact UInt64.lt_iff_toNat_lt.mp (lt_nextGen noWrap)
          exact atMost.trans_lt (WithBot.coe_lt_coe.mpr (moves.trans_le above))
      · rw [if_neg same]
        refine ⟨stored, isStored, replaced.resolve_right ?_⟩
        exact fun rotated => same rotated.2.1

end Holds

/-! ## Resolving without interruption -/

section Alone

variable {server : Server} {process later : Process}

theorem run_alone_action {α : Type} {action : Action}
    {continuation : Answer action → Handler α} {result : α}
    (run : Run server.machine.alone (perform action >>= continuation) process
      result later) :
    ∃ answer middle, server.Performs process action answer middle ∧
      Run server.machine.alone (continuation answer) middle result later :=
  run_alone_call.mp run

theorem run_bySecretOrPull {hash : Hash}
    {found : Option (Record × SecretEntry)}
    (run : Run server.machine.alone (Server.bySecretOrPull hash) process found
      later) : found = process.store.bySecret hash ∧ later = process := by
  obtain ⟨answer, middle, performs, rest⟩ := run_alone_action run
  cases performs
  cases isFound : process.store.bySecret hash with
  | some first =>
      rw [isFound] at rest
      exact run_alone_done.mp rest
  | none =>
      rw [isFound] at rest
      obtain ⟨_, _, pulls, rest⟩ := run_alone_action rest
      cases pulls
      obtain ⟨_, _, again, rest⟩ := run_alone_call.mp rest
      cases again
      rw [isFound] at rest
      exact run_alone_done.mp rest

/-- What an update returns is stored. -/
theorem stored_of_update {store after : Store} (wellFormed : store.WellFormed)
    {room : RoomName} {fn : Callback} {now : Int} {saves : Bool} {out : Record}
    (done : store.update room fn now saves = some (.ok out, after)) :
    after.rooms[out.room]? = some out ∧ out.room = room := by
  obtain ⟨next, -, committed⟩ := Store.update_ok done
  have named := Store.room_commit wellFormed room next now saves
  have rooms := store.commit_rooms room next now saves
  rw [committed] at named rooms
  dsimp only at named rooms
  rw [named, rooms, FiniteMap.lookup_insert, if_pos rfl]
  exact ⟨rfl, rfl⟩

/-- Raising the expiry of a v1 room changes nothing else. -/
theorem out_of_raise {store after : Store} (wellFormed : store.WellFormed)
    {room : RoomName} {exp : Int} {random : UInt32} {now : Int} {saves : Bool}
    {cur out : Record} (stored : store.rooms[room]? = some cur)
    (newer : cur.expires < exp)
    (done : store.update room (server.callback (.raise exp) random) now saves =
      some (.ok out, after)) :
    out = { cur with expires := exp, updated := store.stamp now } := by
  obtain ⟨next, returned, committed⟩ := Store.update_ok done
  rw [stored] at returned
  have isNext := CallbackResult.ok.inj returned
  have isOut := store.commit_out room next now saves
  rw [committed, Store.recordOr, stored] at isOut
  dsimp only at isOut
  have isRoom : ({ next with room } : Record) = { cur with expires := exp } := by
    rw [← isNext, ← wellFormed.rooms.keyed stored]
  have merged :=
    Record.merged_raised (wellFormed.rooms.pruned stored) newer
  rw [isOut, isRoom, Option.getD_some, merged]

private theorem pruned_pair (host speaker : Bytes) (gen : UInt64) :
    Record.Pruned (server.pair ∅ host speaker gen) := by
  have first := Std.ExtTreeMap.size_insert_le (t := (∅ : Secrets))
    (k := server.hashSecret host) (v := { role := roleHost, gen })
  have second := Std.ExtTreeMap.size_insert_le
    (t := (∅ : Secrets).insert (server.hashSecret host) { role := roleHost, gen })
    (k := server.hashSecret speaker) (v := { role := roleSpeaker, gen })
  unfold Record.Pruned Server.pair maxSecrets
  rw [Std.ExtTreeMap.size_empty] at first
  omega

private theorem genWeight_pair (host speaker : Bytes) (gen : UInt64) :
    Record.genWeight (server.pair ∅ host speaker gen) (server.hashSecret host) =
      WithBot.some gen.toNat := by
  unfold Record.genWeight
  rw [Server.lookup_pair]
  split
  · rfl
  · rw [if_pos rfl]
    rfl

/-- What the migration of a v1 room stores. -/
def Server.migratedRecord (server : Server) (room : RoomName) (now : Time)
    (exp : Int) (host speaker : Bytes) (updated : Int) : Record :=
  { room
    created := now.unix
    expires := max 0 exp
    gen := 0
    revoked := 0
    legacy := true
    secrets := server.pair ∅ host speaker 0
    updated }

theorem out_of_migrate {store after : Store} {room : RoomName}
    {time : Time} {exp : Int} {host speaker : Bytes} {random : UInt32} {now : Int}
    {saves : Bool} {out : Record} (unknown : store.rooms[room]? = none)
    (done : store.update room
      (server.callback (.migrate time exp host speaker) random) now saves =
        some (.ok out, after)) :
    out = server.migratedRecord room time exp host speaker
      (store.stamp now) := by
  obtain ⟨next, returned, committed⟩ := Store.update_ok done
  have isNext := CallbackResult.ok.inj returned
  have isOut := store.commit_out room next now saves
  rw [committed, Store.recordOr, unknown, Option.getD_none,
    Record.merged_empty room (by rw [← isNext]; exact pruned_pair host speaker 0),
    ← isNext] at isOut
  exact isOut

/-- A room that was just migrated has a current host secret. -/
private theorem current_of_migrate {room : RoomName} {time : Time} {exp : Int}
    {host speaker : Bytes} {updated : Int} {out : Record}
    (isOut : out = server.migratedRecord room time exp host speaker updated) :
    out.current out.secrets[server.hashSecret host]? := by
  rw [Record.current_iff_genWeight, isOut]
  exact genWeight_pair host speaker 0

/-- What `resolve` does to the store: nothing, or an update of a v1 room that
is not a rotation. -/
inductive Server.Settles (server : Server) (store : Store) : Store → Prop where
  | unchanged : Settles server store store
  | updates {room : RoomName} {change : Change} {random : UInt32} {now : Int}
      {saves : Bool} {outcome : Except Error Record} {after : Store}
      (suits : store.Suits room change) (keeps : ∀ host, change ≠ .rotate host)
      (done : store.update room (server.callback change random) now saves =
        some (outcome, after)) : Settles server store after

theorem Server.Settles.holds {store after : Store}
    (settles : server.Settles store after) (wellFormed : store.WellFormed)
    {room : RoomName} {gen : UInt64} {hash : Hash}
    (holds : store.Holds room gen hash) : after.Holds room gen hash := by
  cases settles with
  | unchanged => exact holds
  | updates suits _ done => exact holds.update wellFormed done suits

theorem Server.Settles.replaced {store after : Store}
    (settles : server.Settles store after) {room : RoomName} {hash : Hash}
    (replaced : store.Replaced room hash) : after.Replaced room hash := by
  cases settles with
  | unchanged => exact replaced
  | updates suits keeps done =>
      obtain ⟨stored, isStored, lighter⟩ := replaced
      exact Store.replaced_of_update done suits
        (fun host isRotate => (keeps host isRotate).elim) isStored (.inl lighter)

/-- How `resolve` succeeds. -/
inductive Server.Resolves (server : Server) (process : Process) (key : Bytes)
    (now : Time) : Record → Bytes → Process → Prop where
  | secret {record : Record} {entry : SecretEntry}
      (found : process.store.bySecret (server.hashSecret key) =
        some (record, entry))
      (isCurrent : record.current (some entry)) :
      Resolves server process key now record key process
  | known {claims : LegacyClaims} {cur : Record}
      (parsed : server.parseLegacyHostToken key = .ok claims)
      (stored : process.store.rooms[claims.room]? = some cur)
      (isCurrent : cur.current cur.secrets[
        server.hashSecret (server.legacyHostSecret claims.room)]?) :
      Resolves server process key now cur
        (server.legacyHostSecret claims.room) process
  /-- A newer v1 link than the one used for the migration. -/
  | raised {claims : LegacyClaims} {cur out : Record} {random : UInt32}
      {time : Int} {saves : Bool} {after : Store}
      (parsed : server.parseLegacyHostToken key = .ok claims)
      (stored : process.store.rooms[claims.room]? = some cur)
      (isCurrent : cur.current cur.secrets[
        server.hashSecret (server.legacyHostSecret claims.room)]?)
      (newer : cur.expires < server.legacyExp claims)
      (done : process.store.update claims.room
        (server.callback (.raise (server.legacyExp claims)) random) time saves =
          some (.ok out, after)) :
      Resolves server process key now out
        (server.legacyHostSecret claims.room) { process with store := after }
  | migrated {claims : LegacyClaims} {out : Record} {random : UInt32}
      {time : Int} {saves : Bool} {after : Store}
      (parsed : server.parseLegacyHostToken key = .ok claims)
      (unknown : process.store.rooms[claims.room]? = none)
      (inFuture : now.unix < server.legacyExp claims)
      (done : process.store.update claims.room
        (server.callback (.migrate now (server.legacyExp claims)
          (server.legacyHostSecret claims.room)
          (server.speakerSecret (server.legacyHostSecret claims.room))) random)
        time saves = some (.ok out, after)) :
      Resolves server process key now out
        (server.legacyHostSecret claims.room) { process with store := after }

private theorem resolves_of_secret {key host : Bytes} {now : Time}
    {record : Record} {migrated : Bool}
    (run : Run server.machine.alone (server.resolveSecret key) process
      (.ok (record, host, migrated)) later) :
    server.Resolves process key now record host later := by
  obtain ⟨found, middle, looked, rest⟩ := run_alone_bind.mp run
  obtain ⟨isFound, same⟩ := run_bySecretOrPull looked
  subst same
  cases found with
  | none => cases (run_alone_done.mp rest).1
  | some pair =>
      obtain ⟨stored, entry⟩ := pair
      dsimp only at rest
      split at rest
      · cases (run_alone_done.mp rest).1
      split at rest
      · cases (run_alone_done.mp rest).1
      · rename_i isCurrent
        obtain ⟨isResult, same⟩ := run_alone_done.mp rest
        cases isResult
        subst same
        exact .secret isFound.symm (not_not.mp isCurrent)

private theorem resolves_of_token {key host : Bytes} {now : Time}
    {record : Record} {migrated : Bool} {claims : LegacyClaims}
    (parsed : server.parseLegacyHostToken key = .ok claims)
    (run : Run server.machine.alone (server.resolveLegacy claims now) process
      (.ok (record, host, migrated)) later) :
    server.Resolves process key now record host later := by
  obtain ⟨isResult, middle, performs, rest⟩ := run_alone_action run
  cases performs
  cases isStored : process.store.rooms[claims.room]? with
  | some cur =>
      rw [Store.get, isStored] at rest
      dsimp only at rest
      split at rest
      · cases (run_alone_done.mp rest).1
      split at rest
      · cases (run_alone_done.mp rest).1
      rename_i isCurrent
      split at rest
      · obtain ⟨isResult, same⟩ := run_alone_done.mp rest
        cases isResult
        subst same
        exact .known parsed isStored (not_not.mp isCurrent)
      · rename_i newer
        obtain ⟨outcome, after, performs, rest⟩ := run_alone_action rest
        obtain ⟨isResult, same⟩ := run_alone_done.mp rest
        subst same
        cases outcome with
        | error error => cases isResult
        | ok out =>
            cases isResult
            cases performs with
            | update free done =>
                exact .raised parsed isStored (not_not.mp isCurrent)
                  (not_le.mp newer) done
  | none =>
      rw [Store.get, isStored] at rest
      dsimp only at rest
      split at rest
      · cases (run_alone_done.mp rest).1
      rename_i inFuture
      obtain ⟨outcome, after, performs, rest⟩ := run_alone_action rest
      obtain ⟨isResult, same⟩ := run_alone_done.mp rest
      subst same
      cases outcome with
      | error error => cases isResult
      | ok out =>
          cases isResult
          cases performs with
          | update free done =>
              exact .migrated parsed isStored (not_le.mp inFuture) done

theorem resolves_of_run {raw host : Bytes} {now : Time} {record : Record}
    {migrated : Bool}
    (run : Run server.machine.alone (server.resolve raw now) process
      (.ok (record, host, migrated)) later) :
    server.Resolves process (server.extractKey raw) now record host later := by
  unfold Server.resolve at run
  dsimp only at run
  split at run
  · exact resolves_of_secret run
  split at run
  · cases (run_alone_done.mp run).1
  · rename_i parsed
    exact resolves_of_token parsed run

theorem isLegacyName_of_parsed {key : Bytes} {claims : LegacyClaims}
    (parsed : server.parseLegacyHostToken key = .ok claims) :
    isLegacyName claims.room := by
  obtain ⟨exp, isExp⟩ := isLegacyName_of_parseLegacyHostToken parsed
  exact isLegacyName_of_parseLegacyRoom isExp

theorem valid_of_parsed {key : Bytes} {claims : LegacyClaims}
    (parsed : server.parseLegacyHostToken key = .ok claims) :
    validRoomName claims.room := by
  simp [validRoomName, isLegacyName_of_parsed parsed]

/-- What `resolve` finds is stored when it returns, with a current key. -/
theorem Server.Resolves.settles {key host : Bytes} {now : Time} {record : Record}
    (resolves : server.Resolves process key now record host later)
    (wellFormed : process.store.WellFormed) :
    later.store.WellFormed ∧
      later.store.rooms[record.room]? = some record ∧
      record.current record.secrets[server.hashSecret host]? ∧
      server.Settles process.store later.store := by
  cases resolves with
  | secret found isCurrent =>
      obtain ⟨isStored, has⟩ := Store.bySecret_eq_some found
      refine ⟨wellFormed, ?_, ?_, .unchanged⟩
      · rwa [← wellFormed.rooms.keyed isStored] at isStored
      · rwa [has]
  | known parsed stored isCurrent =>
      refine ⟨wellFormed, ?_, isCurrent, .unchanged⟩
      rwa [wellFormed.rooms.keyed stored]
  | raised parsed stored isCurrent newer done =>
      refine ⟨wellFormed.update (valid_of_parsed parsed) done,
        (stored_of_update wellFormed done).1, ?_,
        .updates (by trivial) (by simp) done⟩
      rw [out_of_raise wellFormed stored newer done]
      exact isCurrent
  | migrated parsed unknown inFuture done =>
      exact ⟨wellFormed.update (valid_of_parsed parsed) done,
        (stored_of_update wellFormed done).1,
        current_of_migrate (out_of_migrate unknown done),
        .updates (by exact unknown) (by simp) done⟩

theorem resolve_alone {raw host : Bytes} {now : Time} {record : Record}
    {migrated : Bool} (wellFormed : process.store.WellFormed)
    (run : Run server.machine.alone (server.resolve raw now) process
      (.ok (record, host, migrated)) later) :
    later.store.WellFormed ∧
      later.store.rooms[record.room]? = some record ∧
      record.current record.secrets[server.hashSecret host]? ∧
      server.Settles process.store later.store :=
  (resolves_of_run run).settles wellFormed

/-- A current host secret resolves. -/
theorem run_resolve {raw : Bytes} {now : Time} {record : Record}
    {entry : SecretEntry} (free : process.locked = false)
    (valid : validSecret (server.extractKey raw))
    (found : process.store.bySecret (server.hashSecret (server.extractKey raw)) =
      some (record, entry)) (role : entry.role = roleHost)
    (isCurrent : record.current (some entry)) :
    Run server.machine.alone (server.resolve raw now) process
      (.ok (record, server.extractKey raw, false)) process := by
  unfold Server.resolve
  dsimp only
  rw [if_pos valid]
  refine run_alone_bind.mpr ⟨some (record, entry), process, ?_, ?_⟩
  · refine run_alone_call.mpr ⟨_, process, .bySecret free, ?_⟩
    rw [found]
    exact run_alone_done.mpr ⟨rfl, rfl⟩
  · dsimp only
    rw [if_neg (not_not.mpr role), if_neg (not_not.mpr isCurrent)]
    exact run_alone_done.mpr ⟨rfl, rfl⟩

end Alone

/-! ## Requests in two steps -/

/-- A request between its `resolve` and its `update`. -/
structure Waiting where
  /-- What `resolve` read. -/
  record : Record
  /-- The secret of the key. -/
  host : Bytes
  change : Change

/-- A request that was answered with success. -/
structure Answered extends Waiting where
  /-- The record of the room when the update ran. -/
  before : Option Record

/-- The key was current when the update ran. -/
def Answered.Current (server : Server) (answered : Answered) : Prop :=
  ∃ record, answered.before = some record ∧
    record.current record.secrets[server.hashSecret answered.host]?

def Answered.Rotates (answered : Answered) : Prop :=
  ∃ host, answered.change = .rotate host

/-- What extending, rotating and deleting ask for once the key is resolved. -/
inductive Wants (record : Record) (now : Time) : Change → Prop where
  | extend {ttl : Duration} (alive : record.revoked = 0)
      (notExpired : now.unix < record.expires) :
      Wants record now (.extend now ttl)
  | rotate {host : Bytes} : Wants record now (.rotate host)
  | revoke : Wants record now (.revoke record.room now)

theorem Wants.suits {record : Record} {now : Time} {change : Change}
    (wants : Wants record now change) (store : Store) (room : RoomName) :
    store.Suits room change := by
  cases wants <;> trivial

/-- A signer and its requests that change rooms. -/
structure Desk where
  process : Process
  waiting : List Waiting
  answered : List Answered

namespace Desk

/-- One request resolves its key, or one that waits updates. -/
inductive Event where
  | resolves
  | updates (index : Nat)

/-- A request that `resolve` or `update` refuses has changed nothing. -/
inductive Step (server : Server) (desk : Desk) : Event → Desk → Prop where
  | resolves {raw host : Bytes} {now : Time} {record : Record} {migrated : Bool}
      {later : Process} {change : Change}
      (resolved : Run server.machine.alone (server.resolve raw now)
        desk.process (.ok (record, host, migrated)) later)
      (wants : Wants record now change) :
      Step server desk .resolves
        { desk with
          process := later
          waiting := desk.waiting ++ [{ record, host, change }] }
  | updates {index : Nat} {waiting : Waiting} {random : UInt32} {now : Int}
      {saves : Bool} {outcome : Except Error Record} {store : Store}
      (atUpdate : desk.waiting[index]? = some waiting)
      (done : desk.process.store.update waiting.record.room
        (server.callback waiting.change random) now saves =
          some (outcome, store)) :
      Step server desk (.updates index)
        { process := { desk.process with store }
          waiting := desk.waiting.eraseIdx index
          answered := desk.answered ++ (outcome.toOption.map fun _ =>
            { waiting with
              before :=
                desk.process.store.rooms[waiting.record.room]? }).toList }

/-- Any number of steps that meet a condition. -/
def Run (server : Server) (condition : Desk → Event → Prop) : Desk → Desk → Prop :=
  Relation.ReflTransGen fun desk later =>
    ∃ event, condition desk event ∧ Step server desk event later

/-- A signer without requests under way. -/
structure Begins (desk : Desk) : Prop where
  wellFormed : desk.process.store.WellFormed
  waiting : desk.waiting = []
  answered : desk.answered = []

/-- When a request updates, and its callback accepts the record, the room has
the generation that `resolve` read: nobody rotated it in between. -/
def Unmoved (server : Server) (desk : Desk) : Event → Prop
  | .resolves => True
  | .updates index => ∀ waiting stored random next,
      desk.waiting[index]? = some waiting →
      desk.process.store.rooms[waiting.record.room]? = some stored →
      server.callback waiting.change random (some stored) = .ok next →
        stored.gen = waiting.record.gen

/-- Rotations draw links that were not used yet, and the counter of the room
is not at its end. -/
def Draws (server : Server) (desk : Desk) : Event → Prop
  | .resolves => True
  | .updates index => ∀ waiting stored host,
      desk.waiting[index]? = some waiting → waiting.change = .rotate host →
      desk.process.store.rooms[waiting.record.room]? = some stored →
        stored.gen.toNat / 2 ^ 32 + 1 < 2 ^ 32 ∧
        ∀ used ∈ waiting :: desk.answered.map Answered.toWaiting,
          server.hashSecret used.host ≠ server.hashSecret host ∧
          server.hashSecret used.host ≠
            server.hashSecret (server.speakerSecret host)

/-- Requests that wait hold a key that is current unless their room was
rotated; those answered had one. -/
structure Fair (server : Server) (desk : Desk) : Prop where
  wellFormed : desk.process.store.WellFormed
  waiting : ∀ waiting ∈ desk.waiting,
    (∃ record now, Wants record now waiting.change) ∧
    desk.process.store.Holds waiting.record.room waiting.record.gen
      (server.hashSecret waiting.host)
  answered : ∀ answered ∈ desk.answered, answered.Current server

variable {server : Server} {desk later : Desk}

/-- An update that succeeds finds the generation that `resolve` read. -/
private theorem Unmoved.gen {index : Nat} {waiting : Waiting} {stored out : Record}
    {random : UInt32} {now : Int} {saves : Bool} {outcome : Except Error Record}
    {after : Store} (unmoved : desk.Unmoved server (.updates index))
    (atUpdate : desk.waiting[index]? = some waiting)
    (isStored : desk.process.store.rooms[waiting.record.room]? = some stored)
    (done : desk.process.store.update waiting.record.room
      (server.callback waiting.change random) now saves = some (outcome, after))
    (isOk : outcome.toOption = some out) : stored.gen = waiting.record.gen := by
  cases outcome with
  | error error => cases isOk
  | ok record =>
      obtain ⟨next, returned, -⟩ := Store.update_ok done
      rw [isStored] at returned
      exact unmoved waiting stored random next atUpdate isStored returned

theorem Fair.begins (begins : desk.Begins) : desk.Fair server := by
  refine ⟨begins.wellFormed, ?_, ?_⟩
  · simp [begins.waiting]
  · simp [begins.answered]

theorem Fair.step (fair : desk.Fair server) {event : Event}
    (unmoved : desk.Unmoved server event) (step : Step server desk event later) :
    later.Fair server := by
  cases step with
  | @resolves raw host now record migrated process change resolved wants =>
      obtain ⟨wellFormed, stored, current, settles⟩ :=
        resolve_alone fair.wellFormed resolved
      refine ⟨wellFormed, ?_, fair.answered⟩
      intro waiting member
      rcases List.mem_append.mp member with old | new
      · exact ⟨(fair.waiting waiting old).1,
          settles.holds fair.wellFormed (fair.waiting waiting old).2⟩
      · cases List.mem_singleton.mp new
        exact ⟨⟨_, _, wants⟩, record, stored, UInt64.le_refl _,
          fun _ => Record.current_iff_genWeight.mp current⟩
  | @updates index waiting random now saves outcome store atUpdate done =>
      have member := List.mem_of_getElem? atUpdate
      obtain ⟨⟨_, _, wants⟩, stored, isStored, bounded, current⟩ :=
        fair.waiting waiting member
      have valid := fair.wellFormed.rooms.valid isStored
      refine ⟨fair.wellFormed.update valid done, ?_, ?_⟩
      · intro other otherMember
        obtain ⟨wanted, holds⟩ :=
          fair.waiting other (List.mem_of_mem_eraseIdx otherMember)
        exact ⟨wanted, holds.update fair.wellFormed done (wants.suits _ _)⟩
      · intro answered answeredMember
        rcases List.mem_append.mp answeredMember with old | new
        · exact fair.answered answered old
        · obtain ⟨out, isOk, isAnswered⟩ :=
            Option.map_eq_some_iff.mp (Option.mem_toList.mp new)
          subst isAnswered
          have gen := unmoved.gen atUpdate isStored done isOk
          refine ⟨stored, isStored, ?_⟩
          rw [Record.current_iff_genWeight, gen]
          exact current gen

/-- A link that a rotation replaced stays replaced. -/
structure Spent (server : Server) (desk : Desk) : Prop extends
    desk.Fair server where
  replaced : ∀ answered ∈ desk.answered, answered.Rotates →
    desk.process.store.Replaced answered.record.room
      (server.hashSecret answered.host)
  once : desk.answered.Pairwise fun first second =>
    first.Rotates → second.Rotates → first.record.room = second.record.room →
      first.host ≠ second.host

theorem Spent.begins (begins : desk.Begins) : desk.Spent server := by
  refine ⟨.begins begins, ?_, ?_⟩
  · simp [begins.answered]
  · simp [begins.answered]

theorem Spent.step (spent : desk.Spent server) {event : Event}
    (unmoved : desk.Unmoved server event) (draws : desk.Draws server event)
    (step : Step server desk event later) : later.Spent server := by
  have fair := spent.toFair.step unmoved step
  refine ⟨fair, ?_, ?_⟩
  · cases step with
    | resolves resolved wants =>
        obtain ⟨-, -, -, settles⟩ := resolve_alone spent.wellFormed resolved
        exact fun answered member rotates =>
          settles.replaced (spent.replaced answered member rotates)
    | @updates index waiting random now saves outcome store atUpdate done =>
        obtain ⟨⟨_, _, wants⟩, stored, isStored, bounded, current⟩ :=
          spent.waiting waiting (List.mem_of_getElem? atUpdate)
        have other : ∀ used ∈ waiting :: desk.answered.map Answered.toWaiting,
            ∀ host, waiting.change = .rotate host →
              server.hashSecret used.host ≠ server.hashSecret host ∧
              server.hashSecret used.host ≠
                server.hashSecret (server.speakerSecret host) :=
          fun used member host isRotate =>
            (draws waiting stored host atUpdate isRotate isStored).2 used member
        intro answered member rotates
        rcases List.mem_append.mp member with old | new
        · obtain ⟨known, isKnown, lighter⟩ := spent.replaced answered old rotates
          exact Store.replaced_of_update done (wants.suits _ _)
            (other answered.toWaiting (List.mem_cons_of_mem _
              (List.mem_map_of_mem old))) isKnown (.inl lighter)
        · obtain ⟨out, isOk, isAnswered⟩ :=
            Option.map_eq_some_iff.mp (Option.mem_toList.mp new)
          subst isAnswered
          obtain ⟨host, isRotate⟩ := rotates
          have noWrap := (draws waiting stored host atUpdate isRotate isStored).1
          have gen := unmoved.gen atUpdate isStored done isOk
          refine Store.replaced_of_update done (wants.suits _ _)
            (other waiting List.mem_cons_self) isStored
            (.inr ⟨?_, rfl, ⟨host, isRotate⟩, noWrap, ?_⟩)
          · cases outcome with
            | error error => cases isOk
            | ok out => rfl
          · rw [current gen, gen]
  · cases step with
    | resolves => exact spent.once
    | @updates index waiting random now saves outcome store atUpdate done =>
        refine List.pairwise_append.mpr ⟨spent.once, ?_, ?_⟩
        · cases outcome <;> simp [Except.toOption]
        · intro first firstMember second secondMember firstRotates _ sameRoom
            sameHost
          obtain ⟨out, -, isSecond⟩ :=
            Option.map_eq_some_iff.mp (Option.mem_toList.mp secondMember)
          obtain ⟨record, isBefore, isCurrent⟩ := fair.answered second
            (List.mem_append_right _ secondMember)
          subst isSecond
          obtain ⟨stored, isStored, lighter⟩ :=
            spent.replaced first firstMember firstRotates
          change first.record.room = waiting.record.room at sameRoom
          change first.host = waiting.host at sameHost
          rw [sameRoom, show desk.process.store.rooms[waiting.record.room]? =
            some record from isBefore] at isStored
          cases isStored
          rw [sameHost, Record.current_iff_genWeight.mp isCurrent] at lighter
          exact lt_irrefl _ lighter

/-- If nobody rotates a room between the `resolve` and the `update` of another
request that succeeds, every request that succeeds used a current key; and if rotations
moreover draw unused links and do not exhaust the counter, no two rotations of
a room succeed with one link. -/
theorem current_unless_rotated {start : Desk} (begins : start.Begins) :
    (∀ desk, Run server (Unmoved server) start desk →
      ∀ answered ∈ desk.answered, answered.Current server) ∧
    ∀ desk, Run server (fun desk event => desk.Unmoved server event ∧
        desk.Draws server event) start desk →
      desk.answered.Pairwise fun first second =>
        first.Rotates → second.Rotates →
          first.record.room = second.record.room → first.host ≠ second.host := by
  constructor
  · intro desk run
    have fair : desk.Fair server := by
      induction run with
      | refl => exact .begins begins
      | tail _ last induction =>
          obtain ⟨event, unmoved, last⟩ := last
          exact induction.step unmoved last
    exact fair.answered
  · intro desk run
    have spent : desk.Spent server := by
      induction run with
      | refl => exact .begins begins
      | tail _ last induction =>
          obtain ⟨event, ⟨unmoved, draws⟩, last⟩ := last
          exact induction.step unmoved draws last
    exact spent.once

end Desk

namespace Sample

/-- A signer with one room. -/
def desk : Desk :=
  { process := { store := reservedStore, used := ∅, locked := false }
    waiting := []
    answered := [] }

def reservedRecord : Record := reservedStore.recordOr room

/-- A rotation with the first host link. -/
def rotation (drawn : Bytes) : Waiting :=
  { record := reservedRecord, host, change := .rotate drawn }

private theorem resolves (waiting : List Waiting) (drawn : Bytes) :
    Desk.Step server { desk with waiting } .resolves
      { desk with waiting := waiting ++ [rotation drawn] } := by
  have isKey : server.extractKey host = host := by decide
  have valid : validSecret host := by decide
  have found : reservedStore.bySecret (server.hashSecret host) =
      some (reservedRecord, { role := roleHost, gen := 0 }) := by
    decide
  have resolved : Program.Run server.machine.alone (server.resolve host 0)
      desk.process (.ok (reservedRecord, server.extractKey host, false))
        desk.process :=
    run_resolve rfl (by rwa [isKey]) (by rwa [isKey]) rfl (by decide)
  rw [isKey] at resolved
  exact .resolves resolved .rotate

private theorem updates {process : Process} {waiting : List Waiting}
    {answered : List Answered} {drawn : Bytes}
    (rotates : (process.store.update room
      (server.callback (.rotate drawn) 0) 0 true).isSome)
    (succeeds : (changed process.store (.rotate drawn)).1.toOption.isSome) :
    Desk.Step server
      { process, waiting := rotation drawn :: waiting, answered } (.updates 0)
      { process :=
          { process with store := (changed process.store (.rotate drawn)).2 }
        waiting
        answered := answered ++
          [{ rotation drawn with before := process.store.rooms[room]? }] } := by
  obtain ⟨out, isOk⟩ : ∃ out,
      (changed process.store (.rotate drawn)).1 = .ok out := by
    cases isOutcome : (changed process.store (.rotate drawn)).1 with
    | error error =>
        rw [isOutcome] at succeeds
        cases succeeds
    | ok out => exact ⟨out, rfl⟩
  have done : process.store.update room (server.callback (.rotate drawn) 0) 0
      true = some (.ok out, (changed process.store (.rotate drawn)).2) := by
    rw [← isOk]
    exact eq_some_getD rotates
  exact @Desk.Step.updates server
    { process, waiting := rotation drawn :: waiting, answered } 0
    (rotation drawn) _ _ _ _ _ rfl done

def rotatedStore : Store :=
  (changed reservedStore (.rotate secondHost)).2

/-- One rotation was answered. -/
def once : Desk :=
  { process := { desk.process with store := rotatedStore }
    waiting := []
    answered :=
      [{ rotation secondHost with before := reservedStore.rooms[room]? }] }

/-- Two rotations with the first host link were answered. -/
def twice : Desk :=
  { process :=
      { desk.process with store := (changed rotatedStore (.rotate thirdHost)).2 }
    waiting := []
    answered :=
      [{ rotation secondHost with before := reservedStore.rooms[room]? },
        { rotation thirdHost with before := rotatedStore.rooms[room]? }] }

private theorem desk_begins : desk.Begins :=
  ⟨reservedStore_reached.wellFormed .newStore, rfl, rfl⟩

/-- Without another rotation in between, a rotation used a current link. -/
theorem once_current :
    Answered.Current server
      { rotation secondHost with before := reservedStore.rooms[room]? } := by
  refine (Desk.current_unless_rotated desk_begins).1 once (.tail (.single
    ⟨.resolves, trivial, resolves [] secondHost⟩) ⟨.updates 0, ?_,
      updates (by decide) (by decide)⟩) _ List.mem_cons_self
  intro waiting stored random next isWaiting isStored _
  cases isWaiting
  have isRecord := congrArg (Option.getD · (Record.empty room)) isStored
  rw [← show _ = stored from isRecord]
  rfl

/-- Two rotations that resolve one after the other, before either updates,
both succeed with one link, and the second used a link that was replaced. -/
theorem replaced_link_rotates :
    desk.Begins ∧ Desk.Run server (fun _ _ => True) desk twice ∧
      (∃ answered ∈ twice.answered, ¬ answered.Current server) ∧
      ¬ twice.answered.Pairwise fun first second =>
        first.Rotates → second.Rotates →
          first.record.room = second.record.room → first.host ≠ second.host := by
  refine ⟨desk_begins, ?_, ?_, ?_⟩
  · refine .tail (.tail (.tail (.single
      ⟨.resolves, trivial, resolves [] secondHost⟩)
      ⟨.resolves, trivial, resolves [rotation secondHost] thirdHost⟩)
      ⟨.updates 0, trivial, updates (by decide) (by decide)⟩)
      ⟨.updates 0, trivial, updates (by decide) (by decide)⟩
  · refine ⟨_, List.mem_cons_of_mem _ List.mem_cons_self, ?_⟩
    intro current
    obtain ⟨record, isRecord, current⟩ := current
    have replaced : ¬ (rotatedStore.recordOr room).current
        (rotatedStore.recordOr room).secrets[server.hashSecret host]? := by
      decide
    have isStored : rotatedStore.recordOr room = record :=
      congrArg (Option.getD · (Record.empty room)) isRecord
    rw [isStored] at replaced
    exact replaced current
  · intro distinct
    cases distinct with
    | cons first _ =>
        exact first _ List.mem_cons_self ⟨_, rfl⟩ ⟨_, rfl⟩ rfl rfl

end Sample

end FfmucSalt.MeetReserve
