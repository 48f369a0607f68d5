import FfmucSalt.MeetReserve.Horizon
import FfmucSalt.MeetReserve.SpeakerLinks
import FfmucSalt.MeetReserve.StaleKey
import FfmucSalt.MeetReserve.Tokens

/-!
# Join tokens as keys

A token that a join mints has the key, the form and the user of a v1 host
token.  `resolve` takes one for a v1 room as long as the v1 host link is
current, and lets its holder manage the room.
-/

namespace FfmucSalt.MeetReserve

open Program

/-- The token in a response. -/
def Response.jwt : Response → Option Bytes
  | .joined _ _ _ jwt _ _ => some jwt
  | .redirect _ jwt => some jwt
  | _ => none

/-- Requests that mint tokens. -/
def Request.Joins : Request → Prop
  | .join _ _ => True
  | .apiJoin _ _ => True
  | _ => False

/-- Nothing opens the room to what the token says: it is no host's, or not of a
v1 room, or the room is deleted or its v1 link replaced, or both token and v1
window are over. -/
def Server.Shut (server : Server) (room role : Bytes) (exp : Int) (time : Time)
    (store : Store) : Prop :=
  role = roleHost → ∀ nameExp, server.parseLegacyRoom room = .ok nameExp →
    match store.rooms[room]? with
    | some cur => cur.revoked ≠ 0 ∨ ¬ cur.current
        cur.secrets[server.hashSecret (server.legacyHostSecret room)]?
    | none =>
        min exp (Time.unix (nameExp + server.cfg.legacyMaxExt)) ≤ time.unix

/-- Signatures and JSON of a token are read as they were written, and its times
fit their type. -/
structure Server.Reads (server : Server) (room role : Bytes) (gen : UInt64)
    (iat exp : Time) : Prop where
  signs : server.verifies (server.tokenInput room role gen iat exp)
    (server.lib.sign server.cfg.priv (server.tokenInput room role gen iat exp))
  unmarshals : server.lib.unmarshal (server.lib.marshal
    (server.tokenClaims room role gen iat exp)) =
      some (server.tokenClaims room role gen iat exp)
  fitsIat : FitsInt64 iat.unix
  fitsExp : FitsInt64 exp.unix

section JoinTokens

variable {server : Server}

/-! ## Minting -/

private theorem ensures_true {α : Type} (program : Handler α) :
    Ensures (fun _ => True) (fun _ _ => True) (fun _ => True) program := by
  induction program with
  | done => exact .done trivial
  | call action next induction =>
      exact .call trivial fun answer _ => induction answer

/-- A token in a response is that of a join. -/
private def Minted (server : Server) (response : Response) : Prop :=
  ∀ jwt, response.jwt = some jwt →
    ∃ record role now, jwt = (server.joinToken record role now).1

private theorem minted_ofError (error : Error) :
    Minted server (.ofError error) := by
  intro jwt isJwt
  cases error <;> cases isJwt

private theorem handleJoin_mints (role path : Bytes) :
    Ensures (fun _ => True) (fun _ _ => True) (Minted server)
      (server.handleJoin role path) := by
  have gone : ∀ why, Minted server (.gone why) := by
    intro why jwt isJwt
    cases isJwt
  unfold Server.handleJoin
  apply Ensures.ite
  · exact fun _ => .pure (gone _)
  intro _
  apply Ensures.bind _ (ensures_true _)
  intro found _
  apply Ensures.action trivial
  intro now _
  cases found with
  | none => exact .pure (gone _)
  | some found =>
      obtain ⟨record, entry⟩ := found
      apply Ensures.ite
      · exact fun _ => .pure (gone _)
      intro _
      apply Ensures.ite
      · exact fun _ => .pure (gone _)
      intro _
      apply Ensures.ite
      · exact fun _ => .pure (gone _)
      intro _
      apply Ensures.ite
      · exact fun _ => .pure (gone _)
      intro _
      apply Ensures.pure
      rintro jwt ⟨⟩
      exact ⟨record, role, now, rfl⟩

private theorem handleAPIJoin_mints (isPost : Bool) (body : Option JoinBody) :
    Ensures (fun _ => True) (fun _ _ => True) (Minted server)
      (server.handleAPIJoin isPost body) := by
  unfold Server.handleAPIJoin
  split
  · exact .pure (minted_ofError _)
  apply Ensures.ite
  · exact fun _ => .pure (minted_ofError _)
  intro _
  apply Ensures.action trivial
  intro now _
  apply Ensures.bind _ (ensures_true _)
  intro outcome _
  cases outcome with
  | error error => exact .pure (minted_ofError _)
  | ok found =>
      obtain ⟨record, role⟩ := found
      apply Ensures.ite
      · exact fun _ => .pure (minted_ofError _)
      intro _
      apply Ensures.pure
      rintro jwt ⟨⟩
      exact ⟨record, _, now, rfl⟩

private theorem minted_of_run {request : Request} (joins : request.Joins)
    {start middle : Process} {response : Response}
    (run : Run server.machine (server.handle request) start response middle) :
    Minted server response := by
  have ensures : Ensures (fun _ => True) (fun _ _ => True) (Minted server)
      (server.handle request) := by
    cases request with
    | join role path => exact handleJoin_mints role path
    | apiJoin isPost body => exact handleAPIJoin_mints isPost body
    | _ => exact joins.elim
  exact (run.ensures (fun _ => True) (fun _ _ _ => ⟨trivial, trivial⟩)
    (fun _ _ => trivial) ensures trivial).1

/-! ## Resolving -/

/-- Neither callback of `resolve` fails. -/
private theorem ok_of_update {process final : Process} {room : RoomName}
    {change : Change} {outcome : Except Error Record}
    (returns : ∀ random, ∃ next,
      server.callback change random process.store.rooms[room]? = .ok next)
    (performs : server.Performs process (.update room change) outcome final) :
    ∃ record, outcome = .ok record := by
  cases outcome with
  | ok record => exact ⟨record, rfl⟩
  | error error =>
      cases performs with
      | @update _ _ random _ _ _ _ _ done =>
          obtain ⟨next, returned⟩ := returns random
          rw [(Store.update_error done).1] at returned
          cases returned

/-- When `resolve` refuses a v1 host token. -/
private theorem resolveLegacy_fails_iff {claims : LegacyClaims} {time : Time}
    {process final : Process} {outcome : Except Error (Record × Bytes × Bool)}
    (run : Run server.machine.alone (server.resolveLegacy claims time) process
      outcome final) :
    (∃ error, outcome = .error error) ↔
      match process.store.rooms[claims.room]? with
      | some cur => cur.revoked ≠ 0 ∨ ¬ cur.current cur.secrets[
          server.hashSecret (server.legacyHostSecret claims.room)]?
      | none => server.legacyExp claims ≤ time.unix := by
  have noError : ∀ {result : Record × Bytes × Bool} {failure : Prop},
      outcome = .ok result → ¬ failure →
        ((∃ error, outcome = .error error) ↔ failure) := by
    intro result failure isOk holds
    refine iff_of_false ?_ holds
    rintro ⟨error, isError⟩
    cases isOk.symm.trans isError
  obtain ⟨answer, middle, performs, rest⟩ := run_alone_action run
  cases performs
  cases stored : process.store.rooms[claims.room]? with
  | some cur =>
      rw [Store.get, stored] at rest
      dsimp only at rest ⊢
      split at rest
      · rename_i revoked
        exact iff_of_true ⟨_, (run_alone_done.mp rest).1⟩ (.inl revoked)
      rename_i alive
      split at rest
      · rename_i replaced
        exact iff_of_true ⟨_, (run_alone_done.mp rest).1⟩ (.inr replaced)
      rename_i current
      have opens : ¬ (cur.revoked ≠ 0 ∨ ¬ cur.current cur.secrets[
          server.hashSecret (server.legacyHostSecret claims.room)]?) :=
        not_or.mpr ⟨alive, current⟩
      split at rest
      · exact noError (run_alone_done.mp rest).1 opens
      obtain ⟨updated, after, performs, rest⟩ := run_alone_action rest
      obtain ⟨record, isOk⟩ := ok_of_update
        (fun random => ⟨_, by rw [stored]; rfl⟩) performs
      subst isOk
      exact noError (run_alone_done.mp rest).1 opens
  | none =>
      rw [Store.get, stored] at rest
      dsimp only at rest ⊢
      split at rest
      · rename_i ended
        exact iff_of_true ⟨_, (run_alone_done.mp rest).1⟩ ended
      rename_i opens
      obtain ⟨updated, after, performs, rest⟩ := run_alone_action rest
      obtain ⟨record, isOk⟩ := ok_of_update
        (fun random => ⟨_, by rw [stored]; rfl⟩) performs
      subst isOk
      exact noError (run_alone_done.mp rest).1 opens

variable {room role : Bytes} {gen : UInt64} {iat : Time} {exp : Int}

private theorem legacyExp_legacyClaimsOf {nameExp : Time}
    (isLegacy : server.parseLegacyRoom room = .ok nameExp) :
    server.legacyExp (legacyClaimsOf room role iat (Time.ofUnix exp)) =
      min exp (Time.unix (nameExp + server.cfg.legacyMaxExt)) := by
  simp only [Server.legacyExp, legacyClaimsOf, isLegacy, Time.unix_ofUnix]

private theorem shut_iff {time : Time} {store : Store} {nameExp : Time}
    (isLegacy : server.parseLegacyRoom room = .ok nameExp) :
    server.Shut room roleHost exp time store ↔
      match store.rooms[room]? with
      | some cur => cur.revoked ≠ 0 ∨ ¬ cur.current
          cur.secrets[server.hashSecret (server.legacyHostSecret room)]?
      | none => min exp (Time.unix (nameExp + server.cfg.legacyMaxExt)) ≤
          time.unix := by
  constructor
  · exact fun shut => shut rfl nameExp isLegacy
  · intro ended _ other isOther
    cases isLegacy.symm.trans isOther
    exact ended

/-- When `resolve` refuses a minted token. -/
private theorem resolve_token_fails_iff
    (reads : server.Reads room role gen iat (Time.ofUnix exp)) {raw : Bytes}
    (isKey : server.extractKey raw =
      server.token room role gen iat (Time.ofUnix exp))
    {time : Time} {process final : Process}
    {outcome : Except Error (Record × Bytes × Bool)}
    (run : Run server.machine.alone (server.resolve raw time) process outcome
      final) :
    (∃ error, outcome = .error error) ↔
      server.Shut room role exp time process.store := by
  unfold Server.resolve at run
  rw [isKey, if_neg not_validSecret_token, parseLegacyHostToken_token
    reads.signs reads.unmarshals reads.fitsIat reads.fitsExp] at run
  by_cases isHost : role = roleHost
  · subst isHost
    rw [if_neg (not_not.mpr rfl)] at run
    cases isLegacy : server.parseLegacyRoom room with
    | error error =>
        rw [isLegacy] at run
        refine iff_of_true ⟨_, (run_alone_done.mp run).1⟩ ?_
        intro _ nameExp isName
        cases isLegacy.symm.trans isName
    | ok nameExp =>
        rw [isLegacy] at run
        rw [shut_iff isLegacy, ← @legacyExp_legacyClaimsOf server room roleHost
          iat exp nameExp isLegacy]
        exact resolveLegacy_fails_iff run
  · rw [if_pos isHost] at run
    refine iff_of_true ⟨_, (run_alone_done.mp run).1⟩ ?_
    exact fun isRole => (isHost isRole).elim

/-- A current link joins. -/
private theorem run_handleJoin {path secret : Bytes} {now : Time}
    {process : Process} {record : Record} {entry : SecretEntry}
    (free : process.locked = false) (positive : 0 < now.unix)
    (isSecret : trimPrefix path (server.cfg.basePath ++ ascii "/" ++
      role.take 1 ++ ascii "/") = secret) (valid : validSecret secret)
    (found : process.store.bySecret (server.hashSecret secret) =
      some (record, entry)) (isRole : entry.role = role)
    (alive : record.revoked = 0) (current : record.current (some entry))
    (notExpired : now.unix < record.expires) :
    Run server.machine.alone (server.handleJoin role path) process
      (.redirect record.room (server.joinToken record role now).1) process := by
  unfold Server.handleJoin
  rw [isSecret]
  dsimp only
  rw [if_neg (not_not.mpr valid)]
  refine run_alone_bind.mpr ⟨some (record, entry), process, ?_, ?_⟩
  · refine run_alone_call.mpr ⟨_, process, .bySecret free, ?_⟩
    rw [found]
    exact run_alone_done.mpr ⟨rfl, rfl⟩
  · refine run_alone_call.mpr ⟨now, process, .now positive, ?_⟩
    simp only [Program.bind, ne_eq, if_neg (not_not.mpr isRole),
      if_neg (not_not.mpr alive), if_neg (not_not.mpr current),
      if_neg (not_le.mpr notExpired)]
    exact run_alone_done.mpr ⟨rfl, rfl⟩

/-- A v1 host token resolves as long as the v1 link is current. -/
private theorem run_resolveLegacy {claims : LegacyClaims} {now : Time}
    {process : Process} {cur : Record} (free : process.locked = false)
    (stored : process.store.rooms[claims.room]? = some cur)
    (alive : cur.revoked = 0)
    (current : cur.current cur.secrets[
      server.hashSecret (server.legacyHostSecret claims.room)]?)
    (within : server.legacyExp claims ≤ cur.expires) :
    Run server.machine.alone (server.resolveLegacy claims now) process
      (.ok (cur, server.legacyHostSecret claims.room, false)) process := by
  refine run_alone_call.mpr ⟨_, process, .get free, ?_⟩
  rw [Store.get, stored]
  simp only [Program.bind, ne_eq, if_neg (not_not.mpr alive),
    if_neg (not_not.mpr current), if_pos within]
  exact run_alone_done.mpr ⟨rfl, rfl⟩

end JoinTokens

/-- `resolve` refuses a token that a join minted if and only if nothing opens
the room to what the token says. -/
theorem join_token_refused_iff (server : Server) :
    (∀ request start response final jwt, Request.Joins request →
      Run server.machine (server.handle request) start response final →
      response.jwt = some jwt →
        ∃ record role now, jwt = (server.joinToken record role now).1) ∧
    ∀ record role now jwt exp, server.joinToken record role now = (jwt, exp) →
      server.Reads record.room role record.gen now (Time.ofUnix exp) →
      server.extractKey jwt = jwt ∧
      ∀ raw, server.extractKey raw = jwt → ∀ time process outcome final,
        Run server.machine.alone (server.resolve raw time) process outcome
          final →
        ((∃ error, outcome = .error error) ↔
          server.Shut record.room role exp time process.store) := by
  constructor
  · intro request start response final jwt joins run isJwt
    exact minted_of_run joins run jwt isJwt
  · rintro record role now jwt exp ⟨⟩ reads
    refine ⟨extractKey_token, ?_⟩
    intro raw isKey time process outcome final run
    exact resolve_token_fails_iff reads isKey run

namespace Sample

/-- A signer that stores the migrated v1 room. -/
def migratedProcess : Process :=
  { store := migrated.2, used := ∅, locked := false }

def migratedRecord : Record := migrated.2.recordOr legacyRoom

/-- The address of the host link of the v1 room. -/
def legacyHostPath : Bytes :=
  config.basePath ++ ascii "/h/" ++ legacyHost

private theorem joins : Run server.machine
    (server.handle (.join roleHost legacyHostPath)) migratedProcess
    (.redirect migratedRecord.room
      (server.joinToken migratedRecord roleHost issued).1) migratedProcess := by
  have found : migrated.2.bySecret (server.hashSecret legacyHost) =
      some (migratedRecord, { role := roleHost, gen := 0 }) := by
    decide
  have isSecret : trimPrefix legacyHostPath (server.cfg.basePath ++ ascii "/" ++
      roleHost.take 1 ++ ascii "/") = legacyHost := by
    decide
  have positive : 0 < issued.unix := by decide
  have alive : migratedRecord.revoked = 0 := by decide
  have current :
      migratedRecord.current (some { role := roleHost, gen := 0 }) := by
    decide
  have notExpired : issued.unix < migratedRecord.expires := by decide
  apply Run.of_alone
  exact run_handleJoin rfl positive isSecret (by decide) found rfl alive
    current notExpired

private theorem hostToken_resolves (time : Time) : Run server.machine.alone
    (server.resolve hostToken time) migratedProcess
    (.ok (migratedRecord, server.legacyHostSecret readClaims.room, false))
    migratedProcess := by
  have stored : migratedProcess.store.rooms[readClaims.room]? =
      some migratedRecord := by
    decide
  rw [resolve_hostToken]
  exact run_resolveLegacy rfl stored (by decide) (by decide)
    (by decide +kernel)

private theorem jwt_eq_hostToken :
    server.joinToken migratedRecord roleHost issued = (hostToken, 44200) := by
  decide +kernel

private theorem afterMigrate_reached :
    Cluster.Reached server afterMigrate
      ([] ++ (Operation.reading migrate).toList) :=
  .step .initial migrate_computes migrate_step

/-- The v1 room is migrated, its host link joins, and the token manages the
room. -/
theorem join_token_resolves :
    ¬ ∀ (cluster : Cluster Unit) readings,
      Cluster.Reached server cluster readings →
      ∀ request start response final, Request.Joins request →
        start.store = cluster.stores () →
        Run server.machine (server.handle request) start response final →
        ∀ record role now,
          response.jwt = some (server.joinToken record role now).1 →
        ∀ later, Cluster.Run server
          (fun _ _ operation => server.ComputesIn operation) cluster later →
        ∀ raw, server.extractKey raw = (server.joinToken record role now).1 →
        ∀ time process outcome last, now ≤ time →
          process.store = later.stores () →
          Run server.machine.alone (server.resolve raw time) process outcome
            last →
          ∃ error, outcome = .error error := by
  intro refused
  have isToken := congrArg Prod.fst jwt_eq_hostToken
  obtain ⟨error, isError⟩ := refused afterMigrate _ afterMigrate_reached
    (.join roleHost legacyHostPath) migratedProcess _ migratedProcess trivial rfl
    joins migratedRecord roleHost issued rfl afterMigrate .refl hostToken
    (extractKey_hostToken.trans isToken.symm) (issued + hour) migratedProcess _
    migratedProcess (by decide) rfl (hostToken_resolves _)
  cases isError

private theorem reads_hostToken :
    server.Reads legacyRoom roleHost 0 issued tokenExp where
  signs := by decide +kernel
  unmarshals := by
    have isText : ∀ text, text = marshal hostClaims →
        server.lib.unmarshal text = some hostClaims := fun _ same => if_pos same
    exact isText _ (by decide +kernel)
  fitsIat := ⟨by decide, by decide⟩
  fitsExp := ⟨by decide, by decide⟩

/-- The join token of the migrated v1 room, which `resolve` does not refuse. -/
theorem join_token_refused_iff_hostToken :
    ¬ server.Shut legacyRoom roleHost 44200 (issued + hour) migrated.2 := by
  have sameRoom : migratedRecord.room = legacyRoom := by decide
  have sameGen : migratedRecord.gen = 0 := by decide
  have resolved := (join_token_refused_iff server).2 migratedRecord roleHost
    issued hostToken 44200 jwt_eq_hostToken
    (by rw [sameRoom, sameGen]; exact reads_hostToken)
  obtain ⟨isKey, refused⟩ := resolved
  have iff := refused hostToken isKey (issued + hour) migratedProcess _ _
    (hostToken_resolves _)
  rw [sameRoom] at iff
  intro shut
  obtain ⟨error, isError⟩ := iff.mpr shut
  cases isError

end Sample

end FfmucSalt.MeetReserve
