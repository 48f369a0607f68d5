import FfmucSalt.MeetReserve.Horizon
import FfmucSalt.MeetReserve.LockSafety
import FfmucSalt.SignedRooms.Staleness

/-!
# Collected v1 rooms stay closed

`gc` drops the record of a v1 room only after the window of its name, and then
neither the signer nor Prosody lets the name or a token of it count.
-/

namespace FfmucSalt.MeetReserve

/-- A record of a v1 name is marked as one, and the signer reads the name. -/
def Server.Marked (server : Server) (record : Record) : Prop :=
  isLegacyName record.room → record.legacy ∧
    ∃ nameExp, server.parseLegacyRoom record.room = .ok nameExp

/-- An action does not create a record of the room. -/
def Server.Spares (server : Server) (room : RoomName) (action : Action) : Prop :=
  ∀ process answer later, server.Performs process action answer later →
    process.store.rooms[room]? = none → later.store.rooms[room]? = none

section Marked

variable {server : Server}

theorem Server.Marked.stable : Record.Stable server.Marked where
  stamp _ marked := marked
  strip marked _ := marked

theorem Server.Marked.merged {known other : Record}
    (start : Record.StartsFrom server.Marked other.room known)
    (marked : server.Marked other) : server.Marked (known.merged other) := by
  have sameRoom : known.room = other.room := by
    rcases start with isEmpty | ⟨-, sameRoom⟩
    · rw [isEmpty]
      rfl
    · exact sameRoom
  intro isLegacy
  rw [Record.merged_room, sameRoom] at isLegacy ⊢
  obtain ⟨legacy, nameExp, parsed⟩ := marked isLegacy
  exact ⟨by simp [legacy], nameExp, parsed⟩

private theorem marked_of_returns {store : Store} {room : RoomName}
    {change : Change} {random : UInt32} {next : Record}
    (every : store.Every server.Marked) (wellFormed : store.WellFormed)
    (makes : server.Makes room change) (computes : server.Computes room change)
    (returns : server.Returns change random store.rooms[room]? next) :
    server.Marked { next with room } := by
  have own : ∀ {cur : Record}, store.rooms[room]? = some cur →
      isLegacyName room → cur.legacy ∧
        ∃ nameExp, server.parseLegacyRoom room = .ok nameExp := by
    intro cur stored isLegacy
    have marked := every.rooms stored
    unfold Server.Marked at marked
    rw [wellFormed.rooms.keyed stored] at marked
    exact marked isLegacy
  intro isLegacy
  generalize isCur : store.rooms[room]? = cur at returns
  cases returns with
  | reserve =>
      exact (not_isLegacyName_of_isShortName makes.1 isLegacy).elim
  | raise =>
      obtain ⟨legacy, parsed⟩ := own isCur isLegacy
      exact ⟨legacy, parsed⟩
  | migrate =>
      obtain ⟨-, key, claims, parsed, isRoom, -⟩ := computes
      subst isRoom
      exact ⟨rfl, isLegacyName_of_parseLegacyHostToken parsed⟩
  | extend =>
      obtain ⟨legacy, parsed⟩ := own isCur isLegacy
      exact ⟨legacy, parsed⟩
  | rotate =>
      obtain ⟨legacy, parsed⟩ := own isCur isLegacy
      exact ⟨legacy, parsed⟩
  | revoke =>
      obtain ⟨legacy, parsed⟩ := own isCur isLegacy
      refine ⟨?_, parsed⟩
      dsimp only
      split
      · exact legacy
      · exact legacy
  | block parsed =>
      obtain ⟨rfl, -, -⟩ := makes
      exact ⟨rfl, _, parsed⟩

/-- Every record of a v1 name is marked, on every signer. -/
theorem Cluster.marked_of_run {ι : Type} [DecidableEq ι] {cluster : Cluster ι}
    (run : Run server (fun _ _ operation => server.ComputesIn operation)
      .initial cluster) :
    Run server (fun _ _ _ => True) .initial cluster ∧
      cluster.Every server.Marked := by
  induction run with
  | refl => exact ⟨.refl, .initial⟩
  | tail _ last induction =>
      obtain ⟨run, every⟩ := induction
      obtain ⟨site, operation, computes, step⟩ := last
      refine ⟨run.tail ⟨site, operation, trivial, step⟩, ?_⟩
      refine every.step Server.Marked.stable (wellFormed_of_run run) step
        (fun start marked _ => marked.merged start) ?_
      intro room change random now saves next same legal returns
      subst same
      have marked := marked_of_returns (every.stores site)
        (wellFormed_of_run run site) legal computes returns
      exact marked.merged
        ((every.stores site).startsFrom (wellFormed_of_run run site) room)

/-! ## After the window -/

/-- A record that `gc` drops is one whose window is over. -/
theorem window_of_collected {store : Store} {room : RoomName} {record : Record}
    {now : Time} {saves : Bool} {nameExp : Time}
    (stored : store.rooms[room]? = some record) (isLegacy : record.legacy)
    (parsed : server.parseLegacyRoom record.room = .ok nameExp)
    (dropped : (store.gc now gcKeep server.legacyLimit saves).rooms[room]? =
      none) :
    Time.unix (nameExp + server.cfg.legacyMaxExt) < now.unix := by
  rw [Store.lookup_gc, stored, Option.bind_some, Store.collected] at dropped
  split at dropped
  · cases dropped
  · rename_i ended
    have limit : server.legacyLimit record =
        Time.unix (nameExp + server.cfg.legacyMaxExt) := by
      rw [Server.legacyLimit, if_neg (not_not.mpr isLegacy), parsed]
    have before : Time.unix (now - gcKeep) ≤ now.unix :=
      Time.unix_mono (Int.sub_le_self now (by decide))
    rw [not_le] at ended
    rw [← limit]
    exact (le_max_right _ _).trans_lt
      ((le_max_right _ _).trans_lt (ended.trans_le before))

private theorem spares_of_keeps {room : RoomName} {action : Action}
    (keeps : ∀ {process answer later},
      server.Performs process action answer later →
        later.store = process.store) : server.Spares room action := by
  intro process answer later performs none
  rw [keeps performs]
  exact none

/-- An update spares the room if it is for an other one, or for a record that
exists. -/
private theorem spares_update {room other : RoomName} {change : Change}
    (creates : other = room → ∀ random next,
      ¬ server.Returns change random none next) :
    server.Spares room (.update other change) := by
  intro process answer later performs none
  cases performs with
  | @update _ _ random now saves _ store free done =>
      cases answer with
      | error error => exact (Store.update_error done).2 ▸ none
      | ok out =>
          obtain ⟨next, returned, committed⟩ := Store.update_ok done
          have rooms := process.store.commit_rooms other next now saves
          rw [committed] at rooms
          change store.rooms[room]? = _
          rw [rooms, FiniteMap.lookup_insert]
          split
          · rename_i same
            rw [same, none] at returned
            exact (creates same random next
              (server.returns_of_ok returned)).elim
          · exact none

private theorem bySecretOrPull_spares (room : RoomName) (hash : Hash) :
    Program.Ensures (server.Spares room) (fun _ _ => True) (fun _ => True)
      (Server.bySecretOrPull hash) := by
  have reads : server.Spares room (.bySecret hash) := by
    apply spares_of_keeps
    intro process answer later performs
    cases performs
    rfl
  apply Program.Ensures.action reads
  intro found _
  cases found with
  | some found => exact .pure trivial
  | none =>
      apply Program.Ensures.action
      · apply spares_of_keeps
        intro process answer later performs
        cases performs
        rfl
      · exact fun _ _ => .call reads fun _ _ => .done trivial

private theorem resolveLegacy_spares {room : RoomName} {nameExp now : Time}
    (isName : server.parseLegacyRoom room = .ok nameExp)
    (ended : Time.unix (nameExp + server.cfg.legacyMaxExt) < now.unix)
    {input : Bytes} {claims : LegacyClaims}
    (parsed : server.parseLegacyHostToken input = .ok claims) :
    Program.Ensures (server.Spares room) (fun _ _ => True) (fun _ => True)
      (server.resolveLegacy claims now) := by
  have reads : server.Spares room (.get claims.room) := by
    apply spares_of_keeps
    intro process answer later performs
    cases performs
    rfl
  apply Program.Ensures.action reads
  intro cur _
  cases cur with
  | none =>
      apply Program.Ensures.ite
      · exact fun _ => .pure trivial
      intro alive
      apply Program.Ensures.action
      · apply spares_update
        intro same
        -- the token of the room itself expired with the window
        obtain ⟨exp, isExp, bounded⟩ := legacyExp_le parsed
        rw [same, isName] at isExp
        cases isExp
        exact (alive (bounded.trans ended.le)).elim
      · exact fun _ _ => .pure trivial
  | some cur =>
      apply Program.Ensures.ite
      · exact fun _ => .pure trivial
      intro _
      apply Program.Ensures.ite
      · exact fun _ => .pure trivial
      intro _
      apply Program.Ensures.ite
      · exact fun _ => .pure trivial
      intro _
      apply Program.Ensures.action
      · apply spares_update
        intro _ random next returns
        cases returns
      · exact fun _ _ => .pure trivial

/-- After the window no key makes `resolve` create the record. -/
theorem resolve_spares {room : RoomName} {nameExp now : Time}
    (isName : server.parseLegacyRoom room = .ok nameExp)
    (ended : Time.unix (nameExp + server.cfg.legacyMaxExt) < now.unix)
    (raw : Bytes) :
    Program.Ensures (server.Spares room) (fun _ _ => True) (fun _ => True)
      (server.resolve raw now) := by
  apply Program.Ensures.ite
  · intro _
    apply Program.Ensures.bind _ (bySecretOrPull_spares room _)
    intro found _
    cases found with
    | none => exact .pure trivial
    | some found =>
        exact .ite (fun _ => .pure trivial)
          fun _ => .ite (fun _ => .pure trivial) fun _ => .pure trivial
  · intro _
    split
    · exact .pure trivial
    · rename_i parsed
      exact resolveLegacy_spares isName ended parsed

end Marked

end FfmucSalt.MeetReserve

namespace FfmucSalt.SignedRooms

open MeetReserve (Server RoomName Cluster Time Record isLegacyName)

section Reopening

variable {plugin : Plugin} {server : Server}

/-- After the window Prosody refuses a name on its signature. -/
theorem roomUsable_refuses {room : RoomName} {seconds now : Seconds}
    (isName : plugin.parseRoom room = .ok seconds)
    (long : isLegacyLength room)
    (ended : seconds + plugin.options.maxExtension < now)
    {decide : Option Entry → Bool → Seconds → Verdict}
    (usable : plugin.roomUsable room = .ok decide) {state : Option Entry}
    (noRecord : ∀ entry, state = some entry → ¬ entry.hasRecord)
    (migrated : Bool) : ∃ reason, decide state migrated now = .error reason := by
  rw [roomUsable_legacy long isName] at usable
  cases usable
  have signature : ∀ state, plugin.bySignature seconds state now =
      .error (ascii "expired", none) := by
    intro state
    rw [Plugin.bySignature, if_pos ended]
  unfold Plugin.legacyUsable
  cases state with
  | some entry =>
      dsimp only
      rw [if_neg (noRecord entry rfl)]
      exact ⟨_, signature _⟩
  | none =>
      dsimp only
      split
      · exact ⟨_, rfl⟩
      · exact ⟨_, signature _⟩

/-- Every record of a v1 name is marked.  Once `gc` dropped one, `resolve`
never creates it again, and Prosody refuses the name on its signature. -/
theorem gc_never_reopens (trusts : plugin.Trusts server)
    (sameExtension : server.cfg.legacyMaxExt =
      Time.ofUnix plugin.options.maxExtension)
    {ι : Type} [DecidableEq ι] {cluster : Cluster ι}
    (run : Cluster.Run server
      (fun _ _ operation => server.ComputesIn operation) .initial cluster) :
    (∀ site (room : RoomName) (record : Record),
      (cluster.stores site).rooms[room]? = some record → isLegacyName room →
        record.legacy) ∧
    ∀ site now saves later,
      Cluster.Step server cluster site (.gc now saves) later →
      ∀ (room : RoomName) (record : Record),
      (cluster.stores site).rooms[room]? = some record → isLegacyName room →
      (later.stores site).rooms[room]? = none → ∀ time, now ≤ time →
        (∀ raw, Program.Ensures (server.Spares room) (fun _ _ => True)
          (fun _ => True) (server.resolve raw time)) ∧
        ∀ decide, plugin.roomUsable room = .ok decide →
          ∀ state migrated, (∀ entry, state = some entry → ¬ entry.hasRecord) →
            ∃ reason, decide state migrated time.unix = .error reason := by
  obtain ⟨run, every⟩ := Cluster.marked_of_run run
  have marked : ∀ site (room : RoomName) (record : Record),
      (cluster.stores site).rooms[room]? = some record → isLegacyName room →
        record.room = room ∧ record.legacy ∧
          ∃ nameExp, server.parseLegacyRoom room = .ok nameExp := by
    intro site room record stored isLegacy
    have named := (Cluster.wellFormed_of_run run site).rooms.keyed stored
    have own := (every.stores site).rooms stored
    unfold Server.Marked at own
    rw [named] at own
    exact ⟨named, own isLegacy⟩
  constructor
  · exact fun site room record stored isLegacy =>
      (marked site room record stored isLegacy).2.1
  · rintro site now saves later ⟨-, -, done⟩ room record stored isLegacy dropped
      time ordered
    cases done
    obtain ⟨named, legacy, nameExp, isName⟩ :=
      marked site room record stored isLegacy
    have dropped : ((cluster.stores site).gc now MeetReserve.gcKeep
        server.legacyLimit saves).rooms[room]? = none := by
      simpa [Cluster.after] using dropped
    have ended : Time.unix (nameExp + server.cfg.legacyMaxExt) < time.unix :=
      (MeetReserve.window_of_collected stored legacy (named.symm ▸ isName)
        dropped).trans_le (Time.unix_mono ordered)
    refine ⟨fun raw => MeetReserve.resolve_spares isName ended raw, ?_⟩
    obtain ⟨long, seconds, isSeconds, same⟩ :=
      (parseLegacyRoom_iff trusts).mp isName
    rw [same, sameExtension, ← Time.ofUnix_add, Time.unix_ofUnix] at ended
    intro decide usable state migrated noRecord
    exact roomUsable_refuses isSeconds long ended usable noRecord migrated

end Reopening

/-! ## A v1 room that is migrated and collected -/

namespace Sample

open MeetReserve MeetReserve.Sample

def afterCollect : Cluster Unit :=
  afterMigrate.after server () (.gc muchLater true) none
    (migrated.2.gc muchLater gcKeep server.legacyLimit true)

theorem collect_step :
    Cluster.Step server afterMigrate () (.gc muchLater true) afterCollect :=
  .intro trivial (Set.empty_subset _) rfl

/-- The token and the name of the v1 room are over once it is collected. -/
theorem gc_never_reopens_legacyRoom :
    Program.Ensures (server.Spares legacyRoom) (fun _ _ => True)
      (fun _ => True) (server.resolve hostToken muchLater) ∧
    ∃ reason, plugin.legacyUsable 1800000000 none false muchLater.unix =
      .error reason := by
  have isStored : (afterMigrate.stores ()).rooms[legacyRoom]?.isSome := by
    decide
  obtain ⟨record, stored⟩ := Option.isSome_iff_exists.mp isStored
  have dropped : (afterCollect.stores ()).rooms[legacyRoom]? = none := by
    decide +kernel
  have usable : plugin.roomUsable legacyRoom =
      .ok (plugin.legacyUsable 1800000000) := by
    have parsed : plugin.parseRoom legacyRoom = .ok 1800000000 := by
      decide +kernel
    rw [Plugin.roomUsable, if_neg (by decide +kernel),
      if_neg (by decide +kernel), parsed]
  obtain ⟨spares, refuses⟩ := (gc_never_reopens trusts (by decide)
    (.single ⟨(), migrate, migrate_computes, migrate_step⟩)).2 () muchLater true
    afterCollect collect_step legacyRoom record stored (by decide +kernel)
    dropped muchLater le_rfl
  exact ⟨spares hostToken, refuses _ usable none false (by simp)⟩

end Sample

end FfmucSalt.SignedRooms
