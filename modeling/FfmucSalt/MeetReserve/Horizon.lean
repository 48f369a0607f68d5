import FfmucSalt.MeetReserve.Convergence
import FfmucSalt.MeetReserve.Process
import FfmucSalt.MeetReserve.StoreEvery
import FfmucSalt.MeetReserve.StorePoints
import Mathlib.Data.Int.ConditionallyCompleteOrder

/-!
# How far ahead a room is reserved

Wherever a record comes from, it expires within the window of its v1 name, or
at most `maxAhead` after a clock reading that some signer used to reserve or
extend the room.  Copies are combined by the maximum, so the bound is one of
all signers together.
-/

namespace FfmucSalt.MeetReserve

/-- The clock reading from which a change computes an expiry. -/
def Change.reading (room : RoomName) : Change → Option (RoomName × Time)
  | .reserve now _ _ => some (room, now)
  | .extend now _ => some (room, now)
  | _ => none

def Operation.reading : Operation → Option (RoomName × Time)
  | .update room change _ _ _ => change.reading room
  | _ => none

/-- Updates carry times that handlers compute (`handle_issues`). -/
def Server.ComputesIn (server : Server) : Operation → Prop
  | .update room change _ _ _ => server.Computes room change
  | _ => True

/-- The latest reading for a room. -/
noncomputable def latestReading (readings : List (RoomName × Time)) (room : RoomName) :
    WithBot Time :=
  ((readings.filter fun reading => reading.1 = room).map Prod.snd).maximum

/-- Until when a v1 name could be extended. -/
def Server.legacyWindow (server : Server) (room : RoomName) : WithBot Int :=
  match server.parseLegacyRoom room with
  | .error _ => ⊥
  | .ok nameExp => Time.unix (nameExp + server.cfg.legacyMaxExt)

/-- `maxAhead` after the latest reading for a room. -/
noncomputable def Server.aheadOf (server : Server) (readings : List (RoomName × Time))
    (room : RoomName) : WithBot Int :=
  (latestReading readings room).map fun now =>
    Time.unix (now + server.cfg.maxAhead)

/-- The record expires in the window of its v1 name. -/
def Server.InWindow (server : Server) (record : Record) : Prop :=
  ∃ nameExp, server.parseLegacyRoom record.room = .ok nameExp ∧
    record.expires ≤ Time.unix (nameExp + server.cfg.legacyMaxExt)

/-- The record expires at most `maxAhead` after a reading for its room. -/
def Server.Ahead (server : Server) (readings : List (RoomName × Time))
    (record : Record) : Prop :=
  ∃ now, (record.room, now) ∈ readings ∧
    record.expires ≤ Time.unix (now + server.cfg.maxAhead)

/-- Runs of any number of signers, with the readings they used so far. -/
inductive Cluster.Reached {ι : Type} [DecidableEq ι] (server : Server) :
    Cluster ι → List (RoomName × Time) → Prop where
  | initial : Reached server .initial []
  | step {cluster later : Cluster ι} {readings : List (RoomName × Time)}
      {site : ι} {operation : Operation}
      (reached : Reached server cluster readings)
      (computes : server.ComputesIn operation)
      (step : Cluster.Step server cluster site operation later) :
      Reached server later (readings ++ operation.reading.toList)

section Horizon

variable {server : Server} {readings more : List (RoomName × Time)}

/-- The expiry is no earlier than 1970, and one of the two bounds holds. -/
structure Server.Limits (server : Server) (readings : List (RoomName × Time))
    (record : Record) : Prop where
  nonneg : 0 ≤ record.expires
  bounded : server.InWindow record ∨ server.Ahead readings record

theorem Server.Limits.stable : Record.Stable (server.Limits readings) where
  stamp _ limits := ⟨limits.nonneg, limits.bounded⟩
  strip limits _ := ⟨limits.nonneg, limits.bounded⟩

theorem Server.Limits.mono {record : Record}
    (limits : server.Limits readings record) :
    server.Limits (readings ++ more) record := by
  refine ⟨limits.nonneg, limits.bounded.imp id ?_⟩
  intro ahead
  obtain ⟨now, member, bounded⟩ := ahead
  exact ⟨now, List.mem_append_left _ member, bounded⟩

/-- The bounds depend on the name and the expiry only. -/
theorem Server.Limits.congr {record other : Record}
    (limits : server.Limits readings record) (room : other.room = record.room)
    (expires : other.expires = record.expires) :
    server.Limits readings other := by
  obtain ⟨nonneg, bounded⟩ := limits
  unfold Server.InWindow Server.Ahead at bounded
  rw [← room, ← expires] at bounded
  exact ⟨expires ▸ nonneg, bounded⟩

/-- A merge into a known record. -/
theorem Server.Limits.merged_known {known other : Record}
    (limits : server.Limits readings known) (sameRoom : known.room = other.room)
    (bounded : server.InWindow other ∨ server.Ahead readings other) :
    server.Limits readings (known.merged other) := by
  have expires := Record.merged_expires known other
  rcases le_total known.expires other.expires with less | more
  · have both : server.Limits readings other :=
      ⟨limits.nonneg.trans less, bounded⟩
    refine both.congr sameRoom ?_
    rw [expires]
    exact max_eq_right less
  · refine limits.congr rfl ?_
    rw [expires]
    exact max_eq_left more

theorem Server.Limits.merged {known other : Record}
    (start : Record.StartsFrom (server.Limits readings) other.room known)
    (limits : server.Limits readings other) :
    server.Limits readings (known.merged other) := by
  rcases start with isEmpty | ⟨knownLimits, sameRoom⟩
  · subst isEmpty
    refine limits.congr rfl ?_
    rw [Record.merged_expires]
    exact max_eq_right limits.nonneg
  · exact knownLimits.merged_known sameRoom limits.bounded

/-! ## What the handlers compute -/

theorem parseLegacyRoom_nonneg {room : RoomName} {nameExp : Time}
    (parsed : server.parseLegacyRoom room = .ok nameExp) : 0 ≤ nameExp := by
  unfold Server.parseLegacyRoom at parsed
  repeat' split at parsed
  all_goals cases parsed
  exact Int.mul_nonneg (Int.natCast_nonneg _) (by decide)

/-- A v1 token never reaches past the window of its name. -/
theorem legacyExp_le {key : Bytes} {claims : LegacyClaims}
    (parsed : server.parseLegacyHostToken key = .ok claims) :
    ∃ nameExp, server.parseLegacyRoom claims.room = .ok nameExp ∧
      server.legacyExp claims ≤
        Time.unix (nameExp + server.cfg.legacyMaxExt) := by
  obtain ⟨nameExp, isName⟩ := isLegacyName_of_parseLegacyHostToken parsed
  refine ⟨nameExp, isName, ?_⟩
  unfold Server.legacyExp
  rw [isName]
  exact min_le_right _ _

theorem pickDuration_le {hours : Int} {ttl : Duration} (loads : server.cfg.Loads)
    (picked : server.pickDuration hours = .ok ttl) :
    0 < ttl ∧ ttl ≤ server.cfg.maxAhead := by
  have offered : ttl ∈ server.cfg.durations := by
    unfold Server.pickDuration at picked
    split at picked
    · cases picked
      exact loads.defaultDur
    · split at picked
      · rename_i found
        cases picked
        exact List.mem_of_find?_eq_some found
      · cases picked
  obtain ⟨positive, bounded, -⟩ := loads.durations ttl offered
  exact ⟨positive, bounded⟩

/-- What an update returns keeps the bounds. -/
private theorem limits_of_returns (loads : server.cfg.Loads) {store : Store}
    {room : RoomName} {change : Change} {random : UInt32} {next : Record}
    (every : store.Every (server.Limits readings))
    (wellFormed : store.WellFormed) (makes : server.Makes room change)
    (computes : server.Computes room change)
    (uses : ∀ reading ∈ change.reading room, reading ∈ readings)
    (returns : server.Returns change random store.rooms[room]? next) :
    server.Limits readings ((store.recordOr room).merged { next with room }) := by
  have start := every.startsFrom wellFormed room
  have own : ∀ {cur : Record}, store.rooms[room]? = some cur →
      cur.room = room ∧ store.recordOr room = cur ∧
        server.Limits readings cur := by
    intro cur stored
    refine ⟨wellFormed.rooms.keyed stored, ?_, every.rooms stored⟩
    rw [Store.recordOr, stored]
    rfl
  generalize isCur : store.rooms[room]? = cur at returns
  cases returns with
  | @reserve time ttl host random =>
      obtain ⟨hours, picked⟩ := computes
      obtain ⟨positive, bounded⟩ := pickDuration_le loads picked
      refine Server.Limits.merged start ⟨?_, .inr ⟨time, ?_, ?_⟩⟩
      · exact (makes.2.le).trans (Time.unix_mono (Int.le_add_of_nonneg_right
          positive.le))
      · exact uses _ rfl
      · exact Time.unix_mono (Int.add_le_add_left bounded time)
  | @raise exp random cur =>
      obtain ⟨key, claims, parsed, isRoom, isExp⟩ := computes
      obtain ⟨nameExp, isName, bounded⟩ := legacyExp_le parsed
      subst isRoom isExp
      obtain ⟨sameRoom, isKnown, limits⟩ := own isCur
      rw [isKnown]
      exact limits.merged_known sameRoom (.inl ⟨nameExp, isName, bounded⟩)
  | @migrate time exp host speaker random cur =>
      obtain ⟨later, key, claims, parsed, isRoom, isExp⟩ := computes
      obtain ⟨nameExp, isName, bounded⟩ := legacyExp_le parsed
      subst isRoom isExp
      exact Server.Limits.merged start
        ⟨(makes.2.1.trans later).le, .inl ⟨nameExp, isName, bounded⟩⟩
  | @extend time ttl random cur alive notExpired =>
      obtain ⟨sameRoom, -, limits⟩ := own isCur
      refine Server.Limits.merged start
        ⟨limits.nonneg.trans (le_max_left _ _), ?_⟩
      rcases le_total (min (cur.expires + ttl.seconds)
        (Time.unix (time + server.cfg.maxAhead))) cur.expires with less | more
      · exact (limits.congr sameRoom.symm (max_eq_left less)).bounded
      · refine .inr ⟨time, uses _ rfl, ?_⟩
        exact (max_eq_right more).trans_le (min_le_right _ _)
  | @rotate host random cur alive =>
      obtain ⟨sameRoom, -, limits⟩ := own isCur
      exact Server.Limits.merged start (limits.congr sameRoom.symm rfl)
  | @revoke named time random cur =>
      obtain ⟨sameRoom, -, limits⟩ := own isCur
      refine Server.Limits.merged start (limits.congr sameRoom.symm ?_)
      split
      · rfl
      · rfl
  | @block named time random exp parsed =>
      obtain ⟨rfl, -, -⟩ := makes
      refine Server.Limits.merged start ⟨le_rfl, .inl ⟨exp, parsed, ?_⟩⟩
      exact Time.unix_nonneg (Int.add_nonneg (parseLegacyRoom_nonneg parsed)
        loads.legacyMaxExt)

/-- Every record of a cluster keeps the bounds. -/
theorem Cluster.Reached.limits {ι : Type} [DecidableEq ι] {cluster : Cluster ι}
    (loads : server.cfg.Loads) (reached : Reached server cluster readings) :
    Run server (fun _ _ _ => True) .initial cluster ∧
      cluster.Every (server.Limits readings) := by
  induction reached with
  | initial => exact ⟨.refl, .initial⟩
  | @step cluster later readings site operation reached computes step induction =>
      obtain ⟨run, every⟩ := induction
      refine ⟨run.tail ⟨site, operation, trivial, step⟩, ?_⟩
      have every : cluster.Every (server.Limits (readings ++
          operation.reading.toList)) := every.imp Server.Limits.mono
      refine every.step Server.Limits.stable (wellFormed_of_run run) step
        (fun start limits _ => Server.Limits.merged start limits) ?_
      intro room change random now saves next same legal returns
      subst same
      refine limits_of_returns loads (every.stores site)
        (wellFormed_of_run run site) legal computes ?_ returns
      intro reading member
      exact List.mem_append_right _ (Option.mem_toList.mpr member)

private theorem Server.Limits.le_horizon {record : Record}
    (limits : server.Limits readings record) :
    (record.expires : WithBot Int) ≤ max (server.legacyWindow record.room)
      (server.aheadOf readings record.room) := by
  rcases limits.bounded with ⟨nameExp, isName, bounded⟩ | ⟨now, member, bounded⟩
  · apply le_max_of_le_left
    unfold Server.legacyWindow
    rw [isName]
    exact WithBot.coe_le_coe.mpr bounded
  · apply le_max_of_le_right
    have isReading : now ∈ (readings.filter fun reading =>
        reading.1 = record.room).map Prod.snd := by
      refine List.mem_map.mpr ⟨_, List.mem_filter.mpr ⟨member, ?_⟩, rfl⟩
      simp
    have later : (now : WithBot Time) ≤ latestReading readings record.room :=
      List.le_maximum_of_mem' isReading
    have monotone : Monotone fun now : Time =>
        Time.unix (now + server.cfg.maxAhead) :=
      fun _ _ ordered => Time.unix_mono (Int.add_le_add_right ordered _)
    exact (WithBot.coe_le_coe.mpr bounded).trans (monotone.withBot_map later)

/-! ## Expiries and generations never fall -/

private theorem kept_of_pointOf_le {store later : Store}
    {room : RoomName} {record : Record}
    (grows : store.pointOf room ≤ later.pointOf room)
    (stored : store.rooms[room]? = some record) :
    ∃ kept, later.rooms[room]? = some kept ∧
      record.expires ≤ kept.expires ∧ record.gen ≤ kept.gen := by
  rw [Store.pointOf_eq stored] at grows
  unfold Store.pointOf at grows
  cases found : later.rooms[room]? with
  | none => simp [found] at grows
  | some kept =>
      rw [found] at grows
      obtain ⟨-, expires, gen, -⟩ := WithBot.coe_le_coe.mp grows
      exact ⟨kept, rfl, expires, UInt64.le_iff_toNat_le.mpr gen⟩

/-- A running signer lowers neither, unless `gc` removes the record. -/
theorem kept_of_run {store later : Store} {operation : Operation}
    {result : Option Record} (running : operation ≠ .restart)
    (done : server.run store operation = some (result, later))
    {room : RoomName} {record : Record}
    (stored : store.rooms[room]? = some record) :
    (∃ kept, later.rooms[room]? = some kept ∧
      record.expires ≤ kept.expires ∧ record.gen ≤ kept.gen) ∨
    (∃ now saves, operation = .gc now saves) ∧ later.rooms[room]? = none := by
  cases operation with
  | update name change random now saves =>
      obtain ⟨⟨outcome, after⟩, updated, same⟩ := Option.map_eq_some_iff.mp done
      cases same
      exact .inl (kept_of_pointOf_le
        (Store.pointOf_le_update store updated room) stored)
  | mergeRemote recs =>
      cases done
      exact .inl (kept_of_pointOf_le
        (store.pointOf_le_mergeRemote recs room) stored)
  | gc now saves =>
      cases done
      rw [Store.lookup_gc, stored, Option.bind_some]
      unfold Store.collected
      split
      · exact .inl ⟨record, rfl, le_rfl, UInt64.le_refl _⟩
      · split
        · exact .inl ⟨_, rfl, le_rfl, UInt64.le_refl _⟩
        · exact .inr ⟨⟨now, saves, rfl⟩, rfl⟩
  | restart => exact (running rfl).elim

/-- No record of any signer expires later than its v1 window allows and later
than `maxAhead` after the latest reading that a reservation or extension of the
room used; and only `gc` takes an expiry back, with the record. -/
theorem expires_bounded {ι : Type} [DecidableEq ι] {cluster : Cluster ι}
    (loads : server.cfg.Loads)
    (reached : Cluster.Reached server cluster readings) :
    (∀ site (room : RoomName) record,
      (cluster.stores site).rooms[room]? = some record →
        (record.expires : WithBot Int) ≤
          max (server.legacyWindow room) (server.aheadOf readings room)) ∧
    ∀ site operation later, Cluster.Step server cluster site operation later →
      operation ≠ .restart → ∀ other (room : RoomName) record,
      (cluster.stores other).rooms[room]? = some record →
        (∃ kept, (later.stores other).rooms[room]? = some kept ∧
          record.expires ≤ kept.expires) ∨
        other = site ∧ (∃ now saves, operation = .gc now saves) ∧
          (later.stores other).rooms[room]? = none := by
  obtain ⟨run, every⟩ := reached.limits loads
  constructor
  · intro site room record stored
    have named := (Cluster.wellFormed_of_run run site).rooms.keyed stored
    have bounded := ((every.stores site).rooms stored).le_horizon
    rwa [named] at bounded
  · rintro site operation later ⟨-, -, done⟩ running other room record stored
    by_cases same : other = site
    · subst same
      rcases kept_of_run running done stored with
        ⟨kept, isKept, bounded, -⟩ | ⟨collects, gone⟩
      · exact .inl ⟨kept, by simpa [Cluster.after] using isKept, bounded⟩
      · exact .inr ⟨rfl, collects, by simpa [Cluster.after] using gone⟩
    · refine .inl ⟨record, ?_, le_rfl⟩
      simpa [Cluster.after, same] using stored

end Horizon

namespace Sample

private theorem loads : server.cfg.Loads := by
  constructor <;> decide

/-- The host extends the room to a week from then. -/
def extend : Operation :=
  .update room (.extend (Time.ofUnix 200000) (168 * hour)) 0 3000000 true

def extended : Option Record × Store :=
  (server.run reserved.2 extend).getD (none, newStore none)

def afterExtend : Cluster Bool :=
  afterReserve.after server false extend extended.1 extended.2

private theorem extend_step :
    Cluster.Step server afterReserve false extend afterExtend := by
  refine .intro ?_ (Set.empty_subset _) ?_
  · change validRoomName room
    decide
  · change server.run reserved.2 extend = some extended
    exact eq_some_getD (by decide)

/-- The first room is reserved for 72 hours and extended, within the bound. -/
theorem extended_bounded :
    ∃ record : Record, (afterExtend.stores false).rooms[room]? = some record ∧
      (reserved.2.recordOr room).expires < record.expires ∧
      (record.expires : WithBot Int) ≤ max (server.legacyWindow room)
        (server.aheadOf [(room, Time.ofUnix 1000), (room, Time.ofUnix 200000)]
          room) := by
  have stored : (afterExtend.stores false).rooms[room]? =
      some (extended.2.recordOr room) :=
    Store.eq_some_recordOr (by decide)
  refine ⟨_, stored, by decide, ?_⟩
  have reached : Cluster.Reached server afterExtend
      (([] ++ reserve.reading.toList) ++ extend.reading.toList) :=
    .step (.step .initial ⟨0, by decide⟩ reserve_step) trivial extend_step
  exact (expires_bounded loads reached).1 false room _ stored

/-- The v1 room is migrated with its host token. -/
def migrate : Operation :=
  .update legacyRoom (.migrate issued 44200 legacyHost
    (server.speakerSecret legacyHost)) 0 1000000 true

def migrated : Option Record × Store :=
  (server.run (newStore none) migrate).getD (none, newStore none)

def afterMigrate : Cluster Unit :=
  Cluster.initial.after server () migrate migrated.1 migrated.2

theorem migrate_step :
    Cluster.Step server Cluster.initial () migrate afterMigrate := by
  refine .intro ⟨by decide +kernel, by decide +kernel, by decide +kernel, rfl⟩
    (Set.empty_subset _) ?_
  change server.run (newStore none) migrate = some migrated
  exact eq_some_getD (by decide)

theorem migrate_computes : server.ComputesIn migrate := by
  have isExp : (44200 : Int) = server.legacyExp readClaims := by
    decide +kernel
  have inFuture : issued.unix < 44200 := by decide
  exact ⟨inFuture, hostToken, readClaims, parseLegacyHostToken_hostToken, rfl,
    isExp⟩

end Sample

end FfmucSalt.MeetReserve
