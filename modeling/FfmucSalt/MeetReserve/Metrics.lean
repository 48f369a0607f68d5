import FfmucSalt.MeetReserve.Rotation

/-!
# The room metrics

`stats` counts the records of a store, and `handleMetrics` shows the counts.
Its count of usable rooms is compared with what `handleRoom` tells Prosody
about each of them.
-/

namespace FfmucSalt.MeetReserve

structure RoomStats where
  total : Nat
  active : Nat
  legacy : Nat
  revoked : Nat
  deriving DecidableEq

/-- One turn of the loop in `stats`. -/
def RoomStats.count (now : Int) (hard : Record → Int) (stats : RoomStats)
    (record : Record) : RoomStats :=
  let stats := { stats with total := stats.total + 1 }
  if record.revoked ≠ 0 then { stats with revoked := stats.revoked + 1 }
  else if now < hard record then
    let stats := { stats with active := stats.active + 1 }
    if record.legacy then { stats with legacy := stats.legacy + 1 } else stats
  else stats

def Store.stats (store : Store) (now : Int) (hard : Record → Int) : RoomStats :=
  store.rooms.foldl (fun stats _ record => stats.count now hard record)
    { total := 0, active := 0, legacy := 0, revoked := 0 }

/-- When a room stops being usable no matter what. -/
def hardEnd (record : Record) : Int :=
  if record.revoked ≠ 0 then min record.revoked record.expires
  else record.expires

/-- The statistics that `handleMetrics` asks for. -/
def Server.roomStats (server : Server) (store : Store) (time : Time) :
    RoomStats :=
  store.stats time.unix fun record =>
    max (hardEnd record) (server.legacyLimit record)

def gauge (name help : Bytes) (value : Nat) : Bytes :=
  ascii "# HELP " ++ name ++ ascii " " ++ help ++ ascii "\n# TYPE " ++ name ++
    ascii " gauge\n" ++ name ++ ascii " " ++ formatUint 10 value ++ ascii "\n"

/-- What `handleMetrics` writes about the rooms. -/
def Server.roomGauges (server : Server) (store : Store) (time : Time) : Bytes :=
  let stats := server.roomStats store time
  gauge (ascii "ffmuc_reserve_rooms_stored")
      (ascii "Room records in the replicated store.") stats.total ++
    gauge (ascii "ffmuc_reserve_rooms_active")
      (ascii "Usable rooms in the replicated store.") stats.active ++
    gauge (ascii "ffmuc_reserve_rooms_active_legacy")
      (ascii "Usable migrated v1 rooms.") stats.legacy ++
    gauge (ascii "ffmuc_reserve_rooms_deleted")
      (ascii "Deleted rooms still kept as tombstones.") stats.revoked

/-! ## Counts -/

section Counts

variable {now : Int} {hard : Record → Int}

private theorem foldl_count (records : List Record) (start : RoomStats) :
    records.foldl (RoomStats.count now hard) start =
      { total := start.total + records.length
        active := start.active + records.countP fun record =>
          record.revoked = 0 ∧ now < hard record
        legacy := start.legacy + records.countP fun record =>
          (record.revoked = 0 ∧ now < hard record) ∧ record.legacy
        revoked := start.revoked + records.countP fun record =>
          record.revoked ≠ 0 } := by
  induction records generalizing start with
  | nil => rfl
  | cons record records induction =>
      rw [List.foldl_cons, induction]
      by_cases deleted : record.revoked = 0
      · by_cases live : now < hard record
        · cases isLegacy : record.legacy <;>
            simp [RoomStats.count, deleted, live, isLegacy] <;> omega
        · simp [RoomStats.count, deleted, live]
          omega
      · simp [RoomStats.count, deleted]
        omega

/-- Each number is the number of stored records of its kind. -/
theorem Store.stats_eq (store : Store) : store.stats now hard =
    { total := store.rooms.values.length
      active := store.rooms.values.countP fun record =>
        record.revoked = 0 ∧ now < hard record
      legacy := store.rooms.values.countP fun record =>
        (record.revoked = 0 ∧ now < hard record) ∧ record.legacy
      revoked := store.rooms.values.countP fun record =>
        record.revoked ≠ 0 } := by
  unfold Store.stats
  rw [FiniteMap.foldl_values (RoomStats.count now hard), foldl_count]
  simp only [Nat.zero_add]

/-- Of two kinds, one wider than the other, there are equally many if and only
if none is of the wider kind only. -/
theorem countP_eq_iff_of_imp {α : Type} {narrow wide : α → Bool}
    (implies : ∀ item, narrow item → wide item) (items : List α) :
    items.countP narrow = items.countP wide ↔
      ∀ item ∈ items, wide item → narrow item := by
  constructor
  · intro equal item member isWide
    have split : items.countP wide =
        items.countP narrow + items.countP fun item =>
          wide item && !narrow item := by
      rw [List.countP_eq_countP_filter_add items wide narrow,
        List.countP_filter, List.countP_filter]
      congr 1
      apply List.countP_congr
      intro item _
      cases isNarrow : narrow item with
      | true => simp [implies item isNarrow]
      | false => simp
    have none : items.countP (fun item => wide item && !narrow item) = 0 := by
      omega
    have notOnly := List.countP_eq_zero.mp none item member
    simpa [isWide] using notOnly
  · intro included
    apply List.countP_congr
    intro item member
    exact ⟨implies item, included item member⟩

end Counts

/-! ## Legacy flags -/

/-- The flag tells the two kinds of names apart. -/
def Record.Flagged (record : Record) : Prop :=
  record.legacy = isLegacyName record.room

namespace Record

variable {record other : Record}

theorem Flagged.stable : Stable Flagged where
  stamp _ flagged := flagged
  strip flagged _ := flagged

/-- A merge into what a room starts from. -/
theorem Flagged.merged {room : RoomName} (start : StartsFrom Flagged room record)
    (implies : other.legacy → isLegacyName room)
    (first : record = empty room → other.legacy = isLegacyName room) :
    (record.merged other).Flagged := by
  unfold Flagged
  rw [merged_legacy, merged_room]
  rcases start with isEmpty | ⟨flagged, named⟩
  · rw [first isEmpty, isEmpty]
    rfl
  · rw [flagged, named]
    cases isLegacy : other.legacy with
    | false => exact Bool.or_false _
    | true => rw [implies isLegacy, Bool.true_or]

end Record

/-- What a callback returns has the flag of its room, if the record that it
was given has. -/
theorem flagged_of_returns {server : Server} {room : RoomName} {change : Change}
    {random : UInt32} {cur : Option Record} {next : Record}
    (makes : server.Makes room change)
    (known : ∀ record, cur = some record →
      record.legacy = isLegacyName room)
    (returns : server.Returns change random cur next) :
    next.legacy = isLegacyName room := by
  cases returns with
  | reserve =>
      exact (eq_false_of_ne_true
        (not_isLegacyName_of_isShortName makes.1)).symm
  | @raise _ _ cur => exact known cur rfl
  | migrate => exact makes.1.symm
  | @extend _ _ _ cur => exact known cur rfl
  | @rotate _ _ cur => exact known cur rfl
  | @revoke _ _ _ cur =>
      split
      · exact known cur rfl
      · exact known cur rfl
  | block parsed =>
      have named := makes.1
      rw [← named]
      exact (isLegacyName_of_parseLegacyRoom parsed).symm

theorem Cluster.flagged_of_run {ι : Type} [DecidableEq ι] {server : Server}
    {condition : Cluster ι → ι → Operation → Prop} {cluster : Cluster ι}
    (run : Cluster.Run server condition initial cluster) :
    cluster.Every Record.Flagged := by
  apply run.keeps_initial
    (motive := fun cluster => cluster.Every Record.Flagged) .initial
  intro cluster later site operation wellFormed every _ step
  apply every.step Record.Flagged.stable wellFormed step
  · intro known other start flagged _
    exact Record.Flagged.merged start (fun legacy => flagged ▸ legacy)
      fun _ => flagged
  · intro room change random now saves next _ makes returns
    have start := (every.stores site).startsFrom (wellFormed site) room
    have isFlag : next.legacy = isLegacyName room := by
      apply flagged_of_returns makes _ returns
      intro record stored
      rw [(every.stores site).rooms stored,
        (wellFormed site).rooms.keyed stored]
    exact Record.Flagged.merged start (fun legacy => isFlag ▸ legacy)
      fun _ => isFlag

/-! ## What Prosody admits -/

/-- `handleRoom` tells Prosody that the room is active. -/
def Server.Admits (server : Server) (process : Process) (time : Time)
    (room : RoomName) : Prop :=
  ∃ expires gen, ∀ path,
    trimPrefix path (server.cfg.basePath ++ ascii "/api/room/") = room →
      server.Answers time process (server.handle (.room true path))
        (.status (ascii "active") expires gen)

/-- The metrics count the rooms that Prosody admits. -/
structure Server.CountsAdmitted (server : Server) (process : Process)
    (time : Time) : Prop where
  active : {room : RoomName | (process.store.rooms[room]?).isSome ∧
      server.Admits process time room}.encard =
    (server.roomStats process.store time).active
  legacy : {room : RoomName | (process.store.rooms[room]?).isSome ∧
      server.Admits process time room ∧ isLegacyName room}.encard =
    (server.roomStats process.store time).legacy

/-- A v1 room whose link has expired and which can still be extended. -/
def Server.Lapsed (server : Server) (time : Time) (record : Record) : Prop :=
  record.revoked = 0 ∧ record.expires ≤ time.unix ∧
    time.unix < server.legacyLimit record

section Admits

variable {server : Server} {process : Process} {time : Time}
variable {room : RoomName} {record : Record}

theorem Server.Answers.unique {α : Type} {program : Handler α}
    {first second : α} (answers : server.Answers time process program first)
    (others : server.Answers time process program second) : first = second :=
  ((others first process).mp ((answers first process).mpr ⟨rfl, rfl⟩)).1

theorem admits_iff (free : process.locked = false)
    (stored : process.store.rooms[room]? = some record)
    (valid : validRoomName room) :
    server.Admits process time room ↔
      record.revoked = 0 ∧ time.unix < record.expires := by
  constructor
  · intro ⟨expires, gen, answers⟩
    have isRoom := trimPrefix_append
      (server.cfg.basePath ++ ascii "/api/room/") room
    have status := (answers_room free stored valid isRoom).unique
      (answers _ isRoom)
    unfold Server.roomStatus at status
    dsimp only at status
    split at status
    · exact absurd (Response.status.inj status).1 (by decide)
    split at status
    · exact absurd (Response.status.inj status).1 (by decide)
    · rename_i alive active
      exact ⟨not_not.mp alive, not_le.mp active⟩
  · intro ⟨alive, active⟩
    refine ⟨some record.expires, some (genClaim record.gen), ?_⟩
    intro path isRoom
    exact room_answers free stored valid alive active isRoom

/-- As many rooms are admitted as there are undeleted records that have not
expired. -/
theorem encard_admits (free : process.locked = false)
    (wellFormed : process.store.WellFormed)
    (every : process.store.Every Record.Flagged) :
    {room : RoomName | (process.store.rooms[room]?).isSome ∧
        server.Admits process time room}.encard =
      process.store.rooms.values.countP (fun record =>
        record.revoked = 0 ∧ time.unix < record.expires) ∧
    {room : RoomName | (process.store.rooms[room]?).isSome ∧
        server.Admits process time room ∧ isLegacyName room}.encard =
      process.store.rooms.values.countP fun record =>
        (record.revoked = 0 ∧ time.unix < record.expires) ∧ record.legacy := by
  rw [← FiniteMap.encard_lookup, ← FiniteMap.encard_lookup]
  constructor
  · congr 1
    ext room
    constructor
    · intro ⟨isStored, admits⟩
      obtain ⟨record, stored⟩ := Option.isSome_iff_exists.mp isStored
      have valid := wellFormed.rooms.valid stored
      exact ⟨record, stored,
        decide_eq_true ((admits_iff free stored valid).mp admits)⟩
    · intro ⟨record, stored, live⟩
      have valid := wellFormed.rooms.valid stored
      exact ⟨stored ▸ rfl,
        (admits_iff free stored valid).mpr (of_decide_eq_true live)⟩
  · congr 1
    ext room
    constructor
    · intro ⟨isStored, admits, isLegacy⟩
      obtain ⟨record, stored⟩ := Option.isSome_iff_exists.mp isStored
      have valid := wellFormed.rooms.valid stored
      have flag := every.rooms stored
      unfold Record.Flagged at flag
      rw [wellFormed.rooms.keyed stored] at flag
      exact ⟨record, stored, decide_eq_true
        ⟨(admits_iff free stored valid).mp admits, flag.trans isLegacy⟩⟩
    · intro ⟨record, stored, live⟩
      obtain ⟨live, isLegacy⟩ := of_decide_eq_true live
      have valid := wellFormed.rooms.valid stored
      have flag := every.rooms stored
      unfold Record.Flagged at flag
      rw [wellFormed.rooms.keyed stored] at flag
      exact ⟨stored ▸ rfl, (admits_iff free stored valid).mpr live,
        flag.symm.trans isLegacy⟩

end Admits

section Metric

variable {ι : Type} [DecidableEq ι] {server : Server} {cluster : Cluster ι}
variable {condition : Cluster ι → ι → Operation → Prop}

theorem hardEnd_of_alive {record : Record} (alive : record.revoked = 0) :
    hardEnd record = record.expires :=
  if_neg (not_not.mpr alive)

/-- The metric counts the rooms that Prosody admits if and only if no v1 room
has lapsed. -/
theorem counts_admitted_iff
    (run : Cluster.Run server condition Cluster.initial cluster) (site : ι)
    (used : FiniteMap Bytes Time) (time : Time) :
    server.CountsAdmitted
        { store := cluster.stores site, used, locked := false } time ↔
      ∀ (room : RoomName) record,
        (cluster.stores site).rooms[room]? = some record →
          ¬ server.Lapsed time record := by
  have wellFormed := Cluster.wellFormed_of_run run site
  have every := (Cluster.flagged_of_run run).stores site
  obtain ⟨active, legacy⟩ := @encard_admits server
    { store := cluster.stores site, used, locked := false } time rfl wellFormed
    every
  dsimp only at active legacy
  -- the wider of the two counts also has the rooms that have lapsed
  have wider : ∀ record : Record,
      (record.revoked = 0 ∧ time.unix < max (hardEnd record)
          (server.legacyLimit record)) ↔
        (record.revoked = 0 ∧ time.unix < record.expires) ∨
          server.Lapsed time record := by
    intro record
    unfold Server.Lapsed
    constructor
    · intro ⟨alive, live⟩
      rw [hardEnd_of_alive alive] at live
      rcases lt_max_iff.mp live with before | inWindow
      · exact .inl ⟨alive, before⟩
      · rcases lt_or_ge time.unix record.expires with before | after
        · exact .inl ⟨alive, before⟩
        · exact .inr ⟨alive, after, inWindow⟩
    · rintro (⟨alive, before⟩ | ⟨alive, after, inWindow⟩)
      · rw [hardEnd_of_alive alive]
        exact ⟨alive, lt_max_of_lt_left before⟩
      · exact ⟨alive, lt_max_of_lt_right inWindow⟩
  have both : ∀ record : Record, server.Lapsed time record →
      ¬ (record.revoked = 0 ∧ time.unix < record.expires) := by
    intro record ⟨_, after, _⟩ ⟨_, before⟩
    exact absurd before (not_lt.mpr after)
  constructor
  · intro counts room record stored lapsed
    have equal := active.symm.trans counts.active
    unfold Server.roomStats at equal
    rw [Store.stats_eq] at equal
    have narrow := (countP_eq_iff_of_imp (fun record live =>
      decide_eq_true ((wider record).mpr (.inl (of_decide_eq_true live)))) _).mp
      (ENat.natCast_inj.mp equal) record (FiniteMap.mem_values.mpr ⟨room, stored⟩)
      (decide_eq_true ((wider record).mpr (.inr lapsed)))
    exact both record lapsed (of_decide_eq_true narrow)
  · intro none
    have same : ∀ record ∈ (cluster.stores site).rooms.values,
        ((record.revoked = 0 ∧ time.unix < record.expires) ↔
          record.revoked = 0 ∧ time.unix < max (hardEnd record)
            (server.legacyLimit record)) := by
      intro record member
      obtain ⟨room, stored⟩ := FiniteMap.mem_values.mp member
      rw [wider, or_iff_left (none room record stored)]
    constructor
    · rw [active]
      unfold Server.roomStats
      rw [Store.stats_eq]
      congr 1
      apply List.countP_congr
      intro record member
      simp [same record member]
    · rw [legacy]
      unfold Server.roomStats
      rw [Store.stats_eq]
      congr 1
      apply List.countP_congr
      intro record member
      simp [same record member]

end Metric

namespace Sample

/-- After the v1 link has expired Prosody is told so, but the metric still
counts the room. -/
theorem counts_lapsed_room : ¬ ∀ (cluster : Cluster Unit),
    Cluster.Run server (fun _ _ _ => True) Cluster.initial cluster →
    ∀ (used : FiniteMap Bytes Time) (time : Time),
      server.CountsAdmitted
        { store := cluster.stores (), used, locked := false } time := by
  intro counts
  have admitted := (counts afterEarlyMigrate afterEarlyMigrate_reached ∅
    (Time.ofUnix 50000)).active
  have every := (Cluster.flagged_of_run afterEarlyMigrate_reached).stores ()
  have wellFormed := Cluster.wellFormed_of_run afterEarlyMigrate_reached ()
  rw [(@encard_admits server _ (Time.ofUnix 50000) rfl wellFormed every).1]
    at admitted
  exact absurd (ENat.natCast_inj.mp admitted) (by decide +kernel)

/-- Before, both count it. -/
theorem counts_admitted_early :
    server.CountsAdmitted earlyProcess (Time.ofUnix 30000) := by
  apply (counts_admitted_iff afterEarlyMigrate_reached () ∅ _).mpr
  intro room record stored lapsed
  have late : ∀ record ∈ earlyMigrated.2.rooms.values,
      Time.unix (Time.ofUnix 30000) < record.expires := by
    decide
  exact absurd lapsed.2.1
    (not_le.mpr (late record (FiniteMap.mem_values.mpr ⟨room, stored⟩)))

end Sample

end FfmucSalt.MeetReserve
