import FfmucSalt.SignedRooms.Acceptance

/-!
# Cached and fresh verdicts

While a record does not change, the verdict from the cached answer differs
from that of the signer in one second: the signer counts the second of the
expiry as expired, the Prosody module does not.
-/

namespace FfmucSalt.SignedRooms

open MeetReserve (Json Response Server Shows Time)
open Program

/-- A lookup at `looked` finds the record stored and reads `answer`. -/
def Looks (json : JsonLibrary) (server : Server) (record : MeetReserve.Record)
    (looked : Time) (answer : Answer) : Prop :=
  Ensures (fun _ => True) (Shows record.room record looked)
    (fun response => ∃ body, lookupBody server response = some body ∧
      json.readState body = some answer)
    (server.handle (.room true
      (server.cfg.basePath ++ ascii "/api/room/" ++ record.room)))

/-- `handleRoom` answers at `now` that the room is active. -/
def AnswersActive (server : Server) (record : MeetReserve.Record)
    (now : Time) : Prop :=
  Ensures (fun _ => True) (Shows record.room record now)
    (fun response => ∃ expires gen, response = .status active expires gen)
    (server.handle (.room true
      (server.cfg.basePath ++ ascii "/api/room/" ++ record.room)))

section CachedVerdict

variable {plugin : Plugin} {json : JsonLibrary} {server : Server}
variable {record : MeetReserve.Record} {looked now : Time}

/-- The signer counts the second of the expiry as expired. -/
theorem answersActive_iff (named : Named server record.room) :
    AnswersActive server record now ↔
      record.revoked = 0 ∧ now.unix < record.expires := by
  have answers := @MeetReserve.handleRoom_shows server _ record now named.valid
  constructor
  · intro active
    obtain ⟨response, ⟨expires, gen, isActive⟩, isStatus⟩ :=
      (active.and answers).exists_result _
        (MeetReserve.shows_shown record.room record now)
    rw [isActive] at isStatus
    unfold Server.roomStatus at isStatus
    dsimp only at isStatus
    split at isStatus
    · exact absurd (Response.status.inj isStatus).1 (by decide)
    · rename_i alive
      split at isStatus
      · exact absurd (Response.status.inj isStatus).1 (by decide)
      · rename_i unexpired
        exact ⟨not_not.mp alive, not_le.mp unexpired⟩
  · rintro ⟨alive, unexpired⟩
    refine answers.mono fun response isStatus => ?_
    rw [isStatus]
    unfold Server.roomStatus
    dsimp only
    rw [if_neg (not_not.mpr alive), if_neg (not_le.mpr unexpired)]
    exact ⟨_, _, rfl⟩

/-- A lookup reads the state of the record. -/
theorem looks_iff (named : Named server record.room)
    (reads : json.ReadsStatus server record.room record looked)
    {answer : Answer} :
    Looks json server record looked answer ↔
      answer = stateOf record looked.unix := by
  have answers :=
    @MeetReserve.handleRoom_shows server _ record looked named.valid
  obtain ⟨body, isBody, isState⟩ := readState_roomStatus reads
  constructor
  · intro looks
    obtain ⟨response, ⟨other, isOther, isAnswer⟩, isStatus⟩ :=
      (looks.and answers).exists_result _
        (MeetReserve.shows_shown record.room record looked)
    rw [isStatus, isBody] at isOther
    cases isOther
    exact Option.some.inj (isAnswer.symm.trans isState)
  · rintro rfl
    refine answers.mono fun response isStatus => ?_
    rw [isStatus]
    exact ⟨body, isBody, isState⟩

/-- The module counts the second of the expiry as not yet expired. -/
theorem byRecord_ok_iff {entry : Entry}
    (isState : entry.toAnswer = stateOf record looked.unix) {time : Seconds} :
    (∃ state, Plugin.byRecord entry time = .ok state) ↔
      record.revoked = 0 ∧ looked.unix < record.expires ∧
        time ≤ record.expires := by
  simp only [byRecord_eq_ok]
  unfold stateOf at isState
  by_cases revoked : record.revoked ≠ 0
  · rw [if_pos revoked] at isState
    rw [isState]
    constructor
    · rintro ⟨_, isActive, -⟩
      exact absurd isActive (by decide)
    · rintro ⟨alive, -⟩
      exact absurd alive revoked
  rw [if_neg revoked] at isState
  by_cases ended : record.expires ≤ looked.unix
  · rw [if_pos ended] at isState
    rw [isState]
    constructor
    · rintro ⟨_, isActive, -⟩
      exact absurd isActive (by decide)
    · rintro ⟨-, unexpired, -⟩
      exact absurd ended (not_le.mpr unexpired)
  rw [if_neg ended] at isState
  rw [isState, Answer.not_expired_iff]
  constructor
  · rintro ⟨_, -, notExpired, -⟩
    have inTime := notExpired _ rfl
    norm_cast at inTime
    exact ⟨not_not.mp revoked, not_le.mp ended, inTime⟩
  · rintro ⟨-, -, inTime⟩
    refine ⟨some entry, rfl, ?_, rfl⟩
    rintro _ ⟨⟩
    norm_cast

/-- While the record does not change, a call of `room_usable` that decides by
the cached answer comes to the same as the signer, but for the second in which
the record expires.  The room of every record that a signer stores is named,
see `named_of_run`. -/
theorem cached_verdict_iff (trusts : plugin.Trusts server)
    (named : Named server record.room)
    (reads : json.ReadsStatus server record.room record looked)
    {start : Seconds} {module : Module} {returns : List Return}
    (runs : plugin.Runs (Module.start start) module returns) {back : Return}
    (member : back ∈ returns) (sameRoom : back.name = record.room)
    {entry : Entry} (isEntry : back.state = some entry)
    (looks : Looks json server record looked entry.toAnswer)
    (sameTime : back.module.now = now.unix) (later : looked ≤ now) :
    ((∃ state, back.verdict = .ok state) ↔ AnswersActive server record now) ↔
      ¬ (record.revoked = 0 ∧ looked.unix < record.expires ∧
        now.unix = record.expires) := by
  have isState := (looks_iff named reads).mp looks
  have hasRecord := (byRecord_stateOf isState).1
  have decided : back.verdict = Plugin.byRecord entry now.unix := by
    rcases (runs.sound.2 back member).decided with
      ⟨reason, refused, verdict⟩ | ⟨decide, usable, verdict⟩
    · have byName := usableWith_of_hasRecord trusts named hasRecord false
        now.unix
      rw [Plugin.usableWith, ← sameRoom, refused] at byName
      exact verdict.trans byName
    · rw [verdict, isEntry, sameTime]
      have byName := usableWith_of_hasRecord trusts named hasRecord
        (back.module.migrated.contains back.name) now.unix
      rw [Plugin.usableWith, ← sameRoom, usable] at byName
      exact byName
  have order : looked.unix ≤ now.unix := Int.ediv_le_ediv (by decide) later
  rw [decided, byRecord_ok_iff isState, answersActive_iff named]
  constructor
  · rintro agree ⟨alive, unexpired, atExpiry⟩
    have ended := (agree.mp ⟨alive, unexpired, le_of_eq atExpiry⟩).2
    omega
  · intro notAtExpiry
    constructor
    · rintro ⟨alive, unexpired, inTime⟩
      refine ⟨alive, lt_of_le_of_ne inTime ?_⟩
      exact fun atExpiry => notAtExpiry ⟨alive, unexpired, atExpiry⟩
    · rintro ⟨alive, inTime⟩
      exact ⟨alive, order.trans_lt inTime, inTime.le⟩

end CachedVerdict

/-! ## The second of the expiry -/

namespace Sample

open MeetReserve.Sample (server legacyRoom migratedRecord)

/-- A session asks for the v1 room at 44000 and its lookup is answered.  Other
ones ask at 44100, and at 44200, when the record expires. -/
def untilExpiry : List Event :=
  [.call legacyRoom true true,
   .answered 0
    { status := active, expires := some 44200
      gen := MeetReserve.genClaim 0 },
   .resume 0, .tick 44100, .call legacyRoom false false,
   .tick 44200, .call legacyRoom false false]

def askedUntilExpiry : List Return :=
  (plugin.played (Module.start 44000) untilExpiry).2

theorem runs_untilExpiry :
    plugin.Runs (Module.start 44000)
      (plugin.played (Module.start 44000) untilExpiry).1 askedUntilExpiry :=
  Plugin.runs_played (by decide +kernel)

private theorem readsStatus :
    json.ReadsStatus server migratedRecord.room migratedRecord
      (Time.ofUnix 44000) := by
  intro status expires gen isStatus
  have isAnswer : Server.roomStatus migratedRecord.room (some migratedRecord)
      (Time.ofUnix 44000).unix =
        .status active (some 44200) (some (MeetReserve.genClaim 0)) := by
    decide
  rw [isAnswer] at isStatus
  cases isStatus
  exact json_decodes rfl (.inr (.inr rfl))

private theorem named : Named server migratedRecord.room := by
  rw [room_migratedRecord.1]
  exact named_legacyRoom

/-- All calls decide by the answer that was read at 44000. -/
private theorem askedUntilExpiry_state : ∀ back ∈ askedUntilExpiry,
    back.name = migratedRecord.room ∧
    back.state.map (·.toAnswer) = some (stateOf migratedRecord 44000) ∧
    back.verdict.toOption.isSome := by
  decide +kernel

private theorem accepts {back : Return} (member : back ∈ askedUntilExpiry) :
    ∃ state, back.verdict = .ok state := by
  have isOk := (askedUntilExpiry_state back member).2.2
  cases isVerdict : back.verdict with
  | error reason =>
      rw [isVerdict] at isOk
      cases isOk
  | ok state => exact ⟨state, rfl⟩

private theorem exists_entry {back : Return} (member : back ∈ askedUntilExpiry) :
    ∃ entry, back.state = some entry ∧
      Looks json server migratedRecord (Time.ofUnix 44000) entry.toAnswer := by
  obtain ⟨entry, isEntry, isState⟩ :=
    Option.map_eq_some_iff.mp (askedUntilExpiry_state back member).2.1
  refine ⟨entry, isEntry, (looks_iff named readsStatus).mpr ?_⟩
  rw [isState, Time.unix_ofUnix]

/-- At 44100 the module decides by the cache, and both programs say that the v1
room is active. -/
theorem cached_verdict_iff_atCall :
    ∃ back ∈ askedUntilExpiry, back.module.now = (Time.ofUnix 44100).unix ∧
      (∃ state, back.verdict = .ok state) ∧
      ((∃ state, back.verdict = .ok state) ↔
        AnswersActive server migratedRecord (Time.ofUnix 44100)) := by
  obtain ⟨back, member, sameTime⟩ : ∃ back ∈ askedUntilExpiry,
      back.module.now = (Time.ofUnix 44100).unix := by
    decide +kernel
  obtain ⟨entry, isEntry, looks⟩ := exists_entry member
  refine ⟨back, member, sameTime, accepts member, ?_⟩
  exact (cached_verdict_iff trusts named readsStatus runs_untilExpiry member
    (askedUntilExpiry_state back member).1 isEntry looks sameTime
      (by decide)).mpr (by decide)

/-- In the second of the expiry the module says ok and the signer expired. -/
theorem verdicts_differ :
    ∃ back ∈ askedUntilExpiry, back.name = migratedRecord.room ∧
      (∃ entry, back.state = some entry ∧
        Looks json server migratedRecord (Time.ofUnix 44000) entry.toAnswer) ∧
      back.module.now = (Time.ofUnix 44200).unix ∧
      back.module.now < 44000 + plugin.options.lookupGrace ∧
      (∃ state, back.verdict = .ok state) ∧
      ¬ AnswersActive server migratedRecord (Time.ofUnix 44200) := by
  obtain ⟨back, member, sameTime, inGrace⟩ : ∃ back ∈ askedUntilExpiry,
      back.module.now = (Time.ofUnix 44200).unix ∧
        back.module.now < 44000 + plugin.options.lookupGrace := by
    decide +kernel
  refine ⟨back, member, (askedUntilExpiry_state back member).1,
    exists_entry member, sameTime, inGrace, accepts member, ?_⟩
  rw [answersActive_iff named]
  decide

end Sample

end FfmucSalt.SignedRooms
