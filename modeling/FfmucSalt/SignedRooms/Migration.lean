import FfmucSalt.MeetReserve.Changes
import FfmucSalt.SignedRooms.Overtaking

/-!
# v1 rooms that have a record

`migrated` remembers every v1 room that an answer gave a record to, until the
window of its name is over.  What it cannot do is decide against an entry
that says `legacy` or `unknown`.
-/

namespace FfmucSalt.SignedRooms

/-- An answer said that the room has a record. -/
def Module.Answered (module : Module) (name : Bytes) : Prop :=
  ∃ (number : Nat) (entry : Entry),
    module.log[number]? = some (name, entry) ∧ entry.hasRecord

/-- The room may exist only on an answer that is active and not expired. -/
def Return.ByRecord (back : Return) : Prop :=
  ∀ result, back.verdict = .ok result → ∃ entry, result = some entry ∧
    back.module.Logged back.name entry ∧ entry.status = active ∧
      ∀ expires, entry.expires = some expires →
        (back.module.now : ℚ) ≤ expires

namespace Plugin

/-- What a call has in hand: its own answer, or else the entry that it kept; if
it does not wait, the entry in the cache. -/
def inHand (plugin : Plugin) (back : Return) : Option Entry :=
  match back.waited with
  | none => plugin.young back.module back.name
  | some call => call.fresh.join.or call.cached

/-- The window of the name is over, or no `legacy` or `unknown` is in hand. -/
def Settled (plugin : Plugin) (exp : Seconds) (back : Return) : Prop :=
  exp + plugin.options.maxExtension < back.module.now ∨
    ∀ entry, plugin.inHand back = some entry → entry.hasRecord

/-- The invariant of `migrated`. -/
structure Remembers (plugin : Plugin) (module : Module) : Prop where
  ends : ∀ (name : Bytes) until_, module.migrated[name]? = some until_ →
    ∃ exp, plugin.parseRoom name = .ok exp ∧
      until_ = exp + plugin.options.maxExtension
  migrated : ∀ {name exp}, isLegacyLength name →
    plugin.parseRoom name = .ok exp → module.Answered name →
      name ∈ module.migrated ∨ exp + plugin.options.maxExtension < module.now

variable {plugin : Plugin} {module later : Module}

theorem remembers_start (now : Seconds) :
    plugin.Remembers (Module.start now) where
  ends := by simp [Module.start]
  migrated := by simp [Module.Answered, Module.start]

private theorem Remembers.calm (remembers : plugin.Remembers module)
    (time : module.now ≤ later.now) (log : later.log = module.log)
    (migrated : later.migrated = module.migrated) :
    plugin.Remembers later where
  ends := by
    rw [migrated]
    exact remembers.ends
  migrated := by
    intro name exp long isName answered
    unfold Module.Answered at answered
    rw [log] at answered
    rw [migrated]
    exact (remembers.migrated long isName answered).imp id
      (·.trans_le time)

/-- What `finish` does to `migrated`. -/
private theorem finish_migrated (name : Bytes) (answer : Answer) :
    (plugin.finish module name answer).migrated = module.migrated ∧
      (∀ exp, isLegacyLength name → plugin.parseRoom name = .ok exp →
        ¬ (entryOf module answer).hasRecord) ∨
    ∃ exp, plugin.parseRoom name = .ok exp ∧
      (plugin.finish module name answer).migrated =
        module.migrated.insert name (exp + plugin.options.maxExtension) := by
  unfold Plugin.finish
  dsimp only
  split
  · split
    · rename_i invalid
      refine .inl ⟨rfl, ?_⟩
      intro exp long isName
      rw [invalid] at isName
      cases isName
    · rename_i exp isName
      exact .inr ⟨exp, isName, rfl⟩
  · rename_i unmarked
    refine .inl ⟨rfl, ?_⟩
    intro exp long isName hasRecord
    exact unmarked ⟨hasRecord, long⟩

theorem Remembers.finish (remembers : plugin.Remembers module) (name : Bytes)
    (answer : Answer) :
    plugin.Remembers (plugin.finish module name answer) := by
  have answered : ∀ other, (plugin.finish module name answer).Answered other →
      module.Answered other ∨
        other = name ∧ (entryOf module answer).hasRecord := by
    rintro other ⟨number, entry, isEntry, hasRecord⟩
    rcases logged_finish isEntry with old | ⟨-, isName, isNew⟩
    · exact .inl ⟨number, entry, old, hasRecord⟩
    · exact .inr ⟨isName, isNew ▸ hasRecord⟩
  rcases finish_migrated name answer with ⟨same, noRecord⟩ |
    ⟨exp, isName, inserted⟩
  · constructor
    · rw [same]
      exact remembers.ends
    · intro other otherExp long isOther isAnswered
      rw [same]
      rcases answered other isAnswered with old | ⟨rfl, hasRecord⟩
      · exact remembers.migrated long isOther old
      · exact (noRecord otherExp long isOther hasRecord).elim
  · constructor
    · intro other until_ found
      rw [inserted, FiniteMap.lookup_insert] at found
      split at found
      · rename_i isOther
        cases found
        exact ⟨exp, isOther ▸ isName, rfl⟩
      · exact remembers.ends other until_ found
    · intro other otherExp long isOther isAnswered
      rw [inserted]
      rcases answered other isAnswered with old | ⟨rfl, -⟩
      · exact (remembers.migrated long isOther old).imp
          (fun member => Std.ExtTreeMap.mem_insert.mpr (.inr member)) id
      · exact .inl (by simp)

private theorem lookup_prune (name : Bytes) :
    (prune module)[name]? =
      module.migrated[name]?.filter fun until_ => module.now ≤ until_ := by
  unfold prune
  rw [FiniteMap.lookup_foldl
    (fun _ old until_ => if until_ < module.now then none else old)]
  · cases module.migrated[name]? with
    | none => rfl
    | some until_ =>
        by_cases kept : module.now ≤ until_
        · simp [Option.filter, kept, not_lt.mpr kept]
        · simp [Option.filter, kept, not_le.mp kept]
  · intro map key until_ other
    split
    · rw [FiniteMap.lookup_erase]
    · split
      · rename_i same
        rw [same]
      · rfl

theorem Remembers.sweep (remembers : plugin.Remembers module)
    (rooms : List Bytes) :
    plugin.Remembers { module with
      migrated := prune module, sweeps := module.sweeps ++ rooms } where
  ends := by
    intro name until_ found
    dsimp only at found
    rw [lookup_prune, Option.filter_eq_some_iff] at found
    exact remembers.ends name until_ found.1
  migrated := by
    intro name exp long isName answered
    rcases remembers.migrated long isName answered with member | ended
    · obtain ⟨until_, found⟩ := FiniteMap.mem_iff_lookup.mp member
      obtain ⟨same, isExp, isEnd⟩ := remembers.ends name until_ found
      rw [isName] at isExp
      cases isExp
      by_cases kept : module.now ≤ until_
      · refine .inl (FiniteMap.mem_iff_lookup.mpr ⟨until_, ?_⟩)
        dsimp only
        rw [lookup_prune, found]
        simp [kept]
      · exact .inr (isEnd ▸ not_le.mp kept)
    · exact .inr ended

/-- Every event keeps what `migrated` remembers. -/
theorem Remembers.step (remembers : plugin.Remembers module) {event : Event}
    {returned : Option Return}
    (happens : plugin.step module event = some (later, returned)) :
    plugin.Remembers later := by
  cases event with
  | tick time =>
      simp only [Plugin.step] at happens
      split at happens
      · rename_i forward
        cases happens
        exact remembers.calm forward rfl rfl
      · cases happens
  | evict name =>
      cases happens
      exact remembers.calm le_rfl rfl rfl
  | call name mayWait ready =>
      simp only [Plugin.step] at happens
      repeat' split at happens
      all_goals cases happens
      all_goals exact remembers.calm le_rfl rfl rfl
  | answered index answer =>
      simp only [Plugin.step] at happens
      split at happens
      · cases happens
      · rename_i call isCall
        split at happens
        · cases happens
        · cases happens
          exact (remembers.finish call.name answer).calm le_rfl rfl rfl
  | failed index =>
      simp only [Plugin.step] at happens
      repeat' split at happens
      all_goals cases happens
      exact remembers.calm le_rfl rfl rfl
  | resume index =>
      simp only [Plugin.step] at happens
      repeat' split at happens
      all_goals cases happens
      exact remembers.calm le_rfl rfl rfl
  | sweep rooms =>
      cases happens
      exact remembers.sweep rooms
  | sweepAnswered index answer =>
      simp only [Plugin.step] at happens
      split at happens
      · cases happens
      · rename_i name isName
        cases happens
        exact (remembers.finish name answer).calm le_rfl rfl rfl
  | sweepFailed index =>
      simp only [Plugin.step] at happens
      split at happens
      · cases happens
        exact remembers.calm le_rfl rfl rfl
      · cases happens

/-! ## The rule for v1 names -/

/-- A v1 room may exist by its record, or without one by its name. -/
theorem legacyUsable_eq_ok {exp now : Seconds} {state result : Option Entry}
    {migrated : Bool} :
    plugin.legacyUsable exp state migrated now = .ok result ↔
      (∃ entry, state = some entry ∧ entry.hasRecord ∧ entry.status = active ∧
        entry.expired now = false ∧ result = some entry) ∨
      (∀ entry, state = some entry → ¬ entry.hasRecord) ∧
        (state = none → ¬ migrated) ∧
        ¬ exp + plugin.options.maxExtension < now ∧ result = state := by
  have signature : ∀ state, plugin.bySignature exp state now = .ok result ↔
      ¬ exp + plugin.options.maxExtension < now ∧ result = state := by
    intro state
    unfold bySignature
    split
    · rename_i ended
      simp [ended]
    · rename_i inside
      simp [inside, eq_comm]
  cases state with
  | none =>
      unfold legacyUsable
      dsimp only
      split
      · rename_i isMigrated
        simp [isMigrated]
      · rename_i notMigrated
        rw [signature]
        simp [notMigrated]
  | some entry =>
      unfold legacyUsable
      dsimp only
      split
      · rename_i hasRecord
        rw [byRecord_eq_ok]
        simp [hasRecord]
      · rename_i noRecord
        rw [signature]
        simp [noRecord]

private theorem Justified.inHand {back : Return}
    (justified : plugin.Justified back)
    {decide : Option Entry → Bool → Seconds → Verdict}
    (usable : plugin.roomUsable back.name = .ok decide) :
    back.state = plugin.inHand back ∧ back.verdict =
      decide back.state (back.module.migrated.contains back.name)
        back.module.now := by
  unfold Plugin.inHand
  cases justified.source with
  | refused _ _ isRefused _ _ =>
      rw [usable] at isRefused
      cases isRefused
  | direct direct _ isUsable verdict state =>
      rw [usable] at isUsable
      cases isUsable
      rw [direct]
      exact ⟨state, verdict⟩
  | waited waited _ _ _ isUsable verdict _ isFresh state =>
      rw [usable] at isUsable
      cases isUsable
      rw [waited]
      dsimp only
      rw [isFresh]
      exact ⟨state, verdict⟩

private theorem Justified.logged {back : Return}
    (justified : plugin.Justified back) {entry : Entry}
    (isEntry : back.state = some entry) :
    back.module.Logged back.name entry :=
  (justified.recent isEntry).1

end Plugin

section Migration

variable {plugin : Plugin}

/-- Once an answer said that a v1 room has a record, a call lets the room exist
by its record alone if and only if the call is settled. -/
theorem roomUsable_byRecord_iff {now : Seconds} {module : Module}
    {returns : List Return}
    (runs : plugin.Runs (Module.start now) module returns) :
    ∀ back ∈ returns, ∀ exp, isLegacyLength back.name →
      plugin.parseRoom back.name = .ok exp → back.module.Answered back.name →
        (back.ByRecord ↔ plugin.Settled exp back) := by
  intro back member exp long isName answered
  have justified := runs.sound.2 back member
  have remembers := (runs.keeps (motive := plugin.Remembers)
    (Plugin.remembers_start now) fun held happens => held.step happens).2 back
      member
  obtain ⟨state, verdict⟩ := justified.inHand
    (roomUsable_legacy long isName)
  unfold Return.ByRecord Plugin.Settled
  rw [verdict, ← state]
  simp only [Plugin.legacyUsable_eq_ok]
  constructor
  · intro byRecord
    by_contra unsettled
    rw [not_or] at unsettled
    obtain ⟨inside, unsettled⟩ := unsettled
    simp only [not_forall, exists_prop] at unsettled
    obtain ⟨entry, isEntry, noRecord⟩ := unsettled
    obtain ⟨other, isOther, -, isActive, -⟩ := byRecord back.state (.inr
      ⟨by simpa [isEntry] using noRecord, by simp [isEntry], inside, rfl⟩)
    rw [isEntry] at isOther
    cases isOther
    apply noRecord
    simp only [Answer.hasRecord, isActive]
    decide
  · rintro settled result (⟨entry, isEntry, -, isActive, notExpired, isResult⟩ |
      ⟨noRecord, notMigrated, inside, -⟩)
    · exact ⟨entry, isResult, justified.logged isEntry, isActive,
        Answer.not_expired_iff.mp notExpired⟩
    · exfalso
      have allRecords := settled.resolve_left inside
      cases isState : back.state with
      | some entry => exact noRecord entry isState (allRecords entry isState)
      | none =>
          rcases remembers.migrated long isName answered with known | ended
          · exact notMigrated isState (by simpa using known)
          · exact inside ended

end Migration

/-! ## A deleted room that comes back on its name -/

namespace Sample

open MeetReserve.Sample (legacyRoom)

def answer (status : Bytes) : Answer :=
  { status, expires := none, gen := ascii "0" }

/-- One signer says that the room was deleted, the next one lags behind. -/
def forget : List Event :=
  [.call legacyRoom true true,
   .answered 0 (answer deleted),
   .resume 0,
   .tick 1100,
   .call legacyRoom true true,
   .answered 0 (answer (ascii "legacy")),
   .resume 0]

def forgotten : List Return :=
  (plugin.played (Module.start 1000) forget).2

theorem runs_forget :
    plugin.Runs (Module.start 1000)
      (plugin.played (Module.start 1000) forget).1 forgotten :=
  Plugin.runs_played (by decide +kernel)

private theorem parseRoom_legacyRoom :
    plugin.parseRoom legacyRoom = .ok 1800000000 := by
  decide +kernel

private theorem forgotten_reopens : ∃ back ∈ forgotten,
    back.name = legacyRoom ∧ back.module.Answered legacyRoom ∧
      ¬ back.ByRecord := by
  have reopens : ∃ back ∈ forgotten, back.name = legacyRoom ∧
      (∃ logged ∈ back.module.log[0]?,
        logged.1 = legacyRoom ∧ logged.2.hasRecord) ∧
      ∃ entry ∈ back.verdict.toOption.join,
        entry.status = ascii "legacy" := by
    decide +kernel
  obtain ⟨back, member, isName, ⟨⟨name, entry⟩, logged, rfl, hasRecord⟩, other,
    isOk, isLegacy⟩ := reopens
  refine ⟨back, member, isName, ⟨0, entry, logged, hasRecord⟩, ?_⟩
  intro byRecord
  cases isVerdict : back.verdict with
  | error reason =>
      rw [isVerdict] at isOk
      cases isOk
  | ok result =>
      rw [isVerdict] at isOk
      obtain ⟨own, isOwn, -, isActive, -⟩ := byRecord result isVerdict
      subst isOwn
      cases isOk
      rw [isActive] at isLegacy
      exact absurd isLegacy (by decide)

/-- The room may exist on its name again, after an answer that it was
deleted. -/
theorem roomUsable_forgets :
    ¬ ∀ module returns, plugin.Runs (Module.start 1000) module returns →
      ∀ back ∈ returns, ∀ exp, isLegacyLength back.name →
        plugin.parseRoom back.name = .ok exp →
          back.module.Answered back.name → back.ByRecord := by
  intro claimed
  obtain ⟨back, member, isName, answered, reopens⟩ := forgotten_reopens
  refine reopens (claimed _ _ runs_forget back member 1800000000 ?_ ?_ ?_)
  · rw [isName]
    decide +kernel
  · rw [isName]
    exact parseRoom_legacyRoom
  · rwa [isName]

theorem roomUsable_byRecord_iff_forgotten :
    ∃ back ∈ forgotten, ¬ back.ByRecord ∧
      ¬ plugin.Settled 1800000000 back := by
  obtain ⟨back, member, isName, answered, reopens⟩ := forgotten_reopens
  refine ⟨back, member, reopens, ?_⟩
  have same := roomUsable_byRecord_iff runs_forget back member 1800000000
    (by rw [isName]; decide +kernel) (by rw [isName]; exact parseRoom_legacyRoom)
    (by rwa [isName])
  exact fun settled => reopens (same.mpr settled)

end Sample

end FfmucSalt.SignedRooms
