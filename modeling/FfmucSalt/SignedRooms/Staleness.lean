import FfmucSalt.SignedRooms.History
import FfmucSalt.SignedRooms.SameNames

/-!
# Bounded staleness

While meet-reserve is unreachable a short room lives on the last answer, and
on that for `lookup_grace` only.
-/

namespace FfmucSalt.SignedRooms

open Plugin (young_eq_some)

section Staleness

variable {plugin : Plugin}

theorem roomUsable_short {name : Bytes} (short : isShortName name) :
    plugin.roomUsable name =
      .ok fun state _ now => Plugin.shortUsable state now := by
  rw [Plugin.roomUsable, if_pos short]

theorem roomUsable_legacy {name : Bytes} {exp : Seconds}
    (long : isLegacyLength name) (isName : plugin.parseRoom name = .ok exp) :
    plugin.roomUsable name = .ok (plugin.legacyUsable exp) := by
  have notShort : ¬ isShortName name := by
    unfold isShortName
    split
    · simp
    · rename_i accepted
      rw [isLegacyLength, beq_iff_eq] at long
      simp [long, legacyLen, shortLen] at accepted
  rw [Plugin.roomUsable, if_neg notShort, if_neg (not_not.mpr long), isName]

theorem Answer.not_expired_iff {answer : Answer} {now : Seconds} :
    answer.expired now = false ↔
      ∀ expires, answer.expires = some expires → (now : ℚ) ≤ expires := by
  unfold Answer.expired
  cases answer.expires with
  | none => simp
  | some expires =>
      rw [decide_eq_false_iff_not, Rat.not_lt]
      simp only [Option.some.injEq, forall_eq']

/-- A record lets a room exist if it is active and not expired. -/
theorem byRecord_eq_ok {entry : Entry} {now : Seconds} {state : Option Entry} :
    Plugin.byRecord entry now = .ok state ↔
      entry.status = active ∧ entry.expired now = false ∧
        state = some entry := by
  unfold Plugin.byRecord
  split
  · rename_i inactive
    simp [inactive]
  · rename_i isActive
    rw [not_not] at isActive
    split
    · rename_i expired
      simp [expired]
    · rename_i notExpired
      simp [isActive, notExpired, eq_comm]

theorem shortUsable_eq_ok {state result : Option Entry} {now : Seconds}
    (ok : Plugin.shortUsable state now = .ok result) :
    ∃ entry, state = some entry ∧ entry.status = active ∧
      entry.expired now = false := by
  cases state with
  | none => cases ok
  | some entry =>
      obtain ⟨isActive, notExpired, -⟩ := byRecord_eq_ok.mp ok
      exact ⟨entry, rfl, isActive, notExpired⟩

/-- What `room_state` returns was received less than `lookup_grace` before the
call, or during it. -/
theorem Plugin.Justified.recent {back : Return} (justified : plugin.Justified back)
    {entry : Entry} (isEntry : back.state = some entry) :
    back.module.Logged back.name entry ∧
      (entry.atTime ≤ back.started ∧
          back.started - entry.atTime < plugin.options.lookupGrace ∨
        back.began ≤ entry.number) := by
  cases justified.source with
  | refused _ _ _ _ state =>
      rw [state] at isEntry
      cases isEntry
  | direct _ started _ _ state =>
      rw [state] at isEntry
      obtain ⟨stored, young⟩ := young_eq_some.mp isEntry
      have logged := justified.sound.logged _ entry stored
      rw [started]
      exact ⟨logged, .inl ⟨(justified.sound.numbered _ _ _ logged).2, young⟩⟩
  | @waited _ call fresh _ name started began _ _ waits isFresh state =>
      rw [state] at isEntry
      rw [← name, ← started, ← began]
      cases fresh with
      | some own =>
          cases isEntry
          obtain ⟨logged, during⟩ := waits.fresh entry isFresh
          exact ⟨logged, .inr during⟩
      | none =>
          obtain ⟨logged, -, before, young⟩ := waits.cached entry isEntry
          exact ⟨logged, .inl ⟨before, young⟩⟩

/-- A short room is usable only on an answer for exactly that name, active and
not expired, that was received less than `lookup_grace` before the call or
during it.  Without such an answer it is refused. -/
theorem roomUsable_bounded_staleness {now : Seconds} {module : Module}
    {returns : List Return}
    (runs : plugin.Runs (Module.start now) module returns) {back : Return}
    (member : back ∈ returns) (short : isShortName back.name) :
    (∀ result, back.verdict = .ok result →
      ∃ number entry, back.module.log[number]? = some (back.name, entry) ∧
        entry.status = active ∧
        (entry.atTime ≤ back.started ∧
            back.started - entry.atTime < plugin.options.lookupGrace ∨
          back.began ≤ number) ∧
        ∀ expires, entry.expires = some expires →
          (back.module.now : ℚ) ≤ expires) ∧
    ((∀ number entry, back.module.log[number]? = some (back.name, entry) →
        number < back.began ∧
          plugin.options.lookupGrace ≤ back.started - entry.atTime) →
      ∃ reason, back.verdict = .error reason) := by
  have justified := runs.sound.2 back member
  have fresh : ∀ result, back.verdict = .ok result →
      ∃ entry, back.module.Logged back.name entry ∧ entry.status = active ∧
        (entry.atTime ≤ back.started ∧
            back.started - entry.atTime < plugin.options.lookupGrace ∨
          back.began ≤ entry.number) ∧
        entry.expired back.module.now = false := by
    intro result ok
    rcases justified.decided with ⟨reason, -, refused⟩ |
      ⟨decide, usable, decides⟩
    · rw [refused] at ok
      cases ok
    · rw [roomUsable_short short] at usable
      cases usable
      rw [decides] at ok
      obtain ⟨entry, isEntry, isActive, notExpired⟩ := shortUsable_eq_ok ok
      obtain ⟨logged, recent⟩ := justified.recent isEntry
      exact ⟨entry, logged, isActive, recent, notExpired⟩
  constructor
  · intro result ok
    obtain ⟨entry, logged, isActive, recent, notExpired⟩ := fresh result ok
    exact ⟨entry.number, entry, logged, isActive, recent,
      Answer.not_expired_iff.mp notExpired⟩
  · intro old
    cases isVerdict : back.verdict with
    | error reason => exact ⟨reason, rfl⟩
    | ok result =>
        obtain ⟨entry, logged, -, recent, -⟩ := fresh result isVerdict
        obtain ⟨before, tooOld⟩ := old _ _ logged
        rcases recent with ⟨-, young⟩ | during
        · exact (not_lt.mpr tooOld young).elim
        · exact (not_lt.mpr during before).elim

end Staleness

/-! ## A call that waits for its answer -/

namespace Sample

open MeetReserve.Sample (room)

/-- A session asks for a room, its lookup is answered, it goes on. -/
def lookUp : List Event :=
  [.call room true true,
   .answered 0 { status := active, expires := some 2000, gen := ascii "0" },
   .resume 0]

def lookedUp : List Return :=
  (plugin.played (Module.start 1000) lookUp).2

theorem runs_lookUp :
    plugin.Runs (Module.start 1000)
      (plugin.played (Module.start 1000) lookUp).1 lookedUp :=
  Plugin.runs_played (by decide)

/-- The room is usable, on the answer that came during the call. -/
theorem roomUsable_bounded_staleness_lookedUp :
    ∃ back ∈ lookedUp, ∃ number entry,
      back.module.log[number]? = some (back.name, entry) ∧
        entry.status = active ∧
        (entry.atTime ≤ back.started ∧
            back.started - entry.atTime < plugin.options.lookupGrace ∨
          back.began ≤ number) ∧
        ∀ expires, entry.expires = some expires →
          (back.module.now : ℚ) ≤ expires := by
  have one : lookedUp.length = 1 := by decide
  have short : ∀ back ∈ lookedUp, isShortName back.name := by
    decide
  have usable : ∀ back ∈ lookedUp, back.verdict.toOption.isSome := by
    decide
  obtain ⟨back, isBack⟩ := List.length_eq_one_iff.mp one
  have member : back ∈ lookedUp := by simp [isBack]
  refine ⟨back, member, ?_⟩
  cases isVerdict : back.verdict with
  | error reason =>
      have isSome := usable back member
      rw [isVerdict] at isSome
      cases isSome
  | ok result =>
      exact (roomUsable_bounded_staleness runs_lookUp member
        (short back member)).1 result isVerdict

end Sample

end FfmucSalt.SignedRooms
