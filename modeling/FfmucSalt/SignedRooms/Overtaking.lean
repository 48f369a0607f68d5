import FfmucSalt.SignedRooms.Staleness

/-!
# Answers that overtake a waiting call

`room_state` reads the cache before it waits and not again.  A lookup of the
sweep or of another session may be answered meanwhile.
-/

namespace FfmucSalt.SignedRooms

/-- The state returned was not received before the one in the cache. -/
def Return.Current (back : Return) : Prop :=
  ∀ entry stored, back.state = some entry →
    back.module.states[back.name]? = some stored →
      stored.number ≤ entry.number

/-- How many answers a waiting call knows of: those up to its own, or those
before it began. -/
def Call.known (call : Call) : Nat :=
  match call.fresh with
  | some (some own) => own.number + 1
  | _ => call.began

/-- If a call waited and has a state in hand, and the cache has one too, then
no answer for the room was received that the call does not know of. -/
def Return.NotOvertaken (back : Return) : Prop :=
  ∀ call, back.waited = some call →
    (call.fresh.join.or call.cached).isSome →
      call.name ∈ back.module.states → ∀ number entry,
        back.module.log[number]? = some (call.name, entry) →
          number < call.known

section Overtaking

variable {plugin : Plugin}

namespace Plugin

variable {back : Return}

/-- An old entry is older than what came during the call, and no older than
what came before. -/
private theorem Waits.cached_le_iff {module : Module} {call : Call}
    (waits : plugin.Waits module call) (sound : plugin.Sound module)
    {old stored : Entry} (isOld : call.cached = some old)
    (isStored : module.states[call.name]? = some stored) :
    stored.number ≤ old.number ↔ stored.number < call.began := by
  obtain ⟨-, before, -⟩ := waits.cached old isOld
  constructor
  · intro notLater
    exact notLater.trans_lt before
  · intro known
    exact waits.latest old isOld _ _ (sound.logged _ _ isStored) known

private theorem Waits.current_iff {module : Module} {call : Call}
    (waits : plugin.Waits module call) (sound : plugin.Sound module)
    {fresh : Option Entry} (isFresh : call.fresh = some fresh)
    {entry stored : Entry} (isEntry : fresh.or call.cached = some entry)
    (isStored : module.states[call.name]? = some stored) :
    stored.number ≤ entry.number ↔ stored.number < call.known := by
  cases fresh with
  | some own =>
      cases isEntry
      simp only [Call.known, isFresh]
      exact Nat.lt_succ_iff.symm
  | none =>
      simp only [Call.known, isFresh]
      exact waits.cached_le_iff sound isEntry isStored

/-- The cache holds the latest answer, so it is known if all are. -/
private theorem Sound.known_iff {module : Module} (sound : plugin.Sound module)
    {name : Bytes} {stored : Entry} {known : Nat}
    (isStored : module.states[name]? = some stored) :
    stored.number < known ↔ ∀ number entry,
      module.log[number]? = some (name, entry) → number < known := by
  constructor
  · intro isKnown number entry logged
    exact (sound.latest name stored isStored number entry logged).trans_lt
      isKnown
  · intro allKnown
    exact allKnown _ _ (sound.logged name stored isStored)

private theorem Justified.current_iff (justified : plugin.Justified back) :
    back.Current ↔ back.NotOvertaken := by
  have notWaited : back.waited = none → back.NotOvertaken := by
    intro direct call isCall
    rw [direct] at isCall
    cases isCall
  cases justified.source with
  | refused direct _ _ _ state =>
      refine iff_of_true ?_ (notWaited direct)
      intro entry stored isEntry
      rw [state] at isEntry
      cases isEntry
  | direct direct _ _ _ state =>
      refine iff_of_true ?_ (notWaited direct)
      intro entry stored isEntry isStored
      rw [state] at isEntry
      have found := (young_eq_some.mp isEntry).1
      rw [isStored] at found
      cases found
      exact le_rfl
  | @waited _ call fresh isCall name _ _ _ _ waits isFresh isState =>
      have sound := justified.sound
      constructor
      · intro current other isOther inHand hasStored
        rw [isCall] at isOther
        cases isOther
        rw [isFresh, Option.join_some] at inHand
        obtain ⟨entry, isEntry⟩ := Option.isSome_iff_exists.mp inHand
        obtain ⟨stored, isStored⟩ := FiniteMap.mem_iff_lookup.mp hasStored
        apply (sound.known_iff isStored).mp
        apply (waits.current_iff sound isFresh isEntry isStored).mp
        rw [name] at isStored
        exact current entry stored (isState.trans isEntry) isStored
      · intro notOvertaken entry stored isEntry isStored
        rw [isState] at isEntry
        rw [← name] at isStored
        apply (waits.current_iff sound isFresh isEntry isStored).mpr
        apply (sound.known_iff isStored).mpr
        apply notOvertaken call isCall
        · rw [isFresh, Option.join_some, isEntry]
          rfl
        · exact FiniteMap.mem_iff_lookup.mpr ⟨stored, isStored⟩

end Plugin

/-- In every run a call returns a state no older than the one in the cache if
and only if no newer answer overtook it. -/
theorem roomState_current_iff {now : Seconds} {module : Module}
    {returns : List Return}
    (runs : plugin.Runs (Module.start now) module returns) :
    ∀ back ∈ returns, back.Current ↔ back.NotOvertaken := by
  intro back member
  exact (runs.sound.2 back member).current_iff

end Overtaking

/-! ## A deleted room that a call brings back -/

namespace Sample

open MeetReserve.Sample (room)

/-- The room is deleted while a session waits for a lookup that fails. -/
def overtake : List Event :=
  [.call room true true,
   .answered 0 { status := active, expires := some 9000, gen := ascii "0" },
   .resume 0,
   .tick 1100,
   .call room true true,
   .sweep [room],
   .sweepAnswered 0 { status := deleted, expires := none, gen := ascii "0" },
   .failed 0,
   .resume 0]

def overtaken : List Return :=
  (plugin.played (Module.start 1000) overtake).2

theorem runs_overtake :
    plugin.Runs (Module.start 1000)
      (plugin.played (Module.start 1000) overtake).1 overtaken :=
  Plugin.runs_played (by decide)

private theorem overtaken_stale : ∃ back ∈ overtaken, ¬ back.Current := by
  have stale : ∃ back ∈ overtaken, ∃ entry ∈ back.state,
      ∃ stored ∈ back.module.states[back.name]?,
        stored.status = deleted ∧ entry.number < stored.number ∧
          back.verdict.toOption.isSome := by
    decide
  obtain ⟨back, member, entry, isEntry, stored, isStored, -, older, -⟩ := stale
  refine ⟨back, member, ?_⟩
  intro current
  exact Nat.not_le_of_lt older (current entry stored isEntry isStored)

/-- The call lets the room exist on a state older than the one in the cache,
which says that the room is deleted. -/
theorem roomState_overtaken :
    ¬ ∀ module returns, plugin.Runs (Module.start 1000) module returns →
      ∀ back ∈ returns, back.Current := by
  intro claimed
  obtain ⟨back, member, stale⟩ := overtaken_stale
  exact stale (claimed _ _ runs_overtake back member)

theorem roomState_current_iff_overtaken :
    ∃ back ∈ overtaken, ¬ back.Current ∧ ¬ back.NotOvertaken := by
  obtain ⟨back, member, stale⟩ := overtaken_stale
  refine ⟨back, member, stale, ?_⟩
  intro notOvertaken
  exact stale
    ((roomState_current_iff runs_overtake back member).mpr notOvertaken)

end Sample

end FfmucSalt.SignedRooms
