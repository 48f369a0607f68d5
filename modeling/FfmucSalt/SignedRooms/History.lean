import FfmucSalt.SignedRooms.Rooms

/-!
# Where the states of rooms come from

Every state that the cache or a waiting call holds is an answer that was
received for exactly that room; the cache holds the latest one.
-/

namespace FfmucSalt.SignedRooms

/-- An answer that was received for a room. -/
def Module.Logged (module : Module) (name : Bytes) (entry : Entry) : Prop :=
  module.log[entry.number]? = some (name, entry)

/-- The numbers and times of the answers are those of their arrival. -/
def Module.Numbered (module : Module) : Prop :=
  ∀ number name (entry : Entry), module.log[number]? = some (name, entry) →
    entry.number = number ∧ entry.atTime ≤ module.now

namespace Plugin

variable (plugin : Plugin)

/-- What a waiting call holds. -/
structure Waits (module : Module) (call : Call) : Prop where
  began : call.began ≤ module.log.length
  started : call.started ≤ module.now
  cached : ∀ entry, call.cached = some entry →
    module.Logged call.name entry ∧ entry.number < call.began ∧
      entry.atTime ≤ call.started ∧
      call.started - entry.atTime < plugin.options.lookupGrace
  latest : ∀ entry, call.cached = some entry → ∀ number other,
    module.log[number]? = some (call.name, other) → number < call.began →
      number ≤ entry.number
  fresh : ∀ entry, call.fresh = some (some entry) →
    module.Logged call.name entry ∧ call.began ≤ entry.number

/-- The invariant of the module. -/
structure Sound (module : Module) : Prop where
  numbered : module.Numbered
  logged : ∀ name entry, module.states[name]? = some entry →
    module.Logged name entry
  latest : ∀ name (entry : Entry), module.states[name]? = some entry →
    ∀ number other, module.log[number]? = some (name, other) →
      number ≤ entry.number
  calls : ∀ call ∈ module.calls, plugin.Waits module call

variable {plugin} {module later : Module}

theorem sound_start (now : Seconds) : plugin.Sound (Module.start now) where
  numbered := by simp [Module.Numbered, Module.start]
  logged := by simp [Module.start]
  latest := by simp [Module.start]
  calls := by simp [Module.start]

/-! ## Time and new answers -/

private theorem getElem?_of_append {log more : List (Bytes × Entry)}
    {number : Nat} {found : Bytes × Entry}
    (isFound : log[number]? = some found) :
    (log ++ more)[number]? = some found := by
  rw [List.getElem?_append_left (List.getElem?_eq_some_iff.mp isFound).1]
  exact isFound

/-- A call does not mind time passing and answers arriving. -/
theorem Waits.keeps {call : Call} {more : List (Bytes × Entry)}
    (waits : plugin.Waits module call) (time : module.now ≤ later.now)
    (log : later.log = module.log ++ more) : plugin.Waits later call where
  began := by
    rw [log, List.length_append]
    exact waits.began.trans (Nat.le_add_right _ _)
  started := waits.started.trans time
  cached entry isCached := by
    obtain ⟨logged, rest⟩ := waits.cached entry isCached
    refine ⟨?_, rest⟩
    rw [Module.Logged, log]
    exact getElem?_of_append logged
  latest entry isCached number other found before := by
    have inside := before.trans_le waits.began
    rw [log, List.getElem?_append_left inside] at found
    exact waits.latest entry isCached number other found before
  fresh entry isFresh := by
    obtain ⟨logged, rest⟩ := waits.fresh entry isFresh
    refine ⟨?_, rest⟩
    rw [Module.Logged, log]
    exact getElem?_of_append logged

/-- A new answer is the latest, and the only new one. -/
theorem logged_finish {name : Bytes} {answer : Answer} {number : Nat}
    {other : Bytes} {entry : Entry}
    (found : (plugin.finish module name answer).log[number]? =
      some (other, entry)) :
    module.log[number]? = some (other, entry) ∨
      number = module.log.length ∧ other = name ∧
        entry = entryOf module answer := by
  rcases lt_or_ge number module.log.length with before | after
  · left
    rwa [finish, List.getElem?_append_left before] at found
  · right
    rw [finish, List.getElem?_append_right after] at found
    have bound := (List.getElem?_eq_some_iff.mp found).1
    simp only [List.length_singleton] at bound
    have isNew : number = module.log.length := by omega
    subst isNew
    simp only [Nat.sub_self, List.getElem?_cons_zero, Option.some.injEq,
      Prod.mk.injEq] at found
    exact ⟨rfl, found.1.symm, found.2.symm⟩

theorem Sound.finish (sound : plugin.Sound module) (name : Bytes)
    (answer : Answer) : plugin.Sound (plugin.finish module name answer) where
  numbered := by
    intro number other entry found
    rcases logged_finish found with old | ⟨rfl, rfl, rfl⟩
    · exact sound.numbered number other entry old
    · exact ⟨rfl, le_rfl⟩
  logged := by
    intro other entry stored
    simp only [Plugin.finish, FiniteMap.lookup_insert] at stored
    split at stored
    · rename_i same
      subst same
      cases stored
      simp [Module.Logged, Plugin.finish, entryOf]
    · exact getElem?_of_append (sound.logged other entry stored)
  latest := by
    intro other entry stored number found isFound
    simp only [Plugin.finish, FiniteMap.lookup_insert] at stored
    rcases logged_finish isFound with old | ⟨rfl, rfl, rfl⟩
    · split at stored
      · cases stored
        exact (List.getElem?_eq_some_iff.mp old).1.le
      · exact sound.latest other entry stored number found old
    · rw [if_pos rfl] at stored
      cases stored
      exact le_rfl
  calls := fun call member => (sound.calls call member).keeps le_rfl rfl

/-! ## Events -/

/-- The entry in the cache, if it may still be used. -/
def young (plugin : Plugin) (module : Module) (name : Bytes) : Option Entry :=
  module.states[name]?.filter fun entry =>
    module.now - entry.atTime < plugin.options.lookupGrace

theorem young_eq_some {name : Bytes} {entry : Entry} :
    plugin.young module name = some entry ↔
      module.states[name]? = some entry ∧
        module.now - entry.atTime < plugin.options.lookupGrace := by
  rw [young, Option.filter_eq_some_iff, decide_eq_true_eq]

/-- What a return owes to the call and to the cache. -/
inductive Source (plugin : Plugin) (returned : Return) : Prop where
  | refused {reason : Bytes} (direct : returned.waited = none)
      (started : returned.started = returned.module.now)
      (isRefused : plugin.roomUsable returned.name = .error reason)
      (verdict : returned.verdict = .error (reason, none))
      (state : returned.state = none)
  | direct {decide : Option Entry → Bool → Seconds → Verdict}
      (direct : returned.waited = none)
      (started : returned.started = returned.module.now)
      (isUsable : plugin.roomUsable returned.name = .ok decide)
      (verdict : returned.verdict = decide returned.state
        (returned.module.migrated.contains returned.name) returned.module.now)
      (state : returned.state =
        plugin.young returned.module returned.name)
  | waited {decide : Option Entry → Bool → Seconds → Verdict} {call : Call}
      {fresh : Option Entry} (waited : returned.waited = some call)
      (name : call.name = returned.name)
      (started : call.started = returned.started)
      (began : call.began = returned.began)
      (isUsable : plugin.roomUsable returned.name = .ok decide)
      (verdict : returned.verdict = decide returned.state
        (returned.module.migrated.contains returned.name) returned.module.now)
      (waits : plugin.Waits returned.module call)
      (isFresh : call.fresh = some fresh)
      (state : returned.state = fresh.or call.cached)

/-- Why a call returns what it returns. -/
structure Justified (plugin : Plugin) (returned : Return) : Prop where
  sound : plugin.Sound returned.module
  source : plugin.Source returned

/-- The name is refused, or the verdict is that of the rule for it. -/
theorem Justified.decided {returned : Return}
    (justified : plugin.Justified returned) :
    (∃ reason, plugin.roomUsable returned.name = .error reason ∧
      returned.verdict = .error (reason, none)) ∨
    ∃ decide, plugin.roomUsable returned.name = .ok decide ∧
      returned.verdict = decide returned.state
        (returned.module.migrated.contains returned.name)
        returned.module.now := by
  cases justified.source with
  | refused _ _ isRefused verdict _ => exact .inl ⟨_, isRefused, verdict⟩
  | direct _ _ isUsable verdict _ => exact .inr ⟨_, isUsable, verdict⟩
  | waited _ _ _ _ isUsable verdict _ _ _ => exact .inr ⟨_, isUsable, verdict⟩

/-- What `room_state` works with is in the cache, and young enough. -/
theorem roomState_eq {name : Bytes} {mayWait ready : Bool}
    {state : Option Entry}
    (found : plugin.roomState module name mayWait ready = .inl state ∨
      plugin.roomState module name mayWait ready = .inr state) :
    state = plugin.young module name := by
  unfold roomState at found
  dsimp only at found
  split at found
  · rename_i entry isYoung
    obtain ⟨stored, fresh⟩ := Option.filter_eq_some_iff.mp isYoung
    simp only [Sum.inl.injEq, reduceCtorEq, or_false] at found
    rw [← found]
    refine (young_eq_some.mpr ⟨stored, ?_⟩).symm
    exact (of_decide_eq_true fresh).trans_le (le_max_left _ _)
  · split at found
    all_goals
      simp only [Sum.inl.injEq, Sum.inr.injEq, reduceCtorEq, or_false,
        false_or] at found
      exact found.symm

/-- Nothing new is in the cache, and every call waits properly. -/
private theorem Sound.calm (sound : plugin.Sound module)
    (time : module.now ≤ later.now) (log : later.log = module.log)
    (states : ∀ (name : Bytes) entry, later.states[name]? = some entry →
      module.states[name]? = some entry)
    (calls : ∀ call ∈ later.calls, plugin.Waits later call) :
    plugin.Sound later where
  numbered number name entry found := by
    rw [log] at found
    obtain ⟨isNumber, before⟩ := sound.numbered number name entry found
    exact ⟨isNumber, before.trans time⟩
  logged name entry stored := by
    rw [Module.Logged, log]
    exact sound.logged name entry (states name entry stored)
  latest name entry stored number other found := by
    rw [log] at found
    exact sound.latest name entry (states name entry stored) number other found
  calls := calls

private theorem Sound.keepsCalls (sound : plugin.Sound module)
    (time : module.now ≤ later.now) (log : later.log = module.log)
    (calls : later.calls ⊆ module.calls) :
    ∀ call ∈ later.calls, plugin.Waits later call := by
  intro call member
  exact (sound.calls call (calls member)).keeps time
    (log.trans (List.append_nil _).symm)

private theorem mem_set {calls : List Call} {index : Nat} {call other : Call}
    (member : other ∈ calls.set index call) : other = call ∨ other ∈ calls :=
  (List.mem_or_eq_of_mem_set member).symm

theorem Sound.call (sound : plugin.Sound module) {name : Bytes}
    {mayWait ready : Bool} {returned : Option Return}
    (happens : plugin.step module (.call name mayWait ready) =
      some (later, returned)) :
    plugin.Sound later ∧ ∀ back, returned = some back → plugin.Justified back := by
  simp only [step] at happens
  split at happens
  · rename_i reason isRefused
    cases happens
    refine ⟨sound, ?_⟩
    rintro back ⟨⟩
    exact ⟨sound, .refused rfl rfl isRefused rfl rfl⟩
  · rename_i decide isUsable
    split at happens
    · rename_i state found
      cases happens
      refine ⟨sound, ?_⟩
      rintro back ⟨⟩
      exact ⟨sound, .direct rfl rfl isUsable rfl (roomState_eq (.inl found))⟩
    · rename_i cached found
      cases happens
      refine ⟨?_, by simp⟩
      refine sound.calm le_rfl rfl (fun _ _ stored => stored) ?_
      intro call member
      rcases List.mem_append.mp member with old | new
      · exact (sound.calls call old).keeps le_rfl (List.append_nil _).symm
      · obtain rfl := List.mem_singleton.mp new
        have held : ∀ entry, cached = some entry →
            module.states[name]? = some entry ∧
              module.now - entry.atTime < plugin.options.lookupGrace := by
          intro entry isEntry
          rw [roomState_eq (.inr found)] at isEntry
          exact young_eq_some.mp isEntry
        refine ⟨le_rfl, le_rfl, ?_, ?_, by simp⟩
        · intro entry isEntry
          obtain ⟨stored, young⟩ := held entry isEntry
          have logged := sound.logged name entry stored
          exact ⟨logged, (List.getElem?_eq_some_iff.mp logged).1,
            (sound.numbered _ _ _ logged).2, young⟩
        · intro entry isEntry number other isOther _
          exact sound.latest name entry (held entry isEntry).1 number other
            isOther

theorem Sound.resume (sound : plugin.Sound module) {index : Nat}
    {returned : Option Return}
    (happens : plugin.step module (.resume index) = some (later, returned)) :
    plugin.Sound later ∧ ∀ back, returned = some back → plugin.Justified back := by
  simp only [step] at happens
  split at happens
  · cases happens
  · rename_i call isCall
    split at happens
    · rename_i fresh decide isFresh isUsable
      cases happens
      have waits := sound.calls call (List.mem_of_getElem? isCall)
      constructor
      · exact sound.calm le_rfl rfl (fun _ _ stored => stored)
          (sound.keepsCalls le_rfl rfl (List.eraseIdx_subset ..))
      · rintro back ⟨⟩
        exact ⟨sound, .waited rfl rfl rfl rfl isUsable rfl waits isFresh rfl⟩
    · cases happens

private theorem Waits.withFresh {call : Call} {fresh : Option (Option Entry)}
    (waits : plugin.Waits module call)
    (holds : ∀ entry, fresh = some (some entry) →
      module.Logged call.name entry ∧ call.began ≤ entry.number) :
    plugin.Waits module { call with fresh } :=
  ⟨waits.began, waits.started, waits.cached, waits.latest, holds⟩

theorem Sound.failed (sound : plugin.Sound module) {index : Nat}
    {returned : Option Return}
    (happens : plugin.step module (.failed index) = some (later, returned)) :
    plugin.Sound later ∧ returned = none := by
  simp only [step] at happens
  split at happens
  · cases happens
  · rename_i call isCall
    split at happens
    · cases happens
    cases happens
    refine ⟨sound.calm le_rfl rfl (fun _ _ stored => stored) ?_, rfl⟩
    intro other member
    have same : module.log = module.log ++ [] := (List.append_nil _).symm
    rcases mem_set member with isLast | old
    · subst isLast
      have waits := sound.calls call (List.mem_of_getElem? isCall)
      exact (waits.withFresh (by simp)).keeps le_rfl same
    · exact (sound.calls other old).keeps le_rfl same

theorem Sound.answered (sound : plugin.Sound module) {index : Nat}
    {answer : Answer} {returned : Option Return}
    (happens : plugin.step module (.answered index answer) =
      some (later, returned)) :
    plugin.Sound later ∧ returned = none := by
  simp only [step] at happens
  split at happens
  · cases happens
  · rename_i call isCall
    split at happens
    · cases happens
    cases happens
    have finished := sound.finish call.name answer
    refine ⟨finished.calm le_rfl rfl (fun _ _ stored => stored) ?_, rfl⟩
    intro other member
    have same : (plugin.finish module call.name answer).log =
        (plugin.finish module call.name answer).log ++ [] :=
      (List.append_nil _).symm
    rcases mem_set member with isLast | old
    · subst isLast
      have waits := finished.calls call (List.mem_of_getElem? isCall)
      have own : ∀ entry,
          some (some (entryOf module answer)) = some (some entry) →
            (plugin.finish module call.name answer).Logged call.name entry ∧
              call.began ≤ entry.number := by
        rintro entry ⟨⟩
        refine ⟨by simp [Module.Logged, Plugin.finish, entryOf], ?_⟩
        exact (sound.calls call (List.mem_of_getElem? isCall)).began
      exact (waits.withFresh own).keeps le_rfl same
    · exact (finished.calls other old).keeps le_rfl same

/-- Every event keeps the invariant, and justifies what it returns. -/
theorem Sound.step (sound : plugin.Sound module) {event : Event}
    {returned : Option Return}
    (happens : plugin.step module event = some (later, returned)) :
    plugin.Sound later ∧ ∀ back, returned = some back → plugin.Justified back := by
  cases event with
  | tick time =>
      simp only [Plugin.step] at happens
      split at happens
      · rename_i forward
        cases happens
        exact ⟨sound.calm forward rfl (fun _ _ stored => stored)
          (sound.keepsCalls forward rfl (List.Subset.refl _)), by simp⟩
      · cases happens
  | evict name =>
      cases happens
      refine ⟨sound.calm le_rfl rfl ?_
        (sound.keepsCalls le_rfl rfl (List.Subset.refl _)), by simp⟩
      intro other entry stored
      simp only [FiniteMap.lookup_erase] at stored
      split at stored
      · cases stored
      · exact stored
  | call name mayWait ready => exact sound.call happens
  | answered index answer =>
      obtain ⟨kept, none⟩ := sound.answered happens
      exact ⟨kept, by simp [none]⟩
  | failed index =>
      obtain ⟨kept, none⟩ := sound.failed happens
      exact ⟨kept, by simp [none]⟩
  | resume index => exact sound.resume happens
  | sweep rooms =>
      cases happens
      exact ⟨sound.calm le_rfl rfl (fun _ _ stored => stored)
        (sound.keepsCalls le_rfl rfl (List.Subset.refl _)), by simp⟩
  | sweepAnswered index answer =>
      simp only [Plugin.step] at happens
      split at happens
      · cases happens
      · rename_i name isName
        cases happens
        have finished := sound.finish name answer
        exact ⟨finished.calm le_rfl rfl (fun _ _ stored => stored)
          (finished.keepsCalls le_rfl rfl (List.Subset.refl _)), by simp⟩
  | sweepFailed index =>
      simp only [Plugin.step] at happens
      split at happens
      · cases happens
        exact ⟨sound.calm le_rfl rfl (fun _ _ stored => stored)
          (sound.keepsCalls le_rfl rfl (List.Subset.refl _)), by simp⟩
      · cases happens

/-- Every run keeps the invariant, and justifies all that it returns. -/
theorem Runs.sound {now : Seconds} {returns : List Return}
    (runs : plugin.Runs (Module.start now) module returns) :
    plugin.Sound module ∧ ∀ back ∈ returns, plugin.Justified back := by
  induction runs with
  | nil => exact ⟨sound_start now, by simp⟩
  | step _ happens induction =>
      obtain ⟨sound, justified⟩ := induction
      obtain ⟨kept, last⟩ := sound.step happens
      refine ⟨kept, ?_⟩
      intro back member
      rcases List.mem_append.mp member with old | new
      · exact justified back old
      · exact last back (Option.mem_toList.mp new)

end Plugin

end FfmucSalt.SignedRooms
