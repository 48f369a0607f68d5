import FfmucSalt.SignedRooms.Admission

/-!
# Deleted rooms are closed

A room that the sweep closed stays closed, and a short name comes back only
with an active answer that is newer than the one that closed it.
-/

namespace FfmucSalt.SignedRooms

namespace Plugin

variable {plugin : Plugin} {start module later : Module}
variable {returns : List Return}

/-- Answers are never forgotten. -/
theorem log_step {event : Event} {returned : Option Return}
    (happens : plugin.step module event = some (later, returned)) :
    ∃ more, later.log = module.log ++ more := by
  have same : ∃ more, module.log = module.log ++ more :=
    ⟨[], (List.append_nil _).symm⟩
  cases event
  all_goals
    simp only [step] at happens
    repeat' split at happens
    all_goals cases happens
  all_goals first | exact same | exact ⟨_, rfl⟩

theorem Runs.log (runs : plugin.Runs start module returns) :
    ∃ more, module.log = start.log ++ more := by
  induction runs with
  | nil => exact ⟨[], (List.append_nil _).symm⟩
  | step _ happens induction =>
      obtain ⟨before, isBefore⟩ := induction
      obtain ⟨more, isMore⟩ := log_step happens
      exact ⟨before ++ more, by rw [isMore, isBefore, List.append_assoc]⟩

/-- Only the sweep changes what it looks up. -/
def Event.IsSweep : Event → Prop
  | .sweep _ | .sweepAnswered _ _ | .sweepFailed _ => True
  | _ => False

theorem sweeps_step {event : Event} {returned : Option Return}
    (happens : plugin.step module event = some (later, returned))
    (other : ¬ Event.IsSweep event) :
    later.sweeps = module.sweeps := by
  cases event with
  | sweep | sweepAnswered | sweepFailed => exact (other trivial).elim
  | _ =>
      simp only [step] at happens
      repeat' split at happens
      all_goals cases happens
      all_goals rfl

theorem waited_of_resume {index : Nat} {back : Return}
    (happens : plugin.step module (.resume index) = some (later, some back)) :
    back.waited.isSome := by
  simp only [step] at happens
  split at happens
  · cases happens
  · split at happens
    · cases happens
      rfl
    · cases happens

end Plugin

theorem Module.Logged.mono {module later : Module} {name : Bytes}
    {entry : Entry} (logged : module.Logged name entry)
    {more : List (Bytes × Entry)} (log : later.log = module.log ++ more) :
    later.Logged name entry := by
  unfold Module.Logged at logged ⊢
  rw [log, List.getElem?_append_left (List.getElem?_eq_some_iff.mp logged).1]
  exact logged

/-! ## Where happenings come from -/

/-- Acts of the sweep. -/
def Act.IsSweep : Act → Prop
  | .sweep | .sweepAnswered _ _ | .sweepFailed _ => True
  | _ => False

/-- A happening that one session brings about.  It comes into rooms that are
open, or after a call that waited. -/
def Happening.Personal (isOpen : Nat → Prop) : Happening → Prop
  | .created _ _ _ | .granted _ _ _ | .closed _ _ => False
  | .joined index _ _ back =>
      isOpen index ∨ ∃ check, back = some check ∧ check.waited.isSome
  | _ => True

/-- What an act must be to bring about a happening. -/
def Happening.Source (site : Site) (conf : Conference) (act : Act) :
    Happening → Prop
  | .created _ name back =>
      ∀ own, back = some own → own = site.plugin.usableNow conf.module name
  | .granted index _ _ => (conf.reach index).isSome
  | .closed _ _ => act.IsSweep
  | .joined index jid signed back =>
      (Happening.joined index jid signed back).Personal fun index =>
        (conf.reach index).isSome
  | _ => True

namespace Site

variable {site : Site} {conf later : Conference}
variable {trace more : List Happening} {now : Seconds}

/-! ## What the sweep looks up -/

/-- The sweep looks up the names of the rooms that it may close. -/
def Sweeps (conf : Conference) : Prop :=
  conf.sweeping.length = conf.module.sweeps.length ∧
    ∀ (lookup : Nat) index name, conf.sweeping[lookup]? = some index →
      conf.module.sweeps[lookup]? = some name →
        ∃ room, conf.rooms[index]? = some room ∧ room.name = name

private theorem Sweeps.keeps (sweeps : Sweeps conf)
    (rooms : Extends conf.rooms later.rooms)
    (names : later.module.sweeps = conf.module.sweeps)
    (sweeping : later.sweeping = conf.sweeping) : Sweeps later := by
  unfold Sweeps
  rw [names, sweeping]
  refine ⟨sweeps.1, ?_⟩
  intro lookup index name isIndex isName
  obtain ⟨room, isRoom, sameName⟩ := sweeps.2 lookup index name isIndex isName
  obtain ⟨next, isNext, keeps⟩ := rooms index room isRoom
  exact ⟨next, isNext, keeps.name.trans sameName⟩

private theorem goOn_sweeping {back : Return} {task : Task}
    (isOut : site.goOn conf back task = (later, more)) :
    later.module.sweeps = conf.module.sweeps ∧
      later.sweeping = conf.sweeping := by
  obtain ⟨module, -, sweeping⟩ := goOn_frame site conf back task
  rw [isOut] at module sweeping
  exact ⟨congrArg Module.sweeps module, sweeping⟩

private theorem ask_sweeping {name : Bytes} {ready : Bool} {task : Task}
    (happens : site.ask conf name ready task = some (later, more)) :
    later.module.sweeps = conf.module.sweeps ∧
      later.sweeping = conf.sweeping := by
  unfold ask at happens
  split at happens
  · cases happens
  · exact goOn_sweeping (Option.some.inj happens)
  · rename_i isCall
    cases happens
    exact ⟨Plugin.sweeps_step isCall id, rfl⟩

private theorem inModule_sweeping {event : Event}
    (happens : site.inModule conf event = some (later, more))
    (other : ¬ Plugin.Event.IsSweep event) :
    later.module.sweeps = conf.module.sweeps ∧
      later.sweeping = conf.sweeping := by
  obtain ⟨⟨module, returned⟩, isStep, same⟩ := Option.map_eq_some_iff.mp happens
  cases same
  exact ⟨Plugin.sweeps_step isStep other, rfl⟩

private theorem step_sweeping {act : Act} (other : ¬ act.IsSweep)
    (happens : site.step conf act = some (later, more)) :
    later.module.sweeps = conf.module.sweeps ∧
      later.sweeping = conf.sweeping := by
  cases act with
  | tick | evict | answered | failed =>
      exact inModule_sweeping happens id
  | resume call =>
      simp only [step] at happens
      split at happens
      · rename_i isTask isStep
        obtain ⟨names, sweeping⟩ := goOn_sweeping (Option.some.inj happens)
        exact ⟨names.trans (Plugin.sweeps_step isStep id),
          sweeping⟩
      · cases happens
  | authenticate jid token ready =>
      simp only [step] at happens
      split at happens
      · cases happens
        exact ⟨rfl, rfl⟩
      · cases happens
        exact ⟨rfl, rfl⟩
      · exact ask_sweeping happens
  | request jid iq ready =>
      simp only [step] at happens
      split at happens
      · split at happens
        · cases happens
          exact ⟨rfl, rfl⟩
        · exact ask_sweeping happens
      · cases happens
        exact ⟨rfl, rfl⟩
  | join index nick jid ready =>
      simp only [step] at happens
      split at happens
      · cases happens
      split at happens
      · obtain ⟨module, -, sweeping⟩ := enter_frame site conf index nick jid
          ((conf.lookup jid).bind (·.signed)) none
        rw [Option.some.inj happens] at module sweeping
        exact ⟨congrArg Module.sweeps module, sweeping⟩
      split at happens
      · cases happens
        exact ⟨rfl, rfl⟩
      · exact ask_sweeping happens
  | sweep | sweepAnswered | sweepFailed => exact (other trivial).elim
  | connect | create | setAffiliation =>
      simp only [step] at happens
      repeat' split at happens
      all_goals cases happens
      all_goals exact ⟨rfl, rfl⟩
  | disconnect =>
      cases happens
      exact ⟨rfl, rfl⟩
  | leave | destroy =>
      obtain ⟨room, -, same⟩ := Option.map_eq_some_iff.mp happens
      cases same
      exact ⟨rfl, rfl⟩

/-- A new sweep looks up the rooms that the module signed and that are open. -/
private theorem Sweeps.sweep (sweeps : Sweeps conf) {indices : List Nat}
    (present : ∀ index ∈ indices, index < conf.rooms.length)
    (names : later.module.sweeps = conf.module.sweeps ++
      indices.filterMap fun index => conf.rooms[index]?.map (·.name))
    (sweeping : later.sweeping = conf.sweeping ++ indices)
    (rooms : later.rooms = conf.rooms) : Sweeps later := by
  let nameOf (index : Nat) : Bytes := (conf.rooms[index]?.map (·.name)).getD []
  have isName : ∀ index ∈ indices,
      conf.rooms[index]?.map (·.name) = some (nameOf index) := by
    intro index member
    simp [nameOf, List.getElem?_eq_getElem (present index member)]
  have isMap : indices.filterMap (fun index =>
      conf.rooms[index]?.map (·.name)) = indices.map nameOf := by
    rw [List.filterMap_congr isName]
    exact congrFun (List.filterMap_eq_map) indices
  rw [isMap] at names
  obtain ⟨sameLength, looksUp⟩ := sweeps
  refine ⟨by simp [names, sweeping, sameLength], ?_⟩
  intro lookup index name isIndex isLookup
  rw [rooms]
  rw [sweeping, List.getElem?_append] at isIndex
  rw [names, List.getElem?_append, ← sameLength] at isLookup
  by_cases old : lookup < conf.sweeping.length
  · rw [if_pos old] at isIndex isLookup
    exact looksUp lookup index name isIndex isLookup
  · rw [if_neg old] at isIndex isLookup
    rw [List.getElem?_map, isIndex, Option.map_some] at isLookup
    cases isLookup
    have inside := present index (List.mem_of_getElem? isIndex)
    refine ⟨conf.rooms[index], List.getElem?_eq_getElem inside, ?_⟩
    simp [nameOf, List.getElem?_eq_getElem inside]

/-- A lookup of the sweep is over. -/
private theorem Sweeps.erase (sweeps : Sweeps conf) {lookup : Nat}
    (rooms : Extends conf.rooms later.rooms)
    (names : later.module.sweeps = conf.module.sweeps.eraseIdx lookup)
    (sweeping : later.sweeping = conf.sweeping.eraseIdx lookup) :
    Sweeps later := by
  obtain ⟨sameLength, looksUp⟩ := sweeps
  unfold Sweeps
  rw [names, sweeping]
  refine ⟨by simp [List.length_eraseIdx, sameLength], ?_⟩
  intro other index name isIndex isName
  rw [List.getElem?_eraseIdx] at isIndex isName
  have found : ∃ room, conf.rooms[index]? = some room ∧ room.name = name := by
    split at isIndex
    · rename_i before
      rw [if_pos before] at isName
      exact looksUp _ index name isIndex isName
    · rename_i behind
      rw [if_neg behind] at isName
      exact looksUp _ index name isIndex isName
  obtain ⟨room, isRoom, sameName⟩ := found
  obtain ⟨next, isNext, keeps⟩ := rooms index room isRoom
  exact ⟨next, isNext, keeps.name.trans sameName⟩

/-! ## What every act keeps -/

theorem step_extends {act : Act}
    (happens : site.step conf act = some (later, more)) :
    Extends conf.rooms later.rooms := by
  have alters := step_alters happens
  generalize later.rooms = rooms at alters
  cases alters with
  | same => exact .refl _
  | opened => exact extends_append _ _
  | changed isRoom keeps _ => exact extends_set isRoom keeps

theorem step_log {act : Act}
    (happens : site.step conf act = some (later, more)) :
    ∃ fresh, later.module.log = conf.module.log ++ fresh := by
  obtain ⟨_, runs, -⟩ := step_covers (.nil : site.plugin.Runs conf.module _ _)
    happens
  exact runs.log

private theorem Sweeps.step (sweeps : Sweeps conf) {act : Act}
    (happens : site.step conf act = some (later, more)) : Sweeps later := by
  have rooms := step_extends happens
  by_cases other : ¬ act.IsSweep
  · obtain ⟨names, sweeping⟩ := step_sweeping other happens
    exact sweeps.keeps rooms names sweeping
  cases act with
  | sweep =>
      simp only [Site.step] at happens
      split at happens
      · cases happens
      · obtain ⟨⟨module, returned⟩, isStep, same⟩ :=
          Option.map_eq_some_iff.mp happens
        cases same
        cases isStep
        refine sweeps.sweep ?_ rfl rfl rfl
        intro index member
        exact List.mem_range.mp (List.mem_filter.mp member).1
  | sweepAnswered lookup answer =>
      simp only [Site.step] at happens
      split at happens
      · rename_i index module returned isIndex isStep
        have names : module.sweeps = conf.module.sweeps.eraseIdx lookup := by
          simp only [Plugin.step] at isStep
          split at isStep
          · cases isStep
          · cases isStep
            rfl
        split at happens
        · cases happens
          exact sweeps.erase rooms names rfl
        · cases happens
          exact sweeps.erase rooms names rfl
      · cases happens
  | sweepFailed lookup =>
      obtain ⟨⟨module, returned⟩, isStep, same⟩ :=
        Option.map_eq_some_iff.mp happens
      cases same
      simp only [Plugin.step] at isStep
      split at isStep
      · cases isStep
        exact sweeps.erase rooms rfl rfl
      · cases isStep
  | _ => exact (other id).elim

theorem Runs.sweeps (runs : site.Runs (.start now) conf trace) :
    Sweeps conf := by
  induction runs with
  | nil => exact ⟨rfl, by simp [Conference.start]⟩
  | step _ happens induction => exact induction.step happens

/-! ## What the hooks make happen -/

private theorem source_of_personal {act : Act} {happening : Happening}
    (personal : happening.Personal fun index => (conf.reach index).isSome) :
    happening.Source site conf act := by
  cases happening with
  | created | granted | closed => exact personal.elim
  | joined => exact personal
  | _ => trivial

section Personal

variable {isOpen : Nat → Prop}

private theorem occupantJoined_personal {index : Nat} {room : Room} {jid : Jid}
    {signed : Option Signed} {happening : Happening}
    (member : happening ∈ (site.occupantJoined conf index room jid signed).2) :
    happening.Personal isOpen := by
  unfold occupantJoined at member
  split at member
  · cases member
  · split at member
    · cases member
    · cases List.mem_singleton.mp member
      trivial

private theorem enter_personal {index : Nat} {nick : Bytes} {jid : Jid}
    {signed : Option Signed} {back : Option Return}
    (lets : isOpen index ∨ ∃ check, back = some check ∧ check.waited.isSome)
    {happening : Happening}
    (member : happening ∈ (site.enter conf index nick jid signed back).2) :
    happening.Personal isOpen := by
  unfold enter at member
  split at member
  · cases member
  · dsimp only at member
    split at member
    · rcases List.mem_cons.mp member with isJoined | isVouched
      · rw [isJoined]
        exact lets
      · exact occupantJoined_personal isVouched
    · cases List.mem_singleton.mp member
      exact lets

private theorem goOn_personal {back : Return} {task : Task}
    (lets : ∀ index nick jid signed, task = .join index nick jid signed →
      isOpen index ∨ back.waited.isSome) {happening : Happening}
    (member : happening ∈ (site.goOn conf back task).2) :
    happening.Personal isOpen := by
  cases task with
  | authenticate jid token parts =>
      simp only [goOn] at member
      split at member
      · rw [List.mem_singleton.mp member]
        trivial
      · rw [List.mem_singleton.mp member]
        trivial
      · split at member
        · cases member
        · rw [List.mem_singleton.mp member]
          trivial
  | request jid node signed =>
      simp only [goOn] at member
      repeat' split at member
      all_goals
        rw [List.mem_singleton.mp member]
        trivial
  | join index nick jid signed =>
      simp only [goOn] at member
      split at member
      · cases List.mem_singleton.mp member
        trivial
      · refine enter_personal ?_ member
        rcases lets index nick jid signed rfl with isOpen | waited
        · exact .inl isOpen
        · exact .inr ⟨back, rfl, waited⟩

private theorem ask_personal {name : Bytes} {ready : Bool} {task : Task}
    (lets : ∀ index nick jid signed, task = .join index nick jid signed →
      isOpen index)
    (happens : site.ask conf name ready task = some (later, more))
    {happening : Happening} (member : happening ∈ more) :
    happening.Personal isOpen := by
  unfold ask at happens
  split at happens
  · cases happens
  · rename_i back _
    rw [show more = _ from (congrArg Prod.snd (Option.some.inj happens)).symm]
      at member
    exact goOn_personal (fun index nick jid signed isJoin =>
      .inl (lets index nick jid signed isJoin)) member
  · cases happens
    cases member

end Personal

private theorem inModule_silent {event : Event}
    (happens : site.inModule conf event = some (later, more)) : more = [] := by
  obtain ⟨⟨module, returned⟩, -, same⟩ := Option.map_eq_some_iff.mp happens
  cases same
  rfl

/-- Everything that happens has its source in the act. -/
theorem step_source {act : Act}
    (happens : site.step conf act = some (later, more)) {happening : Happening}
    (member : happening ∈ more) : happening.Source site conf act := by
  cases act with
  | tick | evict | answered | failed =>
      rw [inModule_silent happens] at member
      cases member
  | resume call =>
      simp only [step] at happens
      split at happens
      · rename_i task module back isTask isStep
        rw [show more = _ from (congrArg Prod.snd (Option.some.inj happens)).symm]
          at member
        apply source_of_personal
        refine goOn_personal ?_ member
        intro index nick jid signed isJoin
        right
        exact Plugin.waited_of_resume isStep
      · cases happens
  | authenticate jid token ready =>
      simp only [step] at happens
      split at happens
      · cases happens
        cases List.mem_singleton.mp member
        trivial
      · cases happens
        cases List.mem_singleton.mp member
        trivial
      · exact source_of_personal (ask_personal (by simp) happens member)
  | request jid iq ready =>
      simp only [step] at happens
      split at happens
      · split at happens
        · cases happens
          cases member
        · exact source_of_personal (ask_personal (by simp) happens member)
      · cases happens
        cases member
  | create jid name nick =>
      simp only [step] at happens
      split at happens
      · cases happens
      split at happens
      · cases happens
        cases List.mem_singleton.mp member
        trivial
      · cases happens
        cases List.mem_singleton.mp member
        intro own isOwn
        split at isOwn
        · exact (Option.some.inj isOwn).symm
        · cases isOwn
  | join index nick jid ready =>
      simp only [step] at happens
      split at happens
      · cases happens
      rename_i room isReach
      have isOpen : (conf.reach index).isSome := by rw [isReach]; rfl
      apply source_of_personal
      split at happens
      · rw [show more = _ from (congrArg Prod.snd (Option.some.inj happens)).symm]
          at member
        exact enter_personal (.inl isOpen) member
      split at happens
      · cases happens
        cases List.mem_singleton.mp member
        trivial
      · refine ask_personal ?_ happens member
        intro other _ _ _ isJoin
        cases isJoin
        exact isOpen
  | leave | destroy =>
      obtain ⟨room, -, same⟩ := Option.map_eq_some_iff.mp happens
      cases same
      cases member
  | setAffiliation index actor target affiliation =>
      simp only [step] at happens
      split at happens
      · cases happens
      rename_i room isReach
      have isOpen : (conf.reach index).isSome := by rw [isReach]; rfl
      split at happens
      · cases happens
      split at happens
      · cases happens
        cases List.mem_singleton.mp member
        trivial
      · cases happens
        cases List.mem_singleton.mp member
        trivial
      · cases happens
        split at member
        · cases List.mem_singleton.mp member
          exact isOpen
        · cases member
  | sweepAnswered lookup answer =>
      simp only [step] at happens
      split at happens
      · split at happens
        · cases happens
          cases member
        · cases happens
          cases List.mem_singleton.mp member
          trivial
      · cases happens
  | connect jid =>
      simp only [step] at happens
      split at happens
      · cases happens
      · cases happens
        cases member
  | disconnect =>
      cases happens
      cases member
  | sweep =>
      simp only [step] at happens
      split at happens
      · cases happens
      · obtain ⟨_, -, same⟩ := Option.map_eq_some_iff.mp happens
        cases same
        cases member
  | sweepFailed =>
      obtain ⟨_, -, same⟩ := Option.map_eq_some_iff.mp happens
      cases same
      cases member

/-! ## Closed rooms -/

/-- The room was closed by this answer. -/
structure Shut (index : Nat) (state : Entry) (conf : Conference) : Prop where
  isDeleted : state.status = deleted
  isGone : ∃ room, conf.rooms[index]? = some room ∧ room.destroyed ∧
    conf.module.Logged room.name state

theorem Shut.step {index : Nat} {state : Entry} (shut : Shut index state conf)
    {act : Act} (happens : site.step conf act = some (later, more)) :
    Shut index state later := by
  obtain ⟨isDeleted, room, isRoom, destroyed, logged⟩ := shut
  obtain ⟨next, isNext, keeps⟩ := step_extends happens index room isRoom
  obtain ⟨fresh, log⟩ := step_log happens
  refine ⟨isDeleted, next, isNext, keeps.destroyed destroyed, ?_⟩
  rw [keeps.name]
  exact logged.mono log

theorem Shut.reach {index : Nat} {state : Entry}
    (shut : Shut index state conf) : conf.reach index = none := by
  obtain ⟨room, isRoom, destroyed, -⟩ := shut.isGone
  unfold Conference.reach
  rw [isRoom]
  simp [destroyed]

private theorem logged_of_sweepAnswered {lookup : Nat} {answer : Answer}
    {module : Module} {returned : Option Return}
    (happens : site.plugin.step conf.module (.sweepAnswered lookup answer) =
      some (module, returned)) :
    ∃ name, conf.module.sweeps[lookup]? = some name ∧
      module.Logged name (Plugin.entryOf conf.module answer) := by
  simp only [Plugin.step] at happens
  split at happens
  · cases happens
  · rename_i name isName
    cases happens
    refine ⟨name, isName, ?_⟩
    exact List.getElem?_concat_length

/-- When the sweep closes a room, nothing else happens. -/
private theorem shut_of_closed (sweeps : Sweeps conf) {act : Act} {index : Nat}
    {state : Entry} (happens : site.step conf act = some (later, more))
    (member : .closed index state ∈ more) :
    more = [.closed index state] ∧ Shut index state later := by
  have isSweep : act.IsSweep := step_source happens member
  cases act with
  | sweep =>
      simp only [step] at happens
      split at happens
      · cases happens
      · obtain ⟨_, -, same⟩ := Option.map_eq_some_iff.mp happens
        cases same
        cases member
  | sweepFailed =>
      obtain ⟨_, -, same⟩ := Option.map_eq_some_iff.mp happens
      cases same
      cases member
  | sweepAnswered lookup answer =>
      simp only [step] at happens
      split at happens
      · rename_i found module returned isIndex isStep
        split at happens
        · cases happens
          cases member
        · rename_i room isRoom
          cases happens
          cases List.mem_singleton.mp member
          refine ⟨rfl, ?_⟩
          obtain ⟨isRoom, isClosed⟩ := Option.filter_eq_some_iff.mp isRoom
          obtain ⟨isDeleted, -⟩ := of_decide_eq_true isClosed
          obtain ⟨name, isName, logged⟩ := logged_of_sweepAnswered isStep
          obtain ⟨known, isKnown, sameName⟩ :=
            sweeps.2 lookup index name isIndex isName
          rw [isRoom] at isKnown
          cases isKnown
          have inside := (List.getElem?_eq_some_iff.mp isRoom).1
          refine ⟨isDeleted, room.destroy, ?_, rfl, ?_⟩
          · exact List.getElem?_set_self inside
          · change module.Logged room.name _
            rwa [sameName]
      · cases happens
  | _ => exact isSweep.elim

/-- What holds after a happening, and is kept, holds wherever a later one
happens. -/
theorem Runs.after {start : Conference} {holds : Conference → Prop}
    {first : Happening}
    (makes : ∀ {earlier later : Conference} {old more act},
      site.Runs start earlier old → site.step earlier act = some (later, more) →
        first ∈ more → more = [first] ∧ holds later)
    (keeps : ∀ {earlier later : Conference} {more act}, holds earlier →
      site.step earlier act = some (later, more) → holds later)
    (runs : site.Runs start conf trace) {before after : List Happening}
    (isTrace : trace = before ++ first :: after) :
    holds conf ∧ ∀ second ∈ after, ∃ earlier act,
      holds earlier ∧ second.Source site earlier act ∧
        Extends earlier.rooms conf.rooms := by
  induction runs generalizing before after with
  | nil => simp at isTrace
  | @step conf later trace more act runs happens induction =>
      have rooms := step_extends happens
      rcases append_eq_split isTrace with ⟨rest, isOld⟩ | ⟨middle, -, isNew⟩
      · obtain ⟨held, earlier⟩ := induction isOld
        have isAfter : after = rest ++ more := by
          rw [isOld] at isTrace
          simpa using isTrace.symm
        refine ⟨keeps held happens, ?_⟩
        intro second member
        rw [isAfter] at member
        rcases List.mem_append.mp member with old | new
        · obtain ⟨before, act, held, source, extends_⟩ := earlier second old
          exact ⟨before, act, held, source, extends_.trans rooms⟩
        · exact ⟨conf, act, held, step_source happens new, rooms⟩
      · have member : first ∈ more := by simp [isNew]
        obtain ⟨isOnly, held⟩ := makes runs happens member
        rw [isOnly] at isNew
        refine ⟨held, ?_⟩
        have nothing : after = [] := by
          cases middle with
          | nil => simpa using isNew.symm
          | cons _ _ => simp at isNew
        simp [nothing]

private theorem Runs.shut (runs : site.Runs (.start now) conf trace)
    {index : Nat} {state : Entry} {before after : List Happening}
    (isTrace : trace = before ++ .closed index state :: after) :
    Shut index state conf ∧ ∀ second ∈ after, ∃ earlier act,
      Shut index state earlier ∧ second.Source site earlier act ∧
        Extends earlier.rooms conf.rooms :=
  runs.after (fun runs happens member =>
    shut_of_closed runs.sweeps happens member)
      (fun shut happens => shut.step happens) isTrace

/-- A short name of a room that the sweep closed comes back only on an active
answer that is newer than the one that closed it. -/
theorem reopened_on_newer (runs : site.Runs (.start now) conf trace)
    {index : Nat} {state : Entry} {before after : List Happening}
    (isTrace : trace = before ++ .closed index state :: after) {room : Room}
    (isRoom : conf.rooms[index]? = some room) (short : isShortName room.name)
    {other : Nat} {back : Option Return}
    (happened : .created other room.name back ∈ after) :
    ∃ own entry, back = some own ∧ own.verdict = .ok (some entry) ∧
      Allows own entry ∧ Latest site.plugin own entry ∧
      state.number < entry.number := by
  obtain ⟨-, later⟩ := runs.shut isTrace
  obtain ⟨earlier, act, shut, source, rooms⟩ := later _ happened
  obtain ⟨known, isKnown, -, logged⟩ := shut.isGone
  obtain ⟨next, isNext, keeps⟩ := rooms index known isKnown
  rw [isRoom] at isNext
  cases isNext
  have inTrace : .created other room.name back ∈ trace := by
    rw [isTrace]
    exact List.mem_append_right _ (List.mem_cons_of_mem _ happened)
  obtain ⟨own, entry, rfl, isName, ok, allows, latest⟩ :=
    runs.created_on_latest inTrace short
  have isOwn := source own rfl
  have inLog : own.module.log[state.number]? = some (own.name, state) := by
    rw [isName, keeps.name, isOwn, Plugin.usableNow_module]
    exact logged
  refine ⟨own, entry, rfl, ok, allows, latest, ?_⟩
  have notOlder := latest.latest state.number state inLog
  apply Nat.lt_of_le_of_ne notOlder
  intro same
  have isSame := allows.logged
  unfold Module.Logged at isSame
  rw [← same, inLog] at isSame
  cases isSame
  have isActive := allows.isActive
  rw [shut.isDeleted] at isActive
  exact absurd isActive (by decide)

end Site

namespace Sample

open MeetReserve.Sample (room)

def leavesOpen : Happening → Bool
  | .closed _ _ => false
  | _ => true

def reopens : Happening → Bool
  | .created index name _ => index = 1 ∧ name = room
  | _ => false

/-- The short room is closed and opened again behind that. -/
def comesBack (last : Conference × List Happening) : Bool :=
  match last.2.dropWhile leavesOpen with
  | .closed 0 _ :: after => after.any reopens && hasName 0 room last
  | _ => false

private theorem reopen_comesBack :
    site.Runs (.start 1000) reopened.1 reopened.2 ∧ comesBack reopened :=
  Site.runs_played (by decide +kernel)

private theorem reopen_splits :
    ∃ before state after back, reopened.2 = before ++ .closed 0 state :: after ∧
      .created 1 room back ∈ after ∧ hasName 0 room reopened := by
  have back := reopen_comesBack.2
  unfold comesBack at back
  split at back
  · rename_i state after isTail
    obtain ⟨happened, isNamed⟩ := Bool.and_eq_true_iff.mp back
    obtain ⟨happening, member, isCreated⟩ := List.any_eq_true.mp happened
    cases happening with
    | created index name own =>
        obtain ⟨rfl, rfl⟩ := of_decide_eq_true isCreated
        refine ⟨reopened.2.takeWhile leavesOpen, state, after, own, ?_, member,
          isNamed⟩
        rw [← isTail, List.takeWhile_append_dropWhile]
    | _ => cases isCreated
  · cases back

/-- The second one is there on a newer answer. -/
theorem reopened_on_newer_second :
    ∃ state own entry, .closed 0 state ∈ reopened.2 ∧
      .created 1 room (some own) ∈ reopened.2 ∧
      Allows own entry ∧ state.number < entry.number := by
  obtain ⟨before, state, after, back, isTrace, member, isNamed⟩ := reopen_splits
  obtain ⟨first, isRoom, isName⟩ := (Option.any_eq_true ..).mp isNamed
  have isName := of_decide_eq_true isName
  obtain ⟨own, entry, rfl, -, allows, -, newer⟩ :=
    Site.reopened_on_newer reopen_comesBack.1 isTrace isRoom
      (by rw [isName]; decide) (isName ▸ member)
  rw [isTrace]
  exact ⟨state, own, entry, by simp, by simp [member], allows, newer⟩

end Sample

end FfmucSalt.SignedRooms
