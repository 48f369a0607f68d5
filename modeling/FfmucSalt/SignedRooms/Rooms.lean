import FfmucSalt.SignedRooms.Names
import Mathlib.Data.Rat.Lemmas
import Mathlib.Logic.Relation

/-!
# Room states in the Prosody module

The cache of lookup answers and the calls of `room_usable`, as a state machine.
Prosody runs one thing at a time: an event is a piece of Lua between two
waits.  A call that waits goes on at any time after its own lookup ended;
meanwhile other calls, the sweep, and answers to their lookups come and go in
any order.
-/

namespace FfmucSalt.SignedRooms

/-! ## Answers -/

def active : Bytes := ascii "active"

def deleted : Bytes := ascii "deleted"

/-- What a lookup answers.  A finite Lua number is a fraction. -/
structure Answer where
  status : Bytes
  expires : Option ℚ
  gen : Bytes
  deriving DecidableEq

/-- A state of a room, as the cache holds it. -/
structure Entry extends Answer where
  /-- `at` -/
  atTime : Seconds
  /-- How many answers came before it, for proofs only. -/
  number : Nat
  deriving DecidableEq

/-- `has_record`: whether meet-reserve has a record for the room. -/
def Answer.hasRecord (answer : Answer) : Bool :=
  answer.status ≠ ascii "legacy" && answer.status ≠ ascii "unknown"

/-- The expiry that came with the answer is over. -/
def Answer.expired (answer : Answer) (now : Seconds) : Bool :=
  match answer.expires with
  | none => false
  | some expires => expires < now

/-- What `room_usable` returns: the state, or the reason and the state. -/
abbrev Verdict := Except (Bytes × Option Entry) (Option Entry)

namespace Plugin

variable (plugin : Plugin)

/-! ## Whether a room may exist -/

/-- The part of `room_usable` in which the record decides. -/
def byRecord (state : Entry) (now : Seconds) : Verdict :=
  if state.status ≠ active then .error (state.status, some state)
  else if state.expired now then .error (ascii "expired", some state)
  else .ok (some state)

/-- The part of `room_usable` for short names. -/
def shortUsable (state : Option Entry) (now : Seconds) : Verdict :=
  match state with
  | none => .error (ascii "lookup failed", none)
  | some state => byRecord state now

/-- The last lines of `room_usable`, in which the signature decides. -/
def bySignature (exp : Seconds) (state : Option Entry) (now : Seconds) :
    Verdict :=
  if exp + plugin.options.maxExtension < now then .error (ascii "expired", none)
  else .ok state

/-- The part of `room_usable` for v1 names. -/
def legacyUsable (exp : Seconds) (state : Option Entry) (migrated : Bool)
    (now : Seconds) : Verdict :=
  match state with
  | some state =>
      if state.hasRecord then byRecord state now
      else plugin.bySignature exp (some state) now
  | none =>
      if migrated then .error (ascii "lookup failed", none)
      else plugin.bySignature exp none now

/-- `room_usable` refuses a name, or goes on with what `room_state` returns,
whether the room is in `migrated`, and the time. -/
def roomUsable (name : Bytes) :
    Except Bytes (Option Entry → Bool → Seconds → Verdict) :=
  if isShortName name then .ok fun state _ now => shortUsable state now
  else if ¬ isLegacyLength name then .error (ascii "malformed")
  else
    match plugin.parseRoom name with
    | .error err => .error err
    | .ok exp => .ok (plugin.legacyUsable exp)

end Plugin

/-! ## The module as it runs -/

/-- A call of `room_usable` that waits in `room_state`. -/
structure Call where
  name : Bytes
  /-- The old entry, if it may still be used. -/
  cached : Option Entry
  started : Seconds
  /-- How many answers came before the call. -/
  began : Nat
  /-- What its own lookup came to, once it ended. -/
  fresh : Option (Option Entry)

structure Module where
  now : Seconds
  states : FiniteMap Bytes Entry
  migrated : FiniteMap Bytes Seconds
  /-- The calls that wait. -/
  calls : List Call
  /-- The rooms that the sweep looks up. -/
  sweeps : List Bytes
  /-- All answers received so far, with their rooms. -/
  log : List (Bytes × Entry)

def Module.start (now : Seconds) : Module :=
  { now, states := ∅, migrated := ∅, calls := [], sweeps := [], log := [] }

/-- A call that returns. -/
structure Return where
  /-- The module at that moment. -/
  module : Module
  name : Bytes
  started : Seconds
  /-- How many answers came before the call. -/
  began : Nat
  /-- The call, if it waited. -/
  waited : Option Call
  /-- What `room_state` returns. -/
  state : Option Entry
  verdict : Verdict

inductive Event where
  | tick (time : Seconds)
  /-- The cache drops an entry. -/
  | evict (name : Bytes)
  /-- A session calls `room_usable`, in an async context or not. -/
  | call (name : Bytes) (mayWait ready : Bool)
  /-- The lookup of a waiting call is answered. -/
  | answered (call : Nat) (answer : Answer)
  /-- The lookup of a waiting call fails or times out. -/
  | failed (call : Nat)
  /-- A waiting call goes on. -/
  | resume (call : Nat)
  /-- A tick of the sweep. -/
  | sweep (rooms : List Bytes)
  | sweepAnswered (lookup : Nat) (answer : Answer)
  | sweepFailed (lookup : Nat)

namespace Plugin

variable (plugin : Plugin)

/-- `room_state` returns a state, or waits for a lookup with an old entry in
hand. -/
def roomState (module : Module) (name : Bytes) (mayWait ready : Bool) :
    Option Entry ⊕ Option Entry :=
  let cached := module.states[name]?
  let age := fun entry : Entry => module.now - entry.atTime
  match cached.filter fun entry => age entry < plugin.options.lookupTtl with
  | some entry => .inl (some entry)
  | none =>
      let cached := cached.filter fun entry =>
        age entry < plugin.options.lookupGrace
      if plugin.options.lookupUrl = none ∨ ¬ mayWait ∨ ¬ ready then .inl cached
      else .inr cached

/-- The entry that an answer becomes. -/
def entryOf (module : Module) (answer : Answer) : Entry :=
  { answer with atTime := module.now, number := module.log.length }

/-- `finish` in `fetch_state`, for an answer. -/
def finish (module : Module) (name : Bytes) (answer : Answer) : Module :=
  let state := entryOf module answer
  let migrated :=
    if state.hasRecord ∧ isLegacyLength name then
      match plugin.parseRoom name with
      | .error _ => module.migrated
      | .ok exp =>
          module.migrated.insert name (exp + plugin.options.maxExtension)
    else module.migrated
  { module with
    states := module.states.insert name state
    migrated
    log := module.log ++ [(name, state)] }

/-- The loop of the sweep over `migrated`. -/
def prune (module : Module) : FiniteMap Bytes Seconds :=
  module.migrated.foldl (fun kept name until_ =>
    if until_ < module.now then kept.erase name else kept) module.migrated

/-- An event, with the call that it lets return. -/
def step (module : Module) : Event → Option (Module × Option Return)
  | .tick time =>
      if module.now ≤ time then some ({ module with now := time }, none)
      else none
  | .evict name =>
      some ({ module with states := module.states.erase name }, none)
  | .call name mayWait ready =>
      let returns := fun state verdict =>
        { module, name, started := module.now, began := module.log.length
          waited := none, state, verdict : Return }
      match plugin.roomUsable name with
      | .error reason => some (module, some (returns none (.error (reason, none))))
      | .ok decide =>
          match plugin.roomState module name mayWait ready with
          | .inl state =>
              some (module, some (returns state
                (decide state (module.migrated.contains name) module.now)))
          | .inr cached =>
              let call : Call :=
                { name, cached, started := module.now
                  began := module.log.length, fresh := none }
              some ({ module with calls := module.calls ++ [call] }, none)
  | .answered index answer =>
      match module.calls[index]? with
      | none => none
      | some call =>
          if call.fresh.isSome then none
          else
            let later := plugin.finish module call.name answer
            let fresh := some (some (entryOf module answer))
            some ({ later with
              calls := module.calls.set index { call with fresh } }, none)
  | .failed index =>
      match module.calls[index]? with
      | none => none
      | some call =>
          if call.fresh.isSome then none
          else
            some ({ module with
              calls := module.calls.set index
                { call with fresh := some none } }, none)
  | .resume index =>
      match module.calls[index]? with
      | none => none
      | some call =>
          match call.fresh, plugin.roomUsable call.name with
          | some fresh, .ok decide =>
              let state := fresh.or call.cached
              let verdict :=
                decide state (module.migrated.contains call.name) module.now
              some ({ module with calls := module.calls.eraseIdx index },
                some { module, name := call.name, started := call.started
                       began := call.began, waited := some call, state
                       verdict })
          | _, _ => none
  | .sweep rooms =>
      some ({ module with
        migrated := prune module, sweeps := module.sweeps ++ rooms }, none)
  | .sweepAnswered index answer =>
      match module.sweeps[index]? with
      | none => none
      | some name =>
          some ({ plugin.finish module name answer with
            sweeps := module.sweeps.eraseIdx index }, none)
  | .sweepFailed index =>
      if index < module.sweeps.length then
        some ({ module with sweeps := module.sweeps.eraseIdx index }, none)
      else none

/-- Any number of events, with all calls that returned on the way. -/
inductive Runs (start : Module) : Module → List Return → Prop where
  | nil : Runs start start []
  | step {module later : Module} {returns : List Return} {event : Event}
      {returned : Option Return} (runs : Runs start module returns)
      (happens : plugin.step module event = some (later, returned)) :
      Runs start later (returns ++ returned.toList)

/-- The events one after another. -/
def play (module : Module) : List Event → Option (Module × List Return)
  | [] => some (module, [])
  | event :: events => do
      let (later, returned) ← plugin.step module event
      let (last, returns) ← play later events
      return (last, returned.toList ++ returns)

variable {plugin} {start module last : Module} {returns more : List Return}

/-- A return shows the module as it was before the event. -/
theorem step_module {event : Event} {back : Return}
    (happens : plugin.step module event = some (last, some back)) :
    back.module = module := by
  cases event
  all_goals
    simp only [step] at happens
    repeat' split at happens
    all_goals cases happens
    all_goals rfl

/-- What every event keeps holds at the end of a run and at every return. -/
theorem Runs.keeps {motive : Module → Prop}
    (runs : plugin.Runs start module returns) (holds : motive start)
    (step : ∀ {module later : Module} {event : Event}
      {returned : Option Return}, motive module →
      plugin.step module event = some (later, returned) → motive later) :
    motive module ∧ ∀ back ∈ returns, motive back.module := by
  induction runs with
  | nil => exact ⟨holds, by simp⟩
  | step _ happens induction =>
      obtain ⟨before, earlier⟩ := induction
      refine ⟨step before happens, ?_⟩
      intro back member
      rcases List.mem_append.mp member with old | new
      · exact earlier back old
      · rw [Option.mem_toList] at new
        cases new
        exact step_module happens ▸ before

theorem Runs.play {events : List Event} (runs : plugin.Runs start module returns)
    (plays : plugin.play module events = some (last, more)) :
    plugin.Runs start last (returns ++ more) := by
  induction events generalizing module returns more with
  | nil =>
      cases plays
      simpa using runs
  | cons event events induction =>
      simp only [Plugin.play, Option.bind_eq_bind, Option.bind_eq_some_iff,
        Option.pure_def] at plays
      obtain ⟨⟨later, returned⟩, happens, ⟨final, rest⟩, goesOn, same⟩ := plays
      cases same
      have onward := induction (runs.step happens) goesOn
      rwa [List.append_assoc] at onward

/-- The module after events that happen, and all that returns on the way. -/
def played (plugin : Plugin) (start : Module) (events : List Event) :
    Module × List Return :=
  (plugin.play start events).getD (start, [])

theorem runs_played {events : List Event}
    (happen : (plugin.play start events).isSome) :
    plugin.Runs start (plugin.played start events).1
      (plugin.played start events).2 := by
  obtain ⟨⟨last, returns⟩, plays⟩ := Option.isSome_iff_exists.mp happen
  rw [played, plays]
  exact Runs.nil.play plays

end Plugin

end FfmucSalt.SignedRooms
