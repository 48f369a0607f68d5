import FfmucSalt.SignedRooms.Conference
import FfmucSalt.SignedRooms.Staleness

/-!
# What the hooks do

The cache in a run of conferences goes through a run of the module, with every
verdict that a hook relies on among its returns.  So all that holds of calls of
`room_usable` holds of what the hooks decide.
-/

namespace FfmucSalt.SignedRooms

namespace Plugin

variable {plugin : Plugin} {start module : Module} {returns : List Return}

/-- `verify_token` is what it does before and after `room_usable`. -/
theorem verifyToken_eq (json : JsonLibrary) (usable : Bytes → Verdict)
    (token : Bytes) (now : Seconds) :
    plugin.verifyToken json usable token now =
      match plugin.beginToken json token now with
      | .error verified => verified
      | .ok (parts, room) => endToken json (usable room) parts room := by
  unfold verifyToken beginToken endToken checkToken
  cases plugin.parseToken json token with
  | none => rfl
  | some parts =>
      dsimp only [bind, Except.bind]
      cases plugin.checkSignature json parts with
      | error reason => rfl
      | ok _ =>
          dsimp only
          cases plugin.checkClaims json parts.claims now with
          | error reason => rfl
          | ok room => rfl

/-- The room of a token is the one that its claims name. -/
theorem room_of_beginToken {json : JsonLibrary} {token room : Bytes}
    {now : Seconds} {parts : Parts}
    (begun : plugin.beginToken json token now = .ok (parts, room)) :
    text? (field parts.claims (ascii "room")) = some room := by
  unfold beginToken at begun
  split at begun
  · cases begun
  dsimp only at begun
  split at begun
  · cases begun
  rename_i checked
  cases begun
  cases isSignature : plugin.checkSignature json parts with
  | error reason => simp [isSignature, bind, Except.bind] at checked
  | ok _ =>
      simp only [isSignature, bind, Except.bind] at checked
      unfold checkClaims at checked
      dsimp only at checked
      repeat' split at checked
      all_goals first | cases checked; assumption | cases checked

/-- A call that may not wait returns at once. -/
theorem step_usableNow (module : Module) (name : Bytes) :
    plugin.step module (.call name false false) =
      some (module, some (plugin.usableNow module name)) := by
  unfold step usableNow
  dsimp only
  cases plugin.roomUsable name with
  | error reason => rfl
  | ok decide =>
      cases isState : plugin.roomState module name false false with
      | inl state => simp
      | inr cached =>
          unfold roomState at isState
          dsimp only at isState
          split at isState
          · cases isState
          · simp at isState

theorem usableNow_waited {name : Bytes} :
    (plugin.usableNow module name).waited = none := by
  unfold usableNow
  dsimp only
  split
  · rfl
  · rfl

theorem usableNow_module {name : Bytes} :
    (plugin.usableNow module name).module = module := by
  unfold usableNow
  dsimp only
  split
  · rfl
  · rfl

theorem Runs.usableNow (runs : plugin.Runs start module returns)
    (name : Bytes) :
    plugin.Runs start module (returns ++ [plugin.usableNow module name]) :=
  runs.step (step_usableNow module name)

/-- A call that returns at once leaves the module as it is. -/
theorem step_call_some {name : Bytes} {mayWait ready : Bool} {later : Module}
    {back : Return}
    (happens : plugin.step module (.call name mayWait ready) =
      some (later, some back)) :
    later = module ∧ back.name = name ∧ back.started = module.now := by
  unfold step at happens
  dsimp only at happens
  split at happens
  · cases happens
    exact ⟨rfl, rfl, rfl⟩
  · split at happens
    · cases happens
      exact ⟨rfl, rfl, rfl⟩
    · cases happens

/-- A session is valid if it has not expired and its room lets it be. -/
theorem sessionValid_eq_ok {signed : Signed} :
    plugin.sessionValid signed module = .ok () ↔
      plugin.expired signed module.now = false ∧
        stillValid signed (plugin.usableNow module signed.room).verdict =
          .ok () := by
  unfold sessionValid
  split
  · rename_i isExpired
    simp [isExpired]
  · rename_i notExpired
    simp [notExpired]

theorem isHostOf_iff {signed : Signed} {room : Room} :
    plugin.isHostOf signed room module ↔
      signed.role = hostRole ∧ signed.room = room.name ∧
        plugin.sessionValid signed module = .ok () := by
  unfold isHostOf
  rw [decide_eq_true_iff]
  cases plugin.sessionValid signed module with
  | error why => simp [Except.isOk, Except.toBool]
  | ok _ => simp [Except.isOk, Except.toBool]

/-- The room lets a session be if it is usable and the generation counts. -/
theorem stillValid_eq_ok {signed : Signed} {verdict : Verdict} :
    stillValid signed verdict = .ok () ↔
      ∃ state, verdict = .ok state ∧
        ∀ entry, state = some entry → entry.status = active →
          entry.gen = signed.gen := by
  unfold stillValid
  cases verdict with
  | error reason => simp
  | ok state =>
      cases state with
      | none => simp
      | some entry => simp

end Plugin

/-! ## The run of the cache -/

/-- The calls of `room_usable` that a happening rests on. -/
def Happening.backs : Happening → List Return
  | .authenticated _ _ back => [back]
  | .created _ _ back => back.toList
  | .joined _ _ _ back => back.toList
  | .vouched _ _ _ back => [back]
  | _ => []

namespace Site

variable {site : Site} {start : Module} {returns : List Return}
variable {conf later : Conference} {trace more : List Happening}

theorem name_roomCreated (name : Bytes) :
    (site.roomCreated name).name = name := by
  unfold roomCreated
  repeat' split
  all_goals rfl

theorem affiliations_roomCreated (name : Bytes) :
    (site.roomCreated name).affiliations = ∅ := by
  unfold roomCreated
  repeat' split
  all_goals rfl

/-- The run of the module goes on to the next state, and returns all that the
happenings rest on. -/
def Covers (site : Site) (start : Module) (returns : List Return)
    (conf : Conference) (more : List Happening) : Prop :=
  ∃ fresh, site.plugin.Runs start conf.module (returns ++ fresh) ∧
    ∀ happening ∈ more, ∀ back ∈ happening.backs, back ∈ returns ++ fresh

private theorem covers_nil
    (runs : site.plugin.Runs start conf.module returns) :
    site.Covers start returns conf [] :=
  ⟨[], by simpa using runs, by simp⟩

private theorem covers_known {happening : Happening}
    (runs : site.plugin.Runs start conf.module returns)
    (known : ∀ back ∈ happening.backs, back ∈ returns) :
    site.Covers start returns conf [happening] :=
  ⟨[], by simpa using runs, by simpa using known⟩

private theorem Covers.cons {happening : Happening}
    (covers : site.Covers start returns conf more)
    (known : ∀ back ∈ happening.backs, back ∈ returns) :
    site.Covers start returns conf (happening :: more) := by
  obtain ⟨fresh, runs, backs⟩ := covers
  refine ⟨fresh, runs, ?_⟩
  intro other member back isBack
  rcases List.mem_cons.mp member with first | rest
  · subst first
    exact List.mem_append_left _ (known back isBack)
  · exact backs other rest back isBack

private theorem covers_now {happening : Happening} {name : Bytes}
    (runs : site.plugin.Runs start conf.module returns)
    (backs : happening.backs = [site.plugin.usableNow conf.module name]) :
    site.Covers start returns conf [happening] := by
  refine ⟨_, runs.usableNow name, ?_⟩
  intro other member back isBack
  obtain rfl := List.mem_singleton.mp member
  rw [backs] at isBack
  exact List.mem_append_right _ isBack

private theorem occupantJoined_covers {index : Nat} {room : Room} {jid : Jid}
    {signed : Option Signed}
    (runs : site.plugin.Runs start conf.module returns) :
    site.Covers start returns
      (site.occupantJoined conf index room jid signed).1
      (site.occupantJoined conf index room jid signed).2 := by
  unfold occupantJoined
  split
  · exact covers_nil runs
  · split
    · exact covers_nil runs
    · exact covers_now runs rfl

private theorem enter_covers (index : Nat) (nick : Bytes) (jid : Jid)
    (signed : Option Signed) {back : Option Return}
    (runs : site.plugin.Runs start conf.module returns)
    (known : ∀ own, back = some own → own ∈ returns) :
    site.Covers start returns (site.enter conf index nick jid signed back).1
      (site.enter conf index nick jid signed back).2 := by
  have joined : ∀ own ∈ (Happening.joined index jid signed back).backs,
      own ∈ returns := by
    intro own isOwn
    exact known own (Option.mem_toList.mp isOwn)
  unfold enter
  split
  · exact covers_nil runs
  · rename_i room isNew entered
    dsimp only
    split
    · exact Covers.cons (occupantJoined_covers runs) joined
    · exact covers_known runs joined

private theorem goOn_covers (back : Return) (task : Task)
    (runs : site.plugin.Runs start conf.module returns)
    (known : back ∈ returns) :
    site.Covers start returns (site.goOn conf back task).1
      (site.goOn conf back task).2 := by
  cases task with
  | authenticate jid token parts =>
      simp only [goOn]
      split
      · exact covers_known runs (by simp [Happening.backs])
      · exact covers_known runs (by simp [Happening.backs])
      · split
        · exact covers_nil runs
        · exact covers_known runs (by simpa [Happening.backs] using known)
  | request jid node signed =>
      simp only [goOn]
      split
      · exact covers_known runs (by simp [Happening.backs])
      · exact covers_known runs (by simp [Happening.backs])
  | join room nick jid signed =>
      simp only [goOn]
      split
      · exact covers_known runs (by simp [Happening.backs])
      · apply enter_covers room nick jid (some signed) runs
        intro own isOwn
        cases isOwn
        exact known

private theorem Covers.after {event : Event} {returned : Option Return}
    {module next : Module} (runs : site.plugin.Runs start module returns)
    (happens : site.plugin.step module event = some (next, returned))
    (covers : site.plugin.Runs start next (returns ++ returned.toList) →
      site.Covers start (returns ++ returned.toList) later more) :
    site.Covers start returns later more := by
  obtain ⟨fresh, goesOn, backs⟩ := covers (runs.step happens)
  refine ⟨returned.toList ++ fresh, ?_, ?_⟩
  · rwa [List.append_assoc] at goesOn
  · rwa [List.append_assoc] at backs

private theorem ask_covers {name : Bytes} {ready : Bool} {task : Task}
    (runs : site.plugin.Runs start conf.module returns)
    (happens : site.ask conf name ready task = some (later, more)) :
    site.Covers start returns later more := by
  unfold ask at happens
  split at happens
  · cases happens
  · rename_i module back isCall
    have isOut : site.goOn conf back task = (later, more) :=
      Option.some.inj happens
    obtain ⟨rfl, -, -⟩ := Plugin.step_call_some isCall
    apply Covers.after runs isCall
    intro goesOn
    have covers := goOn_covers back task goesOn (by simp)
    rwa [isOut] at covers
  · rename_i module isCall
    cases happens
    apply Covers.after runs isCall
    exact fun goesOn => covers_nil goesOn

private theorem inModule_covers {event : Event}
    (runs : site.plugin.Runs start conf.module returns)
    (happens : site.inModule conf event = some (later, more)) :
    site.Covers start returns later more := by
  obtain ⟨⟨module, returned⟩, isStep, same⟩ := Option.map_eq_some_iff.mp happens
  cases same
  apply Covers.after runs isStep
  exact fun goesOn => covers_nil goesOn

/-- An act is some events of the cache. -/
theorem step_covers {act : Act}
    (runs : site.plugin.Runs start conf.module returns)
    (happens : site.step conf act = some (later, more)) :
    site.Covers start returns later more := by
  cases act with
  | tick time => exact inModule_covers runs happens
  | evict name => exact inModule_covers runs happens
  | answered call answer => exact inModule_covers runs happens
  | failed call => exact inModule_covers runs happens
  | resume call =>
      simp only [step] at happens
      split at happens
      · rename_i task module back isTask isStep
        have isOut := Option.some.inj happens
        let resumed : Conference :=
          { conf with module, tasks := conf.tasks.eraseIdx call }
        apply Covers.after runs isStep
        intro goesOn
        have reached : site.plugin.Runs start resumed.module _ := goesOn
        have covers := goOn_covers back task reached (by simp)
        rwa [isOut] at covers
      · cases happens
  | authenticate jid token ready =>
      simp only [step] at happens
      split at happens
      · cases happens
        exact covers_known runs (by simp [Happening.backs])
      · cases happens
        exact covers_known runs (by simp [Happening.backs])
      · exact ask_covers runs happens
  | connect jid =>
      simp only [step] at happens
      split at happens
      · cases happens
      · cases happens
        exact covers_nil runs
  | disconnect jid =>
      cases happens
      exact covers_nil runs
  | request jid iq ready =>
      simp only [step] at happens
      split at happens
      · split at happens
        · cases happens
          exact covers_nil runs
        · exact ask_covers runs happens
      · cases happens
        exact covers_nil runs
  | create jid name nick =>
      simp only [step] at happens
      split at happens
      · cases happens
      · split at happens
        · cases happens
          exact covers_known runs (by simp [Happening.backs])
        · cases happens
          split
          · exact covers_now runs rfl
          · exact covers_known runs (by simp [Happening.backs])
  | join index nick jid ready =>
      simp only [step] at happens
      split at happens
      · cases happens
      · split at happens
        · rename_i room _ _ _ _
          have isOut := Option.some.inj happens
          have noCall : ∀ own, (none : Option Return) = some own →
              own ∈ returns := by simp
          have covers := enter_covers index nick jid
            ((conf.lookup jid).bind (·.signed)) runs noCall
          rwa [isOut] at covers
        · split at happens
          · cases happens
            exact covers_known runs (by simp [Happening.backs])
          · exact ask_covers runs happens
  | leave index jid =>
      obtain ⟨room, isRoom, same⟩ := Option.map_eq_some_iff.mp happens
      cases same
      exact covers_nil runs
  | setAffiliation index actor target affiliation =>
      simp only [step] at happens
      split at happens
      · cases happens
      · split at happens
        · cases happens
        · split at happens
          · cases happens
            exact covers_known runs (by simp [Happening.backs])
          · cases happens
            exact covers_now runs rfl
          · cases happens
            split
            · exact covers_known runs (by simp [Happening.backs])
            · exact covers_nil runs
  | destroy index =>
      obtain ⟨room, isRoom, same⟩ := Option.map_eq_some_iff.mp happens
      cases same
      exact covers_nil runs
  | sweep =>
      simp only [step] at happens
      split at happens
      · cases happens
      · obtain ⟨⟨module, returned⟩, isStep, same⟩ :=
          Option.map_eq_some_iff.mp happens
        cases same
        apply Covers.after runs isStep
        exact fun goesOn => covers_nil goesOn
  | sweepAnswered lookup answer =>
      simp only [step] at happens
      split at happens
      · rename_i index module returned isIndex isStep
        apply Covers.after runs isStep
        intro goesOn
        split at happens
        · cases happens
          exact covers_nil goesOn
        · cases happens
          exact covers_known goesOn (by simp [Happening.backs])
      · cases happens
  | sweepFailed lookup =>
      obtain ⟨⟨module, returned⟩, isStep, same⟩ :=
        Option.map_eq_some_iff.mp happens
      cases same
      apply Covers.after runs isStep
      exact fun goesOn => covers_nil goesOn

/-- A run of conferences is a run of the module, and every call of
`room_usable` that a happening rests on is one of its returns. -/
theorem Runs.refines {now : Seconds}
    (runs : site.Runs (.start now) conf trace) :
    ∃ returns, site.plugin.Runs (.start now) conf.module returns ∧
      ∀ happening ∈ trace, ∀ back ∈ happening.backs, back ∈ returns := by
  induction runs with
  | nil => exact ⟨[], .nil, by simp⟩
  | step _ happens induction =>
      obtain ⟨returns, runs, backs⟩ := induction
      obtain ⟨fresh, goesOn, more⟩ := step_covers runs happens
      refine ⟨returns ++ fresh, goesOn, ?_⟩
      intro happening member back isBack
      rcases List.mem_append.mp member with old | new
      · exact List.mem_append_left _ (backs happening old back isBack)
      · exact more happening new back isBack

/-- What a hook relies on is justified. -/
theorem Runs.justified {now : Seconds}
    (runs : site.Runs (.start now) conf trace) {happening : Happening}
    (member : happening ∈ trace) {back : Return}
    (isBack : back ∈ happening.backs) : site.plugin.Justified back := by
  obtain ⟨returns, runs, backs⟩ := runs.refines
  exact runs.sound.2 back (backs happening member back isBack)

end Site

end FfmucSalt.SignedRooms
