import FfmucSalt.SignedRooms.Hooks
import Mathlib.Data.List.InsertIdx

/-!
# What sessions come with

A session is of a host or speaker only if `verify_token` accepted its token.
The hooks pass this on while they wait, and whatever they decide they owe to
it and to a call of `room_usable`.
-/

namespace FfmucSalt.SignedRooms

/-! ## Rooms keep what they are -/

/-- A room that changes, but not its name and kind.  It is not reopened. -/
structure Room.Keeps (room later : Room) : Prop where
  name : later.name = room.name
  signed : later.signed = room.signed
  destroyed : room.destroyed → later.destroyed

theorem Room.Keeps.refl (room : Room) : room.Keeps room := ⟨rfl, rfl, id⟩

theorem Room.Keeps.trans {room next later : Room} (first : room.Keeps next)
    (second : next.Keeps later) : room.Keeps later where
  name := second.name.trans first.name
  signed := second.signed.trans first.signed
  destroyed := second.destroyed ∘ first.destroyed

theorem Room.affiliate_keeps (room : Room) (target : Bytes)
    (affiliation : Option Affiliation) :
    room.Keeps (room.affiliate target affiliation) := by
  cases affiliation with
  | none => exact ⟨rfl, rfl, id⟩
  | some affiliation => exact ⟨rfl, rfl, id⟩

theorem Room.destroy_keeps (room : Room) : room.Keeps room.destroy :=
  ⟨rfl, rfl, fun _ => rfl⟩

theorem Room.leave_keeps (room : Room) (jid : Jid) :
    room.Keeps (room.leave jid) := ⟨rfl, rfl, id⟩

theorem Room.enter_eq_some {room entered : Room} {nick : Bytes} {jid : Jid}
    {isNew : Bool} (enters : room.enter nick jid = some (entered, isNew)) :
    room.Keeps entered ∧ entered.affiliations = room.affiliations := by
  unfold enter at enters
  split at enters
  · cases enters
    exact ⟨⟨rfl, rfl, id⟩, rfl⟩
  · split at enters
    · cases enters
    · cases enters
      exact ⟨⟨rfl, rfl, id⟩, rfl⟩

/-- Every room is still there. -/
def Extends (rooms later : List Room) : Prop :=
  ∀ (index : Nat) (room : Room), rooms[index]? = some room →
    ∃ next, later[index]? = some next ∧ room.Keeps next

theorem Extends.refl (rooms : List Room) : Extends rooms rooms :=
  fun _ room isRoom => ⟨room, isRoom, .refl room⟩

theorem Extends.trans {rooms next later : List Room}
    (first : Extends rooms next) (second : Extends next later) :
    Extends rooms later := by
  intro index room isRoom
  obtain ⟨middle, isMiddle, keeps⟩ := first index room isRoom
  obtain ⟨last, isLast, keepsOn⟩ := second index middle isMiddle
  exact ⟨last, isLast, keeps.trans keepsOn⟩

theorem extends_append (rooms : List Room) (room : Room) :
    Extends rooms (rooms ++ [room]) := by
  intro index other isOther
  refine ⟨other, ?_, .refl other⟩
  rw [List.getElem?_append_left (List.getElem?_eq_some_iff.mp isOther).1]
  exact isOther

theorem extends_set {rooms : List Room} {index : Nat} {room next : Room}
    (isRoom : rooms[index]? = some room) (keeps : room.Keeps next) :
    Extends rooms (rooms.set index next) := by
  intro other found isFound
  rw [List.getElem?_set]
  split
  · rename_i same
    subst same
    rw [isRoom] at isFound
    cases isFound
    exact ⟨next, if_pos (List.getElem?_eq_some_iff.mp isRoom).1, keeps⟩
  · exact ⟨found, isFound, .refl found⟩

/-! ## What happenings owe -/

/-- A token was accepted and made a session of this JID that carries
`signed`. -/
def Bears (trace : List Happening) (jid : Jid) (signed : Signed) : Prop :=
  ∃ token back,
    .authenticated { jid, signed := some signed } token back ∈ trace

theorem Bears.mono {trace more : List Happening} {jid : Jid} {signed : Signed}
    (bears : Bears trace jid signed) (includes : trace ⊆ more) :
    Bears more jid signed := by
  obtain ⟨token, back, member⟩ := bears
  exact ⟨token, back, includes member⟩

/-- A session may go on as what it is, by this call of `room_usable`. -/
structure Passes (site : Site) (signed : Signed) (back : Return) : Prop where
  room : back.name = signed.room
  inTime : site.plugin.expired signed back.started = false
  valid : Plugin.stillValid signed back.verdict = .ok ()

/-- What a happening owes to those before it. -/
def Happening.Owes (site : Site) (rooms : List Room) (before : List Happening) :
    Happening → Prop
  | .authenticated session token back =>
      ∃ claims role, site.plugin.verifyToken site.json (fun _ => back.verdict)
          token back.started = .accepted claims role ∧
        session.signed = some (signedOf site.json claims role) ∧
        text? (field claims (ascii "room")) = some back.name
  | .created _ name back =>
      isSignedName name → ∃ own, back = some own ∧ own.name = name ∧
        own.waited = none ∧ ∃ state, own.verdict = .ok state
  | .joined index jid signed back =>
      ∃ room, rooms[index]? = some room ∧
        ∀ own, signed = some own → own.room = room.name →
          Bears before jid own ∧ ∃ check, back = some check ∧ Passes site own check
  | .vouched index target host back =>
      (∃ jid : Jid, jid.bare = target ∧ Bears before jid host) ∧
        host.role = hostRole ∧
        (∃ room, rooms[index]? = some room ∧ room.name = host.room) ∧
        back.waited = none ∧ Passes site host back
  | _ => True

theorem Happening.Owes.mono {site : Site} {rooms later : List Room}
    {before more : List Happening} {happening : Happening}
    (owes : happening.Owes site rooms before) (keeps : Extends rooms later)
    (includes : before ⊆ more) : happening.Owes site later more := by
  cases happening with
  | joined index jid signed back =>
      obtain ⟨room, isRoom, checked⟩ := owes
      obtain ⟨next, isNext, kept⟩ := keeps index room isRoom
      refine ⟨next, isNext, ?_⟩
      intro own isOwn sameRoom
      obtain ⟨bears, check⟩ := checked own isOwn (sameRoom.trans kept.name)
      exact ⟨bears.mono includes, check⟩
  | vouched index target host back =>
      obtain ⟨⟨jid, own, bears⟩, isHost, ⟨room, isRoom, sameRoom⟩, rest⟩ := owes
      obtain ⟨next, isNext, kept⟩ := keeps index room isRoom
      exact ⟨⟨jid, own, bears.mono includes⟩, isHost,
        ⟨next, isNext, kept.name.trans sameRoom⟩, rest⟩
  | _ => exact owes

/-! ## Waiting calls -/

/-- Who asked for what, and when. -/
def Module.asked (module : Module) : List (Bytes × Seconds) :=
  module.calls.map fun call => (call.name, call.started)

/-- A call that began is for a task. -/
def Task.Fits (site : Site) (rooms : List Room) (trace : List Happening)
    (asked : Bytes × Seconds) : Task → Prop
  | .authenticate _ token parts =>
      site.plugin.beginToken site.json token asked.2 = .ok (parts, asked.1)
  | .request _ node _ => node = asked.1
  | .join index _ jid signed =>
      Bears trace jid signed ∧ asked.1 = signed.room ∧
        site.plugin.expired signed asked.2 = false ∧
        ∃ room, rooms[index]? = some room ∧ room.name = signed.room

theorem Task.Fits.mono {site : Site} {rooms later : List Room}
    {trace more : List Happening} {asked : Bytes × Seconds} {task : Task}
    (fits : task.Fits site rooms trace asked) (keeps : Extends rooms later)
    (includes : trace ⊆ more) : task.Fits site later more asked := by
  cases task with
  | join index nick jid signed =>
      obtain ⟨bears, isName, inTime, room, isRoom, sameRoom⟩ := fits
      obtain ⟨next, isNext, kept⟩ := keeps index room isRoom
      exact ⟨bears.mono includes, isName, inTime, next, isNext,
        kept.name.trans sameRoom⟩
  | _ => exact fits

/-- Events that neither begin nor end a call. -/
def Event.Quiet : Event → Prop
  | .call _ _ _ | .resume _ => False
  | _ => True

namespace Plugin

variable {plugin : Plugin} {module later : Module}

private theorem asked_set {index : Nat} {call : Call}
    (isCall : module.calls[index]? = some call) (fresh : Option (Option Entry)) :
    (module.calls.set index { call with fresh }).map
        (fun call => (call.name, call.started)) = module.asked := by
  apply List.ext_getElem?
  intro other
  simp only [Module.asked, List.getElem?_map, List.getElem?_set]
  split
  · rename_i same
    subst same
    obtain ⟨bound, isCall⟩ := List.getElem?_eq_some_iff.mp isCall
    simp [bound, isCall]
  · rfl

theorem asked_quiet {event : Event} {returned : Option Return}
    (quiet : event.Quiet)
    (happens : plugin.step module event = some (later, returned)) :
    later.asked = module.asked ∧ returned = none := by
  cases event with
  | call | resume => cases quiet
  | tick | sweepFailed =>
      simp only [step] at happens
      split at happens
      · cases happens
        exact ⟨rfl, rfl⟩
      · cases happens
  | evict | sweep =>
      cases happens
      exact ⟨rfl, rfl⟩
  | sweepAnswered =>
      simp only [step] at happens
      split at happens
      · cases happens
      · cases happens
        exact ⟨rfl, rfl⟩
  | answered | failed =>
      simp only [step] at happens
      split at happens
      · cases happens
      · rename_i call isCall
        split at happens
        · cases happens
        · cases happens
          exact ⟨asked_set isCall _, rfl⟩

theorem asked_call {name : Bytes} {mayWait ready : Bool}
    (happens : plugin.step module (.call name mayWait ready) =
      some (later, none)) :
    later.asked = module.asked ++ [(name, module.now)] := by
  unfold step at happens
  dsimp only at happens
  split at happens
  · cases happens
  · split at happens
    · cases happens
    · cases happens
      simp [Module.asked]

theorem asked_resume {index : Nat} {back : Return}
    (happens : plugin.step module (.resume index) = some (later, some back)) :
    later.asked = module.asked.eraseIdx index ∧
      module.asked[index]? = some (back.name, back.started) := by
  simp only [step] at happens
  split at happens
  · cases happens
  · rename_i call isCall
    split at happens
    · cases happens
      exact ⟨(List.eraseIdx_map ..).symm, by simp [Module.asked, isCall]⟩
    · cases happens

end Plugin

/-! ## The invariant -/

namespace Site

variable {site : Site} {conf later : Conference}
variable {trace more : List Happening}

/-- What holds of every state, with all that happened so far. -/
structure Sane (site : Site) (conf : Conference) (trace : List Happening) :
    Prop where
  sessions : ∀ session ∈ conf.sessions, ∀ signed,
    session.signed = some signed → Bears trace session.jid signed
  tasks : conf.tasks.length = conf.module.asked.length ∧
    ∀ (index : Nat) (task : Task) asked, conf.tasks[index]? = some task →
      conf.module.asked[index]? = some asked →
        task.Fits site conf.rooms trace asked
  owes : ∀ before happening after, trace = before ++ happening :: after →
    happening.Owes site conf.rooms before

/-- What an act does to sessions and rooms, and what the happenings owe. -/
structure Goes (site : Site) (trace : List Happening) (conf later : Conference)
    (more : List Happening) : Prop where
  sessions : ∀ session ∈ later.sessions, session ∈ conf.sessions ∨
    session.signed = none ∨
      ∃ token back, .authenticated session token back ∈ more
  rooms : Extends conf.rooms later.rooms
  owes : ∀ before happening after, more = before ++ happening :: after →
    happening.Owes site later.rooms (trace ++ before)

theorem sane_start (now : Seconds) : site.Sane (.start now) [] where
  sessions := by simp [Conference.start]
  tasks := by simp [Conference.start, Module.start, Module.asked]
  owes := by simp

theorem append_eq_split {before after : List Happening}
    {happening : Happening}
    (isTrace : trace ++ more = before ++ happening :: after) :
    (∃ rest, trace = before ++ happening :: rest) ∨
      ∃ middle, before = trace ++ middle ∧
        more = middle ++ happening :: after := by
  rcases List.append_eq_append_iff.mp isTrace with
    ⟨middle, isBefore, isMore⟩ | ⟨middle, isTrace, isAfter⟩
  · exact .inr ⟨middle, isBefore, isMore⟩
  · cases middle with
    | nil =>
        right
        refine ⟨[], ?_, ?_⟩
        · simpa using isTrace.symm
        · simpa using isAfter.symm
    | cons first rest =>
        simp only [List.cons_append, List.cons.injEq] at isAfter
        left
        exact ⟨rest, isAfter.1 ▸ isTrace⟩

/-- An act keeps the invariant if the tasks still fit. -/
theorem Sane.goes (sane : site.Sane conf trace)
    (goes : site.Goes trace conf later more)
    (tasks : later.tasks.length = later.module.asked.length ∧
      ∀ (index : Nat) (task : Task) asked, later.tasks[index]? = some task →
        later.module.asked[index]? = some asked →
          task.Fits site conf.rooms trace asked) :
    site.Sane later (trace ++ more) where
  sessions session member signed isSigned := by
    rcases goes.sessions session member with old | unsigned | new
    · exact (sane.sessions session old signed isSigned).mono
        (List.subset_append_left ..)
    · rw [unsigned] at isSigned
      cases isSigned
    · obtain ⟨token, back, happened⟩ := new
      obtain ⟨jid, carries⟩ := session
      dsimp only at isSigned
      subst isSigned
      exact ⟨token, back, List.mem_append_right _ happened⟩
  tasks := by
    refine ⟨tasks.1, ?_⟩
    intro index task asked isTask isAsked
    exact (tasks.2 index task asked isTask isAsked).mono goes.rooms
      (List.subset_append_left ..)
  owes before happening after isTrace := by
    rcases append_eq_split isTrace with ⟨rest, isOld⟩ | ⟨middle, rfl, isNew⟩
    · exact (sane.owes before happening rest isOld).mono goes.rooms
        (List.Subset.refl _)
    · exact goes.owes middle happening after isNew

/-! ## Acts on sessions and rooms -/

private theorem goes_calm (sessions : later.sessions ⊆ conf.sessions)
    (rooms : Extends conf.rooms later.rooms) :
    site.Goes trace conf later [] where
  sessions session member := .inl (sessions member)
  rooms := rooms
  owes := by simp

private theorem goes_one {happening : Happening}
    (sessions : later.sessions ⊆ conf.sessions)
    (rooms : Extends conf.rooms later.rooms)
    (owes : happening.Owes site later.rooms trace) :
    site.Goes trace conf later [happening] where
  sessions session member := .inl (sessions member)
  rooms := rooms
  owes before other after isOnly := by
    cases before with
    | nil =>
        cases isOnly
        rwa [List.append_nil]
    | cons first rest => simp at isOnly

private theorem Goes.trans {next : Conference} {rest : List Happening}
    (first : site.Goes trace conf next more)
    (second : site.Goes (trace ++ more) next later rest) :
    site.Goes trace conf later (more ++ rest) where
  sessions session member := by
    rcases second.sessions session member with old | unsigned | new
    · rcases first.sessions session old with older | unsigned | new
      · exact .inl older
      · exact .inr (.inl unsigned)
      · obtain ⟨token, back, happened⟩ := new
        exact .inr (.inr ⟨token, back, List.mem_append_left _ happened⟩)
    · exact .inr (.inl unsigned)
    · obtain ⟨token, back, happened⟩ := new
      exact .inr (.inr ⟨token, back, List.mem_append_right _ happened⟩)
  rooms := first.rooms.trans second.rooms
  owes before happening after isMore := by
    rcases append_eq_split isMore with ⟨others, isOld⟩ | ⟨middle, rfl, isNew⟩
    · exact (first.owes before happening others isOld).mono second.rooms
        (List.Subset.refl _)
    · rw [← List.append_assoc]
      exact second.owes middle happening after isNew

/-- Coming in leaves the cache alone. -/
theorem enter_frame (site : Site) (conf : Conference) (index : Nat)
    (nick : Bytes) (jid : Jid) (signed : Option Signed) (back : Option Return) :
    let later := (site.enter conf index nick jid signed back).1
    later.module = conf.module ∧ later.tasks = conf.tasks ∧
      later.sweeping = conf.sweeping := by
  simp only [enter, occupantJoined]
  repeat' split
  all_goals exact ⟨rfl, rfl, rfl⟩

/-- What follows a call of `room_usable` leaves the cache alone. -/
theorem goOn_frame (site : Site) (conf : Conference) (back : Return)
    (task : Task) :
    let later := (site.goOn conf back task).1
    later.module = conf.module ∧ later.tasks = conf.tasks ∧
      later.sweeping = conf.sweeping := by
  cases task with
  | authenticate | request =>
      simp only [goOn]
      repeat' split
      all_goals exact ⟨rfl, rfl, rfl⟩
  | join index nick jid signed =>
      simp only [goOn]
      split
      · exact ⟨rfl, rfl, rfl⟩
      · exact enter_frame site conf index nick jid (some signed) (some back)

/-- A session that `is_host_of` takes for one of a host. -/
private theorem owes_vouched {index : Nat} {room : Room} {target : Bytes}
    {host : Signed} {rooms : List Room} {jid : Jid} (own : jid.bare = target)
    (bears : Bears trace jid host)
    (isRoom : rooms[index]? = some room)
    (isHost : site.plugin.isHostOf host room conf.module) :
    (Happening.vouched index target host
      (site.plugin.usableNow conf.module host.room)).Owes site rooms trace := by
  obtain ⟨role, sameRoom, valid⟩ := Plugin.isHostOf_iff.mp isHost
  obtain ⟨inTime, stillValid⟩ := Plugin.sessionValid_eq_ok.mp valid
  obtain ⟨-, isName, started⟩ :=
    Plugin.step_call_some (site.plugin.step_usableNow conf.module host.room)
  refine ⟨⟨jid, own, bears⟩, role, ⟨room, isRoom, sameRoom.symm⟩,
    Plugin.usableNow_waited, ?_⟩
  exact { room := isName, inTime := by rwa [started], valid := stillValid }

private theorem occupantJoined_goes {index : Nat} {room : Room} {jid : Jid}
    {signed : Option Signed} (isRoom : conf.rooms[index]? = some room)
    (bears : ∀ own, signed = some own → Bears trace jid own) :
    site.Goes trace conf
      (site.occupantJoined conf index room jid signed).1
      (site.occupantJoined conf index room jid signed).2 := by
  unfold occupantJoined
  split
  · exact goes_calm (List.Subset.refl _) (.refl _)
  · rename_i host isHost
    obtain ⟨isSigned, both⟩ := Option.filter_eq_some_iff.mp isHost
    split
    · exact goes_calm (List.Subset.refl _) (.refl _)
    · have keeps := extends_set isRoom
        (room.affiliate_keeps jid.bare (some .owner))
      refine goes_one (List.Subset.refl _) keeps ?_
      refine Happening.Owes.mono ?_ keeps (List.Subset.refl _)
      exact owes_vouched rfl (bears host isSigned) isRoom
        (of_decide_eq_true both).2

private theorem enter_goes {index : Nat} {nick : Bytes} {jid : Jid}
    {signed : Option Signed} {back : Option Return}
    (bears : ∀ own, signed = some own → Bears trace jid own)
    (passes : ∀ own room, signed = some own → conf.rooms[index]? = some room →
      own.room = room.name → ∃ check, back = some check ∧
        Passes site own check) :
    site.Goes trace conf (site.enter conf index nick jid signed back).1
      (site.enter conf index nick jid signed back).2 := by
  unfold enter
  split
  · exact goes_calm (List.Subset.refl _) (.refl _)
  · rename_i entered isNew enters
    obtain ⟨room, isRoom, enters⟩ := Option.bind_eq_some_iff.mp enters
    obtain ⟨keeps, -⟩ := Room.enter_eq_some enters
    have isEntered : (conf.setRoom index entered).rooms[index]? =
        some entered := by
      simp [Conference.setRoom, (List.getElem?_eq_some_iff.mp isRoom).1]
    have joined : site.Goes trace conf (conf.setRoom index entered)
        [.joined index jid signed back] := by
      refine goes_one (List.Subset.refl _) (extends_set isRoom keeps) ?_
      refine ⟨entered, isEntered, ?_⟩
      intro own isOwn sameRoom
      exact ⟨bears own isOwn,
        passes own room isOwn isRoom (sameRoom.trans keeps.name)⟩
    dsimp only
    split
    · apply joined.trans
      apply occupantJoined_goes isEntered
      intro own isOwn
      exact (bears own isOwn).mono (List.subset_append_left ..)
    · exact joined

private theorem endToken_accepted {json : JsonLibrary} {verdict : Verdict}
    {parts : Parts} {room role : Bytes} {claims : MeetReserve.Json}
    (accepted : endToken json verdict parts room = .accepted claims role) :
    claims = parts.claims := by
  unfold endToken at accepted
  split at accepted
  · cases accepted
  · cases accepted
    rfl

/-- What a hook does once its call of `room_usable` returned. -/
private theorem goOn_goes (back : Return) (task : Task)
    (fits : task.Fits site conf.rooms trace (back.name, back.started)) :
    site.Goes trace conf (site.goOn conf back task).1
      (site.goOn conf back task).2 := by
  cases task with
  | authenticate jid token parts =>
      simp only [goOn]
      split
      · exact goes_one (List.Subset.refl _) (.refl _) trivial
      · exact goes_one (List.Subset.refl _) (.refl _) trivial
      · rename_i claims role accepted
        split
        · exact goes_calm (List.Subset.refl _) (.refl _)
        · have begun : site.plugin.beginToken site.json token back.started =
              .ok (parts, back.name) := fits
          refine ⟨?_, .refl _, ?_⟩
          · intro session member
            rcases List.mem_cons.mp member with new | old
            · subst new
              exact .inr (.inr ⟨token, back, by simp⟩)
            · exact .inl old
          · intro before happening after isOnly
            let signed := signedOf site.json claims role
            have owes : Happening.Owes site conf.rooms (trace ++ before)
                (.authenticated { jid, signed := some signed } token
                  back) := by
              refine ⟨claims, role, ?_, rfl, ?_⟩
              · rw [Plugin.verifyToken_eq, begun]
                exact accepted
              · rw [endToken_accepted accepted]
                exact Plugin.room_of_beginToken begun
            cases before with
            | nil =>
                cases isOnly
                exact owes
            | cons first rest => simp at isOnly
  | request jid node signed =>
      simp only [goOn]
      split
      · exact goes_one (List.Subset.refl _) (.refl _) trivial
      · exact goes_one (List.Subset.refl _) (.refl _) trivial
  | join index nick jid signed =>
      obtain ⟨bears, isName, inTime, -⟩ := fits
      simp only [goOn]
      split
      · exact goes_one (List.Subset.refl _) (.refl _) trivial
      · rename_i valid
        apply enter_goes
        · intro own isOwn
          cases isOwn
          exact bears
        · intro own room isOwn _ _
          cases isOwn
          exact ⟨back, rfl, { room := isName, inTime, valid }⟩

/-- The tasks fit on, and what follows the call is done. -/
private theorem Sane.goOn {module : Module} {tasks : List Task} {task : Task}
    (sane : site.Sane conf trace) (back : Return)
    (fits : task.Fits site conf.rooms trace (back.name, back.started))
    (fit : tasks.length = module.asked.length ∧
      ∀ (index : Nat) (task : Task) asked, tasks[index]? = some task →
        module.asked[index]? = some asked →
          task.Fits site conf.rooms trace asked)
    (isOut : site.goOn { conf with module, tasks } back task =
      (later, more)) : site.Sane later (trace ++ more) := by
  have reached : site.Sane { conf with module, tasks } trace :=
    { sessions := sane.sessions, tasks := fit, owes := sane.owes }
  have goes : site.Goes trace { conf with module, tasks } _ _ :=
    goOn_goes back task fits
  obtain ⟨frame, sameTasks, -⟩ :=
    goOn_frame site { conf with module, tasks } back task
  rw [isOut] at goes frame sameTasks
  apply reached.goes goes
  rw [frame, sameTasks]
  exact fit

private theorem Sane.ask {name : Bytes} {ready : Bool} {task : Task}
    (sane : site.Sane conf trace)
    (happens : site.ask conf name ready task = some (later, more))
    (fits : task.Fits site conf.rooms trace (name, conf.module.now)) :
    site.Sane later (trace ++ more) := by
  unfold Site.ask at happens
  split at happens
  · cases happens
  · rename_i module back isCall
    obtain ⟨rfl, rfl, started⟩ := Plugin.step_call_some isCall
    rw [← started] at fits
    exact sane.goOn back fits sane.tasks (Option.some.inj happens)
  · rename_i module isCall
    cases happens
    rw [List.append_nil]
    obtain ⟨length, fit⟩ := sane.tasks
    have asked := Plugin.asked_call isCall
    refine ⟨sane.sessions, ?_, sane.owes⟩
    dsimp only
    refine ⟨by simp [asked, length], ?_⟩
    intro index other call isTask isAsked
    rw [asked, List.getElem?_append, ← length] at isAsked
    rw [List.getElem?_append] at isTask
    split at isTask
    · rename_i inside
      rw [if_pos inside] at isAsked
      exact fit index other call isTask isAsked
    · rename_i outside
      rw [if_neg outside] at isAsked
      rw [List.getElem?_singleton] at isTask isAsked
      split at isTask
      · rename_i isLast
        rw [if_pos isLast] at isAsked
        cases isTask
        cases isAsked
        exact fits
      · cases isTask

private theorem Sane.quiet {event : Event} {returned : Option Return}
    {module : Module} (sane : site.Sane conf trace)
    (happens : site.plugin.step conf.module event = some (module, returned))
    (quiet : event.Quiet) :
    site.Sane { conf with module } trace := by
  obtain ⟨asked, -⟩ := Plugin.asked_quiet quiet happens
  refine ⟨sane.sessions, ?_, sane.owes⟩
  dsimp only
  rw [asked]
  exact sane.tasks

private theorem Sane.inModule {event : Event} (sane : site.Sane conf trace)
    (happens : site.inModule conf event = some (later, more))
    (quiet : event.Quiet) :
    site.Sane later (trace ++ more) := by
  obtain ⟨⟨module, returned⟩, isStep, same⟩ := Option.map_eq_some_iff.mp happens
  cases same
  rw [List.append_nil]
  exact sane.quiet isStep quiet

/-- Acts on sessions and rooms leave the waiting calls alone. -/
private theorem Sane.calm (sane : site.Sane conf trace)
    (goes : site.Goes trace conf later more)
    (module : later.module = conf.module) (tasks : later.tasks = conf.tasks) :
    site.Sane later (trace ++ more) := by
  apply sane.goes goes
  rw [module, tasks]
  exact sane.tasks

private theorem hostAmong_eq_some {room : Room} {target : Bytes} {host : Signed}
    (isHost : site.hostAmong conf room target = some host) :
    (∃ jid : Jid, jid.bare = target ∧
      (conf.lookup jid).bind (·.signed) = some host) ∧
      site.plugin.isHostOf host room conf.module := by
  obtain ⟨realJid, member, found⟩ := List.exists_of_findSome?_eq_some isHost
  obtain ⟨carries, checked⟩ := Option.filter_eq_some_iff.mp found
  obtain ⟨occupant, inRoom, isSession⟩ := List.mem_flatMap.mp member
  have isTarget := of_decide_eq_true (List.mem_filter.mp inRoom).2
  exact ⟨⟨realJid, (occupant.own realJid isSession).trans isTarget, carries⟩,
    checked⟩

private theorem Sane.lookup (sane : site.Sane conf trace) {jid : Jid}
    {signed : Signed}
    (isSigned : (conf.lookup jid).bind (·.signed) = some signed) :
    Bears trace jid signed := by
  obtain ⟨session, isSession, carries⟩ := Option.bind_eq_some_iff.mp isSigned
  have isJid : session.jid = jid := by
    simpa using List.find?_some isSession
  rw [← isJid]
  exact sane.sessions session (List.mem_of_find?_eq_some isSession) signed
    carries

theorem reach_eq_some {index : Nat} {room : Room}
    (reaches : conf.reach index = some room) :
    conf.rooms[index]? = some room :=
  (Option.filter_eq_some_iff.mp reaches).1

private theorem setRoom_goes {index : Nat} {room next : Room}
    (isRoom : conf.rooms[index]? = some room) (keeps : room.Keeps next) :
    site.Goes trace conf (conf.setRoom index next) [] :=
  goes_calm (List.Subset.refl _) (extends_set isRoom keeps)

private theorem create_goes {jid : Jid} {name nick : Bytes}
    (happens : site.step conf (.create jid name nick) = some (later, more)) :
    site.Goes trace conf later more ∧ later.module = conf.module ∧
      later.tasks = conf.tasks := by
  simp only [step] at happens
  split at happens
  · cases happens
  split at happens
  · cases happens
    exact ⟨goes_one (List.Subset.refl _) (.refl _) trivial, rfl, rfl⟩
  · rename_i passed
    cases happens
    refine ⟨goes_one (List.Subset.refl _) (extends_append _ _) ?_, rfl, rfl⟩
    intro isName
    rw [if_pos isName]
    obtain ⟨-, sameName, -⟩ :=
      Plugin.step_call_some (site.plugin.step_usableNow conf.module name)
    refine ⟨_, rfl, sameName, Plugin.usableNow_waited, ?_⟩
    cases isVerdict : (site.plugin.usableNow conf.module name).verdict with
    | ok state => exact ⟨state, rfl⟩
    | error reason => simp [preCreate, isName, isVerdict, Except.isOk,
        Except.toBool] at passed

private theorem setAffiliation_goes {index : Nat} {actor : Jid} {target : Bytes}
    {affiliation : Option Affiliation} (sane : site.Sane conf trace)
    (happens : site.step conf (.setAffiliation index actor target affiliation) =
      some (later, more)) :
    site.Goes trace conf later more ∧ later.module = conf.module ∧
      later.tasks = conf.tasks := by
  simp only [step] at happens
  split at happens
  · cases happens
  rename_i room reaches
  have isRoom := reach_eq_some reaches
  have keeps := extends_set isRoom (room.affiliate_keeps target affiliation)
  split at happens
  · cases happens
  split at happens
  · cases happens
    exact ⟨goes_one (List.Subset.refl _) (.refl _) trivial, rfl, rfl⟩
  · rename_i host vouched
    cases happens
    unfold preSetAffiliation at vouched
    split at vouched
    · cases vouched
    obtain ⟨other, isHost, same⟩ := Option.map_eq_some_iff.mp vouched
    cases same
    obtain ⟨⟨jid, own, carries⟩, checked⟩ := hostAmong_eq_some isHost
    refine ⟨goes_one (List.Subset.refl _) keeps ?_, rfl, rfl⟩
    refine Happening.Owes.mono ?_ keeps (List.Subset.refl _)
    exact owes_vouched own (sane.lookup carries) isRoom checked
  · cases happens
    split
    · exact ⟨goes_one (List.Subset.refl _) keeps trivial, rfl, rfl⟩
    · exact ⟨goes_calm (List.Subset.refl _) keeps, rfl, rfl⟩

/-- Every act keeps the invariant. -/
theorem Sane.step {act : Act} (sane : site.Sane conf trace)
    (happens : site.step conf act = some (later, more)) :
    site.Sane later (trace ++ more) := by
  cases act with
  | tick time => exact sane.inModule happens trivial
  | evict name => exact sane.inModule happens trivial
  | answered call answer => exact sane.inModule happens trivial
  | failed call => exact sane.inModule happens trivial
  | resume call =>
      simp only [Site.step] at happens
      split at happens
      · rename_i task module back isTask isStep
        obtain ⟨asked, isAsked⟩ := Plugin.asked_resume isStep
        obtain ⟨length, fit⟩ := sane.tasks
        refine sane.goOn back (fit call task _ isTask isAsked) ?_
          (Option.some.inj happens)
        rw [asked]
        refine ⟨by rw [List.length_eraseIdx, List.length_eraseIdx, length], ?_⟩
        intro index other found isOther isFound
        rw [List.getElem?_eraseIdx] at isOther isFound
        split at isOther
        · rename_i before
          rw [if_pos before] at isFound
          exact fit index other found isOther isFound
        · rename_i after
          rw [if_neg after] at isFound
          exact fit (index + 1) other found isOther isFound
      · cases happens
  | authenticate jid token ready =>
      simp only [Site.step] at happens
      split at happens
      · cases happens
        exact sane.calm (goes_one (List.Subset.refl _) (.refl _) trivial) rfl
          rfl
      · cases happens
        exact sane.calm (goes_one (List.Subset.refl _) (.refl _) trivial) rfl
          rfl
      · rename_i parts room begun
        exact sane.ask happens begun
  | connect jid =>
      simp only [Site.step] at happens
      split at happens
      · cases happens
      · cases happens
        refine sane.calm ⟨?_, .refl _, by simp⟩ rfl rfl
        intro session member
        rcases List.mem_cons.mp member with new | old
        · subst new
          exact .inr (.inl rfl)
        · exact .inl old
  | disconnect jid =>
      cases happens
      exact sane.calm (goes_calm List.filter_sublist.subset (.refl _)) rfl rfl
  | request jid iq ready =>
      simp only [Site.step] at happens
      split at happens
      · split at happens
        · cases happens
          exact sane.calm (goes_calm (List.Subset.refl _) (.refl _)) rfl rfl
        · exact sane.ask happens rfl
      · cases happens
        exact sane.calm (goes_calm (List.Subset.refl _) (.refl _)) rfl rfl
  | create jid name nick =>
      obtain ⟨goes, module, tasks⟩ := create_goes happens
      exact sane.calm goes module tasks
  | join index nick jid ready =>
      simp only [Site.step] at happens
      split at happens
      · cases happens
      rename_i room reaches
      have isRoom := reach_eq_some reaches
      split at happens
      · rename_i notOwn
        have isOut := Option.some.inj happens
        have goes : site.Goes trace conf
            (site.enter conf index nick jid
              ((conf.lookup jid).bind (·.signed)) none).1
            (site.enter conf index nick jid
              ((conf.lookup jid).bind (·.signed)) none).2 := by
          apply enter_goes
          · exact fun own isOwn => sane.lookup isOwn
          · intro own other isOwn isOther sameRoom
            rw [isRoom] at isOther
            cases isOther
            simp [isOwn, sameRoom] at notOwn
        obtain ⟨module, tasks, -⟩ := enter_frame site conf index nick
          jid ((conf.lookup jid).bind (·.signed)) none
        rw [isOut] at goes module tasks
        exact sane.calm goes module tasks
      · rename_i own isOwn
        obtain ⟨carries, sameRoom⟩ := Option.filter_eq_some_iff.mp isOwn
        split at happens
        · cases happens
          exact sane.calm (goes_one (List.Subset.refl _) (.refl _) trivial) rfl
            rfl
        · rename_i inTime
          refine sane.ask happens
            ⟨sane.lookup carries, rfl, ?_, room, isRoom, ?_⟩
          · exact Bool.eq_false_iff.mpr inTime
          · exact (of_decide_eq_true sameRoom).symm
  | leave index jid =>
      obtain ⟨room, reaches, same⟩ := Option.map_eq_some_iff.mp happens
      cases same
      exact sane.calm (setRoom_goes (reach_eq_some reaches)
        (room.leave_keeps jid)) rfl rfl
  | setAffiliation index actor target affiliation =>
      obtain ⟨goes, module, tasks⟩ := setAffiliation_goes sane happens
      exact sane.calm goes module tasks
  | destroy index =>
      obtain ⟨room, reaches, same⟩ := Option.map_eq_some_iff.mp happens
      cases same
      exact sane.calm (setRoom_goes (reach_eq_some reaches)
        room.destroy_keeps) rfl rfl
  | sweep =>
      simp only [Site.step] at happens
      split at happens
      · cases happens
      · obtain ⟨⟨module, returned⟩, isStep, same⟩ :=
          Option.map_eq_some_iff.mp happens
        cases same
        exact (sane.quiet isStep trivial).calm
          (goes_calm (List.Subset.refl _) (.refl _)) rfl rfl
  | sweepAnswered lookup answer =>
      simp only [Site.step] at happens
      split at happens
      · rename_i index module returned isIndex isStep
        have reached := sane.quiet isStep trivial
        split at happens
        · cases happens
          exact reached.calm (goes_calm (List.Subset.refl _) (.refl _)) rfl rfl
        · rename_i room isRoom
          cases happens
          have stored := (Option.filter_eq_some_iff.mp isRoom).1
          exact reached.calm (goes_one (List.Subset.refl _)
            (extends_set stored room.destroy_keeps) trivial) rfl rfl
      · cases happens
  | sweepFailed lookup =>
      obtain ⟨⟨module, returned⟩, isStep, same⟩ :=
        Option.map_eq_some_iff.mp happens
      cases same
      exact (sane.quiet isStep trivial).calm
        (goes_calm (List.Subset.refl _) (.refl _)) rfl rfl

/-- In every run, sessions carry what `verify_token` accepted, and everything
that happened was owed to what happened before. -/
theorem Runs.sane {now : Seconds} (runs : site.Runs (.start now) conf trace) :
    site.Sane conf trace := by
  induction runs with
  | nil => exact sane_start now
  | step _ happens induction => exact induction.step happens

end Site

end FfmucSalt.SignedRooms
