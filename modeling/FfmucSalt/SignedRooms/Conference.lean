import FfmucSalt.SignedRooms.Tokens

/-!
# Conferences

The hooks of the Prosody module, on top of its cache of room states: sessions
authenticate, clients ask jicofo for conferences, rooms are created, joined,
moderated and closed.  A hook that waits in `room_usable` goes on when its call
returns; what the hook needs by then stands beside the call.
-/

namespace FfmucSalt.SignedRooms

open MeetReserve (Json)

/-! ## Sessions and rooms -/

/-- A full JID. -/
structure Jid where
  bare : Bytes
  resource : Bytes
  deriving DecidableEq

/-- `session.ffmuc_signed` -/
structure Signed where
  room : Bytes
  role : Bytes
  exp : ℚ
  gen : Bytes
  deriving DecidableEq

/-- A session in `prosody.full_sessions`. -/
structure Session where
  jid : Jid
  signed : Option Signed
  deriving DecidableEq

inductive Affiliation where
  | owner
  | admin
  | member
  | outcast
  deriving DecidableEq

structure Occupant where
  nick : Bytes
  bareJid : Bytes
  /-- The real JIDs of its sessions. -/
  sessions : List Jid
  own : ∀ jid ∈ sessions, jid.bare = bareJid
  deriving DecidableEq

namespace Occupant

def first (nick : Bytes) (jid : Jid) : Occupant :=
  { nick, bareJid := jid.bare, sessions := [jid], own := by simp }

/-- Another session with the bare JID of the occupant. -/
def add (occupant : Occupant) (jid : Jid) : Occupant :=
  if same : jid.bare = occupant.bareJid then
    { occupant with
      sessions := jid :: occupant.sessions
      own := List.forall_mem_cons.mpr ⟨same, occupant.own⟩ }
  else occupant

def remove (occupant : Occupant) (jid : Jid) : Occupant :=
  { occupant with
    sessions := occupant.sessions.filter (· ≠ jid)
    own := fun other member => occupant.own other (List.mem_of_mem_filter member) }

end Occupant

structure Room where
  /-- The node of `room.jid`. -/
  name : Bytes
  /-- `_data.ffmuc_signed` -/
  signed : Bool
  /-- `_data.moderators` -/
  moderators : List Bytes
  /-- `_data.participants` -/
  participants : List Bytes
  /-- `jitsiMetadata.visitors.autoPromote` -/
  autoPromote : Bool
  /-- `_data.destroyed` -/
  destroyed : Bool
  affiliations : FiniteMap Bytes Affiliation
  occupants : List Occupant

/-- What the hooks use besides the cache. -/
structure Site where
  plugin : Plugin
  json : JsonLibrary
  mucDomain : Bytes
  focusJid : Bytes
  focusHost : Bytes
  autoPromoteUnsigned : Bool
  /-- `is_healthcheck_room`, by the node of the room. -/
  isHealthcheckRoom : Bytes → Bool
  /-- The admins of the conference component, who own every room. -/
  admins : List Bytes

/-- An IQ stanza to a host. -/
structure Iq where
  type : Bytes
  receiver : Bytes
  originType : Bytes
  /-- `jid_split(conference.attr.room)`, if there is a `conference`. -/
  conference : Option (Option Bytes × Bytes)

/-- What goes on when a call of `room_usable` returns. -/
inductive Task where
  /-- `verify_token` -/
  | authenticate (jid : Jid) (token : Bytes) (parts : Parts)
  /-- The conference request hook. -/
  | request (jid : Jid) (node : Bytes) (signed : Option Signed)
  /-- The join hook. -/
  | join (room : Nat) (nick : Bytes) (jid : Jid) (signed : Signed)

structure Conference where
  module : Module
  /-- What the waiting calls are for. -/
  tasks : List Task
  sessions : List Session
  /-- All rooms that were ever created. -/
  rooms : List Room
  /-- The rooms that the sweep looks up. -/
  sweeping : List Nat

def Conference.start (now : Seconds) : Conference :=
  { module := Module.start now, tasks := [], sessions := [], rooms := []
    sweeping := [] }

/-- What can be seen of a run from outside. -/
inductive Happening where
  /-- A token made a session. -/
  | authenticated (session : Session) (token : Bytes) (back : Return)
  | rejected (jid : Jid) (reason : Bytes)
  /-- A conference request reaches jicofo. -/
  | requested (jid : Jid) (node : Bytes)
  /-- A request that is answered with an error, its text and code. -/
  | unavailable (jid : Jid) (text code : Bytes)
  /-- Any other error, with its text. -/
  | notAllowed (jid : Jid) (text : Bytes)
  | created (room : Nat) (name : Bytes) (back : Option Return)
  /-- A session came in, after a check if its token is for the room. -/
  | joined (room : Nat) (jid : Jid) (signed : Option Signed)
      (back : Option Return)
  /-- The module or jicofo made somebody owner, for a session of a host that
  the call is about. -/
  | vouched (room : Nat) (target : Bytes) (host : Signed) (back : Return)
  /-- An owner made somebody owner. -/
  | granted (room : Nat) (actor : Jid) (target : Bytes)
  /-- The sweep closed a room, by an answer that it was deleted. -/
  | closed (room : Nat) (state : Entry)

def Conference.lookup (conf : Conference) (jid : Jid) : Option Session :=
  conf.sessions.find? fun session => session.jid = jid

/-- The live room of a name. -/
def Conference.live (conf : Conference) (name : Bytes) : Option Room :=
  conf.rooms.find? fun room => room.name = name ∧ ¬ room.destroyed

/-- A room that clients can reach. -/
def Conference.reach (conf : Conference) (index : Nat) : Option Room :=
  conf.rooms[index]?.filter fun room => ¬ room.destroyed

def Conference.setRoom (conf : Conference) (index : Nat) (room : Room) :
    Conference :=
  { conf with rooms := conf.rooms.set index room }

def hostRole : Bytes := ascii "host"

def hostUser (name : Bytes) : Bytes := ascii "host:" ++ name

def speakerUser (name : Bytes) : Bytes := ascii "speaker:" ++ name

/-! ## Rooms in the MUC component -/

namespace Room

/-- A new occupant, or a new session of one, unless the nick is taken.  Says
whether the occupant is new. -/
def enter (room : Room) (nick : Bytes) (jid : Jid) : Option (Room × Bool) :=
  match room.occupants.find? fun occupant => occupant.nick = nick with
  | none =>
      let occupant := Occupant.first nick jid
      some ({ room with occupants := room.occupants ++ [occupant] }, true)
  | some occupant =>
      if occupant.bareJid ≠ jid.bare then none
      else
        let occupants := room.occupants.map fun occupant =>
          if occupant.nick = nick then occupant.add jid else occupant
        some ({ room with occupants }, false)

/-- A session leaves, and its occupant with its last session. -/
def leave (room : Room) (jid : Jid) : Room :=
  let occupants := room.occupants.map fun occupant => occupant.remove jid
  { room with occupants := occupants.filter fun occupant =>
      occupant.sessions ≠ [] }

/-- `room:destroy` -/
def destroy (room : Room) : Room :=
  { room with destroyed := true, occupants := [] }

def affiliate (room : Room) (target : Bytes) (affiliation : Option Affiliation) :
    Room :=
  match affiliation with
  | some affiliation =>
      { room with
        affiliations := room.affiliations.insert target affiliation }
  | none => { room with affiliations := room.affiliations.erase target }

end Room

namespace Plugin

variable (plugin : Plugin)

/-- `room_usable` where it may not wait. -/
def usableNow (module : Module) (name : Bytes) : Return :=
  let returns := fun state verdict =>
    { module, name, started := module.now, began := module.log.length
      waited := none, state, verdict : Return }
  match plugin.roomUsable name with
  | .error reason => returns none (.error (reason, none))
  | .ok decide =>
      let state := (plugin.roomState module name false false).elim id id
      returns state
        (decide state (module.migrated.contains name) module.now)

/-- `session_valid` goes on where `room_usable` returned. -/
def stillValid (signed : Signed) (verdict : Verdict) : Except Bytes Unit :=
  match verdict with
  | .error (why, _) => .error why
  | .ok state =>
      if state.any fun state =>
          state.status = active ∧ state.gen ≠ signed.gen then
        .error (ascii "replaced")
      else .ok ()

def expired (signed : Signed) (now : Seconds) : Bool :=
  signed.exp + plugin.options.clockSkew < now

/-- `session_valid` where it may not wait. -/
def sessionValid (signed : Signed) (module : Module) : Except Bytes Unit :=
  if plugin.expired signed module.now then .error (ascii "expired")
  else stillValid signed (plugin.usableNow module signed.room).verdict

/-- `is_host_of` -/
def isHostOf (signed : Signed) (room : Room) (module : Module) : Bool :=
  signed.role = hostRole ∧ signed.room = room.name ∧
    (plugin.sessionValid signed module).isOk

/-- `verify_token` up to `room_usable`: the parts and the room. -/
def beginToken (json : JsonLibrary) (token : Bytes) (now : Seconds) :
    Except Verified (Parts × Bytes) :=
  match plugin.parseToken json token with
  | none => .error .foreign
  | some parts =>
      let checked := do
        plugin.checkSignature json parts
        plugin.checkClaims json parts.claims now
      match checked with
      | .error reason => .error (.rejected reason)
      | .ok room => .ok (parts, room)

end Plugin

/-- `verify_token` from `room_usable` on. -/
def endToken (json : JsonLibrary) (verdict : Verdict) (parts : Parts)
    (room : Bytes) : Verified :=
  match Plugin.checkRoom json (fun _ => verdict) parts.claims room with
  | .error reason => .rejected reason
  | .ok role => .accepted parts.claims role

/-- What a session gets from its claims. -/
def signedOf (json : JsonLibrary) (claims : Json) (role : Bytes) : Signed :=
  { room := (text? (field claims (ascii "room"))).getD []
    role
    exp := (json.number? (field claims (ascii "exp"))).getD 0
    gen := json.claimGen claims }

/-! ## Error texts -/

def replacedText : Bytes := ascii "This link was replaced by new links."

def failedText : Bytes :=
  ascii "Room check failed, please try again in a minute."

def goneText : Bytes := ascii "This room does not exist or has expired."

/-- The text for a client that may not join. -/
def joinText (why : Bytes) : Bytes :=
  if why = ascii "replaced" then replacedText
  else if why = ascii "lookup failed" then failedText
  else goneText

/-- The text for a client whose request is refused. -/
def requestText (why : Bytes) : Bytes :=
  if why = ascii "deleted" then ascii "This room was deleted by its host."
  else joinText why

def requestCode (why : Bytes) : Bytes :=
  if why = ascii "lookup failed" then ascii "503" else ascii "403"

/-! ## Hooks -/

namespace Site

variable (site : Site)

/-- The hook on `muc-room-pre-create` refuses a room, or not. -/
def preCreate (module : Module) (name : Bytes) : Bool :=
  isSignedName name && !(site.plugin.usableNow module name).verdict.isOk

/-- The hook on `muc-room-created`, and the room as it is created. -/
def roomCreated (name : Bytes) : Room :=
  let room : Room :=
    { name, signed := false, moderators := [], participants := []
      autoPromote := false, destroyed := false, affiliations := ∅
      occupants := [] }
  if site.isHealthcheckRoom name then room
  else if isSignedName name then
    { room with
      signed := true
      moderators := [hostUser name]
      participants := [hostUser name, speakerUser name] }
  else { room with autoPromote := site.autoPromoteUnsigned }

/-- `room:get_affiliation(bare) == "owner"` -/
def owns (room : Room) (bare : Bytes) : Bool :=
  site.admins.contains bare || room.affiliations[bare]? = some .owner

/-- A session of a host, among those of the occupants with a bare JID. -/
def hostAmong (conf : Conference) (room : Room) (target : Bytes) :
    Option Signed :=
  let sessions := (room.occupants.filter fun occupant =>
    occupant.bareJid = target).flatMap (·.sessions)
  sessions.findSome? fun realJid =>
    ((conf.lookup realJid).bind (·.signed)).filter fun signed =>
      site.plugin.isHostOf signed room conf.module

/-- The hook on `muc-occupant-joined`. -/
def occupantJoined (conf : Conference) (index : Nat) (room : Room) (jid : Jid)
    (signed : Option Signed) : Conference × List Happening :=
  match signed.filter fun signed =>
      room.signed ∧ site.plugin.isHostOf signed room conf.module with
  | none => (conf, [])
  | some host =>
      if site.owns room jid.bare then (conf, [])
      else (conf.setRoom index (room.affiliate jid.bare (some .owner)),
        [.vouched index jid.bare host
          (site.plugin.usableNow conf.module host.room)])

/-- A session comes in, after the hooks that may refuse it.  The room may have
been destroyed while they waited. -/
def enter (conf : Conference) (index : Nat) (nick : Bytes) (jid : Jid)
    (signed : Option Signed) (back : Option Return) :
    Conference × List Happening :=
  match conf.rooms[index]?.bind (·.enter nick jid) with
  | none => (conf, [])
  | some (room, isNew) =>
      let conf := conf.setRoom index room
      let joined := Happening.joined index jid signed back
      if isNew then
        let (conf, more) := site.occupantJoined conf index room jid signed
        (conf, joined :: more)
      else (conf, [joined])

/-- What follows when `room_usable` returns. -/
def goOn (conf : Conference) (back : Return) :
    Task → Conference × List Happening
  | .authenticate jid token parts =>
      match endToken site.json back.verdict parts back.name with
      | .foreign => (conf, [.rejected jid (ascii "foreign token")])
      | .rejected reason => (conf, [.rejected jid reason])
      | .accepted claims role =>
          let session : Session :=
            { jid, signed := some (signedOf site.json claims role) }
          if (conf.lookup jid).isSome then (conf, [])
          else ({ conf with sessions := session :: conf.sessions },
            [.authenticated session token back])
  | .request jid node signed =>
      let verdict := do
        let _ ← back.verdict.mapError Prod.fst
        match signed.filter fun signed : Signed => signed.room = node with
        | none => .ok ()
        | some signed => site.plugin.sessionValid signed conf.module
      match verdict with
      | .ok () => (conf, [.requested jid node])
      | .error why =>
          (conf, [.unavailable jid (requestText why) (requestCode why)])
  | .join room nick jid signed =>
      match Plugin.stillValid signed back.verdict with
      | .error why => (conf, [.notAllowed jid (joinText why)])
      | .ok () => site.enter conf room nick jid (some signed) (some back)

/-- A hook calls `room_usable` and may wait. -/
def ask (conf : Conference) (name : Bytes) (ready : Bool) (task : Task) :
    Option (Conference × List Happening) :=
  match site.plugin.step conf.module (.call name true ready) with
  | none => none
  | some (_, some back) => some (site.goOn conf back task)
  | some (module, none) =>
      some ({ conf with module, tasks := conf.tasks ++ [task] }, [])

/-- The hook on `muc-pre-set-affiliation`: who vouches for a new owner, or
whether the hook does not care. -/
def preSetAffiliation (conf : Conference) (room : Room) (actor : Jid)
    (target : Bytes) (affiliation : Option Affiliation) :
    Option (Option Signed) :=
  if ¬ room.signed ∨ affiliation ≠ some .owner ∨ actor.bare ≠ site.focusJid
  then some none
  else (site.hostAmong conf room target).map some

end Site

/-! ## Runs -/

/-- What can happen next. -/
inductive Act where
  | tick (time : Seconds)
  | evict (name : Bytes)
  /-- The lookup of a waiting call is answered. -/
  | answered (call : Nat) (answer : Answer)
  | failed (call : Nat)
  | resume (call : Nat)
  /-- A client authenticates with a token. -/
  | authenticate (jid : Jid) (token : Bytes) (ready : Bool)
  /-- A client without a token connects, or one on an other host. -/
  | connect (jid : Jid)
  | disconnect (jid : Jid)
  | request (jid : Jid) (iq : Iq) (ready : Bool)
  /-- The first presence in a room, which `restrict_room_creation` leaves to
  the admins. -/
  | create (jid : Jid) (name nick : Bytes)
  | join (room : Nat) (nick : Bytes) (jid : Jid) (ready : Bool)
  | leave (room : Nat) (jid : Jid)
  /-- Only owners make owners.  Who may do what else is left open. -/
  | setAffiliation (room : Nat) (actor : Jid) (target : Bytes)
      (affiliation : Option Affiliation)
  /-- A room is closed because it is empty, or by an owner. -/
  | destroy (room : Nat)
  | sweep
  | sweepAnswered (lookup : Nat) (answer : Answer)
  | sweepFailed (lookup : Nat)

namespace Site

variable (site : Site)

/-- An event that concerns the cache alone. -/
def inModule (conf : Conference) (event : Event) :
    Option (Conference × List Happening) :=
  (site.plugin.step conf.module event).map fun (module, _) =>
    ({ conf with module }, [])

def step (conf : Conference) : Act → Option (Conference × List Happening)
  | .tick time => site.inModule conf (.tick time)
  | .evict name => site.inModule conf (.evict name)
  | .answered call answer => site.inModule conf (.answered call answer)
  | .failed call => site.inModule conf (.failed call)
  | .resume call =>
      match conf.tasks[call]?, site.plugin.step conf.module (.resume call) with
      | some task, some (module, some back) =>
          let tasks := conf.tasks.eraseIdx call
          some (site.goOn { conf with module, tasks } back task)
      | _, _ => none
  | .authenticate jid token ready =>
      match site.plugin.beginToken site.json token conf.module.now with
      | .error (.rejected reason) => some (conf, [.rejected jid reason])
      | .error _ => some (conf, [.rejected jid (ascii "foreign token")])
      | .ok (parts, room) =>
          site.ask conf room ready (.authenticate jid token parts)
  | .connect jid =>
      if (conf.lookup jid).isSome then none
      else
        some ({ conf with
          sessions := { jid, signed := none } :: conf.sessions }, [])
  | .disconnect jid =>
      some ({ conf with
        sessions := conf.sessions.filter fun session => session.jid ≠ jid }, [])
  | .request jid iq ready =>
      let signed := (conf.lookup jid).bind (·.signed)
      match iq.conference with
      | some (some node, host) =>
          if iq.type ≠ ascii "set" ∨ iq.receiver ≠ site.focusHost ∨
              iq.originType ≠ ascii "c2s" ∨ host ≠ site.mucDomain ∨
              ¬ isSignedName node then
            some (conf, [])
          else site.ask conf node ready (.request jid node signed)
      | _ => some (conf, [])
  | .create jid name nick =>
      -- admins are on an other host, so no hook finds a token of theirs
      if ¬ site.admins.contains jid.bare ∨ (conf.live name).isSome ∨
          ((conf.lookup jid).bind (·.signed)).isSome then none
      else if site.preCreate conf.module name then
        some (conf, [.notAllowed jid (ascii "Invalid or expired room")])
      else
        let occupant := Occupant.first nick jid
        let room := { site.roomCreated name with occupants := [occupant] }
        let back :=
          if isSignedName name then
            some (site.plugin.usableNow conf.module name)
          else none
        some ({ conf with rooms := conf.rooms ++ [room] },
          [.created conf.rooms.length name back])
  | .join index nick jid ready =>
      match conf.reach index with
      | none => none
      | some room =>
          let signed := (conf.lookup jid).bind (·.signed)
          match signed.filter fun signed : Signed => signed.room = room.name with
          | none => some (site.enter conf index nick jid signed none)
          | some own =>
              if site.plugin.expired own conf.module.now then
                some (conf, [.notAllowed jid (joinText (ascii "expired"))])
              else site.ask conf own.room ready (.join index nick jid own)
  | .leave index jid =>
      (conf.reach index).map fun room =>
        (conf.setRoom index (room.leave jid), [])
  | .setAffiliation index actor target affiliation =>
      match conf.reach index with
      | none => none
      | some room =>
          if affiliation = some .owner ∧ ¬ site.owns room actor.bare then none
          else
            let later :=
              conf.setRoom index (room.affiliate target affiliation)
            match site.preSetAffiliation conf room actor target affiliation with
            | none => some (conf, [.notAllowed actor (ascii "not-allowed")])
            | some (some host) =>
                some (later, [.vouched index target host
                  (site.plugin.usableNow conf.module host.room)])
            | some none =>
                some (later, if affiliation = some .owner then
                  [.granted index actor target] else [])
  | .destroy index =>
      (conf.reach index).map fun room =>
        (conf.setRoom index room.destroy, [])
  | .sweep =>
      if site.plugin.options.lookupUrl = none then none
      else
        let indices := (List.range conf.rooms.length).filter fun index =>
          (conf.rooms[index]?).any fun room => room.signed && !room.destroyed
        let names := indices.filterMap fun index =>
          conf.rooms[index]?.map (·.name)
        (site.plugin.step conf.module (.sweep names)).map fun (module, _) =>
          ({ conf with module, sweeping := conf.sweeping ++ indices }, [])
  | .sweepAnswered lookup answer =>
      match conf.sweeping[lookup]?,
          site.plugin.step conf.module (.sweepAnswered lookup answer) with
      | some index, some (module, _) =>
          let state := Plugin.entryOf conf.module answer
          let sweeping := conf.sweeping.eraseIdx lookup
          let conf := { conf with module, sweeping }
          match conf.rooms[index]?.filter fun room : Room =>
              state.status = deleted ∧ ¬ room.destroyed with
          | none => some (conf, [])
          | some room =>
              some (conf.setRoom index room.destroy, [.closed index state])
      | _, _ => none
  | .sweepFailed lookup =>
      (site.plugin.step conf.module (.sweepFailed lookup)).map
        fun (module, _) =>
          ({ conf with module
                       sweeping := conf.sweeping.eraseIdx lookup }, [])

/-- Any number of acts, with all that could be seen. -/
inductive Runs (start : Conference) : Conference → List Happening → Prop where
  | nil : Runs start start []
  | step {conf later : Conference} {trace more : List Happening} {act : Act}
      (runs : Runs start conf trace)
      (happens : site.step conf act = some (later, more)) :
      Runs start later (trace ++ more)

/-- The acts one after another. -/
def play (conf : Conference) : List Act →
    Option (Conference × List Happening)
  | [] => some (conf, [])
  | act :: acts => do
      let (later, more) ← site.step conf act
      let (last, rest) ← play later acts
      return (last, more ++ rest)

def played (conf : Conference) (acts : List Act) :
    Conference × List Happening :=
  (site.play conf acts).getD (conf, [])

variable {site} {start conf last : Conference} {trace more : List Happening}

theorem Runs.play {acts : List Act} (runs : site.Runs start conf trace)
    (plays : site.play conf acts = some (last, more)) :
    site.Runs start last (trace ++ more) := by
  induction acts generalizing conf trace more with
  | nil =>
      cases plays
      simpa using runs
  | cons act acts induction =>
      simp only [Site.play, Option.bind_eq_bind, Option.bind_eq_some_iff,
        Option.pure_def] at plays
      obtain ⟨⟨later, seen⟩, happens, ⟨final, rest⟩, goesOn, same⟩ := plays
      cases same
      have onward := induction (runs.step happens) goesOn
      rwa [List.append_assoc] at onward

/-- A run is evaluated once, for all that is to be known of it. -/
theorem runs_played {acts : List Act} {check : Conference × List Happening → Bool}
    (happen : (site.play start acts).any check) :
    site.Runs start (site.played start acts).1 (site.played start acts).2 ∧
      check (site.played start acts) := by
  obtain ⟨⟨last, trace⟩, plays, holds⟩ := (Option.any_eq_true ..).mp happen
  rw [played, plays]
  exact ⟨by simpa using Runs.nil.play plays, holds⟩

end Site

end FfmucSalt.SignedRooms
