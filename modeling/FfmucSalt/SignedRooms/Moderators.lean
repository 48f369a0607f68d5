import FfmucSalt.SignedRooms.Acceptance
import FfmucSalt.SignedRooms.Credentials

/-!
# Who moderates a reserved room

In a reserved room jicofo makes nobody owner but hosts.  So every owner is one
by a chain of grants that starts at a session of a host, whose token was
accepted for that room.
-/

namespace FfmucSalt.SignedRooms

section Moderators

variable {site : Site} {conf later : Conference}
variable {trace more : List Happening}

/-! ## How rooms change -/

/-- Why somebody owns a room after an act. -/
inductive Gains (site : Site) (more : List Happening) (index : Nat)
    (room : Room) (target : Bytes) : Prop where
  | had (owner : room.affiliations[target]? = some .owner)
  | vouched (happened : ∃ host back, .vouched index target host back ∈ more)
  | granted {actor : Jid} (happened : .granted index actor target ∈ more)
      (owner : site.owns room actor.bare)
      (byHuman : room.signed → actor.bare ≠ site.focusJid)

/-- What an act may do to the rooms. -/
inductive Alters (site : Site) (rooms : List Room) (more : List Happening) :
    List Room → Prop where
  | same : Alters site rooms more rooms
  | opened {room : Room}
      (happened : ∃ back, .created rooms.length room.name back ∈ more)
      (unowned : room.affiliations = ∅) :
      Alters site rooms more (rooms ++ [room])
  | changed {index : Nat} {room next : Room}
      (isRoom : rooms[index]? = some room) (keeps : room.Keeps next)
      (gains : ∀ target, next.affiliations[target]? = some .owner →
        Gains site more index room target) :
      Alters site rooms more (rooms.set index next)

private theorem affiliate_owner {room : Room} {target other : Bytes}
    {affiliation : Option Affiliation}
    (owner : (room.affiliate target affiliation).affiliations[other]? =
      some .owner) :
    room.affiliations[other]? = some .owner ∨
      other = target ∧ affiliation = some .owner := by
  cases affiliation with
  | none =>
      simp only [Room.affiliate, FiniteMap.lookup_erase] at owner
      split at owner
      · cases owner
      · exact .inl owner
  | some affiliation =>
      simp only [Room.affiliate, FiniteMap.lookup_insert] at owner
      split at owner
      · rename_i same
        exact .inr ⟨same.symm, owner⟩
      · exact .inl owner

/-- A room that changes, but whose owners do not. -/
private theorem alters_calm {index : Nat} {room next : Room}
    (isRoom : conf.rooms[index]? = some room) (keeps : room.Keeps next)
    (affiliations : next.affiliations = room.affiliations) :
    Alters site conf.rooms more (conf.setRoom index next).rooms :=
  .changed isRoom keeps fun _ owner => .had (affiliations ▸ owner)

private theorem enter_alters {index : Nat} {nick : Bytes} {jid : Jid}
    {signed : Option Signed} {back : Option Return}
    (isOut : site.enter conf index nick jid signed back = (later, more)) :
    Alters site conf.rooms more later.rooms := by
  unfold Site.enter at isOut
  split at isOut
  · cases isOut
    exact .same
  rename_i entered isNew enters
  obtain ⟨room, isRoom, enters⟩ := Option.bind_eq_some_iff.mp enters
  obtain ⟨keeps, affiliations⟩ := Room.enter_eq_some enters
  dsimp only at isOut
  split at isOut
  · unfold Site.occupantJoined at isOut
    split at isOut
    · cases isOut
      exact alters_calm isRoom keeps affiliations
    split at isOut
    · cases isOut
      exact alters_calm isRoom keeps affiliations
    · cases isOut
      dsimp only [Conference.setRoom]
      rw [List.set_set]
      refine .changed isRoom (keeps.trans (entered.affiliate_keeps ..)) ?_
      intro target owner
      rcases affiliate_owner owner with had | ⟨rfl, -⟩
      · exact .had (affiliations ▸ had)
      · exact .vouched ⟨_, _, List.mem_cons_of_mem _ List.mem_cons_self⟩
  · cases isOut
    exact alters_calm isRoom keeps affiliations

private theorem goOn_alters {back : Return} {task : Task}
    (isOut : site.goOn conf back task = (later, more)) :
    Alters site conf.rooms more later.rooms := by
  cases task with
  | authenticate | request =>
      simp only [Site.goOn] at isOut
      repeat' split at isOut
      all_goals
        cases isOut
        exact .same
  | join =>
      simp only [Site.goOn] at isOut
      split at isOut
      · cases isOut
        exact .same
      · exact enter_alters isOut

private theorem ask_alters {name : Bytes} {ready : Bool} {task : Task}
    (happens : site.ask conf name ready task = some (later, more)) :
    Alters site conf.rooms more later.rooms := by
  unfold Site.ask at happens
  split at happens
  · cases happens
  · exact goOn_alters (Option.some.inj happens)
  · cases happens
    exact .same

private theorem setAffiliation_alters {index : Nat} {actor : Jid}
    {target : Bytes} {affiliation : Option Affiliation}
    (happens : site.step conf (.setAffiliation index actor target affiliation) =
      some (later, more)) : Alters site conf.rooms more later.rooms := by
  simp only [Site.step] at happens
  split at happens
  · cases happens
  rename_i room reaches
  have isRoom := Site.reach_eq_some reaches
  have keeps := room.affiliate_keeps target affiliation
  split at happens
  · cases happens
  rename_i allowed
  split at happens
  · cases happens
    exact .same
  · cases happens
    refine .changed isRoom keeps ?_
    intro other owner
    rcases affiliate_owner owner with had | ⟨rfl, -⟩
    · exact .had had
    · exact .vouched ⟨_, _, List.mem_cons_self⟩
  · rename_i careless
    cases happens
    refine .changed isRoom keeps ?_
    intro other owner
    rcases affiliate_owner owner with had | ⟨rfl, isOwner⟩
    · exact .had had
    · subst isOwner
      refine @Gains.granted _ _ _ _ _ actor (by simp) ?_ ?_
      · simpa using allowed
      · intro signed byFocus
        simp [Site.preSetAffiliation, signed, byFocus] at careless

private theorem inModule_alters {event : Event}
    (happens : site.inModule conf event = some (later, more)) :
    Alters site conf.rooms more later.rooms := by
  obtain ⟨⟨module, returned⟩, -, same⟩ := Option.map_eq_some_iff.mp happens
  cases same
  exact .same

/-- All that an act does to the rooms. -/
theorem step_alters {act : Act}
    (happens : site.step conf act = some (later, more)) :
    Alters site conf.rooms more later.rooms := by
  cases act with
  | tick time => exact inModule_alters happens
  | evict name => exact inModule_alters happens
  | answered call answer => exact inModule_alters happens
  | failed call => exact inModule_alters happens
  | resume call =>
      simp only [Site.step] at happens
      split at happens
      · rename_i task module back isTask isStep
        have alters := goOn_alters (Option.some.inj happens)
        exact alters
      · cases happens
  | authenticate jid token ready =>
      simp only [Site.step] at happens
      split at happens
      · cases happens
        exact .same
      · cases happens
        exact .same
      · exact ask_alters happens
  | connect jid =>
      simp only [Site.step] at happens
      split at happens
      · cases happens
      · cases happens
        exact .same
  | disconnect jid =>
      cases happens
      exact .same
  | request jid iq ready =>
      simp only [Site.step] at happens
      split at happens
      · split at happens
        · cases happens
          exact .same
        · exact ask_alters happens
      · cases happens
        exact .same
  | create jid name nick =>
      simp only [Site.step] at happens
      split at happens
      · cases happens
      split at happens
      · cases happens
        exact .same
      · cases happens
        refine .opened ?_ (Site.affiliations_roomCreated name)
        simp [Site.name_roomCreated]
  | join index nick jid ready =>
      simp only [Site.step] at happens
      split at happens
      · cases happens
      split at happens
      · exact enter_alters (Option.some.inj happens)
      split at happens
      · cases happens
        exact .same
      · exact ask_alters happens
  | leave index jid =>
      obtain ⟨room, reaches, same⟩ := Option.map_eq_some_iff.mp happens
      cases same
      exact alters_calm (Site.reach_eq_some reaches) (room.leave_keeps jid) rfl
  | setAffiliation index actor target affiliation =>
      exact setAffiliation_alters happens
  | destroy index =>
      obtain ⟨room, reaches, same⟩ := Option.map_eq_some_iff.mp happens
      cases same
      exact alters_calm (Site.reach_eq_some reaches) room.destroy_keeps rfl
  | sweep =>
      simp only [Site.step] at happens
      split at happens
      · cases happens
      · obtain ⟨⟨module, returned⟩, -, same⟩ :=
          Option.map_eq_some_iff.mp happens
        cases same
        exact .same
  | sweepAnswered lookup answer =>
      simp only [Site.step] at happens
      split at happens
      · split at happens
        · cases happens
          exact .same
        · rename_i room isRoom
          cases happens
          exact alters_calm (Option.filter_eq_some_iff.mp isRoom).1
            room.destroy_keeps rfl
      · cases happens
  | sweepFailed lookup =>
      obtain ⟨⟨module, returned⟩, -, same⟩ := Option.map_eq_some_iff.mp happens
      cases same
      exact .same

/-! ## Chains of grants -/

/-- `verify_token` accepted a token for the room, and the session of this JID
is made of it. -/
def Verified.Made (site : Site) (trace : List Happening) (room : Bytes)
    (jid : Jid) (signed : Signed) : Prop :=
  ∃ token back claims,
    .authenticated { jid, signed := some signed } token back ∈ trace ∧
    site.plugin.Justified back ∧
    site.plugin.verifyToken site.json (fun _ => back.verdict) token
      back.started = .accepted claims signed.role ∧
    text? (field claims (ascii "room")) = some room ∧ back.name = room ∧
    signed = signedOf site.json claims signed.role

/-- Somebody was made owner who had a session of a host of the room. -/
def HostCame (site : Site) (trace : List Happening) (index : Nat)
    (room target : Bytes) : Prop :=
  ∃ before after host back, ∃ jid : Jid,
    trace = before ++ .vouched index target host back :: after ∧
      host.role = hostRole ∧ jid.bare = target ∧
      Verified.Made site before room jid host ∧
      site.plugin.Justified back ∧ Passes site host back

/-- Who may own a reserved room. -/
inductive Entitled (site : Site) (trace : List Happening) (index : Nat)
    (room : Bytes) : Bytes → Prop where
  | host {target : Bytes} (came : HostCame site trace index room target) :
      Entitled site trace index room target
  | granted {actor : Jid} {target : Bytes}
      (entitled : Entitled site trace index room actor.bare)
      (happened : .granted index actor target ∈ trace) :
      Entitled site trace index room target

theorem Entitled.mono {index : Nat} {room target : Bytes}
    (entitled : Entitled site trace index room target) :
    Entitled site (trace ++ more) index room target := by
  induction entitled with
  | host came =>
      obtain ⟨before, after, host, back, jid, isTrace, evidence⟩ := came
      refine .host ⟨before, after ++ more, host, back, jid, ?_, evidence⟩
      rw [isTrace, List.append_assoc, List.cons_append]
  | granted _ happened entitled =>
      exact .granted entitled (List.mem_append_left _ happened)

namespace Site

variable {now : Seconds}

/-- What a session carries was read from a token that was accepted. -/
theorem Runs.made (runs : site.Runs (.start now) conf trace)
    {before after : List Happening}
    (isTrace : trace = before ++ after) {jid : Jid} {signed : Signed}
    (bears : Bears before jid signed) :
    Verified.Made site before signed.room jid signed := by
  obtain ⟨token, back, member⟩ := bears
  have happened : .authenticated { jid, signed := some signed } token back ∈
      trace :=
    isTrace ▸ List.mem_append_left _ member
  have justified := runs.justified happened (List.mem_singleton.mpr rfl)
  obtain ⟨first, rest, isBefore⟩ := List.append_of_mem member
  obtain ⟨claims, role, accepted, isSession, isRoom⟩ :=
    runs.sane.owes first _ (rest ++ after) (by
      rw [isTrace, isBefore, List.append_assoc, List.cons_append])
  cases isSession
  have sameRoom : (signedOf site.json claims role).room = back.name := by
    rw [signedOf, isRoom, Option.getD_some]
  exact ⟨token, back, claims, member, justified, accepted, sameRoom ▸ isRoom, sameRoom.symm, rfl⟩

theorem Runs.hostCame (runs : site.Runs (.start now) conf trace) {index : Nat}
    {room : Room} {target : Bytes} {host : Signed} {back : Return}
    (isRoom : conf.rooms[index]? = some room)
    (happened : .vouched index target host back ∈ trace) :
    HostCame site trace index room.name target := by
  obtain ⟨before, after, isTrace⟩ := List.append_of_mem happened
  obtain ⟨⟨jid, own, bears⟩, isHost, ⟨other, isOther, sameRoom⟩, -, passes⟩ :=
    runs.sane.owes before _ after isTrace
  rw [isRoom] at isOther
  cases isOther
  have justified := runs.justified happened (List.mem_singleton.mpr rfl)
  refine ⟨before, after, host, back, jid, isTrace, isHost, own, ?_, justified,
    passes⟩
  rw [sameRoom]
  exact runs.made isTrace bears

/-- An owner who is no admin got there in the run. -/
private theorem owns_human
    (admins : ∀ admin ∈ site.admins, admin = site.focusJid) {room : Room}
    {target : Bytes} (human : target ≠ site.focusJid)
    (owner : site.owns room target) :
    room.affiliations[target]? = some .owner := by
  rcases (Bool.or_eq_true _ _).mp owner with isAdmin | isOwner
  · exact (human (admins target (List.contains_iff_mem.mp isAdmin))).elim
  · exact of_decide_eq_true isOwner

private theorem Runs.entitled
    (admins : ∀ admin ∈ site.admins, admin = site.focusJid)
    (runs : site.Runs (.start now) conf trace) {index : Nat} {room : Room}
    (isRoom : conf.rooms[index]? = some room) (signed : room.signed)
    {target : Bytes} (owner : room.affiliations[target]? = some .owner) :
    Entitled site trace index room.name target := by
  induction runs generalizing index room target with
  | nil => simp [Conference.start] at isRoom
  | @step _ later _ _ _ runs happens induction =>
      have whole := runs.step happens
      have alters := step_alters happens
      have stored := isRoom
      generalize later.rooms = rooms at alters isRoom
      cases alters with
      | same => exact (induction isRoom signed owner).mono
      | @opened fresh _ unowned =>
          rw [List.getElem?_append] at isRoom
          split at isRoom
          · exact (induction isRoom signed owner).mono
          · rw [List.getElem?_singleton] at isRoom
            split at isRoom
            · cases isRoom
              rw [unowned] at owner
              simp at owner
            · cases isRoom
      | @changed other old next isOld keeps gains =>
          rw [List.getElem?_set] at isRoom
          split at isRoom
          · rename_i same
            subst same
            split at isRoom
            · cases isRoom
              rw [keeps.name]
              rw [keeps.signed] at signed
              cases gains target owner with
              | had had => exact (induction isOld signed had).mono
              | vouched happened =>
                  obtain ⟨host, back, happened⟩ := happened
                  have came := whole.hostCame stored
                    (List.mem_append_right _ happened)
                  rw [keeps.name] at came
                  exact .host came
              | granted happened owns byHuman =>
                  have actorOwns := owns_human admins (byHuman signed) owns
                  exact .granted (induction isOld signed actorOwns).mono
                    (List.mem_append_right _ happened)
            · cases isRoom
          · exact (induction isRoom signed owner).mono

end Site

end Moderators

/-! ## A host who makes a guest owner -/

namespace Sample

open MeetReserve.Sample (legacyRoom hostToken)

def site : Site :=
  { plugin, json
    mucDomain := ascii "conference.meet.ffmuc.net"
    focusJid := ascii "focus@auth.meet.ffmuc.net"
    focusHost := ascii "focus.meet.ffmuc.net"
    autoPromoteUnsigned := true
    isHealthcheckRoom := fun name =>
      (ascii "__jicofo-health-check").isPrefixOf name
    admins := [ascii "focus@auth.meet.ffmuc.net"] }

def jicofo : Jid :=
  { bare := ascii "focus@auth.meet.ffmuc.net", resource := ascii "focus" }

def host : Jid :=
  { bare := ascii "h@meet.ffmuc.net", resource := ascii "1" }

def guest : Jid :=
  { bare := ascii "g@meet.ffmuc.net", resource := ascii "2" }

def stillActive : Answer :=
  { status := active, expires := some 44200, gen := MeetReserve.genClaim 0 }

/-- The host of the v1 room comes in while a lookup says it is active, and
makes a guest owner. -/
def attend : List Act :=
  [.authenticate host hostToken true,
   .answered 0 stillActive,
   .resume 0,
   .create jicofo legacyRoom (ascii "focus"),
   .join 0 (ascii "host") host true,
   .connect guest,
   .join 0 (ascii "guest") guest false,
   .setAffiliation 0 host guest.bare (some .owner)]

def attended : Conference × List Happening := site.played (.start 1000) attend

/-- The guest owns the v1 room. -/
def guestOwns (last : Conference × List Happening) : Bool :=
  last.1.rooms[0]?.any fun room =>
    room.name = legacyRoom ∧ room.signed ∧ site.owns room guest.bare

/-- The room has this name. -/
def hasName (index : Nat) (name : Bytes) (last : Conference × List Happening) :
    Bool :=
  last.1.rooms[index]?.any fun room => room.name = name

/-- The host joins by its token. -/
def joins : Happening → Bool
  | .joined index jid (some signed) _ =>
      index = 0 ∧ jid = host ∧ signed.room = legacyRoom
  | _ => false

/-- The module makes the host owner, with a young record in hand. -/
def vouches : Happening → Bool
  | .vouched index target signed back =>
      index = 0 ∧ target = host.bare ∧
        back.module.states[signed.room]?.any fun entry =>
          back.module.now - entry.atTime < site.plugin.options.lookupGrace ∧
            entry.hasRecord
  | _ => false

/-- Both happen in the v1 room. -/
def comesIn (last : Conference × List Happening) : Bool :=
  hasName 0 legacyRoom last && last.2.any joins && last.2.any vouches

theorem attend_happens :
    site.Runs (.start 1000) attended.1 attended.2 ∧ guestOwns attended ∧
      comesIn attended := by
  have happen : (site.play (.start 1000) attend).any fun last =>
      guestOwns last && comesIn last := by
    decide +kernel
  obtain ⟨runs, checks⟩ := Site.runs_played happen
  exact ⟨runs, Bool.and_eq_true_iff.mp checks⟩

end Sample

end FfmucSalt.SignedRooms
