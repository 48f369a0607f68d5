import FfmucSalt.SignedRooms.Moderators

/-!
# Who and what is let in

Rooms are created, hosts are made owners and sessions join on answers of
meet-reserve.  Where a hook cannot wait this is the latest answer.
-/

namespace FfmucSalt.SignedRooms

section Admission

variable {plugin : Plugin} {site : Site} {conf : Conference} {now : Seconds}
variable {trace before after : List Happening}

/-! ## What a call decides by -/

theorem isSignedName_of_isShortName {name : Bytes} (short : isShortName name) :
    isSignedName name := by
  unfold isShortName at short
  split at short
  · cases short
  · rename_i accepted
    exact not_not.mp (not_or.mp accepted).1

/-- An answer for the room lets it exist. -/
structure Allows (back : Return) (entry : Entry) : Prop where
  logged : back.module.Logged back.name entry
  isActive : entry.status = active
  inTime : ∀ expires, entry.expires = some expires →
    (back.module.now : ℚ) ≤ expires

/-- An answer is the latest for the room, and young enough. -/
structure Latest (plugin : Plugin) (back : Return) (entry : Entry) : Prop where
  stored : back.module.states[back.name]? = some entry
  latest : ∀ number other, back.module.log[number]? = some (back.name, other) →
    number ≤ entry.number
  young : back.module.now - entry.atTime < plugin.options.lookupGrace

/-- An answer came less than `lookup_grace` before the call, or during it. -/
def Recent (plugin : Plugin) (back : Return) (entry : Entry) : Prop :=
  entry.atTime ≤ back.started ∧
      back.started - entry.atTime < plugin.options.lookupGrace ∨
    back.began ≤ entry.number

theorem allows_of_byRecord {back : Return} {entry : Entry}
    {state : Option Entry} (logged : back.module.Logged back.name entry)
    (ok : Plugin.byRecord entry back.module.now = .ok state) :
    Allows back entry ∧ state = some entry := by
  obtain ⟨isActive, notExpired, isState⟩ := byRecord_eq_ok.mp ok
  exact ⟨⟨logged, isActive, Answer.not_expired_iff.mp notExpired⟩, isState⟩

/-- A call that does not wait decides by the cache. -/
theorem Plugin.Justified.cached {back : Return}
    (justified : plugin.Justified back) (direct : back.waited = none)
    {state : Option Entry} (ok : back.verdict = .ok state) :
    back.state = plugin.young back.module back.name := by
  cases justified.source with
  | refused _ _ _ refused _ =>
      rw [refused] at ok
      cases ok
  | direct _ _ _ _ isState => exact isState
  | waited waits =>
      rw [direct] at waits
      cases waits

theorem Plugin.Justified.latest {back : Return}
    (justified : plugin.Justified back) {entry : Entry}
    (isEntry : plugin.young back.module back.name = some entry) :
    Latest plugin back entry := by
  obtain ⟨stored, young⟩ := Plugin.young_eq_some.mp isEntry
  exact ⟨stored, justified.sound.latest _ entry stored, young⟩

/-- A short room is usable by an answer that allows it. -/
theorem Plugin.Justified.allows {back : Return}
    (justified : plugin.Justified back) (short : isShortName back.name)
    {state : Option Entry} (ok : back.verdict = .ok state) :
    ∃ entry, state = some entry ∧ back.state = some entry ∧
      Allows back entry ∧ Recent plugin back entry := by
  rcases justified.decided with ⟨reason, -, refused⟩ | ⟨decide, usable, decides⟩
  · rw [refused] at ok
    cases ok
  · rw [roomUsable_short short] at usable
    cases usable
    rw [decides] at ok
    cases isState : back.state with
    | none =>
        rw [isState] at ok
        cases ok
    | some entry =>
        obtain ⟨logged, recent⟩ := justified.recent isState
        rw [isState] at ok
        obtain ⟨allows, same⟩ := allows_of_byRecord logged ok
        exact ⟨entry, same, rfl, allows, recent⟩

/-- A record in hand decides about a v1 room, too. -/
theorem Plugin.Justified.byRecord {back : Return}
    (justified : plugin.Justified back) {state : Option Entry}
    (ok : back.verdict = .ok state) {entry : Entry}
    (isEntry : back.state = some entry) (record : entry.hasRecord) :
    Allows back entry ∧ state = some entry := by
  have logged := (justified.recent isEntry).1
  apply allows_of_byRecord logged
  rcases justified.decided with ⟨reason, -, refused⟩ | ⟨decide, usable, decides⟩
  · rw [refused] at ok
    cases ok
  · rw [decides, isEntry] at ok
    unfold roomUsable at usable
    split at usable
    · cases usable
      exact ok
    · split at usable
      · cases usable
      · split at usable
        · cases usable
        · cases usable
          simpa [legacyUsable, record] using ok

/-! ## Rooms -/

namespace Site

/-- Every room was created in the run. -/
theorem Runs.created (runs : site.Runs (.start now) conf trace) {index : Nat}
    {room : Room} (isRoom : conf.rooms[index]? = some room) :
    ∃ back, .created index room.name back ∈ trace := by
  induction runs generalizing room with
  | nil => simp [Conference.start] at isRoom
  | @step conf later trace more _ _ happens induction =>
      have alters := step_alters happens
      generalize later.rooms = rooms at alters isRoom
      have earlier : ∀ {old : Room}, conf.rooms[index]? = some old →
          ∃ back, Happening.created index old.name back ∈ trace ++ more := by
        intro old isOld
        obtain ⟨back, happened⟩ := induction isOld
        exact ⟨back, List.mem_append_left _ happened⟩
      cases alters with
      | same => exact earlier isRoom
      | @opened fresh happened _ =>
          rw [List.getElem?_append] at isRoom
          split at isRoom
          · exact earlier isRoom
          · rename_i outside
            rw [List.getElem?_singleton] at isRoom
            split at isRoom
            · cases isRoom
              obtain ⟨back, happened⟩ := happened
              refine ⟨back, List.mem_append_right _ ?_⟩
              have isIndex : index = conf.rooms.length := by omega
              rw [isIndex]
              exact happened
            · cases isRoom
      | @changed other old next isOld keeps _ =>
          rw [List.getElem?_set] at isRoom
          split at isRoom
          · rename_i same
            subst same
            split at isRoom
            · cases isRoom
              rw [keeps.name]
              exact earlier isOld
            · cases isRoom
          · exact earlier isRoom

/-- A short name is given to a room on the latest answer for it. -/
theorem Runs.created_on_latest (runs : site.Runs (.start now) conf trace)
    {index : Nat} {name : Bytes} {back : Option Return}
    (happened : .created index name back ∈ trace) (short : isShortName name) :
    ∃ own entry, back = some own ∧ own.name = name ∧
      own.verdict = .ok (some entry) ∧ Allows own entry ∧
        Latest site.plugin own entry := by
  obtain ⟨before, after, isTrace⟩ := List.append_of_mem happened
  obtain ⟨own, rfl, isName, direct, state, ok⟩ :=
    runs.sane.owes before _ after isTrace (isSignedName_of_isShortName short)
  have justified := runs.justified happened (List.mem_singleton.mpr rfl)
  rw [← isName] at short
  obtain ⟨entry, rfl, isEntry, allows, -⟩ := justified.allows short ok
  rw [justified.cached direct ok] at isEntry
  exact ⟨own, entry, rfl, isName, ok, allows, justified.latest isEntry⟩

/-- Every short room was created on the latest answer for its name, which was
active, not expired and younger than `lookup_grace`. -/
theorem short_room_on_latest (runs : site.Runs (.start now) conf trace)
    {index : Nat} {room : Room} (isRoom : conf.rooms[index]? = some room)
    (short : isShortName room.name) :
    ∃ back entry, .created index room.name (some back) ∈ trace ∧
      back.name = room.name ∧ back.verdict = .ok (some entry) ∧
      Allows back entry ∧ Latest site.plugin back entry := by
  obtain ⟨back, happened⟩ := runs.created isRoom
  obtain ⟨own, entry, rfl, isName, ok, allows, latest⟩ :=
    runs.created_on_latest happened short
  exact ⟨own, entry, happened, isName, ok, allows, latest⟩

/-! ## Sessions -/

/-- A host makes an owner only while the latest answer for the room, if it is
young and of a record, is active and has the generation of its token.  In a
short room there is one. -/
theorem vouched_on_latest (runs : site.Runs (.start now) conf trace)
    {index : Nat} {target : Bytes} {host : Signed} {back : Return}
    (happened : .vouched index target host back ∈ trace) :
    back.name = host.room ∧
      (∀ entry, back.module.states[host.room]? = some entry →
        back.module.now - entry.atTime < site.plugin.options.lookupGrace →
        entry.hasRecord → Allows back entry ∧ Latest site.plugin back entry ∧
          entry.gen = host.gen) ∧
      (isShortName host.room → ∃ entry, Allows back entry ∧
        Latest site.plugin back entry ∧ entry.gen = host.gen) := by
  obtain ⟨before, after, isTrace⟩ := List.append_of_mem happened
  obtain ⟨-, -, -, direct, passes⟩ := runs.sane.owes before _ after isTrace
  have justified := runs.justified happened (List.mem_singleton.mpr rfl)
  obtain ⟨state, ok, sameGen⟩ := Plugin.stillValid_eq_ok.mp passes.valid
  have cached := justified.cached direct ok
  refine ⟨passes.room, ?_, ?_⟩
  · intro entry stored young record
    rw [← passes.room] at stored
    have isEntry := Plugin.young_eq_some.mpr ⟨stored, young⟩
    obtain ⟨allows, isState⟩ :=
      justified.byRecord ok (cached.trans isEntry) record
    exact ⟨allows, justified.latest isEntry,
      sameGen entry isState allows.isActive⟩
  · intro short
    rw [← passes.room] at short
    obtain ⟨entry, isState, isEntry, allows, -⟩ := justified.allows short ok
    rw [cached] at isEntry
    exact ⟨entry, allows, justified.latest isEntry,
      sameGen entry isState allows.isActive⟩

end Site

end Admission

namespace Sample

open MeetReserve.Sample (legacyRoom room)

/-- A guest asks jicofo for the short room. -/
def ask : Act :=
  .request guest
    { type := ascii "set"
      receiver := site.focusHost
      originType := ascii "c2s"
      conference := some (some room, site.mucDomain) } true

/-- The sweep closes the short room, and a newer answer opens it again. -/
def reopen : List Act :=
  [.connect guest, ask, .answered 0 stillActive, .resume 0,
   .create jicofo room (ascii "focus"),
   .sweep,
   .sweepAnswered 0 { status := deleted, expires := none, gen := [] },
   .tick 1100, ask, .answered 0 stillActive, .resume 0,
   .create jicofo room (ascii "focus")]

def reopened : Conference × List Happening := site.played (.start 1000) reopen

private theorem reopen_happens :
    site.Runs (.start 1000) reopened.1 reopened.2 ∧ hasName 1 room reopened :=
  Site.runs_played (by decide +kernel)

/-- The room that was opened again is there on the newer answer. -/
theorem short_room_on_latest_reopened :
    ∃ own entry, .created 1 room (some own) ∈ reopened.2 ∧
      Allows own entry ∧ Latest site.plugin own entry := by
  obtain ⟨runs, named⟩ := reopen_happens
  obtain ⟨second, isRoom, isName⟩ := (Option.any_eq_true ..).mp named
  have isName := of_decide_eq_true isName
  obtain ⟨own, entry, happened, -, -, allows, latest⟩ :=
    Site.short_room_on_latest runs isRoom (by rw [isName]; decide)
  exact ⟨own, entry, isName ▸ happened, allows, latest⟩

/-- The latest answer when the module makes the host owner -/
theorem vouched_on_latest_admitted :
    ∃ signed back entry, .vouched 0 host.bare signed back ∈ attended.2 ∧
      Allows back entry ∧ Latest site.plugin back entry ∧
        entry.gen = signed.gen := by
  obtain ⟨runs, -, checks⟩ := attend_happens
  obtain ⟨-, happened⟩ := Bool.and_eq_true_iff.mp checks
  obtain ⟨happening, member, isVouched⟩ := List.any_eq_true.mp happened
  cases happening with
  | vouched index target signed back =>
      obtain ⟨rfl, rfl, stored⟩ := of_decide_eq_true isVouched
      obtain ⟨entry, stored, holds⟩ := (Option.any_eq_true ..).mp stored
      obtain ⟨young, record⟩ := of_decide_eq_true holds
      obtain ⟨allows, latest, sameGen⟩ :=
        (Site.vouched_on_latest runs member).2.1 entry stored young record
      exact ⟨signed, back, entry, member, allows, latest, sameGen⟩
  | _ => cases isVouched

end Sample

end FfmucSalt.SignedRooms
