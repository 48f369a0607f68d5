import FfmucSalt.MeetReserve.Changes
import FfmucSalt.MeetReserve.StoreInvariant

/-!
# Signers that replicate their stores

Any number of signers, each with its own store.  A signer changes its store by
an operation of its own, or merges copies of records that some signer held at
an earlier moment; nothing is said about when copies arrive, how often, or in
which order.
-/

namespace FfmucSalt.MeetReserve

/-- What a signer does to its store, one critical section at a time. -/
inductive Operation where
  | update (room : RoomName) (change : Change) (random : UInt32) (now : Int)
      (saves : Bool)
  | mergeRemote (recs : List (Option Record × Int))
  | gc (now : Time) (saves : Bool)
  | restart

/-- The changes that handlers ask for: on a name they draw, on the name in a v1
token, whose secrets are derived from it, or on the name of a stored record.
Clocks show a time after the beginning of 1970. -/
def Server.Makes (server : Server) (room : RoomName) : Change → Prop
  | .reserve now _ _ => isShortName room ∧ 0 < now.unix
  | .raise _ => isLegacyName room
  | .migrate now _ host speaker => isLegacyName room ∧ 0 < now.unix ∧
      host = server.legacyHostSecret room ∧ speaker = server.speakerSecret host
  | .extend _ _ => validRoomName room
  | .rotate _ => validRoomName room
  | .revoke named now => named = room ∧ validRoomName room ∧ 0 < now.unix

theorem Server.Makes.valid {server : Server} {room : RoomName} {change : Change}
    (makes : server.Makes room change) : validRoomName room := by
  unfold validRoomName
  cases change with
  | reserve => simp [makes.1]
  | raise => simp [show isLegacyName room from makes]
  | migrate => simp [makes.1]
  | extend => exact makes
  | rotate => exact makes
  | revoke => exact makes.2.1

/-- Updates are those that handlers ask for (`handle_issues`). -/
def Server.Legal (server : Server) : Operation → Prop
  | .update room change _ _ _ => server.Makes room change
  | _ => True

/-- The copies that an operation takes in. -/
def Operation.received : Operation → Set Record
  | .mergeRemote recs => {record | ∃ now, (some record, now) ∈ recs}
  | _ => ∅

/-- The store after an operation, with the record a successful update returns.
An update that crashes has no outcome. -/
def Server.run (server : Server) (store : Store) :
    Operation → Option (Option Record × Store)
  | .update room change random now saves =>
      (store.update room (server.callback change random) now saves).map
        fun outcome => (outcome.1.toOption, outcome.2)
  | .mergeRemote recs => some (none, (store.mergeRemote recs).1)
  | .gc now saves => some (none, store.gc now gcKeep server.legacyLimit saves)
  | .restart => some (none, store.restart)

theorem Store.WellFormed.run {server : Server} {store later : Store}
    (wellFormed : store.WellFormed) {operation : Operation}
    (legal : server.Legal operation) {result : Option Record}
    (done : server.run store operation = some (result, later)) :
    later.WellFormed := by
  cases operation with
  | update room change random now saves =>
      obtain ⟨⟨outcome, after⟩, updated, same⟩ := Option.map_eq_some_iff.mp done
      obtain ⟨-, rfl⟩ := Prod.mk.inj same
      exact wellFormed.update legal.valid updated
  | mergeRemote recs =>
      obtain ⟨-, rfl⟩ := Prod.mk.inj (Option.some.inj done)
      exact wellFormed.mergeRemote recs
  | gc now saves =>
      obtain ⟨-, rfl⟩ := Prod.mk.inj (Option.some.inj done)
      exact wellFormed.gc now gcKeep server.legacyLimit saves
  | restart =>
      obtain ⟨-, rfl⟩ := Prod.mk.inj (Option.some.inj done)
      exact wellFormed.restart

/-- The result of an update is what is stored. -/
theorem Server.stored_of_result {server : Server} {store later : Store}
    {operation : Operation} {out : Record}
    (done : server.run store operation = some (some out, later)) :
    ∃ room : RoomName, later.rooms[room]? = some out := by
  cases operation with
  | update room change random now saves =>
      obtain ⟨⟨outcome, after⟩, updated, same⟩ := Option.map_eq_some_iff.mp done
      obtain ⟨isOut, rfl⟩ := Prod.mk.inj same
      cases outcome with
      | error error => cases isOut
      | ok record =>
          obtain ⟨rfl⟩ := Option.some.inj isOut
          obtain ⟨next, -, committed⟩ := Store.update_ok updated
          have rooms : after.rooms = store.rooms.insert room out := by
            have := store.commit_rooms room next now saves
            rwa [committed] at this
          refine ⟨room, ?_⟩
          change after.rooms[room]? = some out
          rw [rooms]
          simp
  | mergeRemote recs => simp [run] at done
  | gc now saves => simp [run] at done
  | restart => simp [run] at done

/-- A host and a speaker secret that came into being together. -/
structure Pair where
  room : RoomName
  gen : UInt64
  host : Hash
  speaker : Hash
  deriving DecidableEq

/-- The pair that an operation writes if it succeeds. -/
def Server.writes (server : Server) (store : Store) : Operation → Option Pair
  | .update room change random _ _ =>
      match change with
      | .reserve _ _ host =>
          some { room, gen := 0, host := server.hashSecret host
                 speaker := server.hashSecret (server.speakerSecret host) }
      | .migrate _ _ host speaker =>
          some { room, gen := 0, host := server.hashSecret host
                 speaker := server.hashSecret speaker }
      | .rotate host =>
          some { room, gen := nextGen (store.recordOr room).gen random
                 host := server.hashSecret host
                 speaker := server.hashSecret (server.speakerSecret host) }
      | _ => none
  | _ => none

/-- The stores of all signers, and what happened so far. -/
structure Cluster (ι : Type) where
  stores : ι → Store
  /-- Every record a signer held, as a message can carry it. -/
  copies : Set Record
  /-- The results of successful updates, in order. -/
  results : List (ι × Record)
  /-- The copies that a signer merged. -/
  merged : Set (ι × Record)
  /-- The pairs of secrets that successful updates wrote, in order. -/
  written : List Pair

namespace Cluster

variable {ι : Type} [DecidableEq ι]

/-- All signers start without a snapshot. -/
def initial : Cluster ι :=
  { stores := fun _ => newStore none
    copies := ∅
    results := []
    merged := ∅
    written := [] }

/-- One signer did something. -/
def after (cluster : Cluster ι) (server : Server) (site : ι)
    (operation : Operation) (result : Option Record) (store : Store) :
    Cluster ι :=
  { stores := Function.update cluster.stores site store
    copies := cluster.copies ∪
      {record | ∃ room : RoomName, store.rooms[room]? = some record}
    results := cluster.results ++ (result.map fun record => (site, record)).toList
    merged := cluster.merged ∪
      {entry | entry.1 = site ∧ entry.2 ∈ operation.received}
    written := cluster.written ++ (result.bind fun _ =>
      server.writes (cluster.stores site) operation).toList }

/-- One operation of one signer. -/
inductive Step (server : Server) (cluster : Cluster ι) :
    ι → Operation → Cluster ι → Prop where
  | intro {site : ι} {operation : Operation} {result : Option Record}
      {store : Store} (legal : server.Legal operation)
      (sent : operation.received ⊆ cluster.copies)
      (done : server.run (cluster.stores site) operation =
        some (result, store)) :
      Step server cluster site operation
        (cluster.after server site operation result store)

/-- Any number of operations that meet a condition, in any order. -/
def Run (server : Server) (condition : Cluster ι → ι → Operation → Prop) :
    Cluster ι → Cluster ι → Prop :=
  Relation.ReflTransGen fun cluster later => ∃ site operation,
    condition cluster site operation ∧ Step server cluster site operation later

/-- What every operation keeps, every run keeps. -/
theorem Run.keeps {server : Server}
    {condition : Cluster ι → ι → Operation → Prop}
    {motive : Cluster ι → Prop} {cluster later : Cluster ι}
    (run : Run server condition cluster later) (holds : motive cluster)
    (step : ∀ {cluster later site operation}, motive cluster →
      condition cluster site operation →
      Step server cluster site operation later → motive later) :
    motive later := by
  induction run with
  | refl => exact holds
  | tail _ last induction =>
      obtain ⟨site, operation, allowed, last⟩ := last
      exact step induction allowed last

variable {server : Server} {condition : Cluster ι → ι → Operation → Prop}
variable {cluster later : Cluster ι}

theorem Run.mono {weaker : Cluster ι → ι → Operation → Prop}
    (run : Run server condition cluster later)
    (implies : ∀ cluster site operation,
      condition cluster site operation → weaker cluster site operation) :
    Run server weaker cluster later := by
  induction run with
  | refl => exact .refl
  | tail _ last induction =>
      obtain ⟨site, operation, allowed, last⟩ := last
      exact induction.tail ⟨site, operation, implies _ _ _ allowed, last⟩

theorem Step.wellFormed {site : ι} {operation : Operation}
    (step : Step server cluster site operation later)
    (wellFormed : ∀ site, (cluster.stores site).WellFormed) (other : ι) :
    (later.stores other).WellFormed := by
  obtain ⟨legal, -, done⟩ := step
  by_cases same : other = site
  · subst same
    simpa [after] using (wellFormed other).run legal done
  · simpa [after, same] using wellFormed other

/-- Every store is well formed. -/
theorem wellFormed_of_run (run : Run server condition initial cluster)
    (site : ι) : (cluster.stores site).WellFormed := by
  apply run.keeps
    (motive := fun cluster => ∀ site, (cluster.stores site).WellFormed)
  · intro site
    exact Store.WellFormed.newStore
  · intro cluster later changed operation held _ step
    exact step.wellFormed held

/-- What every operation on well-formed stores keeps holds after every run. -/
theorem Run.keeps_initial {motive : Cluster ι → Prop}
    (run : Run server condition initial cluster) (holds : motive initial)
    (step : ∀ {cluster later site operation},
      (∀ site, (cluster.stores site).WellFormed) → motive cluster →
      condition cluster site operation →
      Step server cluster site operation later → motive later) :
    motive cluster := by
  have both := run.keeps
    (motive := fun cluster => (∀ site, (cluster.stores site).WellFormed) ∧
      motive cluster)
    ⟨fun _ => Store.WellFormed.newStore, holds⟩ ?_
  · exact both.2
  intro cluster later site operation ⟨wellFormed, held⟩ allowed last
  exact ⟨last.wellFormed wellFormed, step wellFormed held allowed last⟩

/-- Every copy was taken from well-formed records. -/
theorem copy_of_run (run : Run server condition initial cluster)
    {record : Record} (copy : record ∈ cluster.copies) :
    ∃ rooms : FiniteMap RoomName Record, WellFormedRooms rooms ∧
      rooms[record.room]? = some record := by
  have all := run.keeps_initial
    (motive := fun cluster => ∀ record ∈ cluster.copies,
      ∃ rooms : FiniteMap RoomName Record,
        WellFormedRooms rooms ∧ rooms[record.room]? = some record)
    (fun _ none => none.elim) ?_
  · exact all record copy
  intro cluster later changed operation wellFormed held _ ⟨legal, _, done⟩
    record isCopy
  have stored := (wellFormed changed).run legal done
  rcases isCopy with old | ⟨room, found⟩
  · exact held record old
  · exact ⟨_, stored.rooms, stored.rooms.keyed found ▸ found⟩

/-- What a signer stores can be sent. -/
theorem mem_copies_of_run (run : Run server condition initial cluster)
    {site : ι} {room : RoomName} {record : Record}
    (stored : (cluster.stores site).rooms[room]? = some record) :
    record ∈ cluster.copies := by
  have all := run.keeps
    (motive := fun cluster => ∀ site (room : RoomName) record,
      (cluster.stores site).rooms[room]? = some record →
        record ∈ cluster.copies) ?_ ?_
  · exact all site room record stored
  · intro site room record found
    simp [initial, newStore] at found
  · rintro cluster later changed operation held - ⟨-, -, -⟩ site room record
      found
    by_cases same : site = changed
    · subst same
      exact .inr ⟨room, by simpa [after] using found⟩
    · exact .inl (held site room record (by simpa [after, same] using found))

/-- What an update returned can be sent. -/
theorem result_mem_copies_of_run (run : Run server condition initial cluster)
    {site : ι} {record : Record} (result : (site, record) ∈ cluster.results) :
    record ∈ cluster.copies := by
  have all := run.keeps
    (motive := fun cluster => ∀ site record,
      (site, record) ∈ cluster.results → record ∈ cluster.copies) ?_ ?_
  · exact all site record result
  · intro site record member
    simp [initial] at member
  · rintro cluster later changed operation held - ⟨-, -, done⟩ site record member
    rcases List.mem_append.mp member with old | new
    · exact .inl (held site record old)
    · rename_i outcome store
      cases outcome with
      | none => simp at new
      | some out =>
          obtain ⟨-, rfl⟩ : site = changed ∧ record = out := by simpa using new
          exact .inr (Server.stored_of_result done)

end Cluster

end FfmucSalt.MeetReserve
