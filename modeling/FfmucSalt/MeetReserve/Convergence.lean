import FfmucSalt.Foundation.Replication
import FfmucSalt.MeetReserve.Cluster
import FfmucSalt.MeetReserve.MergeAlgebra
import FfmucSalt.MeetReserve.StorePoints

/-!
# Signers converge

Seen at one room, a cluster whose signers only update and merge is a network
of replicas of the semilattice of points; an absent record is the least point.
So what `Replication` proves about such networks holds of the records: they
only grow, no acknowledged change is lost, and signers that merged each
other's records hold the same one.
-/

namespace FfmucSalt.MeetReserve

open Replication

/-- The operations that replication is about. -/
def Operation.Replicates : Operation → Prop
  | .update _ _ _ _ _ => True
  | .mergeRemote _ => True
  | _ => False

/-- The merge of a list of results, starting from nothing. -/
def mergeAll (room : RoomName) : List Record → Option Record
  | [] => none
  | results => some (results.foldl Record.merged (Record.empty room))

/-! ## One room of a cluster as a network -/

variable {ι : Type} [DecidableEq ι]

/-! ### Messages -/

section Messages

variable {site : ι}

/-- Receiving a list of copies is merging the points of those of the room. -/
private theorem receives (recs : List (Option Record × Int)) (room : RoomName)
    (store : Store) (network : Network ι (WithBot Record.Point))
    (proper : ∀ record now, (some record, now) ∈ recs →
      validRoomName record.room ∧ 0 ≤ record.expires)
    (sent : ∀ record now, (some record, now) ∈ recs → record.room = room →
      (record.point : WithBot Record.Point) ∈ network.held)
    (replica : network.replica site = store.pointOf room) :
    ∃ later, Replication.Run network later ∧
      later.replica = Function.update network.replica site
        ((recs.foldl Store.receive store).pointOf room) ∧
      later.acknowledged = network.acknowledged ∧
      network.held ⊆ later.held ∧ network.merged ⊆ later.merged ∧
      ∀ record now, (some record, now) ∈ recs → record.room = room →
        (site, (record.point : WithBot Record.Point)) ∈ later.merged := by
  induction recs generalizing network store with
  | nil =>
      refine ⟨network, .refl, ?_, rfl, subset_rfl, subset_rfl, by simp⟩
      rw [List.foldl_nil, ← replica, Function.update_eq_self]
  | cons rec recs induction =>
      obtain ⟨received, now⟩ := rec
      have properRest := fun record now member =>
        proper record now (List.mem_cons_of_mem _ member)
      have sentRest := fun record now member =>
        sent record now (List.mem_cons_of_mem _ member)
      rw [List.foldl_cons]
      cases received with
      | none =>
          obtain ⟨later, run, replicas, acknowledged, held, merged, all⟩ :=
            induction store network properRest sentRest replica
          refine ⟨later, run, replicas, acknowledged, held, merged, ?_⟩
          intro record now member
          exact all record now (by simpa using member)
      | some other =>
          obtain ⟨valid, nonneg⟩ := proper other now (by simp)
          have turn : store.receive (some other, now) =
              (store.mergeRecord other now).1 := by
            simp [Store.receive, ne_nil_of_validRoomName valid, valid]
          have points := store.pointOf_mergeRecord now nonneg room
          rw [turn]
          by_cases here : other.room = room
          · rw [if_pos here] at points
            have step := Replication.Step.merge site (sent other now (by simp) here)
            obtain ⟨later, run, replicas, acknowledged, held, merged, all⟩ :=
              induction (store.mergeRecord other now).1
                (network.merge site other.point) properRest
                (fun record now member same =>
                  .inr (sentRest record now member same))
                (by simp [Network.merge, points, replica])
            refine ⟨later, .head step run, ?_, acknowledged,
              (Set.subset_insert _ _).trans held,
              (Set.subset_insert _ _).trans merged, ?_⟩
            · rw [replicas]
              simp [Network.merge]
            · intro record time member same
              rcases List.mem_cons.mp member with first | rest
              · obtain ⟨rfl, rfl⟩ : record = other ∧ time = now := by
                  simpa using first
                exact merged (.inl rfl)
              · exact all record time rest same
          · rw [if_neg here] at points
            obtain ⟨later, run, replicas, acknowledged, held, merged, all⟩ :=
              induction (store.mergeRecord other now).1 network properRest
                sentRest (points ▸ replica)
            refine ⟨later, run, replicas, acknowledged, held, merged, ?_⟩
            intro record time member same
            rcases List.mem_cons.mp member with first | rest
            · obtain ⟨rfl, rfl⟩ : record = other ∧ time = now := by
                simpa using first
              exact (here same).elim
            · exact all record time rest same

end Messages

/-- A network of points that a cluster follows at one room. -/
structure Follows (room : RoomName) (cluster : Cluster ι)
    (network : Network ι (WithBot Record.Point)) : Prop where
  reached : Replication.Run (Network.initial ⊥) network
  replica : ∀ site, network.replica site = (cluster.stores site).pointOf room
  held : ∀ {record}, record ∈ cluster.copies → record.room = room →
    (record.point : WithBot Record.Point) ∈ network.held
  acknowledged : ∀ {site point}, (site, point) ∈ network.acknowledged ↔
    ∃ record, (site, record) ∈ cluster.results ∧ record.room = room ∧
      point = record.point
  merged : ∀ {site record}, (site, record) ∈ cluster.merged →
    record.room = room →
      (site, (record.point : WithBot Record.Point)) ∈ network.merged

namespace Follows

variable {server : Server} {room : RoomName} {cluster later : Cluster ι}
variable {network : Network ι (WithBot Record.Point)}

theorem initial (room : RoomName) :
    Follows room (Cluster.initial : Cluster ι) (Network.initial ⊥) where
  reached := .refl
  replica site := by
    simp [Network.initial, Cluster.initial, newStore, Store.pointOf]
  held copy := copy.elim
  acknowledged := by simp [Network.initial, Cluster.initial]
  merged received := received.elim

/-- The record that a signer stores is held by the network as well. -/
private theorem held_of_stored {store : Store}
    (wellFormed : store.WellFormed) {site : ι}
    (reached : Replication.Run (Network.initial ⊥) network)
    (replica : network.replica site = store.pointOf room)
    {name : RoomName} {record : Record}
    (stored : store.rooms[name]? = some record) (named : record.room = room) :
    (record.point : WithBot Record.Point) ∈ network.held := by
  have same : name = room := (wellFormed.rooms.keyed stored).symm.trans named
  subst same
  rw [← Store.pointOf_eq stored, ← replica]
  exact (Invariant.run reached).current site

/-- Every operation of a signer is a run of the network. -/
theorem step {site : ι} {operation : Operation}
    (follows : Follows room cluster network)
    (wellFormed : (cluster.stores site).WellFormed)
    (copies : ∀ record ∈ cluster.copies,
      validRoomName record.room ∧ 0 ≤ record.expires)
    (replicates : operation.Replicates)
    (step : Cluster.Step server cluster site operation later) :
    ∃ network', Replication.Run network network' ∧
      Follows room later network' := by
  obtain ⟨legal, sent, done⟩ := step
  rename_i result store
  have stored := wellFormed.run legal done
  cases operation with
  | gc => exact replicates.elim
  | restart => exact replicates.elim
  | mergeRemote recs =>
      obtain ⟨rfl, rfl⟩ := Prod.mk.inj (Option.some.inj done)
      obtain ⟨dirty, merged⟩ := (cluster.stores site).mergeRemote_eq recs
      obtain ⟨network', run, replica, acknowledged, held, old, all⟩ :=
        receives recs room (cluster.stores site) network
          (fun record now member => copies record (sent ⟨now, member⟩))
          (fun record now member => follows.held (sent ⟨now, member⟩))
          (follows.replica site)
      have replica' : network'.replica = Function.update network.replica site
          (((cluster.stores site).mergeRemote recs).1.pointOf room) := by
        rw [replica, merged]
        rfl
      have reached := follows.reached.trans run
      refine ⟨network', run, reached, ?_, ?_, ?_, ?_⟩
      · intro other
        rw [replica']
        by_cases same : other = site
        · subst same
          simp [Cluster.after]
        · simp [Cluster.after, same, follows.replica other]
      · rintro record (copy | ⟨name, found⟩) named
        · exact held (follows.held copy named)
        · exact held_of_stored stored reached
            (by rw [replica', Function.update_self]) found named
      · intro other point
        rw [acknowledged, follows.acknowledged]
        simp [Cluster.after]
      · rintro other record (received | ⟨rfl, now, member⟩) named
        · exact old (follows.merged received named)
        · exact all record now member named
  | update name change random now saves =>
      obtain ⟨⟨outcome, after⟩, updated, same⟩ := Option.map_eq_some_iff.mp done
      obtain ⟨rfl, rfl⟩ := Prod.mk.inj same
      cases outcome with
      | error error =>
          obtain ⟨-, rfl⟩ := Store.update_error updated
          refine ⟨network, .refl, follows.reached, ?_, ?_, ?_, ?_⟩
          · intro other
            by_cases same : other = site
            · subst same
              simp [Cluster.after, follows.replica other]
            · simp [Cluster.after, follows.replica other]
          · rintro record (copy | ⟨name, found⟩) named
            · exact follows.held copy named
            · exact held_of_stored stored follows.reached
                (follows.replica site) found named
          · intro other point
            simp [Cluster.after, follows.acknowledged, Except.toOption]
          · rintro other record (received | ⟨-, none⟩) named
            · exact follows.merged received named
            · exact none.elim
      | ok out =>
          obtain ⟨next, -, committed⟩ := Store.update_ok updated
          have rooms : after.rooms =
              (cluster.stores site).rooms.insert name out := by
            have := (cluster.stores site).commit_rooms name next now saves
            rwa [committed] at this
          have outStored : after.rooms[name]? = some out := by simp [rooms]
          have outNamed : out.room = name := stored.rooms.keyed outStored
          by_cases here : name = room
          · subst here
            have grows := (cluster.stores site).pointOf_le_commit name next
              now saves
            rw [committed, Store.pointOf_eq outStored, ← follows.replica site]
              at grows
            have reached := follows.reached.tail
              (Replication.Step.update site grows)
            have replica : (network.update site out.point).replica site =
                after.pointOf name := by
              simp [Network.update, Store.pointOf_eq outStored]
            refine ⟨_, .single (.update site grows), reached, ?_, ?_, ?_, ?_⟩
            · intro other
              by_cases same : other = site
              · subst same
                simp [Cluster.after, Network.update,
                  Store.pointOf_eq outStored]
              · simp [Cluster.after, Network.update, same,
                  follows.replica other]
            · rintro record (copy | ⟨room, found⟩) named
              · exact .inr (follows.held copy named)
              · exact held_of_stored stored reached replica found named
            · intro other point
              simp only [Network.update, Set.mem_insert_iff, Prod.mk.injEq,
                follows.acknowledged, Cluster.after, Except.toOption,
                Option.map_some, Option.toList_some, List.mem_append,
                List.mem_singleton]
              constructor
              · rintro (⟨rfl, rfl⟩ | ⟨record, old, named, rfl⟩)
                · exact ⟨out, .inr ⟨rfl, rfl⟩, outNamed, rfl⟩
                · exact ⟨record, .inl old, named, rfl⟩
              · rintro ⟨record, old | ⟨rfl, rfl⟩, named, rfl⟩
                · exact .inr ⟨record, old, named, rfl⟩
                · exact .inl ⟨rfl, rfl⟩
            · rintro other record (received | ⟨-, none⟩) named
              · exact follows.merged received named
              · exact none.elim
          · have unchanged : after.pointOf room =
                (cluster.stores site).pointOf room := by
              unfold Store.pointOf
              rw [rooms, FiniteMap.lookup_insert, if_neg here]
            have replica : network.replica site = after.pointOf room := by
              rw [unchanged, follows.replica site]
            refine ⟨network, .refl, follows.reached, ?_, ?_, ?_, ?_⟩
            · intro other
              by_cases same : other = site
              · subst same
                simp [Cluster.after, replica]
              · simp [Cluster.after, same, follows.replica other]
            · rintro record (copy | ⟨name, found⟩) named
              · exact follows.held copy named
              · exact held_of_stored stored follows.reached replica found named
            · intro other point
              simp only [follows.acknowledged, Cluster.after, Except.toOption,
                Option.map_some, Option.toList_some, List.mem_append,
                List.mem_singleton, Prod.mk.injEq]
              constructor
              · rintro ⟨record, old, rest⟩
                exact ⟨record, .inl old, rest⟩
              · rintro ⟨record, old | ⟨rfl, rfl⟩, named, rfl⟩
                · exact ⟨record, old, named, rfl⟩
                · exact (here (outNamed.symm.trans named)).elim
            · rintro other record (received | ⟨-, none⟩) named
              · exact follows.merged received named
              · exact none.elim

/-- A cluster that only replicates follows a network. -/
theorem run (before : Cluster.Run server
      (fun _ _ operation => operation.Replicates) Cluster.initial cluster)
    (run : Cluster.Run server (fun _ _ operation => operation.Replicates)
      cluster later)
    (follows : Follows room cluster network) :
    ∃ network', Replication.Run network network' ∧
      Follows room later network' := by
  induction run with
  | refl => exact ⟨network, .refl, follows⟩
  | tail run last induction =>
      obtain ⟨middle, first, followsMiddle⟩ := induction
      obtain ⟨site, operation, replicates, last⟩ := last
      have reached := before.trans run
      obtain ⟨network', second, followsLater⟩ := followsMiddle.step
        (Cluster.wellFormed_of_run reached site)
        (fun record copy => by
          obtain ⟨rooms, proper, stored⟩ := Cluster.copy_of_run reached copy
          exact ⟨proper.valid stored, proper.nonneg stored⟩)
        replicates last
      exact ⟨network', first.trans second, followsLater⟩

end Follows

/-! ## Convergence -/

namespace Cluster

/-- The results of all updates of a room. -/
def resultsOf (cluster : Cluster ι) (room : RoomName) : List Record :=
  (cluster.results.map Prod.snd).filter fun record => record.room = room

/-- Every signer's record of the room has been merged by every other signer. -/
def Exchanged (cluster : Cluster ι) (room : RoomName) : Prop :=
  ∀ site other, site ≠ other → ∀ record,
    (cluster.stores site).rooms[room]? = some record →
      ∃ copy, (other, copy) ∈ cluster.merged ∧ copy.content = record.content

/-- One secret hash always has the same role. -/
def RolesAgree (cluster : Cluster ι) : Prop :=
  ∀ first ∈ cluster.copies, ∀ second ∈ cluster.copies,
    Record.RolesAgree first.secrets second.secrets

end Cluster

section Convergence

variable {server : Server} {room : RoomName} {cluster later : Cluster ι}
variable {network : Network ι (WithBot Record.Point)}

private theorem point_of_content {first second : Record}
    (same : first.content = second.content) : first.point = second.point := by
  have : first.content.point = second.content.point := by rw [same]
  exact this

private theorem room_of_content {first second : Record}
    (same : first.content = second.content) : first.room = second.room := by
  have : first.content.room = second.content.room := by rw [same]
  exact this

/-- What the network bounds, the stored record bounds. -/
private theorem Follows.below (follows : Follows room cluster network)
    {site : ι} (wellFormed : (cluster.stores site).WellFormed) {record : Record}
    (bounded : (record.point : WithBot Record.Point) ≤ network.replica site) :
    ∃ now, (cluster.stores site).rooms[room]? = some now ∧
      record.Below now := by
  rw [follows.replica site] at bounded
  exact Store.below_of_le_pointOf wellFormed bounded

private theorem Follows.exchanged (follows : Follows room cluster network)
    (wellFormed : ∀ site, (cluster.stores site).WellFormed)
    (exchanged : cluster.Exchanged room) :
    Replication.Exchanged ⊥ network := by
  intro site other different
  rw [follows.replica site]
  cases stored : (cluster.stores site).rooms[room]? with
  | none => exact .inl (by simp [Store.pointOf, stored])
  | some record =>
      obtain ⟨copy, received, same⟩ := exchanged site other different record stored
      right
      rw [Store.pointOf_eq stored, ← point_of_content same]
      refine follows.merged received ?_
      rw [room_of_content same]
      exact (wellFormed site).rooms.keyed stored

private theorem le_foldl_sup (results : List Record) (point : Record.Point) :
    point ≤ results.foldl (fun point result => point ⊔ result.point) point ∧
      ∀ result ∈ results, result.point ≤
        results.foldl (fun point result => point ⊔ result.point) point := by
  induction results generalizing point with
  | nil => simp
  | cons result results induction =>
      obtain ⟨start, rest⟩ := induction (point ⊔ result.point)
      refine ⟨le_sup_left.trans start, ?_⟩
      rintro other (_ | ⟨_, member⟩)
      · exact le_sup_right.trans start
      · exact rest other member

private theorem foldl_sup_le {results : List Record}
    {point bound : Record.Point} (start : point ≤ bound)
    (rest : ∀ result ∈ results, result.point ≤ bound) :
    results.foldl (fun point result => point ⊔ result.point) point ≤ bound := by
  induction results generalizing point with
  | nil => exact start
  | cons result results induction =>
      exact induction (sup_le start (rest result (by simp)))
        fun other member => rest other (by simp [member])

private theorem Follows.mem_acknowledged
    (follows : Follows room cluster network) {point : WithBot Record.Point} :
    (∃ site, (site, point) ∈ network.acknowledged) ↔
      ∃ record ∈ cluster.resultsOf room, point = record.point := by
  simp only [follows.acknowledged, Cluster.resultsOf, List.mem_filter,
    List.mem_map, Prod.exists, exists_eq_right, decide_eq_true_eq]
  constructor
  · rintro ⟨site, record, result, named, rfl⟩
    exact ⟨record, ⟨⟨site, result⟩, named⟩, rfl⟩
  · rintro ⟨record, ⟨⟨site, result⟩, named⟩, rfl⟩
    exact ⟨site, record, result, named, rfl⟩

/-- After an exchange, a signer's record is the merge of all results. -/
private theorem Follows.eq_mergeAll (follows : Follows room cluster network)
    (wellFormed : ∀ site, (cluster.stores site).WellFormed)
    (copies : ∀ record ∈ cluster.resultsOf room, record ∈ cluster.copies)
    (stored : ∀ site (record : Record),
      (cluster.stores site).rooms[room]? = some record →
        record ∈ cluster.copies)
    (roles : cluster.RolesAgree) (exchanged : cluster.Exchanged room)
    (site : ι) :
    (cluster.stores site).rooms[room]?.map Record.content =
      (mergeAll room (cluster.resultsOf room)).map Record.content := by
  have invariant := Invariant.run follows.reached
  have least := invariant.isLUB (follows.exchanged wellFormed exchanged) site
  rw [follows.replica site] at least
  simp only [follows.mem_acknowledged] at least
  cases found : (cluster.stores site).rooms[room]? with
  | none =>
      have none : (cluster.stores site).pointOf room = ⊥ := by
        simp [Store.pointOf, found]
      cases results : cluster.resultsOf room with
      | nil => rfl
      | cons result rest =>
          have bounded := least.1 (.inr ⟨result, by simp [results], rfl⟩)
          simp [none] at bounded
  | some now =>
      rw [Store.pointOf_eq found] at least
      cases results : cluster.resultsOf room with
      | nil =>
          have bounded : (now.point : WithBot Record.Point) ≤ ⊥ := by
            refine least.2 ?_
            rintro point (rfl | ⟨record, member, -⟩)
            · exact le_rfl
            · simp [results] at member
          simp at bounded
      | cons result rest =>
          rw [← results]
          let whole := (cluster.resultsOf room).foldl Record.merged
            (Record.empty room)
          have isWhole : mergeAll room (cluster.resultsOf room) = some whole := by
            unfold whole
            rw [results]
            rfl
          have points : whole.point = (cluster.resultsOf room).foldl
              (fun point result => point ⊔ result.point)
              (Record.empty room).point :=
            Record.point_foldl_merged _ _
          have nowBelow : now.point ≤ whole.point := by
            rw [← WithBot.coe_le_coe]
            refine least.2 ?_
            rintro point (rfl | ⟨record, member, rfl⟩)
            · exact bot_le
            · rw [WithBot.coe_le_coe, points]
              exact (le_foldl_sup _ _).2 record member
          have wholeBelow : whole.point ≤ now.point := by
            rw [points]
            refine foldl_sup_le (Record.point_empty_le
              ((wellFormed site).rooms.nonneg found)) ?_
            intro record member
            exact WithBot.coe_le_coe.mp (least.1 (.inr ⟨record, member, rfl⟩))
          rw [isWhole, Option.map_some, Option.map_some, Option.some.injEq]
          refine Record.content_eq_of_point_eq ?_ ?_
            ((wellFormed site).rooms.pruned found)
            (Record.pruned_foldl_merged (Record.pruned_empty room))
            (le_antisymm nowBelow wholeBelow)
          · rw [Record.room_foldl_merged]
            exact (wellFormed site).rooms.keyed found
          · intro hash entry other own inWhole
            obtain ⟨record, member, source, has, role⟩ :=
              Record.RolesFrom.foldl (.empty room) (List.Subset.refl _) hash
                other inWhole
            rw [← role]
            exact roles now (stored site now found) record
              (copies record member) own has

/-- No acknowledged change is lost and all signers converge: records only
grow, what an update returned stays below its signer's record, and once every
signer's record of a room was merged by all others they hold the same record,
the merge of the results of all updates of that room. -/
theorem signers_converge
    (before : Cluster.Run server (fun _ _ operation => operation.Replicates)
      Cluster.initial cluster)
    (run : Cluster.Run server (fun _ _ operation => operation.Replicates)
      cluster later)
    (roles : later.RolesAgree) (room : RoomName) :
    (∀ site record, (cluster.stores site).rooms[room]? = some record →
      ∃ now, (later.stores site).rooms[room]? = some now ∧
        record.Below now) ∧
    (∀ site result, (site, result) ∈ cluster.results → result.room = room →
      ∃ now, (later.stores site).rooms[room]? = some now ∧
        result.Below now) ∧
    (later.Exchanged room → ∀ site,
      (later.stores site).rooms[room]?.map Record.content =
        (mergeAll room (later.resultsOf room)).map Record.content) := by
  obtain ⟨first, -, followsFirst⟩ :=
    (Follows.initial room).run .refl before
  obtain ⟨second, networkRun, followsSecond⟩ := followsFirst.run before run
  have reached := before.trans run
  have wellFormed := Cluster.wellFormed_of_run reached
  refine ⟨?_, ?_, ?_⟩
  · intro site record stored
    refine followsSecond.below (wellFormed site) ?_
    rw [← Store.pointOf_eq stored, ← followsFirst.replica site]
    exact networkRun.grows site
  · intro site result returned named
    refine followsSecond.below (wellFormed site) ?_
    have acknowledged :=
      followsFirst.acknowledged.mpr ⟨result, returned, named, rfl⟩
    exact ((Invariant.run followsFirst.reached).acknowledged
      acknowledged).trans (networkRun.grows site)
  · intro exchanged site
    refine followsSecond.eq_mergeAll wellFormed ?_ ?_ roles exchanged site
    · intro record member
      simp only [Cluster.resultsOf, List.mem_filter, List.mem_map, Prod.exists,
        exists_eq_right, decide_eq_true_eq] at member
      obtain ⟨⟨other, result⟩, -⟩ := member
      exact Cluster.result_mem_copies_of_run reached result
    · intro other record stored
      exact Cluster.mem_copies_of_run reached stored

end Convergence

namespace Sample

/-- One of two signers reserves a room. -/
def reserve : Operation :=
  .update room (.reserve (Time.ofUnix 1000) (72 * hour) host) 0 1000000 true

def reserved : Option Record × Store :=
  (server.run (newStore none) reserve).getD (none, newStore none)

/-- Merge all that a signer stores. -/
def pull (store : Store) : Operation :=
  .mergeRemote (store.rooms.values.map fun record => (some record, 5))

def pulled : Option Record × Store :=
  (server.run (newStore none) (pull reserved.2)).getD (none, newStore none)

def pulledBack : Option Record × Store :=
  (server.run reserved.2 (pull pulled.2)).getD (none, newStore none)

def afterReserve : Cluster Bool :=
  Cluster.initial.after server false reserve reserved.1 reserved.2

def afterPull : Cluster Bool :=
  afterReserve.after server true (pull reserved.2) pulled.1 pulled.2

def afterBoth : Cluster Bool :=
  afterPull.after server false (pull pulled.2) pulledBack.1 pulledBack.2

theorem reserve_step :
    Cluster.Step server Cluster.initial false reserve afterReserve := by
  refine .intro ?_ ?_ ?_
  · change isShortName room ∧ 0 < Time.unix (Time.ofUnix 1000)
    decide
  · exact Set.empty_subset _
  · change server.run (newStore none) reserve = some reserved
    exact eq_some_getD (by decide)

theorem received_pull {store : Store} {record : Record}
    (received : record ∈ (pull store).received) :
    ∃ room : RoomName, store.rooms[room]? = some record := by
  obtain ⟨now, member⟩ := received
  obtain ⟨sent, isSent, same⟩ := List.mem_map.mp member
  cases same
  exact FiniteMap.mem_values.mp isSent

private theorem pull_received {store : Store} {room : RoomName}
    {record : Record} (stored : store.rooms[room]? = some record) :
    record ∈ (pull store).received :=
  ⟨5, List.mem_map.mpr
    ⟨record, FiniteMap.mem_values.mpr ⟨room, stored⟩, rfl⟩⟩

theorem pull_step :
    Cluster.Step server afterReserve true (pull reserved.2) afterPull := by
  refine .intro trivial ?_ ?_
  · exact fun record received => .inr (received_pull received)
  · change server.run (newStore none) (pull reserved.2) = some pulled
    exact eq_some_getD (by decide)

theorem pullBack_step :
    Cluster.Step server afterPull false (pull pulled.2) afterBoth := by
  refine .intro trivial ?_ ?_
  · exact fun record received => .inr (received_pull received)
  · change server.run reserved.2 (pull pulled.2) = some pulledBack
    exact eq_some_getD (by decide)

private theorem roles : afterBoth.RolesAgree := by
  have pair : ∀ record ∈ afterBoth.copies, record.secrets =
      server.pair ∅ host (server.speakerSecret host) 0 := by
    have stored : ∀ store ∈ [reserved.2, pulled.2, pulledBack.2],
        ∀ record ∈ store.rooms.values, record.secrets =
          server.pair ∅ host (server.speakerSecret host) 0 := by
      decide
    rintro record (((none | first) | second) | third)
    · exact none.elim
    · exact stored _ (by simp) record (FiniteMap.mem_values.mpr first)
    · exact stored _ (by simp) record (FiniteMap.mem_values.mpr second)
    · exact stored _ (by simp) record (FiniteMap.mem_values.mpr third)
  intro one oneCopy two twoCopy hash entry other found otherFound
  rw [pair one oneCopy] at found
  rw [pair two twoCopy, found] at otherFound
  cases otherFound
  rfl

private theorem exchanged : afterBoth.Exchanged room := by
  have kept : pulledBack.2.rooms = reserved.2.rooms := by decide
  intro site other different record stored
  refine ⟨record, ?_, rfl⟩
  cases site with
  | false =>
      obtain rfl : other = true := by simpa using different
      have stored : pulledBack.2.rooms[room]? = some record := stored
      rw [kept] at stored
      exact .inl (.inr ⟨rfl, pull_received stored⟩)
  | true =>
      obtain rfl : other = false := by simpa using different
      exact .inr ⟨rfl, pull_received stored⟩

/-- After both pulls the second signer holds what the reservation returned. -/
theorem signers_converge_after_pulls :
    (afterBoth.stores true).rooms[room]?.map Record.content =
      (mergeAll room (afterBoth.resultsOf room)).map Record.content :=
  (signers_converge (.single ⟨false, reserve, trivial, reserve_step⟩)
    (.tail (.single ⟨true, pull reserved.2, trivial, pull_step⟩)
      ⟨false, pull pulled.2, trivial, pullBack_step⟩) roles room).2.2 exchanged true

end Sample

end FfmucSalt.MeetReserve
