import FfmucSalt.MeetReserve.Horizon
import FfmucSalt.MeetReserve.LockSafety

/-!
# Signers that serve requests

Any number of signers, each with any number of requests under way.  Between
any two actions of a request other requests act, copies of records arrive that
some signer held before, `gc` ticks, a request crashes, or the signer restarts.

Such a network refines a `Cluster`: what happens to the stores is a run of
legal operations that carry the times handlers compute.
-/

namespace FfmucSalt.MeetReserve

open Program

/-- All signers, and every record that a message can carry. -/
structure Network (ι : Type) where
  signers : ι → Signer
  copies : Set Record

namespace Signer

/-- The copies that a step takes in. -/
def received : Event → Set Record
  | .environment (.store operation) => operation.received
  | _ => ∅

/-- A signer starts with what is saved, and knows no challenge. -/
def restart (signer : Signer) : Signer :=
  { state := { store := signer.state.store.restart, used := ∅, locked := false }
    threads := [] }

end Signer

namespace Network

variable {ι : Type} [DecidableEq ι]

/-- All signers start without a snapshot, and without requests. -/
def initial : Network ι :=
  { signers := fun _ =>
      { state := { store := newStore none, used := ∅, locked := false }
        threads := [] }
    copies := ∅ }

/-- One signer did something. -/
def after (network : Network ι) (site : ι) (signer : Signer) : Network ι :=
  { signers := Function.update network.signers site signer
    copies := network.copies ∪ {record | ∃ room : RoomName,
      signer.state.store.rooms[room]? = some record} }

/-- A signer serves its requests, or restarts. -/
inductive Step (server : Server) (network : Network ι) :
    Network ι → Prop where
  | serves {site : ι} {what : Signer.Event} {signer : Signer}
      (serves : Signer.Serves server what)
      (sent : Signer.received what ⊆ network.copies)
      (step : Signer.Step server (network.signers site) what signer) :
      Step server network (network.after site signer)
  | restarts (site : ι) :
      Step server network (network.after site (network.signers site).restart)

abbrev Run (server : Server) : Network ι → Network ι → Prop :=
  Relation.ReflTransGen (Step server)

end Network

/-! ## One step of one signer -/

section Steps

variable {server : Server}

/-- Nothing happens to the store, or a legal operation with times that handlers
compute, on copies that were received. -/
def Server.Conforms (server : Server) (received : Set Record)
    (store later : Store) : Prop :=
  later = store ∨ ∃ operation result,
    server.Legal operation ∧ server.ComputesIn operation ∧
      operation.received ⊆ received ∧
      server.run store operation = some (result, later)

theorem Server.Performs.conforms {process later : Process} {action : Action}
    {answer : Answer action}
    (performs : server.Performs process action answer later)
    (issues : server.Issues action) :
    server.Conforms ∅ process.store later.store := by
  cases performs with
  | @update room change random now saves outcome store free done =>
      obtain ⟨makes, computes⟩ := issues
      right
      refine ⟨.update room change random now saves, outcome.toOption, makes,
        computes, Set.Subset.rfl, ?_⟩
      change (process.store.update room (server.callback change random) now
        saves).map _ = _
      rw [done]
      rfl
  | _ => exact .inl rfl

theorem Server.Happens.conforms {process later : Process} {event : Event}
    (happens : server.Happens process event later)
    (serves : Signer.Serves server (.environment event)) :
    server.Conforms (Signer.received (.environment event)) process.store
      later.store := by
  cases happens with
  | forget => exact .inl rfl
  | @store operation result store free legal running done =>
      have computes : server.ComputesIn operation := by
        cases operation with
        | update => exact serves.elim
        | _ => trivial
      exact .inr ⟨operation, result, legal, computes, Set.Subset.rfl, done⟩

namespace Signer

variable {signer later : Signer} {what : Event}

/-- What is left of every request issues only what handlers issue. -/
def Issuing (server : Server) (signer : Signer) : Prop :=
  ∀ program ∈ signer.threads,
    Ensures server.Issues Permits (fun _ => True) program

/-- The rule of an action that a request performs. -/
private theorem Issuing.next (issuing : signer.Issuing server)
    (wellFormed : signer.state.store.WellFormed) {action : Action}
    {next : Answer action → Handler Response} {answer : Answer action}
    {process : Process} (member : .call action next ∈ signer.threads)
    (performs : server.Performs signer.state action answer process) :
    server.Issues action ∧
      Ensures server.Issues Permits (fun _ => True) (next answer) := by
  cases issuing _ member with
  | call issues rest =>
      exact ⟨issues, rest answer (performs.permits wellFormed)⟩

theorem Issuing.step (issuing : signer.Issuing server)
    (wellFormed : signer.state.store.WellFormed)
    (serves : Serves server what) (step : Step server signer what later) :
    later.Issuing server ∧
      server.Conforms (received what) signer.state.store later.state.store := by
  cases step with
  | arrives program =>
      obtain ⟨request, isRequest⟩ := serves
      refine ⟨?_, .inl rfl⟩
      intro other member
      rcases List.mem_append.mp member with old | new
      · exact issuing other old
      · cases List.mem_singleton.mp new
        rw [isRequest]
        exact handle_issues request
  | @acts thread action next answer process atAction performs =>
      obtain ⟨issues, rest⟩ :=
        issuing.next wellFormed (List.mem_of_getElem? atAction) performs
      refine ⟨?_, performs.conforms issues⟩
      intro other member
      rcases List.mem_or_eq_of_mem_set member with old | new
      · exact issuing other old
      · rw [new]
        exact rest
  | crashes atAction crashes =>
      constructor
      · intro other member
        exact issuing other (List.mem_of_mem_eraseIdx member)
      · cases crashes
        exact .inl rfl
  | environment happens =>
      exact ⟨issuing, happens.conforms serves⟩

end Signer

end Steps

/-! ## A run of the network is a run of operations -/

namespace Network

variable {ι : Type} {server : Server}
variable {network later : Network ι} {cluster : Cluster ι}

/-- The cluster holds what the network stores and sends, and the requests under
way will do what a cluster does. -/
structure Refines (server : Server) (network : Network ι)
    (cluster : Cluster ι) : Prop where
  stores : ∀ site, cluster.stores site = (network.signers site).state.store
  copies : cluster.copies = network.copies
  issuing : ∀ site, (network.signers site).Issuing server

abbrev Operations [DecidableEq ι] (server : Server) :
    Cluster ι → Cluster ι → Prop :=
  Cluster.Run server fun _ _ operation => server.ComputesIn operation

theorem Refines.initial : Refines server (initial : Network ι) .initial := by
  refine ⟨fun _ => rfl, rfl, ?_⟩
  intro site program member
  exact (List.not_mem_nil member).elim

variable [DecidableEq ι]

/-- What a signer may do to its store, the cluster does. -/
private theorem Refines.after (refines : Refines server network cluster)
    (run : Operations server .initial cluster) {site : ι} {signer : Signer}
    {received : Set Record} (issuing : signer.Issuing server)
    (sent : received ⊆ network.copies)
    (conforms : server.Conforms received (network.signers site).state.store
      signer.state.store) :
    ∃ following, Operations server .initial following ∧
      Refines server (network.after site signer) following := by
  have others : ∀ other,
      ((network.after site signer).signers other).Issuing server := by
    intro other
    by_cases same : other = site
    · subst same
      simpa [Network.after] using issuing
    · simpa [Network.after, same] using refines.issuing other
  rcases conforms with unchanged | conforms
  · refine ⟨cluster, run, ?_, ?_, others⟩
    · intro other
      rw [refines.stores]
      by_cases same : other = site
      · subst same
        simp [Network.after, unchanged]
      · simp [Network.after, same]
    · symm
      rw [refines.copies]
      apply Set.union_eq_self_of_subset_right
      intro record ⟨room, stored⟩
      rw [unchanged, ← refines.stores] at stored
      rw [← refines.copies]
      exact Cluster.mem_copies_of_run run stored
  · obtain ⟨operation, result, legal, computes, takes, done⟩ := conforms
    rw [← refines.stores] at done
    have step : Cluster.Step server cluster site operation
        (cluster.after server site operation result signer.state.store) :=
      .intro legal ((takes.trans sent).trans refines.copies.ge) done
    refine ⟨_, run.tail ⟨site, operation, computes, step⟩, ?_, ?_, others⟩
    · intro other
      by_cases same : other = site
      · subst same
        simp [Network.after, Cluster.after]
      · simp [Network.after, Cluster.after, same, refines.stores]
    · exact congrArg (· ∪ _) refines.copies

/-- A step of the network is an operation of the cluster, or none. -/
theorem Refines.step (refines : Refines server network cluster)
    (run : Operations server .initial cluster)
    (step : Step server network later) :
    ∃ following, Operations server .initial following ∧
      Refines server later following := by
  cases step with
  | @serves site what signer serves sent step =>
      have wellFormed : (network.signers site).state.store.WellFormed :=
        refines.stores site ▸ Cluster.wellFormed_of_run run site
      obtain ⟨issuing, conforms⟩ :=
        (refines.issuing site).step wellFormed serves step
      exact refines.after run issuing sent conforms
  | restarts site =>
      have issuing : (network.signers site).restart.Issuing server := by
        intro program member
        exact (List.not_mem_nil member).elim
      exact refines.after run issuing (Set.empty_subset _)
        (.inr ⟨.restart, none, trivial, trivial, Set.Subset.rfl, rfl⟩)

/-- Whatever requests do, and however their actions interleave with each other,
with replication, `gc` and restarts: the stores are those of a run of legal
operations with times that handlers compute. -/
theorem run_refines (run : Run server .initial network) :
    ∃ cluster, Operations server .initial cluster ∧
      (∀ site, cluster.stores site = (network.signers site).state.store) ∧
      cluster.copies = network.copies := by
  have both : ∃ cluster, Operations server .initial cluster ∧
      Refines server network cluster := by
    induction run with
    | refl => exact ⟨.initial, .refl, .initial⟩
    | tail _ step induction =>
        obtain ⟨cluster, operations, refines⟩ := induction
        exact refines.step operations step
  obtain ⟨cluster, operations, refines⟩ := both
  exact ⟨cluster, operations, refines.stores, refines.copies⟩

end Network

namespace Sample

/-- A signer at work. -/
def serving (store : Store) (program : Handler Response) : Signer :=
  { state := { store, used := ∅, locked := false }, threads := [program] }

/-- A request that deletes the v1 room, once its clock is read. -/
def revoking (now : Time) : Handler Response := do
  match ← Server.revoke legacyRoom now with
  | .error error => return .ofError error
  | .ok _ => return .revoked

/-- What such a request answers, and the store after it. -/
def revoked (store : Store) (now : Time) : Except Error Record × Store :=
  (store.update legacyRoom (server.callback (.revoke legacyRoom now) 0) 0
    true).getD (.error errNoHostLink, store)

/-- The first signer deletes the room, which nobody has used yet. -/
def firstStore : Store := (revoked (newStore none) (Time.ofUnix 3000)).2

/-- The second signer learns of it. -/
def toldStore : Store :=
  ((newStore none).mergeRemote [(some (firstStore.recordOr legacyRoom), 0)]).1

/-- The second signer, whose clock is behind, deletes the room as well. -/
def secondStore : Store := (revoked toldStore (Time.ofUnix 2000)).2

/-- A signer without a snapshot is asked to delete the room. -/
def asking : Signer :=
  serving (newStore none) (server.handle (.adminRevoke legacyRoom))

/-- Both signers are asked. -/
def asked : Network Bool :=
  (Network.initial.after true asking).after false asking

/-- Both have read their clocks. -/
def clocked : Network Bool :=
  (asked.after true (serving (newStore none)
    (revoking (Time.ofUnix 3000)))).after false (serving (newStore none)
      (revoking (Time.ofUnix 2000)))

def told : Network Bool :=
  (clocked.after true (serving firstStore (.done .revoked))).after false
    (serving toldStore (revoking (Time.ofUnix 2000)))

def restarted : Network Bool :=
  (told.after false (serving secondStore (.done .revoked))).after true
    (serving firstStore (.done .revoked)).restart

theorem handle_adminRevoke :
    server.handle (.adminRevoke legacyRoom) = .call .now revoking := by
  have valid : validRoomName legacyRoom := by decide +kernel
  change Server.handleAdminRevoke legacyRoom = _
  unfold Server.handleAdminRevoke
  rw [if_neg (not_not.mpr valid)]
  rfl

/-- The only request of a signer takes a step. -/
theorem serving_step {network : Network Bool} {site : Bool}
    {store later : Store} {action : Action}
    {next : Answer action → Handler Response} {answer : Answer action}
    (isSigner : network.signers site = serving store (.call action next))
    (performs : server.Performs { store, used := ∅, locked := false } action
      answer { store := later, used := ∅, locked := false }) :
    Network.Step server network
      (network.after site (serving later (next answer))) := by
  have acts : Signer.Step server (serving store (.call action next)) (.acts 0)
      (serving later (next answer)) :=
    acts_one performs
  have serves : Signer.Serves server (.acts 0) := trivial
  rw [← isSigner] at acts
  exact .serves serves (Set.empty_subset _) acts

theorem asked_run : Network.Run server .initial asked := by
  have arrives : ∀ (network : Network Bool) site,
      network.signers site = Network.initial.signers site →
        Network.Step server network (network.after site asking) := by
    intro network site idle
    have step : Signer.Step server (Network.initial.signers site)
        (.arrives (server.handle (.adminRevoke legacyRoom))) asking :=
      .arrives _
    have serves : Signer.Serves server
        (.arrives (server.handle (.adminRevoke legacyRoom))) := ⟨_, rfl⟩
    rw [← idle] at step
    exact .serves serves (Set.empty_subset _) step
  exact .tail (.single (arrives _ true rfl)) (arrives _ false rfl)

theorem clocked_run : Network.Run server .initial clocked := by
  have reads : ∀ (network : Network Bool) site now, 0 < Time.unix now →
      network.signers site = asking →
      Network.Step server network (network.after site
        (serving (newStore none) (revoking now))) := by
    intro network site now positive isSigner
    rw [asking, handle_adminRevoke] at isSigner
    exact serving_step isSigner (.now positive)
  exact .tail (asked_run.tail (reads _ true _ (by decide) rfl))
    (reads _ false _ (by decide) rfl)

/-- A request that read its clock deletes the room. -/
theorem revoking_step {network : Network Bool} {site : Bool} {store : Store}
    {now : Time}
    (isSigner : network.signers site = serving store (revoking now))
    (returns : (store.update legacyRoom
      (server.callback (.revoke legacyRoom now) 0) 0 true).isSome)
    (succeeds : (revoked store now).1.toOption.isSome) :
    Network.Step server network (network.after site
      (serving (revoked store now).2 (.done .revoked))) := by
  have done : store.update legacyRoom
      (server.callback (.revoke legacyRoom now) 0) 0 true =
        some (revoked store now) :=
    eq_some_getD returns
  generalize revoked store now = outcome at done succeeds ⊢
  obtain ⟨answer, later⟩ := outcome
  cases answer with
  | error error => simp [Except.toOption] at succeeds
  | ok record => exact serving_step isSigner (.update rfl done)

theorem mem_copies_serving {network : Network Bool} {site : Bool}
    {store : Store} {program : Handler Response} {room : RoomName}
    (stored : store.rooms[room]?.isSome) :
    store.recordOr room ∈ (network.after site (serving store program)).copies :=
  .inr ⟨room, Store.eq_some_recordOr stored⟩

/-- A record arrives that some signer held. -/
theorem merging_step {network : Network Bool} {site : Bool} {store : Store}
    {program : Handler Response} {record : Record}
    (isSigner : network.signers site = serving store program)
    (sent : record ∈ network.copies) :
    Network.Step server network (network.after site
      (serving (store.mergeRemote [(some record, 0)]).1 program)) := by
  let message : Operation := .mergeRemote [(some record, 0)]
  have merges : Signer.Step server (serving store program)
      (.environment (.store message))
      (serving (store.mergeRemote [(some record, 0)]).1 program) :=
    .environment (.store rfl trivial (by simp [message]) rfl)
  have serves : Signer.Serves server (.environment (.store message)) := trivial
  rw [← isSigner] at merges
  apply Network.Step.serves serves ?_ merges
  intro received isSent
  obtain ⟨now, member⟩ := isSent
  obtain ⟨isRecord, -⟩ := Prod.mk.inj (List.mem_singleton.mp member)
  rw [Option.some.inj isRecord]
  exact sent

theorem told_run : Network.Run server .initial told := by
  have revokes : Network.Step server clocked
      (clocked.after true (serving firstStore (.done .revoked))) :=
    revoking_step rfl (by decide +kernel) (by decide +kernel)
  have stored : firstStore.rooms[legacyRoom]?.isSome := by decide +kernel
  exact (clocked_run.tail revokes).tail
    (merging_step rfl (mem_copies_serving stored))

theorem run_refines_restarted :
    ∃ cluster : Cluster Bool, Network.Operations server .initial cluster ∧
      (∀ site, ((cluster.stores site).rooms[legacyRoom]?).map Record.revoked =
        some 3000) := by
  have revokes : Network.Step server told
      (told.after false (serving secondStore (.done .revoked))) :=
    revoking_step rfl (by decide +kernel) (by decide +kernel)
  have run : Network.Run server .initial restarted :=
    (told_run.tail revokes).tail (.restarts true)
  obtain ⟨cluster, operations, stores, -⟩ := Network.run_refines run
  refine ⟨cluster, operations, ?_⟩
  intro site
  rw [stores]
  cases site <;> decide +kernel

end Sample

end FfmucSalt.MeetReserve
