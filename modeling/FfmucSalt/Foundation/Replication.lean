import Mathlib.Logic.Function.Basic
import Mathlib.Logic.Relation
import Mathlib.Order.Bounds.Basic
import Mathlib.Order.Lattice

/-!
# State-based replication

Every replica holds a value of a join-semilattice.  An update raises the value
of one replica and acknowledges the result.  A message carries a value that
some replica held at some earlier moment; it can be lost, delayed, repeated
and reordered, and its receiver joins it to what it holds.

Nothing acknowledged is lost, and replicas that have merged each other's
values agree on the least upper bound of everything acknowledged.
-/

namespace FfmucSalt.Replication

universe u v

variable {ι : Type u} {α : Type v}

/-- All replicas, with the history that messages and claims refer to. -/
structure Network (ι : Type u) (α : Type v) where
  replica : ι → α
  /-- Every value a replica held so far, which a message may carry. -/
  held : Set α
  /-- The results of the updates, by replica. -/
  acknowledged : Set (ι × α)
  /-- The values a replica has merged. -/
  merged : Set (ι × α)

variable [DecidableEq ι] [SemilatticeSup α]

namespace Network

/-- Nothing happened yet. -/
def initial (start : α) : Network ι α :=
  { replica := fun _ => start
    held := {start}
    acknowledged := ∅
    merged := ∅ }

/-- `site` raises its value and acknowledges the result. -/
def update (network : Network ι α) (site : ι) (value : α) : Network ι α :=
  { replica := Function.update network.replica site value
    held := insert value network.held
    acknowledged := insert (site, value) network.acknowledged
    merged := network.merged }

/-- `site` joins a value it received. -/
def merge (network : Network ι α) (site : ι) (value : α) : Network ι α :=
  { replica := Function.update network.replica site
      (network.replica site ⊔ value)
    held := insert (network.replica site ⊔ value) network.held
    acknowledged := network.acknowledged
    merged := insert (site, value) network.merged }

end Network

/-- One event at one replica. -/
inductive Step : Network ι α → Network ι α → Prop where
  | update {network : Network ι α} (site : ι) {value : α}
      (grows : network.replica site ≤ value) :
      Step network (network.update site value)
  | merge {network : Network ι α} (site : ι) {value : α}
      (sent : value ∈ network.held) :
      Step network (network.merge site value)

/-- Any number of events, in any order. -/
abbrev Run : Network ι α → Network ι α → Prop :=
  Relation.ReflTransGen Step

variable {network later : Network ι α} {start value : α} {site other : ι}

theorem Step.grows (step : Step network later) (site : ι) :
    network.replica site ≤ later.replica site := by
  cases step with
  | update changed grows =>
      by_cases same : site = changed
      · subst same
        simpa [Network.update] using grows
      · simp [Network.update, same]
  | merge changed sent =>
      by_cases same : site = changed
      · subst same
        simp [Network.merge]
      · simp [Network.merge, same]

theorem Run.grows (run : Run network later) (site : ι) :
    network.replica site ≤ later.replica site := by
  induction run with
  | refl => exact le_rfl
  | tail _ step induction => exact induction.trans (step.grows site)

/-- What every event of a run preserves. -/
structure Invariant (start : α) (network : Network ι α) : Prop where
  /-- What a replica acknowledged stays below its value. -/
  acknowledged : ∀ {site value},
    (site, value) ∈ network.acknowledged → value ≤ network.replica site
  /-- What a replica merged stays below its value. -/
  merged : ∀ {site value},
    (site, value) ∈ network.merged → value ≤ network.replica site
  /-- No replica knows more than what was acknowledged. -/
  bounded : ∀ {bound}, start ≤ bound →
    (∀ {site value}, (site, value) ∈ network.acknowledged → value ≤ bound) →
    ∀ value ∈ network.held, value ≤ bound
  current : ∀ site, network.replica site ∈ network.held
  above : ∀ site, start ≤ network.replica site

omit [DecidableEq ι] in
theorem Invariant.initial :
    Invariant start (Network.initial start : Network ι α) := by
  constructor
  · intro site value member
    exact member.elim
  · intro site value member
    exact member.elim
  · rintro bound above - value rfl
    exact above
  · intro site
    rfl
  · intro site
    exact le_rfl

theorem Invariant.step (invariant : Invariant start network)
    (step : Step network later) : Invariant start later := by
  have grows := step.grows
  cases step with
  | @update changed result raised =>
      have atChanged : (network.update changed result).replica changed =
          result := by simp [Network.update]
      constructor
      · rintro site value (⟨rfl, rfl⟩ | old)
        · exact atChanged.ge
        · exact (invariant.acknowledged old).trans (grows site)
      · intro site value old
        exact (invariant.merged old).trans (grows site)
      · rintro bound above acknowledgedBelow value (rfl | old)
        · exact acknowledgedBelow (.inl rfl)
        · exact invariant.bounded above
            (fun member => acknowledgedBelow (.inr member)) value old
      · intro site
        by_cases same : site = changed
        · subst same
          exact .inl atChanged
        · exact .inr (by simpa [Network.update, same] using
            invariant.current site)
      · intro site
        exact (invariant.above site).trans (grows site)
  | @merge changed received sent =>
      have atChanged : (network.merge changed received).replica changed =
          network.replica changed ⊔ received := by simp [Network.merge]
      constructor
      · intro site value old
        exact (invariant.acknowledged old).trans (grows site)
      · rintro site value (⟨rfl, rfl⟩ | old)
        · exact atChanged ▸ le_sup_right
        · exact (invariant.merged old).trans (grows site)
      · rintro bound above acknowledgedBelow value (rfl | old)
        · exact sup_le
            (invariant.bounded above acknowledgedBelow _
              (invariant.current changed))
            (invariant.bounded above acknowledgedBelow _ sent)
        · exact invariant.bounded above acknowledgedBelow value old
      · intro site
        by_cases same : site = changed
        · subst same
          exact .inl atChanged
        · exact .inr (by simpa [Network.merge, same] using
            invariant.current site)
      · intro site
        exact (invariant.above site).trans (grows site)

theorem Invariant.run
    (run : Run (Network.initial start : Network ι α) network) :
    Invariant start network := by
  induction run with
  | refl => exact Invariant.initial
  | tail _ step induction => exact induction.step step

/-- Every replica has merged the value of every other one, unless that value
is still the first. -/
def Exchanged (start : α) (network : Network ι α) : Prop :=
  ∀ site other, site ≠ other → network.replica site = start ∨
    (other, network.replica site) ∈ network.merged

omit [DecidableEq ι] in
private theorem Invariant.le_of_exchanged (invariant : Invariant start network)
    (exchanged : Exchanged start network) (different : site ≠ other) :
    network.replica site ≤ network.replica other := by
  rcases exchanged site other different with unchanged | received
  · exact unchanged ▸ invariant.above other
  · exact invariant.merged received

omit [DecidableEq ι] in
/-- Replicas that have merged each other's values agree. -/
theorem Invariant.agree (invariant : Invariant start network)
    (exchanged : Exchanged start network) (site other : ι) :
    network.replica site = network.replica other := by
  by_cases same : site = other
  · rw [same]
  · exact le_antisymm (invariant.le_of_exchanged exchanged same)
      (invariant.le_of_exchanged exchanged (Ne.symm same))

omit [DecidableEq ι] in
/-- What replicas agree on after an exchange is what was acknowledged, and
nothing else. -/
theorem Invariant.isLUB (invariant : Invariant start network)
    (exchanged : Exchanged start network) (site : ι) :
    IsLUB (insert start {value | ∃ other, (other, value) ∈ network.acknowledged})
      (network.replica site) := by
  constructor
  · rintro value (rfl | ⟨other, member⟩)
    · exact invariant.above site
    · rw [invariant.agree exchanged site other]
      exact invariant.acknowledged member
  · intro bound isBound
    exact invariant.bounded (isBound (.inl rfl))
      (fun member => isBound (.inr ⟨_, member⟩)) _ (invariant.current site)

end FfmucSalt.Replication
