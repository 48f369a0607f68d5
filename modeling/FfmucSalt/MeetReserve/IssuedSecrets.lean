import FfmucSalt.MeetReserve.Pairs
import FfmucSalt.MeetReserve.StoreEvery

/-!
# Secrets are issued for one room

Whatever signers do, every secret of a record was written for its room by
some update, and is no newer than the record.
-/

namespace FfmucSalt.MeetReserve

open TopK

/-- The hash is one of the two. -/
def Pair.Has (pair : Pair) (hash : Hash) : Prop :=
  hash = pair.host ∨ hash = pair.speaker

theorem Pair.shares_of_has {first second : Pair} {hash : Hash}
    (has : first.Has hash) (alsoHas : second.Has hash) :
    first.Shares second := by
  rcases has with isHost | isSpeaker <;>
    rcases alsoHas with alsoHost | alsoSpeaker <;>
    simp_all [Pair.Shares]

/-- Secrets that were written for the room, none newer than the record. -/
structure Record.Issued (written : List Pair) (record : Record) : Prop where
  dated : ∀ hash,
    genWeight record.secrets hash ≤ WithBot.some record.gen.toNat
  written : ∀ hash ∈ record.secrets,
    ∃ pair ∈ written, pair.room = record.room ∧ pair.Has hash

namespace Record

variable {written more : List Pair} {record other : Record}

theorem Issued.stable : Stable (Issued written) where
  stamp _ issued := ⟨issued.dated, issued.written⟩
  strip _ _ := by
    constructor
    · intro hash
      simp [genWeight]
    · intro hash member
      simp at member

theorem Issued.mono (issued : record.Issued written)
    (included : written ⊆ more) : record.Issued more := by
  refine ⟨issued.dated, ?_⟩
  intro hash member
  obtain ⟨pair, isWritten, rest⟩ := issued.written hash member
  exact ⟨pair, included isWritten, rest⟩

theorem Issued.startsFrom {room : RoomName}
    (start : StartsFrom (Issued written) room record) :
    record.room = room ∧ record.Issued written := by
  rcases start with isEmpty | ⟨issued, named⟩
  · subst isEmpty
    refine ⟨rfl, ?_, ?_⟩
    · intro hash
      simp [genWeight, empty]
    · intro hash member
      simp [empty] at member
  · exact ⟨named, issued⟩

theorem Issued.merged (issued : record.Issued written)
    (dated : ∀ hash, genWeight other.secrets hash ≤
      WithBot.some (record.merged other).gen.toNat)
    (isWritten : ∀ hash ∈ other.secrets,
      ∃ pair ∈ written, pair.room = record.room ∧ pair.Has hash) :
    (record.merged other).Issued written := by
  constructor
  · intro hash
    rw [genWeight_merged]
    refine keep_le.trans (sup_le ((issued.dated hash).trans ?_) (dated hash))
    exact WithBot.coe_le_coe.mpr
      (UInt64.le_iff_toNat_le.mp (gen_le_merged record other))
  · intro hash member
    obtain ⟨entry, found⟩ := FiniteMap.mem_iff_lookup.mp member
    obtain ⟨source, stored | added, -⟩ := role_merged found
    · exact issued.written hash (FiniteMap.mem_iff_lookup.mpr ⟨source, stored⟩)
    · exact isWritten hash (FiniteMap.mem_iff_lookup.mpr ⟨source, added⟩)

end Record

/-! ## Updates -/

section Returns

variable {server : Server} {secrets : Secrets} {hash : Hash}

theorem genWeight_pair_le (host speaker : Bytes) (gen : UInt64) :
    Record.genWeight (server.pair secrets host speaker gen) hash ≤
      Record.genWeight secrets hash ⊔ WithBot.some gen.toNat := by
  unfold Record.genWeight
  rw [Server.lookup_pair]
  split
  · exact le_sup_right
  split
  · exact le_sup_right
  · exact le_sup_left

/-- A callback leaves secrets as they are, or gives them the generation that
it returns. -/
theorem genWeight_returns_le {change : Change} {random : UInt32}
    {store : Store} {room : RoomName} {next : Record}
    (returns : server.Returns change random store.rooms[room]? next) :
    Record.genWeight next.secrets hash ≤
      Record.genWeight (store.recordOr room).secrets hash ⊔
        WithBot.some next.gen.toNat := by
  have empty : Record.genWeight ∅ hash ≤
      Record.genWeight (store.recordOr room).secrets hash := by
    simp [Record.genWeight]
  unfold Store.recordOr at empty ⊢
  generalize store.rooms[room]? = cur at returns empty ⊢
  cases returns with
  | reserve => exact (genWeight_pair_le _ _ _).trans (sup_le_sup_right empty _)
  | raise => exact le_sup_left
  | migrate => exact (genWeight_pair_le _ _ _).trans (sup_le_sup_right empty _)
  | extend => exact le_sup_left
  | rotate => exact genWeight_pair_le _ _ _
  | revoke =>
      split
      · exact le_sup_left
      · exact le_sup_left
  | block => exact le_sup_left

/-- Updates write secrets for their room. -/
theorem Record.Issued.updated {written : List Pair} {store : Store}
    (every : store.Every (Record.Issued written))
    (wellFormed : store.WellFormed) {room : RoomName} {change : Change}
    {random : UInt32} {now : Int} {saves : Bool} {next : Record}
    (returns : server.Returns change random store.rooms[room]? next)
    (writes : ∀ pair,
      server.writes store (.update room change random now saves) = some pair →
        pair ∈ written) :
    ((store.recordOr room).merged { next with room }).Issued written := by
  obtain ⟨named, known⟩ :=
    Record.Issued.startsFrom (every.startsFrom wellFormed room)
  apply known.merged
  · intro hash
    refine (genWeight_returns_le returns).trans (sup_le ?_ ?_)
    · refine (known.dated hash).trans (WithBot.coe_le_coe.mpr ?_)
      exact UInt64.le_iff_toNat_le.mp (Record.gen_le_merged _ _)
    · refine WithBot.coe_le_coe.mpr ?_
      exact UInt64.le_iff_toNat_le.mp
        (Record.other_gen_le_merged _ { next with room })
  · intro hash member
    rw [named]
    have source := @Server.mem_secrets_of_returns _ _ _ _ _ now saves _ _
      returns member
    rcases source with ⟨pair, isPair, isRoom, has⟩ | ⟨record, stored, has⟩
    · exact ⟨pair, writes pair isPair, isRoom, has⟩
    · obtain ⟨pair, isWritten, isRoom, pairHas⟩ :=
        (every.rooms stored).written hash has
      rw [wellFormed.rooms.keyed stored] at isRoom
      exact ⟨pair, isWritten, isRoom, pairHas⟩

end Returns

/-! ## Runs -/

namespace Cluster

variable {ι : Type} [DecidableEq ι] {server : Server}
variable {cluster later : Cluster ι}

theorem Every.issued_step {site : ι} {operation : Operation}
    (every : cluster.Every (Record.Issued cluster.written))
    (wellFormed : ∀ site, (cluster.stores site).WellFormed)
    (step : Step server cluster site operation later) :
    later.Every (Record.Issued later.written) := by
  obtain ⟨-, sent, done⟩ := step
  rename_i result store
  have known : cluster.Every (Record.Issued
      (cluster.after server site operation result store).written) :=
    every.imp fun issued => issued.mono (List.subset_append_left _ _)
  refine known.after ((known.stores site).run Record.Issued.stable
    (wellFormed site) done ?_ ?_)
  · intro record other start received _
    obtain ⟨named, issued⟩ := Record.Issued.startsFrom start
    have copy := known.copies other (sent received)
    apply issued.merged
    · intro hash
      refine (copy.dated hash).trans (WithBot.coe_le_coe.mpr ?_)
      exact UInt64.le_iff_toNat_le.mp (Record.other_gen_le_merged record other)
    · rw [named]
      exact copy.written
  · intro room change random now saves next isUpdate succeeds returns
    refine @Record.Issued.updated server _ _ (known.stores site)
      (wellFormed site) room change random now saves next returns ?_
    intro pair isPair
    rw [← isUpdate] at isPair
    obtain ⟨out, isOut⟩ := Option.isSome_iff_exists.mp succeeds
    refine List.mem_append_right _ ?_
    rw [isOut, Option.bind_some, isPair]
    exact List.mem_singleton_self pair

/-- All secrets in a cluster were issued, whatever happened. -/
theorem issued_of_run {condition : Cluster ι → ι → Operation → Prop}
    (run : Run server condition initial cluster) :
    cluster.Every (Record.Issued cluster.written) := by
  apply run.keeps_initial
    (motive := fun cluster => cluster.Every (Record.Issued cluster.written))
    .initial
  intro cluster later site operation wellFormed every _ step
  exact every.issued_step wellFormed step

end Cluster

end FfmucSalt.MeetReserve
