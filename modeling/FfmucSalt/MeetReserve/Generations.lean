import FfmucSalt.MeetReserve.Rotation

/-!
# Rotations at the end of the counter

The high half of a generation counts the rotations of a room.  Peers may send
any generation, so a signer may store one whose counter is at its end, and the
next rotation falls back behind it.
-/

namespace FfmucSalt.MeetReserve

open TopK

/-! ## Records that peers may send -/

/-- No secret is newer than the record. -/
def Record.Dated (record : Record) : Prop :=
  ∀ hash, genWeight record.secrets hash ≤ WithBot.some record.gen.toNat

namespace Record

variable {record other : Record}

theorem Dated.of_empty (none : record.secrets = ∅) : record.Dated := by
  intro hash
  simp [genWeight, none]

theorem Dated.stable : Stable Dated where
  stamp _ dated := dated
  strip _ _ := .of_empty rfl

theorem Dated.startsFrom {room : RoomName}
    (start : StartsFrom Dated room record) : record.Dated := by
  rcases start with isEmpty | ⟨dated, -⟩
  · exact .of_empty (isEmpty ▸ rfl)
  · exact dated

theorem Dated.merged (dated : record.Dated)
    (otherDated : ∀ hash, genWeight other.secrets hash ≤
      WithBot.some (record.merged other).gen.toNat) :
    (record.merged other).Dated := by
  intro hash
  rw [genWeight_merged]
  apply keep_le.trans
  apply sup_le
  · apply (dated hash).trans
    apply WithBot.coe_le_coe.mpr
    exact UInt64.le_iff_toNat_le.mp (gen_le_merged record other)
  · exact otherDated hash

end Record

/-- A signer whose peers send records with any generation. -/
def Server.Receives (server : Server) (store : Store) : Prop :=
  server.History
    (fun _ operation _ => ∀ record ∈ operation.received, record.Dated)
    (newStore none) store

section Reached

variable {server : Server} {store : Store}

theorem Store.Every.dated_run {later : Store} {operation : Operation}
    {result : Option Record} (every : store.Every Record.Dated)
    (wellFormed : store.WellFormed)
    (received : ∀ record ∈ operation.received, record.Dated)
    (done : server.run store operation = some (result, later)) :
    later.Every Record.Dated := by
  apply every.run Record.Dated.stable wellFormed done
  · intro known other start isReceived _
    apply (Record.Dated.startsFrom start).merged
    intro hash
    apply (received other isReceived hash).trans
    apply WithBot.coe_le_coe.mpr
    exact UInt64.le_iff_toNat_le.mp (Record.other_gen_le_merged known other)
  · intro room change random now saves next _ _ returns
    have known := Record.Dated.startsFrom (every.startsFrom wellFormed room)
    apply known.merged
    intro hash
    apply (genWeight_returns_le returns).trans
    apply sup_le
    · apply (known hash).trans
      apply WithBot.coe_le_coe.mpr
      exact UInt64.le_iff_toNat_le.mp (Record.gen_le_merged _ _)
    · apply WithBot.coe_le_coe.mpr
      exact UInt64.le_iff_toNat_le.mp
        (Record.other_gen_le_merged _ { next with room })

/-- What a signer stores is well formed, and its secrets are dated. -/
theorem Server.Receives.dated (receives : server.Receives store) :
    store.WellFormed ∧ store.Every Record.Dated := by
  apply History.keeps receives .newStore .newStore
  intro store later operation result wellFormed every received _ done
  exact every.dated_run wellFormed received done

end Reached

/-! ## The step of the counter -/

/-- What a rotation of `record` to the link `host` promises of its outcome. -/
structure Server.MovesForward (server : Server) (record : Record)
    (host : Bytes) (bits : UInt32) (out : Record) (after : Store) : Prop where
  ahead : record.gen < nextGen record.gen bits
  apart : ∀ older < nextGen record.gen bits,
    genClaim older ≠ genClaim (nextGen record.gen bits)
  kept : out.gen = nextGen record.gen bits
  stored : after.rooms[record.room]? = some out
  /-- The new links work, and no others. -/
  works : ∀ hash,
    (∃ entry, after.bySecret hash = some (out, entry) ∧
        out.current (some entry)) ↔
      hash = server.hashSecret host ∨
        hash = server.hashSecret (server.speakerSecret host)

theorem genClaim_ne_of_lt {older newer : UInt64} (less : older < newer) :
    genClaim older ≠ genClaim newer := by
  intro same
  have equal := genClaim_injective same
  exact UInt64.lt_irrefl newer (equal ▸ less)

theorem lt_nextGen_iff {gen : UInt64} {random : UInt32} :
    gen < nextGen gen random ↔ gen.toNat / 2 ^ 32 < 2 ^ 32 - 1 := by
  constructor
  · intro ahead
    by_contra atEnd
    have wraps : ¬ gen.toNat / 2 ^ 32 + 1 < 2 ^ 32 := by omega
    exact UInt64.lt_asymm ahead (nextGen_lt wraps)
  · intro inside
    have noWrap : gen.toNat / 2 ^ 32 + 1 < 2 ^ 32 := by omega
    exact lt_nextGen noWrap

section Rotations

variable {server : Server} {store after : Store} {record out : Record}
variable {host : Bytes} {bits : UInt32} {now : Int} {saves : Bool}

/-- A drawn secret has the new generation, also if it is known already. -/
theorem genWeight_drawn (dated : record.Dated)
    (noWrap : record.gen.toNat / 2 ^ 32 + 1 < 2 ^ 32) {hash : Hash}
    (drawn : hash = server.hashSecret host ∨
      hash = server.hashSecret (server.speakerSecret host)) :
    Record.genWeight (record.merged (server.rotate record host bits)).secrets
      hash = WithBot.some (nextGen record.gen bits).toNat := by
  have weight : Record.genWeight (server.rotate record host bits).secrets hash =
      WithBot.some (nextGen record.gen bits).toNat := by
    unfold Record.genWeight Server.rotate
    dsimp only
    rw [Server.lookup_pair]
    split
    · rfl
    · rename_i notSpeaker
      have isHost := drawn.resolve_right (Ne.symm notSpeaker)
      rw [if_pos isHost.symm]
      rfl
  have older : Record.genWeight record.secrets hash ≤
      WithBot.some (nextGen record.gen bits).toNat := by
    apply (dated hash).trans
    apply WithBot.coe_le_coe.mpr
    exact (UInt64.lt_iff_toNat_lt.mp (lt_nextGen noWrap)).le
  have ahead : ∃ other, front HashBefore
      (Record.genWeight (Record.mergeSecrets record.secrets
        (server.rotate record host bits).secrets).1) hash ⊆ {other} := by
    rcases drawn with isHost | isSpeaker
    · refine ⟨server.hashSecret (server.speakerSecret host),
        front_drawn dated noWrap ?_ weight.ge⟩
      intro rival notHost notSpeaker
      exact ⟨isHost ▸ Ne.symm notHost, Ne.symm notSpeaker⟩
    · refine ⟨server.hashSecret host, front_drawn dated noWrap ?_ weight.ge⟩
      intro rival notSpeaker notHost
      exact ⟨Ne.symm notHost, isSpeaker ▸ Ne.symm notSpeaker⟩
  obtain ⟨other, ahead⟩ := ahead
  have kept : Record.genWeight
      (record.merged (server.rotate record host bits)).secrets hash =
        Record.genWeight (Record.mergeSecrets record.secrets
          (server.rotate record host bits).secrets).1 hash := by
    unfold Record.genWeight
    rw [Record.merged_secrets, Record.lookup_prune_of_front ahead]
  rw [kept, Record.genWeight_mergeSecrets, Pi.sup_apply, weight]
  exact sup_eq_right.mpr older

/-- At the end of the counter the room keeps its generation, and the links
that the rotation hands out are dead. -/
theorem rotation_at_end (wellFormed : store.WellFormed)
    (stored : store.rooms[record.room]? = some record)
    (done : store.update record.room (server.callback (.rotate host) bits) now
      saves = some (.ok out, after))
    (atEnd : ¬ record.gen.toNat / 2 ^ 32 < 2 ^ 32 - 1)
    {hash : Hash} (isNew : hash ∉ record.secrets) :
    out.gen = record.gen ∧ ¬ out.current out.secrets[hash]? := by
  have wraps : ¬ record.gen.toNat / 2 ^ 32 + 1 < 2 ^ 32 := by omega
  have back := @nextGen_lt record.gen bits wraps
  obtain ⟨-, isOut, -, -⟩ := rotate_update wellFormed stored done
  have gen : out.gen = record.gen := by
    rw [isOut]
    exact (Record.merged_gen _ _).trans (if_neg (UInt64.lt_asymm back))
  refine ⟨gen, ?_⟩
  intro isCurrent
  -- the entry is the drawn one, whose generation is the one that fell back
  have weight := Record.current_iff_genWeight.mp isCurrent
  have absent : Record.genWeight record.secrets hash = ⊥ := by
    unfold Record.genWeight
    rw [Std.ExtTreeMap.getElem?_eq_none isNew]
    rfl
  have drawn : Record.genWeight out.secrets hash ≤
      WithBot.some (nextGen record.gen bits).toNat := by
    rw [isOut]
    change Record.genWeight (record.merged _).secrets hash ≤ _
    rw [Record.genWeight_merged]
    apply keep_le.trans
    apply sup_le
    · rw [absent]
      exact bot_le
    · apply (genWeight_pair_le _ _ _).trans
      rw [absent]
      exact (bot_sup_eq _).le
  rw [weight, gen] at drawn
  exact (WithBot.coe_le_coe.mp drawn).not_gt (UInt64.lt_iff_toNat_lt.mp back)

/-- The secrets that work after a rotation are the two drawn ones. -/
theorem current_rotate_iff (dated : record.Dated)
    (noWrap : record.gen.toNat / 2 ^ 32 + 1 < 2 ^ 32) {hash : Hash} :
    (record.merged (server.rotate record host bits)).current
        (record.merged (server.rotate record host bits)).secrets[hash]? ↔
      hash = server.hashSecret host ∨
        hash = server.hashSecret (server.speakerSecret host) := by
  constructor
  · intro isCurrent
    by_contra other
    obtain ⟨notHost, notSpeaker⟩ := not_or.mp other
    exact rotate_stale dated noWrap (Ne.symm notHost) (Ne.symm notSpeaker)
      isCurrent
  · intro drawn
    apply Record.current_iff_genWeight.mpr
    rw [genWeight_drawn dated noWrap drawn, rotate_gen noWrap]

/-- A rotation moves forward exactly if its counter is not at the end. -/
theorem rotation_moves_forward_iff (receives : server.Receives store)
    (stored : store.rooms[record.room]? = some record)
    (done : store.update record.room (server.callback (.rotate host) bits) now
      saves = some (.ok out, after)) :
    server.MovesForward record host bits out after ↔
      record.gen.toNat / 2 ^ 32 < 2 ^ 32 - 1 := by
  constructor
  · intro forward
    exact lt_nextGen_iff.mp forward.ahead
  intro inside
  obtain ⟨wellFormed, every⟩ := receives.dated
  have dated := every.rooms stored
  have noWrap : record.gen.toNat / 2 ^ 32 + 1 < 2 ^ 32 := by omega
  obtain ⟨-, isOut, rooms, indexed⟩ := rotate_update wellFormed stored done
  have isStored : after.rooms[record.room]? = some out := by
    rw [rooms, FiniteMap.lookup_insert, if_pos rfl]
  have current : ∀ hash, out.current out.secrets[hash]? ↔
      hash = server.hashSecret host ∨
        hash = server.hashSecret (server.speakerSecret host) := by
    intro hash
    rw [isOut]
    exact current_rotate_iff dated noWrap
  refine {
    ahead := lt_nextGen noWrap
    apart := fun _ less => genClaim_ne_of_lt less
    kept := ?_
    stored := isStored
    works := ?_ }
  · rw [isOut]
    exact rotate_gen noWrap
  · intro hash
    rw [← current hash]
    constructor
    · intro ⟨entry, found, isCurrent⟩
      rw [(Store.bySecret_eq_some found).2]
      exact isCurrent
    · intro isCurrent
      cases has : out.secrets[hash]? with
      | none =>
          rw [has] at isCurrent
          cases isCurrent
      | some entry =>
          have found := indexed hash (FiniteMap.mem_iff_lookup.mpr ⟨_, has⟩)
          exact ⟨entry, Store.bySecret_of_index found isStored has,
            has ▸ isCurrent⟩

end Rotations

namespace Sample

/-- What a signer stores after a peer sent it a room of this generation. -/
def receivedStore (gen : UInt64) : Store :=
  ((newStore none).mergeRemote
    [(some { Record.empty room with created := 1, expires := 1000, gen }, 0)]).1

def storeAfterRotation (gen : UInt64) : Store :=
  (((receivedStore gen).update room (server.callback (.rotate secondHost) 7) 0
    true).getD (.error errNoHostLink, receivedStore gen)).2

theorem receives (gen : UInt64) : server.Receives (receivedStore gen) := by
  refine .single ⟨.mergeRemote _, none, ?_, trivial, rfl⟩
  intro record ⟨now, isSent⟩
  cases List.mem_singleton.mp isSent
  exact .of_empty rfl

/-- A peer may send the last generation; the next one is smaller. -/
theorem rotation_falls_back : ¬ ∀ (store after : Store) (record out : Record)
    (drawn : Bytes) (bits : UInt32) (now : Int) (saves : Bool),
    server.Receives store → store.rooms[record.room]? = some record →
    store.update record.room (server.callback (.rotate drawn) bits) now saves =
      some (.ok out, after) →
    server.MovesForward record drawn bits out after := by
  intro forward
  have moves := forward (receivedStore 0xFFFFFFFFFFFFFFFF)
    (storeAfterRotation 0xFFFFFFFFFFFFFFFF)
    ((receivedStore 0xFFFFFFFFFFFFFFFF).recordOr room)
    ((storeAfterRotation 0xFFFFFFFFFFFFFFFF).recordOr room) secondHost 7 0 true
    (receives _) (Store.eq_some_recordOr (by decide))
    (by decide)
  exact absurd moves.ahead (by decide)

def firstLinks : Except Error Record × Store :=
  ((newStore none).update room (server.callback
    (.reserve (Time.ofUnix 1000) (72 * hour) host) 0) 0 true).getD
      (.error errNoHostLink, newStore none)

/-- A room with its first links -/
def linkedStore : Store := firstLinks.2

def linkedRecord : Record := linkedStore.recordOr room

def rotatedOnce : Except Error Record × Store :=
  (linkedStore.update room (server.callback (.rotate secondHost) 7) 0
    true).getD (.error errNoHostLink, linkedStore)

private theorem receives_linkedStore : server.Receives linkedStore := by
  have legal : server.Legal (.update room
      (.reserve (Time.ofUnix 1000) (72 * hour) host) 0 0 true) := by
    change isShortName room ∧ 0 < Time.unix (Time.ofUnix 1000)
    decide
  have updated : (newStore none).update room (server.callback
      (.reserve (Time.ofUnix 1000) (72 * hour) host) 0) 0 true =
        some firstLinks :=
    eq_some_getD (by decide)
  refine .single ⟨_, firstLinks.1.toOption, ?_, legal, ?_⟩
  · intro record received
    exact received.elim
  · dsimp only [Server.run]
    rw [updated]
    rfl

/-- The first links of the room work, and a rotation replaces them. -/
theorem rotation_moves_forward_first :
    linkedRecord.current linkedRecord.secrets[server.hashSecret host]? ∧
    linkedRecord.room = room ∧
    (∃ out, rotatedOnce.1 = .ok out ∧
      server.MovesForward linkedRecord secondHost 7 out rotatedOnce.2) := by
  have isRoom : linkedRecord.room = room := by decide
  refine ⟨by decide, isRoom, ?_⟩
  have isOk : rotatedOnce.1.toOption.isSome := by decide
  cases isOut : rotatedOnce.1 with
  | error error =>
      rw [isOut] at isOk
      cases isOk
  | ok out =>
      have updated : linkedStore.update room
          (server.callback (.rotate secondHost) 7) 0 true = some rotatedOnce :=
        eq_some_getD (by decide)
      have done : linkedStore.update linkedRecord.room
          (server.callback (.rotate secondHost) 7) 0 true =
            some (.ok out, rotatedOnce.2) := by
        rw [isRoom, updated, ← isOut]
      refine ⟨out, rfl, ?_⟩
      apply (rotation_moves_forward_iff receives_linkedStore ?_ done).mpr
      · decide
      · rw [isRoom]
        exact Store.eq_some_recordOr (by decide)

end Sample

end FfmucSalt.MeetReserve
