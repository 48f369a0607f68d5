import FfmucSalt.MeetReserve.Cluster

/-!
# Records made of pairs

Reserving, migrating and rotating write a host and a speaker secret under one
generation.  A record whose entries all come from such pairs, and which has
the pair of its own generation, keeps this through every merge: at most two
entries stand in front of the cut.
-/

namespace FfmucSalt.MeetReserve

namespace Pair

/-- An entry that belongs to the pair. -/
def Covers (pair : Pair) (hash : Hash) (entry : SecretEntry) : Prop :=
  entry.gen = pair.gen ∧
    (hash = pair.host ∧ entry.role = roleHost ∨
      hash = pair.speaker ∧ entry.role = roleSpeaker)

/-- Both secrets are among these. -/
def Within (pair : Pair) (secrets : Secrets) : Prop :=
  secrets[pair.host]? = some { role := roleHost, gen := pair.gen } ∧
    secrets[pair.speaker]? = some { role := roleSpeaker, gen := pair.gen }

/-- Some secret belongs to both pairs. -/
def Shares (first second : Pair) : Prop :=
  first.host = second.host ∨ first.host = second.speaker ∨
    first.speaker = second.host ∨ first.speaker = second.speaker

instance (first second : Pair) : Decidable (first.Shares second) :=
  inferInstanceAs (Decidable (_ ∨ _))

end Pair

/-- Pairs that can be told apart by their secrets, and in one room by their
generations. -/
structure Distinct (written : List Pair) : Prop where
  apart : ∀ {pair}, pair ∈ written → pair.host ≠ pair.speaker
  secrets : ∀ {first second}, first ∈ written → second ∈ written →
    first.Shares second → first = second
  gens : ∀ {first second}, first ∈ written → second ∈ written →
    first.room = second.room → first.gen = second.gen → first = second

/-- Secrets of a room that all come from pairs, with generations up to `gen`. -/
def Sound (written : List Pair) (room : RoomName) (gen : UInt64)
    (secrets : Secrets) : Prop :=
  ∀ ⦃hash : Hash⦄ ⦃entry : SecretEntry⦄, secrets[hash]? = some entry →
    entry.gen ≤ gen ∧
      ∃ pair ∈ written, pair.room = room ∧ pair.Covers hash entry

/-- The pair of the record's own generation is there. -/
def HasCurrent (written : List Pair) (record : Record) : Prop :=
  ∃ pair ∈ written, pair.room = record.room ∧ pair.gen = record.gen ∧
    pair.Within record.secrets

/-- A record made of pairs, with its current pair unless it is deleted. -/
structure FromPairs (written : List Pair) (record : Record) : Prop where
  sound : Sound written record.room record.gen record.secrets
  current : record.revoked = 0 → HasCurrent written record

section Facts

variable {written : List Pair} {room : RoomName} {gen : UInt64}
variable {secrets other : Secrets} {pair : Pair}

theorem Sound.mono {more : List Pair} {higher : UInt64}
    (sound : Sound written room gen secrets) (included : written ⊆ more)
    (below : gen ≤ higher) : Sound more room higher secrets := by
  intro hash entry found
  obtain ⟨bounded, pair, member, same, covers⟩ := sound found
  exact ⟨UInt64.le_trans bounded below, pair, included member, same, covers⟩

theorem FromPairs.mono {more : List Pair} {record : Record}
    (fromPairs : FromPairs written record) (included : written ⊆ more) :
    FromPairs more record := by
  constructor
  · exact fromPairs.sound.mono included (UInt64.le_refl _)
  · intro alive
    obtain ⟨pair, member, rest⟩ := fromPairs.current alive
    exact ⟨pair, included member, rest⟩

/-- Whatever is stored under a host hash is the host entry of that pair. -/
theorem Sound.entry_host (sound : Sound written room gen secrets)
    (distinct : Distinct written) (member : pair ∈ written)
    {entry : SecretEntry} (found : secrets[pair.host]? = some entry) :
    entry = { role := roleHost, gen := pair.gen } := by
  obtain ⟨-, source, isSource, -, sameGen, covers⟩ := sound found
  rcases covers with ⟨sameHash, role⟩ | ⟨sameHash, role⟩
  · obtain rfl := distinct.secrets member isSource (.inl sameHash)
    cases entry
    cases sameGen
    cases role
    rfl
  · obtain rfl := distinct.secrets member isSource (.inr (.inl sameHash))
    exact (distinct.apart member sameHash).elim

theorem Sound.entry_speaker (sound : Sound written room gen secrets)
    (distinct : Distinct written) (member : pair ∈ written)
    {entry : SecretEntry} (found : secrets[pair.speaker]? = some entry) :
    entry = { role := roleSpeaker, gen := pair.gen } := by
  obtain ⟨-, source, isSource, -, sameGen, covers⟩ := sound found
  rcases covers with ⟨sameHash, role⟩ | ⟨sameHash, role⟩
  · obtain rfl := distinct.secrets member isSource (.inr (.inr (.inl sameHash)))
    exact (distinct.apart member sameHash.symm).elim
  · obtain rfl := distinct.secrets member isSource (.inr (.inr (.inr sameHash)))
    cases entry
    cases sameGen
    cases role
    rfl

/-- A key on which both sides can only have one value has it in the union. -/
private theorem unionEntry_eq {first second : Option SecretEntry}
    {entry : SecretEntry} (firstOnly : ∀ value, first = some value → value = entry)
    (secondOnly : ∀ value, second = some value → value = entry)
    (present : first = some entry ∨ second = some entry) :
    Record.unionEntry first second = some entry := by
  cases first with
  | none =>
      cases second with
      | none => simp at present
      | some value =>
          rw [secondOnly value rfl]
          rfl
  | some value =>
      rw [firstOnly value rfl]
      cases second with
      | none => rfl
      | some newer =>
          rw [secondOnly newer rfl]
          simp [Record.unionEntry]

theorem Pair.Within.union (sound : Sound written room gen secrets)
    (otherSound : Sound written room gen other) (distinct : Distinct written)
    (member : pair ∈ written)
    (within : pair.Within secrets ∨ pair.Within other) :
    pair.Within (Record.mergeSecrets secrets other).1 := by
  constructor
  · rw [Record.lookup_mergeSecrets]
    apply unionEntry_eq
    · intro value found
      exact sound.entry_host distinct member found
    · intro value found
      exact otherSound.entry_host distinct member found
    · exact within.imp And.left And.left
  · rw [Record.lookup_mergeSecrets]
    apply unionEntry_eq
    · intro value found
      exact sound.entry_speaker distinct member found
    · intro value found
      exact otherSound.entry_speaker distinct member found
    · exact within.imp And.right And.right

theorem Sound.union (sound : Sound written room gen secrets)
    (otherSound : Sound written room gen other) (distinct : Distinct written) :
    Sound written room gen (Record.mergeSecrets secrets other).1 := by
  intro hash entry found
  rw [Record.lookup_mergeSecrets] at found
  cases stored : secrets[hash]? with
  | none =>
      cases added : other[hash]? with
      | none => simp [stored, added, Record.unionEntry] at found
      | some newer =>
          simp only [stored, added, Record.unionEntry, Option.some.injEq] at found
          exact otherSound (found ▸ added)
  | some old =>
      cases added : other[hash]? with
      | none =>
          simp only [stored, added, Record.unionEntry, Option.some.injEq] at found
          exact sound (found ▸ stored)
      | some newer =>
          -- The same hash comes from the same pair, so nothing is repaired.
          obtain ⟨-, pair, member, -, oldGen, oldCovers⟩ := sound stored
          obtain ⟨-, source, isSource, -, newGen, newCovers⟩ := otherSound added
          have shares : pair.Shares source := by
            rcases oldCovers with ⟨old, -⟩ | ⟨old, -⟩ <;>
              rcases newCovers with ⟨new, -⟩ | ⟨new, -⟩ <;>
              simp [Pair.Shares, ← old, ← new]
          obtain rfl := distinct.secrets member isSource shares
          have notNewer : ¬ old.gen < newer.gen := by
            rw [oldGen, newGen]
            exact UInt64.lt_irrefl _
          simp only [stored, added, Record.unionEntry, notNewer, if_false,
            Option.some.injEq] at found
          exact sound (found ▸ stored)

theorem Sound.prune (sound : Sound written room gen secrets) :
    Sound written room gen (Record.prune secrets).1 := by
  classical
  intro hash entry found
  rw [Record.lookup_prune] at found
  split at found
  · exact sound found
  · cases found

/-- In front of a secret of the highest generation stands at most the other
secret of its pair. -/
private theorem front_subset (sound : Sound written room gen secrets)
    (distinct : Distinct written) (member : pair ∈ written)
    (named : pair.room = room) (newest : pair.gen = gen)
    {hash other : Hash} (isOwn : hash = pair.host ∧ other = pair.speaker ∨
      hash = pair.speaker ∧ other = pair.host)
    {entry : SecretEntry} (found : secrets[hash]? = some entry)
    (entryGen : entry.gen = gen) :
    TopK.front HashBefore (Record.genWeight secrets) hash ⊆ {other} := by
  intro rival ahead
  have weight : Record.genWeight secrets hash = WithBot.some gen.toNat := by
    simp [Record.genWeight, found, entryGen]
  have present : Record.genWeight secrets rival ≠ ⊥ := by
    rcases ahead with heavier | ⟨same, -⟩
    · exact ne_bot_of_gt heavier
    · rw [same, weight]
      exact WithBot.coe_ne_bot
  obtain ⟨rivalEntry, rivalFound⟩ := Record.genWeight_ne_bot.mp present
  obtain ⟨bounded, source, isSource, sourceRoom, sourceGen, covers⟩ :=
    sound rivalFound
  have rivalWeight : Record.genWeight secrets rival =
      WithBot.some rivalEntry.gen.toNat := by
    simp [Record.genWeight, rivalFound]
  have atMost : rivalEntry.gen.toNat ≤ gen.toNat :=
    UInt64.le_iff_toNat_le.mp bounded
  have sameGen : rivalEntry.gen = gen := by
    apply UInt64.toNat_inj.mp
    rcases ahead with heavier | ⟨same, -⟩
    · rw [weight, rivalWeight, WithBot.coe_lt_coe] at heavier
      omega
    · rw [weight, rivalWeight, WithBot.coe_inj] at same
      exact same
  have samePair : source = pair :=
    distinct.gens isSource member (sourceRoom.trans named.symm)
      (by rw [← sourceGen, sameGen, newest])
  subst samePair
  have notSelf : rival ≠ hash := by
    intro same
    rw [same] at ahead
    exact TopK.Ahead.irrefl ahead
  rcases covers with ⟨isHost, -⟩ | ⟨isSpeaker, -⟩ <;>
    rcases isOwn with ⟨own, other⟩ | ⟨own, other⟩
  · exact (notSelf (isHost.trans own.symm)).elim
  · exact isHost.trans other.symm
  · exact isSpeaker.trans other.symm
  · exact (notSelf (isSpeaker.trans own.symm)).elim

/-- Pruning keeps the pair of the highest generation. -/
theorem Pair.Within.prune (within : pair.Within secrets)
    (sound : Sound written room gen secrets) (distinct : Distinct written)
    (member : pair ∈ written) (named : pair.room = room)
    (newest : pair.gen = gen) : pair.Within (Record.prune secrets).1 := by
  constructor
  · rw [Record.lookup_prune_of_front
      (front_subset sound distinct member named newest (.inl ⟨rfl, rfl⟩)
        within.1 newest)]
    exact within.1
  · rw [Record.lookup_prune_of_front
      (front_subset sound distinct member named newest (.inr ⟨rfl, rfl⟩)
        within.2 newest)]
    exact within.2

end Facts

section Merge

variable {written : List Pair} {record other : Record}

/-- Merging two records made of pairs gives one; the first may also be a record
that is still empty. -/
theorem FromPairs.merged (distinct : Distinct written)
    (room : other.room = record.room)
    (sound : Sound written record.room record.gen record.secrets)
    (current : record.revoked = 0 →
      record.gen = 0 ∨ HasCurrent written record)
    (fromPairs : FromPairs written other) :
    FromPairs written (record.merged other) := by
  have sound := sound.mono (List.Subset.refl written)
    (record.gen_le_merged other)
  have otherSound := fromPairs.sound.mono (List.Subset.refl written)
    (record.other_gen_le_merged other)
  rw [room] at otherSound
  have united := sound.union otherSound distinct
  constructor
  · rw [Record.merged_room, Record.merged_secrets]
    exact united.prune
  · intro alive
    obtain ⟨recordAlive, otherAlive⟩ := record.merged_revoked_eq_zero other |>.mp alive
    have newest : ∃ pair ∈ written, pair.room = record.room ∧
        pair.gen = (record.merged other).gen ∧
        (pair.Within record.secrets ∨ pair.Within other.secrets) := by
      have ofOther : other.gen = (record.merged other).gen →
          ∃ pair ∈ written, pair.room = record.room ∧
            pair.gen = (record.merged other).gen ∧
            (pair.Within record.secrets ∨ pair.Within other.secrets) := by
        intro same
        obtain ⟨pair, member, named, gen, within⟩ := fromPairs.current otherAlive
        exact ⟨pair, member, named.trans room, gen.trans same, .inr within⟩
      by_cases newer : record.gen < other.gen
      · apply ofOther
        rw [Record.merged_gen, if_pos newer]
      · rcases current recordAlive with zero | ⟨pair, member, named, gen, within⟩
        · apply ofOther
          rw [Record.merged_gen, if_neg newer]
          rw [zero] at newer ⊢
          exact UInt64.le_antisymm (UInt64.not_lt.mp newer)
            (UInt64.le_iff_toNat_le.mpr (Nat.zero_le _))
        · refine ⟨pair, member, named, ?_, .inl within⟩
          rw [gen, Record.merged_gen, if_neg newer]
    obtain ⟨pair, member, named, gen, within⟩ := newest
    refine ⟨pair, member, named, gen, ?_⟩
    have inUnion := Pair.Within.union sound otherSound distinct member within
    exact inUnion.prune united distinct member named gen

end Merge

end FfmucSalt.MeetReserve
