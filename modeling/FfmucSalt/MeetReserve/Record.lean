import FfmucSalt.Foundation.FiniteMap
import FfmucSalt.Text

/-!
# Room records

The record of one room and how two copies of it are merged, as in `store.go`.
Counters of seconds and milliseconds are integers; the rotation generation is
the machine word it is in the source, since its wrapping matters.  A nil map
of secrets is not told apart from an empty one, and no entry of the map is
nil.
-/

namespace FfmucSalt.MeetReserve

/-- The SHA-256 of a link secret in hexadecimal. -/
abbrev Hash := Bytes

abbrev RoomName := Bytes

def roleHost : Bytes := ascii "host"

def roleSpeaker : Bytes := ascii "speaker"

structure SecretEntry where
  role : Bytes
  gen : UInt64
  deriving DecidableEq

abbrev Secrets := FiniteMap Hash SecretEntry

structure Record where
  room : RoomName
  created : Int
  expires : Int
  gen : UInt64
  /-- When the room was deleted; 0 if it was not. -/
  revoked : Int
  /-- The room has a long signed v1 name. -/
  legacy : Bool
  secrets : Secrets
  /-- Local change time in ms, the sync cursor only. -/
  updated : Int
  deriving DecidableEq

/-- `&record{Room: room}` -/
def Record.empty (room : RoomName) : Record :=
  { room, created := 0, expires := 0, gen := 0, revoked := 0, legacy := false,
    secrets := ∅, updated := 0 }

def maxSecrets : Nat := 8

namespace Record

/-- Whether a secret of this room still works. -/
def current (record : Record) : Option SecretEntry → Bool
  | none => false
  | some entry => entry.gen == record.gen

/-! ## Pruning -/

/-- The generation under which a hash is stored. -/
def genOf (secrets : Secrets) (hash : Hash) : UInt64 :=
  (secrets[hash]?.map SecretEntry.gen).getD 0

/-- The comparison `prune` sorts by: highest generation first, the hash as
tiebreak. -/
def pruneOrder (secrets : Secrets) : Hash → Hash → Ordering :=
  compareLex
    (fun first second => compare (genOf secrets second) (genOf secrets first))
    compare

/-- `prune` keeps the `maxSecrets` entries with the highest generation, and
reports whether it removed any. -/
def prune (secrets : Secrets) : Secrets × Bool :=
  if secrets.size ≤ maxSecrets then (secrets, false)
  else
    let hashes := sortFunc (pruneOrder secrets) secrets.keys
    ((hashes.drop maxSecrets).foldl (fun kept hash => kept.erase hash) secrets,
      true)

/-! ## Merging -/

/-- One turn of the loop in `merge` over the other record's secrets. -/
def mergeSecret (state : Secrets × Bool) (hash : Hash) (entry : SecretEntry) :
    Secrets × Bool :=
  match state.1[hash]? with
  | none => (state.1.insert hash entry, true)
  | some stored =>
      if stored.gen < entry.gen then
        (state.1.insert hash { stored with gen := entry.gen }, true)
      else state

/-- The loop in `merge` over the other record's secrets. -/
def mergeSecrets (stored other : Secrets) : Secrets × Bool :=
  other.foldl mergeSecret (stored, false)

/-- `merge` folds `other` into `record` and reports whether it changed. -/
def merge (record other : Record) : Record × Bool :=
  let (created, createdChanged) :=
    if other.created ≠ 0 ∧
        (record.created = 0 ∨ other.created < record.created) then
      (other.created, true)
    else (record.created, false)
  let (expires, expiresChanged) :=
    if record.expires < other.expires then (other.expires, true)
    else (record.expires, false)
  let (gen, genChanged) :=
    if record.gen < other.gen then (other.gen, true) else (record.gen, false)
  let (revoked, revokedChanged) :=
    if other.revoked ≠ 0 ∧
        (record.revoked = 0 ∨ other.revoked < record.revoked) then
      (other.revoked, true)
    else (record.revoked, false)
  let (legacy, legacyChanged) :=
    if other.legacy ∧ ¬ record.legacy then (true, true)
    else (record.legacy, false)
  let (union, unionChanged) := mergeSecrets record.secrets other.secrets
  let (secrets, pruned) := prune union
  ({ record with created, expires, gen, revoked, legacy, secrets },
    createdChanged || expiresChanged || genChanged || revokedChanged ||
      legacyChanged || unionChanged || pruned)

/-- The merged record, without the report. -/
def merged (record other : Record) : Record := (record.merge other).1

/-! ## Lookups in a merged record -/

/-- What the union stores under a hash. -/
def unionEntry (stored other : Option SecretEntry) : Option SecretEntry :=
  match stored, other with
  | stored, none => stored
  | none, some entry => some entry
  | some entry, some newer =>
      if entry.gen < newer.gen then some { entry with gen := newer.gen }
      else some entry

theorem lookup_mergeSecrets (stored other : Secrets) (hash : Hash) :
    (mergeSecrets stored other).1[hash]? =
      unionEntry stored[hash]? other[hash]? := by
  let step := fun (map : Secrets) hash entry =>
    (mergeSecret (map, false) hash entry).1
  have forget : ∀ (state : Secrets × Bool) hash entry,
      (mergeSecret state hash entry).1 = step state.1 hash entry := by
    rintro ⟨map, changed⟩ hash entry
    unfold step mergeSecret
    dsimp only
    split
    · rfl
    · split <;> rfl
  have visits : ∀ (map : Secrets) key value (other : Hash),
      (step map key value)[other]? =
        if key = other then unionEntry map[key]? (some value)
        else map[other]? := by
    intro map key value other
    unfold step mergeSecret unionEntry
    cases found : map[key]? with
    | none => simp [FiniteMap.lookup_insert]
    | some entry =>
        by_cases newer : entry.gen < value.gen
        · simp [newer, FiniteMap.lookup_insert]
        · by_cases same : key = other
          · subst same
            simp [newer, found]
          · simp [newer, same]
  have each := FiniteMap.lookup_foldl
    (fun _ stored value => unionEntry stored (some value))
    visits other stored hash
  unfold mergeSecrets
  rw [FiniteMap.foldl_hom (f := Prod.fst) forget, each]
  cases other[hash]? with
  | none => cases stored[hash]? <;> rfl
  | some entry => rfl

section Merged

variable (record other : Record)

@[simp] theorem merged_room : (record.merged other).room = record.room := rfl

@[simp] theorem merged_updated :
    (record.merged other).updated = record.updated := rfl

theorem merged_created : (record.merged other).created =
    if other.created ≠ 0 ∧
        (record.created = 0 ∨ other.created < record.created) then
      other.created
    else record.created := by
  simp only [merged, merge]
  split <;> rfl

@[simp] theorem merged_expires :
    (record.merged other).expires = max record.expires other.expires := by
  simp only [merged, merge]
  split <;> simp only <;> omega

theorem merged_gen : (record.merged other).gen =
    if record.gen < other.gen then other.gen else record.gen := by
  simp only [merged, merge]
  split <;> rfl

theorem gen_le_merged : record.gen ≤ (record.merged other).gen := by
  rw [merged_gen]
  split
  · rename_i less
    exact UInt64.le_of_lt less
  · exact UInt64.le_refl _

theorem other_gen_le_merged : other.gen ≤ (record.merged other).gen := by
  rw [merged_gen]
  split
  · exact UInt64.le_refl _
  · rename_i notLess
    exact UInt64.not_lt.mp notLess

theorem merged_revoked : (record.merged other).revoked =
    if other.revoked ≠ 0 ∧
        (record.revoked = 0 ∨ other.revoked < record.revoked) then
      other.revoked
    else record.revoked := by
  simp only [merged, merge]
  split <;> rfl

@[simp] theorem merged_legacy :
    (record.merged other).legacy = (record.legacy || other.legacy) := by
  simp only [merged, merge]
  cases record.legacy <;> cases other.legacy <;> rfl

theorem merged_revoked_eq_zero :
    (record.merged other).revoked = 0 ↔
      record.revoked = 0 ∧ other.revoked = 0 := by
  rw [merged_revoked]
  split <;> omega

theorem merged_secrets : (record.merged other).secrets =
    (prune (mergeSecrets record.secrets other.secrets).1).1 := rfl

end Merged

/-! ## Merges without a change -/

theorem mergeSecrets_of_unchanged {stored other : Secrets}
    (unchanged : (mergeSecrets stored other).2 = false) :
    (mergeSecrets stored other).1 = stored := by
  refine FiniteMap.foldl_keeps
    (motive := fun state : Secrets × Bool => state.2 = false → state.1 = stored)
    (fun _ => rfl) ?_ unchanged
  intro state hash entry _ held
  unfold mergeSecret
  split
  · simp
  · split
    · simp
    · exact held

private theorem prune_of_unchanged {secrets : Secrets}
    (unchanged : (prune secrets).2 = false) : (prune secrets).1 = secrets := by
  unfold prune at unchanged ⊢
  split
  · rfl
  · rename_i many
    simp [many] at unchanged

private theorem not_of_unreported {α : Type} {condition : Prop}
    [Decidable condition] {new old : α}
    (unreported :
      (if condition then (new, true) else (old, false)).2 = false) :
    ¬ condition := by
  intro holds
  rw [if_pos holds] at unreported
  cases unreported

/-- A merge that reports no change makes none. -/
theorem merged_of_unchanged {record other : Record}
    (unchanged : (record.merge other).2 = false) :
    record.merged other = record := by
  simp only [merge, Bool.or_eq_false_iff] at unchanged
  obtain ⟨⟨⟨⟨⟨⟨created, expires⟩, gen⟩, revoked⟩, legacy⟩, union⟩, pruned⟩ :=
    unchanged
  have sameUnion := mergeSecrets_of_unchanged union
  rw [sameUnion] at pruned
  simp only [merged, merge, sameUnion, prune_of_unchanged pruned,
    if_neg (not_of_unreported created), if_neg (not_of_unreported expires),
    if_neg (not_of_unreported gen), if_neg (not_of_unreported revoked),
    if_neg (not_of_unreported legacy)]

end Record

end FfmucSalt.MeetReserve
