import FfmucSalt.MeetReserve.Store

/-!
# The snapshot as JSON

How records are written to the snapshot and read back.  Fields with the
`omitempty` option are left out when they are zero, and a field that is missing
keeps the zero it had.
-/

namespace FfmucSalt.MeetReserve

/-! ## Values -/

/-- `json.Unmarshal` into a `uint64` that holds `old`. -/
def Json.toUint64 (old : UInt64) : Json → Option UInt64
  | .null => some old
  | .int value =>
      if 0 ≤ value ∧ value < 2 ^ 64 then some (.ofNat value.toNat) else none
  | _ => none

/-- `json.Unmarshal` into a `bool` that holds `old`. -/
def Json.toBool (old : Bool) : Json → Option Bool
  | .null => some old
  | .bool value => some value
  | _ => none

/-- A field with the option `omitempty`. -/
def omitEmpty (empty : Bool) (name : Bytes) (value : Json) :
    List (Bytes × Json) :=
  if empty then [] else [(name, value)]

namespace SecretEntry

def toJson (entry : SecretEntry) : Json :=
  .obj ([(ascii "role", .str entry.role)] ++
    omitEmpty (entry.gen = 0) (ascii "gen") (.int entry.gen.toNat))

def assign (entry : SecretEntry) (name : Bytes) (value : Json) :
    Option SecretEntry :=
  if name = foldName (ascii "role") then
    (value.toStr entry.role).map fun role => { entry with role }
  else if name = foldName (ascii "gen") then
    (value.toUint64 entry.gen).map fun gen => { entry with gen }
  else some entry

/-- An entry that is null would stay a nil pointer in the map; no snapshot has
one. -/
def ofJson : Json → Option SecretEntry
  | .null => none
  | value => value.toStruct assign { role := [], gen := 0 }

end SecretEntry

/-- The secrets as an object. -/
def Secrets.toJson (secrets : Secrets) : Json :=
  .obj (secrets.toList.map fun entry => (entry.1, entry.2.toJson))

/-- `json.Unmarshal` into a map that holds `old`. -/
def Secrets.ofJson (old : Secrets) : Json → Option Secrets
  | .null => some ∅
  | .obj fields =>
      fields.foldlM (fun secrets field =>
        (SecretEntry.ofJson field.2).map fun entry =>
          secrets.insert field.1 entry) old
  | _ => none

namespace Record

def toJson (record : Record) : Json :=
  .obj ([(ascii "room", .str record.room), (ascii "created", .int record.created),
      (ascii "expires", .int record.expires)] ++
    omitEmpty (record.gen = 0) (ascii "gen") (.int record.gen.toNat) ++
    omitEmpty (record.revoked = 0) (ascii "revoked") (.int record.revoked) ++
    omitEmpty (!record.legacy) (ascii "legacy") (.bool record.legacy) ++
    omitEmpty (record.secrets.isEmpty) (ascii "secrets")
      (Secrets.toJson record.secrets) ++
    [(ascii "updated", .int record.updated)])

def assign (record : Record) (name : Bytes) (value : Json) : Option Record :=
  if name = foldName (ascii "room") then
    (value.toStr record.room).map fun room => { record with room }
  else if name = foldName (ascii "created") then
    (value.toInt64 record.created).map fun created => { record with created }
  else if name = foldName (ascii "expires") then
    (value.toInt64 record.expires).map fun expires => { record with expires }
  else if name = foldName (ascii "gen") then
    (value.toUint64 record.gen).map fun gen => { record with gen }
  else if name = foldName (ascii "revoked") then
    (value.toInt64 record.revoked).map fun revoked => { record with revoked }
  else if name = foldName (ascii "legacy") then
    (value.toBool record.legacy).map fun legacy => { record with legacy }
  else if name = foldName (ascii "secrets") then
    (Secrets.ofJson record.secrets value).map fun secrets =>
      { record with secrets }
  else if name = foldName (ascii "updated") then
    (value.toInt64 record.updated).map fun updated => { record with updated }
  else some record

/-- A record that is null is a nil pointer, which `load` dereferences. -/
def ofJson : Json → Option Record
  | .null => none
  | value => value.toStruct assign (empty [])

end Record

/-- `snapshot` -/
def snapshot (records : List Record) : Json :=
  .obj [(ascii "rooms", .arr (records.map Record.toJson))]

def Json.toRecords : Json → Option (List Record)
  | .null => some []
  | .arr items => items.mapM Record.ofJson
  | _ => none

def Json.toSnapshot (json : Json) : Option (List Record) :=
  json.toStruct (fun old name value =>
    if name = foldName (ascii "rooms") then value.toRecords else some old) []

/-! ## Reading what was written -/

private theorem toUint64_toNat (old value : UInt64) :
    Json.toUint64 old (.int value.toNat) = some value := by
  have fits : (value.toNat : Int) < 2 ^ 64 := by
    exact_mod_cast value.toNat_lt
  simp only [Json.toUint64]
  rw [if_pos ⟨Int.natCast_nonneg _, fits⟩, Int.toNat_natCast,
    UInt64.ofNat_toNat]

/-- Reading a field that was left out if it was zero. -/
private theorem foldlM_omitEmpty {α : Type}
    {assign : α → Bytes → Json → Option α} {value later : α} {empty : Bool}
    {name : Bytes} {json : Json}
    (reads : assign value (foldName name) json = some later)
    (zero : empty → later = value) :
    (omitEmpty empty name json).foldlM
      (fun value field => assign value (foldName field.1) field.2) value =
        some later := by
  cases empty with
  | true => simp [omitEmpty, zero rfl]
  | false => simp [omitEmpty, reads]

theorem SecretEntry.ofJson_toJson (entry : SecretEntry) :
    ofJson entry.toJson = some entry := by
  have different : foldName (ascii "gen") ≠ foldName (ascii "role") := by
    decide
  have gen : ({ role := entry.role, gen := 0 } : SecretEntry).assign
      (foldName (ascii "gen")) (.int entry.gen.toNat) = some entry := by
    simp [assign, different, toUint64_toNat]
  have rest := @foldlM_omitEmpty _ _ _ _ (entry.gen = 0) _ _ gen fun zero => by
    rw [← of_decide_eq_true zero]
  simpa [ofJson, toJson, Json.toStruct, assign, Json.toStr] using rest

theorem Secrets.ofJson_toJson (old : Secrets) (none : old = ∅)
    (secrets : Secrets) : ofJson old (Secrets.toJson secrets) = some secrets := by
  have inserts : secrets.foldl
      (fun (rebuilt : Secrets) hash entry => rebuilt.insert hash entry) ∅ =
        secrets := by
    ext1 hash
    rw [FiniteMap.lookup_foldl (fun _ _ entry => some entry)
      fun map key value other => FiniteMap.lookup_insert map key other value]
    cases secrets[hash]? <;> simp
  unfold toJson ofJson
  simp only [List.foldlM_map, SecretEntry.ofJson_toJson, Option.map_some]
  rw [Std.ExtTreeMap.foldl_eq_foldl_toList] at inserts
  rw [none]
  conv_rhs => rw [← inserts]
  exact List.foldlM_pure

namespace Record

/-- The counters fit the machine words they are in the source. -/
structure Fits (record : Record) : Prop where
  created : -(2 ^ 63 : Int) ≤ record.created ∧ record.created < 2 ^ 63
  expires : -(2 ^ 63 : Int) ≤ record.expires ∧ record.expires < 2 ^ 63
  revoked : -(2 ^ 63 : Int) ≤ record.revoked ∧ record.revoked < 2 ^ 63
  updated : -(2 ^ 63 : Int) ≤ record.updated ∧ record.updated < 2 ^ 63

/-- The names of the fields, last first, as they are compared. -/
private theorem names_distinct :
    ([ascii "updated", ascii "secrets", ascii "legacy", ascii "revoked",
      ascii "gen", ascii "expires", ascii "created",
      ascii "room"].map foldName).Nodup := by
  decide

private theorem toInt64_of_fits {old value : Int}
    (fits : -(2 ^ 63 : Int) ≤ value ∧ value < 2 ^ 63) :
    Json.toInt64 old (.int value) = some value :=
  if_pos fits

/-- Every field is read by its own branch. -/
private theorem assign_named (record : Record) (value : Json) :
    (record.assign (foldName (ascii "room")) value =
      (value.toStr record.room).map fun room => { record with room }) ∧
    (record.assign (foldName (ascii "created")) value =
      (value.toInt64 record.created).map
        fun created => { record with created }) ∧
    (record.assign (foldName (ascii "expires")) value =
      (value.toInt64 record.expires).map
        fun expires => { record with expires }) ∧
    (record.assign (foldName (ascii "gen")) value =
      (value.toUint64 record.gen).map fun gen => { record with gen }) ∧
    (record.assign (foldName (ascii "revoked")) value =
      (value.toInt64 record.revoked).map
        fun revoked => { record with revoked }) ∧
    (record.assign (foldName (ascii "legacy")) value =
      (value.toBool record.legacy).map fun legacy => { record with legacy }) ∧
    (record.assign (foldName (ascii "secrets")) value =
      (Secrets.ofJson record.secrets value).map
        fun secrets => { record with secrets }) ∧
    (record.assign (foldName (ascii "updated")) value =
      (value.toInt64 record.updated).map
        fun updated => { record with updated }) := by
  have names := names_distinct
  simp only [List.map_cons, List.map_nil, List.nodup_cons, List.mem_cons,
    List.not_mem_nil, not_or] at names
  refine ⟨?_, ?_, ?_, ?_, ?_, ?_, ?_, ?_⟩ <;> simp [assign, names]

/-- Reading the fields of `fields` into a record. -/
private def read (record : Record) (fields : List (Bytes × Json)) :
    Option Record :=
  fields.foldlM (fun record field => record.assign (foldName field.1) field.2)
    record

private theorem read_append (record : Record)
    (first second : List (Bytes × Json)) :
    record.read (first ++ second) =
      (record.read first).bind fun record => record.read second :=
  List.foldlM_append ..

section Optional

variable {record : Record}

private theorem read_gen (unset : record.gen = 0) (gen : UInt64) :
    record.read (omitEmpty (gen = 0) (ascii "gen") (.int gen.toNat)) =
      some { record with gen } := by
  apply foldlM_omitEmpty
  · simp only [assign_named, toUint64_toNat, Option.map_some]
  · intro zero
    rw [of_decide_eq_true zero, ← unset]

private theorem read_revoked (unset : record.revoked = 0) {revoked : Int}
    (fits : -(2 ^ 63 : Int) ≤ revoked ∧ revoked < 2 ^ 63) :
    record.read (omitEmpty (revoked = 0) (ascii "revoked") (.int revoked)) =
      some { record with revoked } := by
  apply foldlM_omitEmpty
  · simp only [assign_named, toInt64_of_fits fits, Option.map_some]
  · intro zero
    rw [of_decide_eq_true zero, ← unset]

private theorem read_legacy (unset : record.legacy = false) (legacy : Bool) :
    record.read (omitEmpty (!legacy) (ascii "legacy") (.bool legacy)) =
      some { record with legacy } := by
  apply foldlM_omitEmpty
  · simp only [assign_named, Json.toBool, Option.map_some]
  · intro zero
    rw [(Bool.not_eq_true' legacy).mp zero, ← unset]

private theorem read_secrets (unset : record.secrets = ∅) (secrets : Secrets) :
    record.read (omitEmpty secrets.isEmpty (ascii "secrets")
        (Secrets.toJson secrets)) =
      some { record with secrets } := by
  apply foldlM_omitEmpty
  · simp only [assign_named, Secrets.ofJson_toJson _ unset, Option.map_some]
  · intro zero
    rw [Std.ExtTreeMap.isEmpty_iff.mp zero, ← unset]

end Optional

/-- A record is read back as it was written. -/
theorem ofJson_toJson {record : Record} (fits : record.Fits) :
    ofJson record.toJson = some record := by
  have first : (empty []).read [(ascii "room", .str record.room),
      (ascii "created", .int record.created),
      (ascii "expires", .int record.expires)] =
        some { empty [] with
          room := record.room
          created := record.created
          expires := record.expires } := by
    simp [read, assign_named, Json.toStr, toInt64_of_fits fits.created,
      toInt64_of_fits fits.expires]
  have last : ∀ before : Record,
      before.read [(ascii "updated", .int record.updated)] =
        some { before with updated := record.updated } := by
    intro before
    simp [read, assign_named, toInt64_of_fits fits.updated]
  change (empty []).read _ = _
  simp only [read_append, first, Option.bind_some, last]
  rw [read_gen rfl, Option.bind_some, read_revoked rfl fits.revoked,
    Option.bind_some, read_legacy rfl, Option.bind_some, read_secrets rfl]
  rfl

end Record

/-- A snapshot is read back as it was written. -/
theorem toSnapshot_snapshot {records : List Record}
    (fits : ∀ record ∈ records, record.Fits) :
    (snapshot records).toSnapshot = some records := by
  have all : ∀ records : List Record, (∀ record ∈ records, record.Fits) →
      (records.map Record.toJson).mapM Record.ofJson = some records := by
    intro records
    induction records with
    | nil => intro _; rfl
    | cons record records induction =>
        intro fits
        simp [Record.ofJson_toJson (fits record (by simp)),
          induction fun other member => fits other (by simp [member])]
  simp [snapshot, Json.toSnapshot, Json.toStruct, Json.toRecords, all _ fits]

end FfmucSalt.MeetReserve
