import FfmucSalt.MeetReserve.StoreInvariant

/-!
# What a store knows about a room

The point of the record a store holds of a room, the least point if it holds
none.  Updates and merges only raise it.
-/

namespace FfmucSalt.MeetReserve

/-- An empty record is below all others. -/
theorem Record.point_empty_le {room : RoomName} {record : Record}
    (nonneg : 0 ≤ record.expires) : (Record.empty room).point ≤ record.point := by
  refine ⟨?_, nonneg, Nat.zero_le _, ?_, Bool.false_le _, ?_⟩
  · exact OrderDual.toDual_le_toDual.mpr le_top
  · exact OrderDual.toDual_le_toDual.mpr le_top
  · exact TopK.Kept.of_le (Record.finitelyMany_genWeight _)
      (fun hash => by simp [Record.genWeight, Record.empty]) _

namespace Store

/-- What a store knows about a room. -/
noncomputable def pointOf (store : Store) (room : RoomName) :
    WithBot Record.Point :=
  store.rooms[room]?.elim ⊥ fun record => (record.point : WithBot Record.Point)

theorem pointOf_eq {store : Store} {room : RoomName} {record : Record}
    (stored : store.rooms[room]? = some record) :
    store.pointOf room = record.point := by
  simp [pointOf, stored]

/-- A room that a store has not recorded yet counts as an empty record. -/
theorem point_recordOr_merged {store : Store} {room : RoomName}
    {other : Record} (nonneg : 0 ≤ other.expires) :
    (((store.recordOr room).merged other).point : WithBot Record.Point) =
      store.pointOf room ⊔ (other.point : WithBot Record.Point) := by
  have above : (Record.empty room).point ≤ other.point :=
    Record.point_empty_le nonneg
  rw [Record.point_merged]
  unfold Store.recordOr Store.pointOf
  cases store.rooms[room]? with
  | none => simp [sup_eq_right.mpr above]
  | some record => simp

/-- An update raises what its signer knows about the room. -/
theorem pointOf_le_commit (store : Store) (room : RoomName)
    (next : Record) (now : Int) (saves : Bool) :
    store.pointOf room ≤ (store.commit room next now saves).2.pointOf room := by
  have stored : (store.commit room next now saves).2.rooms[room]? =
      some (store.commit room next now saves).1 := by
    simp
  rw [Store.pointOf_eq stored, Store.commit_out]
  unfold Store.pointOf
  cases known : store.rooms[room]? with
  | none => exact bot_le
  | some record =>
      have points := Record.point_merged record { next with room }
      simp only [Option.elim_some, WithBot.coe_le_coe, Store.recordOr, known,
        Option.getD_some]
      exact le_sup_left.trans_eq points.symm

theorem pointOf_mergeRecord (store : Store) {other : Record} (now : Int)
    (nonneg : 0 ≤ other.expires) (room : RoomName) :
    (store.mergeRecord other now).1.pointOf room =
      if other.room = room then store.pointOf room ⊔ (other.point : WithBot _)
      else store.pointOf room := by
  by_cases same : other.room = room
  · subst same
    rw [if_pos rfl, ← point_recordOr_merged nonneg]
    have stored : (store.mergeRecord other now).1.rooms[other.room]? =
        some (store.mergedRecord other now) := by
      simp [Store.mergeRecord_rooms]
    rw [Store.pointOf_eq stored]
    unfold Store.mergedRecord
    dsimp only
    split <;> rfl
  · rw [if_neg same]
    unfold Store.pointOf
    rw [Store.mergeRecord_rooms, FiniteMap.lookup_insert, if_neg same]

theorem below_of_le_pointOf {store : Store} (wellFormed : store.WellFormed)
    {room : RoomName} {record : Record}
    (bounded : (record.point : WithBot Record.Point) ≤ store.pointOf room) :
    ∃ now, store.rooms[room]? = some now ∧ record.Below now := by
  unfold pointOf at bounded
  cases stored : store.rooms[room]? with
  | none => simp [stored] at bounded
  | some now =>
      refine ⟨now, rfl, ?_⟩
      rw [Record.below_iff (wellFormed.rooms.pruned stored)]
      simpa [stored] using bounded

section Grows

variable (store : Store)

/-- Storing a merge raises what the store knows. -/
private theorem pointOf_le_of_merged {later : Store} {name : RoomName}
    {record other : Record} (rooms : later.rooms = store.rooms.insert name record)
    (merged : record.point = ((store.recordOr name).merged other).point)
    (room : RoomName) : store.pointOf room ≤ later.pointOf room := by
  by_cases same : name = room
  · subst same
    have stored : later.rooms[name]? = some record := by
      rw [rooms]
      simp
    rw [pointOf_eq stored, merged, Record.point_merged]
    unfold pointOf recordOr
    cases store.rooms[name]? with
    | none => exact bot_le
    | some known => exact WithBot.coe_le_coe.mpr le_sup_left
  · unfold pointOf
    rw [rooms, FiniteMap.lookup_insert, if_neg same]

private theorem mergedRecord_point (other : Record) (now : Int) :
    (store.mergedRecord other now).point =
      ((store.recordOr other.room).merged other).point := by
  unfold mergedRecord
  dsimp only
  split <;> rfl

theorem pointOf_le_update {later : Store} {name : RoomName} {fn : Callback}
    {now : Int} {saves : Bool} {outcome : Except Error Record}
    (done : store.update name fn now saves = some (outcome, later))
    (room : RoomName) : store.pointOf room ≤ later.pointOf room := by
  cases outcome with
  | error error => exact (update_error done).2 ▸ le_rfl
  | ok out =>
      obtain ⟨next, -, committed⟩ := update_ok done
      have isLater : later = (store.commit name next now saves).2 := by
        rw [committed]
      rw [isLater]
      exact store.pointOf_le_of_merged (commit_rooms ..)
        (by rw [commit_out]; rfl) room

theorem pointOf_le_mergeRecord (other : Record) (now : Int) (room : RoomName) :
    store.pointOf room ≤ (store.mergeRecord other now).1.pointOf room :=
  store.pointOf_le_of_merged (store.mergeRecord_rooms other now)
    (store.mergedRecord_point other now) room

theorem le_pointOf_mergeRecord (other : Record) (now : Int) :
    (other.point : WithBot Record.Point) ≤
      (store.mergeRecord other now).1.pointOf other.room := by
  have stored : (store.mergeRecord other now).1.rooms[other.room]? =
      some (store.mergedRecord other now) := by
    simp [mergeRecord_rooms]
  rw [pointOf_eq stored, mergedRecord_point, Record.point_merged]
  exact WithBot.coe_le_coe.mpr le_sup_right

theorem pointOf_le_mergeRemote (recs : List (Option Record × Int))
    (room : RoomName) :
    store.pointOf room ≤ (store.mergeRemote recs).1.pointOf room := by
  apply mergeRemote_keeps
    (motive := fun later => store.pointOf room ≤ later.pointOf room) le_rfl
  · intro later other now _ _ held
    exact held.trans (later.pointOf_le_mergeRecord other now room)
  · exact fun _ _ held => held

/-- Every record that is merged is below what the store knows afterwards. -/
theorem le_pointOf_mergeRemote {recs : List (Option Record × Int)}
    {other : Record} {now : Int} (member : (some other, now) ∈ recs)
    (valid : validRoomName other.room) :
    (other.point : WithBot Record.Point) ≤
      (store.mergeRemote recs).1.pointOf other.room := by
  obtain ⟨before, after, split⟩ := List.append_of_mem member
  have turn : ∀ start : Store, start.receive (some other, now) =
      (start.mergeRecord other now).1 := by
    intro start
    simp [receive, ne_nil_of_validRoomName valid, valid]
  have grows : ∀ (rest : List (Option Record × Int)) (start : Store),
      start.pointOf other.room ≤ (rest.foldl receive start).pointOf other.room := by
    intro rest start
    obtain ⟨dirty, same⟩ := start.mergeRemote_eq rest
    have := start.pointOf_le_mergeRemote rest other.room
    rwa [same] at this
  obtain ⟨dirty, same⟩ := store.mergeRemote_eq recs
  rw [same, split, List.foldl_append, List.foldl_cons, turn]
  exact (le_pointOf_mergeRecord _ other now).trans (grows after _)

end Grows

end Store

end FfmucSalt.MeetReserve
