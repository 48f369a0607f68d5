import FfmucSalt.MeetReserve.Convergence
import FfmucSalt.MeetReserve.Representation
import FfmucSalt.MeetReserve.Tombstone

/-!
# Speaker links

A speaker link joins as a speaker and does nothing else, and merging records
never makes it a host link.
-/

namespace FfmucSalt.MeetReserve

open Program

/-! ## The role of a hash -/

/-- Every secret of the record has a role that its hash may have. -/
def Record.RolesIn (allowed : Hash → Bytes → Prop) (record : Record) : Prop :=
  ∀ (hash : Hash) entry, record.secrets[hash]? = some entry →
    allowed hash entry.role

section Roles

variable {server : Server} {allowed : Hash → Bytes → Prop}

theorem Record.RolesIn.stable : Record.Stable (Record.RolesIn allowed) where
  stamp _ rolesIn := rolesIn
  strip _ _ := by
    intro hash entry found
    simp at found

theorem Record.RolesIn.startsFrom {room : RoomName} {record : Record}
    (start : Record.StartsFrom (Record.RolesIn allowed) room record) :
    record.RolesIn allowed := by
  rcases start with isEmpty | ⟨rolesIn, -⟩
  · subst isEmpty
    intro hash entry found
    simp [Record.empty] at found
  · exact rolesIn

theorem Record.RolesIn.merged {record other : Record}
    (rolesIn : record.RolesIn allowed) (otherRolesIn : other.RolesIn allowed) :
    (record.merged other).RolesIn allowed := by
  intro hash entry found
  obtain ⟨source, stored | added, sameRole⟩ := Record.role_merged found
  · exact sameRole ▸ rolesIn hash source stored
  · exact sameRole ▸ otherRolesIn hash source added

end Roles

/-! ## Requests with a speaker's key -/

/-- If the hash is stored, it is a speaker's. -/
def Store.Speaks (store : Store) (hash : Hash) : Prop :=
  ∀ record entry, store.bySecret hash = some (record, entry) →
    entry.role = roleSpeaker

/-- A v1 token whose user is a speaker. -/
def Server.SpeakerToken (server : Server) (key : Bytes) : Prop :=
  ∃ header body signature text value claims room,
    key.splitOn 0x2E = [header, body, signature] ∧
      b64urlDecode body = some text ∧
      server.lib.unmarshal text = some value ∧
      LegacyClaims.ofJson value = some claims ∧
      claims.id = roleSpeaker ++ ascii ":" ++ room

/-- A link secret of a speaker, or a v1 token of a speaker. -/
def Server.SpeakerKey (server : Server) (key : Bytes) (store : Store) : Prop :=
  if validSecret key then store.Speaks (server.hashSecret key)
  else server.SpeakerToken key

section Requests

variable {server : Server} {key : Bytes}

/-- No action of a request changes the store. -/
private def Quiet : Action → Prop
  | .update _ _ => False
  | _ => True

/-- What a signer answers about a speaker's key. -/
private def Hears (server : Server) (key : Bytes) :
    (action : Action) → Answer action → Prop
  | .bySecret hash, answer => validSecret key → hash = server.hashSecret key →
      ∀ record entry, answer = some (record, entry) → entry.role = roleSpeaker
  | _, _ => True

theorem Server.SpeakerToken.refused (token : server.SpeakerToken key) :
    ∃ error, server.parseLegacyHostToken key = .error error := by
  obtain ⟨header, body, signature, text, value, claims, room, parts, isText,
    isValue, isClaims, isId⟩ := token
  have notHost : claims.id ≠ roleHost ++ ascii ":" ++ claims.room := by
    rw [isId]
    intro same
    have isSpeaker : roleSpeaker.head? = some 0x73 := by decide
    have isHost : roleHost.head? = some 0x68 := by decide
    have heads := congrArg List.head? same
    simp only [List.append_assoc, List.head?_append, isSpeaker, isHost,
      Option.some_or] at heads
    exact absurd heads (by decide)
  unfold Server.parseLegacyHostToken
  rw [parts]
  dsimp only
  split
  · exact ⟨_, rfl⟩
  · split
    · exact ⟨_, rfl⟩
    · rw [isText]
      dsimp only
      rw [isValue, Option.bind_some, isClaims]
      dsimp only
      rw [if_pos notHost]
      exact ⟨_, rfl⟩

private theorem Server.Performs.quiet {process later : Process}
    {action : Action} {answer : Answer action} (quiet : Quiet action)
    (performs : server.Performs process action answer later) :
    later.store = process.store := by
  cases performs with
  | update => exact quiet.elim
  | _ => rfl

/-- A process to which the key is a speaker's. -/
private theorem Server.SpeakerKey.performs {process later : Process}
    {action : Action} {answer : Answer action}
    (speaker : server.SpeakerKey key process.store) (quiet : Quiet action)
    (performs : server.Performs process action answer later) :
    (Hears server key action answer ∧ server.SpeakerKey key later.store) ∧
      later.store = process.store := by
  have same := performs.quiet quiet
  refine ⟨⟨?_, same ▸ speaker⟩, same⟩
  cases performs with
  | bySecret free =>
      intro valid isHash
      rw [Server.SpeakerKey, if_pos valid] at speaker
      exact isHash ▸ speaker
  | _ => trivial

end Requests

namespace Sample

/-- The speaker link of the first room. -/
def speaker : Bytes := server.speakerSecret host

end Sample

end FfmucSalt.MeetReserve
