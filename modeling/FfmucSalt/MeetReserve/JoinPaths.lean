import FfmucSalt.MeetReserve.Tokens
import FfmucSalt.MeetReserve.Tombstone

/-!
# Two ways to join

A browser opens the short link, an app posts its secret to `/api/join`.  The
checks are written twice.  Here both answer the same link at the same time,
with nothing new from the peers.
-/

namespace FfmucSalt.MeetReserve

open Program

/-! ## Secrets in base64url -/

private theorem ofSextets_isSome : ∀ groups : List Nat,
    groups.length % 4 ≠ 1 → ∃ bytes, ofSextets groups = some bytes := by
  intro groups
  induction groups using ofSextets.induct with
  | case1 => exact fun _ => ⟨_, rfl⟩
  | case2 => exact fun single => absurd rfl single
  | case3 => exact fun _ => ⟨_, rfl⟩
  | case4 => exact fun _ => ⟨_, rfl⟩
  | case5 first second third fourth rest induction =>
      intro notSingle
      obtain ⟨bytes, isRest⟩ := induction (by
        simp only [List.length_cons] at notSingle
        omega)
      exact ⟨_, by rw [ofSextets, isRest]; rfl⟩

private theorem mapM_idxOf_isSome {alphabet : Bytes} : ∀ {text : Bytes},
    (∀ byte ∈ text, byte ∈ alphabet) →
      ∃ groups, text.mapM (alphabet.idxOf? ·) = some groups ∧
        groups.length = text.length := by
  intro text
  induction text with
  | nil => exact fun _ => ⟨[], rfl, rfl⟩
  | cons first text induction =>
      intro all
      rw [List.forall_mem_cons] at all
      obtain ⟨groups, isRest, sameLength⟩ := induction all.2
      obtain ⟨group, isGroup⟩ := Option.ne_none_iff_exists'.mp
        (fun absent => List.idxOf?_eq_none_iff.mp absent all.1)
      refine ⟨group :: groups, ?_, by simp [sameLength]⟩
      rw [List.mapM_cons, isGroup, isRest]
      rfl

/-- A text of characters of the alphabet decodes, unless a single character is
left over. -/
theorem b64urlDecode_isSome {text : Bytes}
    (letters : ∀ byte ∈ text, byte ∈ base64urlAlphabet)
    (notSingle : text.length % 4 ≠ 1) : (b64urlDecode text).isSome := by
  have noBreaks : text.filter (fun byte => byte ≠ 0x0A ∧ byte ≠ 0x0D) = text := by
    rw [List.filter_eq_self]
    intro byte member
    have plain : ∀ byte ∈ base64urlAlphabet,
        decide (byte ≠ 0x0A ∧ byte ≠ 0x0D) = true := by decide +kernel
    exact plain byte (letters byte member)
  obtain ⟨groups, isGroups, sameLength⟩ := mapM_idxOf_isSome letters
  obtain ⟨bytes, decoded⟩ := ofSextets_isSome groups (by rwa [sameLength])
  simp only [b64urlDecode, noBreaks, isGroups]
  rw [show (some groups >>= ofSextets) = ofSextets groups from rfl, decoded]
  rfl

/-- A link secret: base64url of the right length. -/
structure IsSecret (secret : Bytes) : Prop where
  letters : ∀ byte ∈ secret, byte ∈ base64urlAlphabet
  length : secret.length = b64urlLength secretBytes

section Secret

variable {secret : Bytes}

theorem IsSecret.valid (isSecret : IsSecret secret) : validSecret secret := by
  unfold validSecret
  rw [if_neg (not_not.mpr isSecret.length)]
  exact b64urlDecode_isSome isSecret.letters (by rw [isSecret.length]; decide)

theorem IsSecret.extractKey (isSecret : IsSecret secret) (server : Server) :
    server.extractKey secret = secret :=
  extractKey_of_token fun byte member =>
    List.mem_append_right _ (isSecret.letters byte member)

end Secret

/-! ## A process at one time -/

/-- The clock shows `time`, and peers have nothing new. -/
def Server.PerformsAt (server : Server) (time : Time) (process : Process) :
    (action : Action) → Answer action → Process → Prop
  | .now, shown, later => shown = time ∧ later = process
  | action, answer, later => server.Performs process action answer later

def Server.machineAt (server : Server) (time : Time) :
    Machine Action Answer Event Process :=
  { server.machine with performs := server.PerformsAt time }

section Answers

variable {server : Server} {time : Time} {process final : Process}

/-- Without other requests a program runs to an answer and leaves the process
as it is. -/
def Server.Answers (server : Server) (time : Time) (process : Process)
    {α : Type} (program : Handler α) (answer : α) : Prop :=
  ∀ result final, Run (server.machineAt time).alone program process result
    final ↔ result = answer ∧ final = process

theorem answers_done {α : Type} {answer : α} :
    server.Answers time process (pure answer) answer :=
  fun _ _ => run_alone_done

theorem answers_bind {α β : Type} {program : Handler β}
    {continuation : β → Handler α} {middle : β} {answer : α}
    (first : server.Answers time process program middle)
    (rest : server.Answers time process (continuation middle) answer) :
    server.Answers time process (program >>= continuation) answer := by
  intro result final
  rw [run_alone_bind]
  constructor
  · rintro ⟨found, later, run, continues⟩
    obtain ⟨rfl, rfl⟩ := (first _ _).mp run
    exact (rest _ _).mp continues
  · intro same
    exact ⟨middle, process, (first _ _).mpr ⟨rfl, rfl⟩, (rest _ _).mpr same⟩

/-- Without other requests a program runs to an answer of a kind. -/
def Server.Yields (server : Server) (time : Time) (process : Process)
    {α : Type} (program : Handler α) (kind : α → Prop) : Prop :=
  ∃ answer, server.Answers time process program answer ∧ kind answer

theorem Server.Yields.done {α : Type} {answer : α} {kind : α → Prop}
    (holds : kind answer) : server.Yields time process (pure answer) kind :=
  ⟨answer, answers_done, holds⟩

theorem Server.Yields.bind {α β : Type} {program : Handler β}
    {continuation : β → Handler α} {middle : β} {kind : α → Prop}
    (first : server.Answers time process program middle)
    (rest : server.Yields time process (continuation middle) kind) :
    server.Yields time process (program >>= continuation) kind := by
  obtain ⟨answer, answers, holds⟩ := rest
  exact ⟨answer, answers_bind first answers, holds⟩

theorem answers_now : server.Answers time process Handler.now time := by
  intro result final
  constructor
  · intro run
    obtain ⟨shown, later, ⟨rfl, rfl⟩, rest⟩ := run_alone_call.mp run
    exact run_alone_done.mp rest
  · rintro ⟨rfl, rfl⟩
    exact run_alone_call.mpr ⟨_, _, ⟨rfl, rfl⟩, run_alone_done.mpr ⟨rfl, rfl⟩⟩

theorem answers_bySecret (free : process.locked = false) (hash : Hash) :
    server.Answers time process (Handler.bySecret hash)
      (process.store.bySecret hash) := by
  intro result final
  constructor
  · intro run
    obtain ⟨answer, later, performs, rest⟩ := run_alone_call.mp run
    change server.Performs process _ _ _ at performs
    cases performs
    exact run_alone_done.mp rest
  · rintro ⟨rfl, rfl⟩
    exact run_alone_call.mpr
      ⟨_, _, Server.Performs.bySecret free, run_alone_done.mpr ⟨rfl, rfl⟩⟩

theorem answers_get (free : process.locked = false) (room : RoomName) :
    server.Answers time process (Handler.get room)
      process.store.rooms[room]? := by
  intro result final
  constructor
  · intro run
    obtain ⟨answer, later, performs, rest⟩ := run_alone_call.mp run
    change server.Performs process _ _ _ at performs
    cases performs
    exact run_alone_done.mp rest
  · rintro ⟨rfl, rfl⟩
    exact run_alone_call.mpr
      ⟨_, _, Server.Performs.get free, run_alone_done.mpr ⟨rfl, rfl⟩⟩

theorem answers_pullSoon :
    server.Answers time process Handler.pullSoon () := by
  intro result final
  constructor
  · intro run
    obtain ⟨answer, later, performs, rest⟩ := run_alone_call.mp run
    change server.Performs process _ _ _ at performs
    cases performs
    exact run_alone_done.mp rest
  · rintro ⟨rfl, rfl⟩
    exact run_alone_call.mpr
      ⟨_, _, Server.Performs.pullSoon, run_alone_done.mpr ⟨rfl, rfl⟩⟩

/-- Asking the peers changes nothing. -/
theorem answers_bySecretOrPull (free : process.locked = false) (hash : Hash) :
    server.Answers time process (Server.bySecretOrPull hash)
      (process.store.bySecret hash) := by
  refine answers_bind (answers_bySecret free hash) ?_
  cases found : process.store.bySecret hash with
  | some first => exact answers_done
  | none =>
      refine answers_bind answers_pullSoon ?_
      have again : server.Answers time process (Handler.bySecret hash)
          (process.store.bySecret hash) := answers_bySecret free hash
      rwa [found] at again

end Answers

/-! ## One link, two answers -/

section Paths

variable {server : Server} {time : Time} {process : Process}
variable {secret role : Bytes} {record : Record} {entry : SecretEntry}

end Paths

namespace Sample

end Sample

end FfmucSalt.MeetReserve
