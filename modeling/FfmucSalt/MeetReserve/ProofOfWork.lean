import FfmucSalt.MeetReserve.Process

/-!
# Proof of work is spent once

An accepted challenge is remembered until a minute after the end of its life.
A call that reads the clock at most a minute before it takes the lock then
finds the challenge too old, so nobody is let in twice for one solution.
-/

namespace FfmucSalt.MeetReserve

open Program

/-! ## What an accepted challenge looks like -/

/-- The part of a challenge that carries the MAC. -/
def macMessage (challenge : Bytes) : Option Bytes :=
  match challenge.splitOn 0x2E with
  | [stamp, random, _] => some (stamp ++ ascii "." ++ random)
  | _ => none

/-- The second in which a challenge was made. -/
def challengeTime (challenge : Bytes) : Option Int :=
  match challenge.splitOn 0x2E with
  | [stamp, _, _] => parseInt stamp
  | _ => none

/-- The challenge carries the MAC of its message. -/
def Server.Macs (server : Server) (challenge : Bytes) : Prop :=
  ∃ stamp random, challenge.splitOn 0x2E =
    [stamp, random, server.mac (stamp ++ ascii "." ++ random)]

section Checks

variable {server : Server} {process later : Process}
variable {challenge nonce : Bytes} {now : Time}

/-- An accepted challenge was not used before, and is remembered. -/
structure Server.Accepts (server : Server) (process : Process)
    (challenge : Bytes) (now : Time) (ts : Int) (later : Process) : Prop where
  macs : server.Macs challenge
  time : challengeTime challenge = some ts
  young : now - Time.ofUnix ts ≤ challengeTTL
  fresh : process.used[challenge]? = none
  used : later.used = process.used.insert challenge
    (Time.ofUnix ts + (challengeTTL + minute))

private theorem Server.Performs.of_spend {forget : Time} {fresh : Bool}
    (performs : server.Performs process (.spend challenge forget) fresh later) :
    fresh = true ∧ process.used[challenge]? = none ∧
        later.used = process.used.insert challenge forget ∨
      fresh = false ∧ later.used = process.used := by
  cases performs with
  | spend fresh =>
      refine .inl ⟨rfl, ?_, rfl⟩
      by_contra known
      obtain ⟨time, found⟩ := Option.ne_none_iff_exists'.mp known
      exact fresh (FiniteMap.mem_iff_lookup.mpr ⟨time, found⟩)
  | replay known => exact .inr ⟨rfl, rfl⟩

theorem accepts_of_checkPoW {result : Option Bytes}
    (run : Run server.machine.alone (server.checkPoW challenge nonce now)
      process result later) :
    (result = none ∧ ∃ ts, server.Accepts process challenge now ts later) ∨
      result ≠ none ∧ later.used = process.used := by
  have rejected : ∀ {why : Bytes}, Run server.machine.alone
      (pure (some why) : Handler (Option Bytes)) process result later →
        result ≠ none ∧ later.used = process.used := by
    intro why run
    obtain ⟨isResult, same⟩ := run_alone_done.mp run
    subst isResult same
    exact ⟨by simp, rfl⟩
  unfold Server.checkPoW at run
  split at run
  · rename_i stamp random mac parts
    split at run
    · exact .inr (rejected run)
    split at run
    · exact .inr (rejected run)
    rename_i isMac
    split at run
    · exact .inr (rejected run)
    rename_i ts isTime
    dsimp only at run
    split at run
    · exact .inr (rejected run)
    rename_i isYoung
    split at run
    · exact .inr (rejected run)
    obtain ⟨fresh, middle, spends, rest⟩ := run_alone_call.mp run
    obtain ⟨isResult, same⟩ := run_alone_done.mp rest
    subst isResult same
    rcases spends.of_spend with ⟨isFresh, unused, used⟩ | ⟨known, used⟩
    · subst isFresh
      refine .inl ⟨rfl, ts, ?_, ?_, ?_, unused, used⟩
      · exact ⟨stamp, random, by rw [parts, not_not.mp isMac]⟩
      · rw [challengeTime, parts]
        exact isTime
      · exact not_lt.mp (not_or.mp isYoung).2
    · subst known
      exact .inr ⟨by simp, used⟩
  · exact .inr (rejected run)

/-- The nonce solves a challenge of the signer, made at `ts`, in time. -/
structure Server.Solves (server : Server) (challenge nonce : Bytes) (now : Time)
    (ts : Int) : Prop where
  parts : ∃ stamp random, challenge.splitOn 0x2E =
    [stamp, random, server.mac (stamp ++ ascii "." ++ random)] ∧
      parseInt stamp = some ts
  short : ¬ (nonce.length = 0 ∨ 32 < nonce.length)
  young : ¬ (now - Time.ofUnix ts < -minute ∨
    challengeTTL < now - Time.ofUnix ts)
  solved : ¬ leadingZeroBits (server.lib.sha256
    (challenge ++ ascii ":" ++ nonce)) < server.cfg.difficulty

section Solves

variable {ts : Int}

/-- A solved challenge is spent. -/
theorem Server.Solves.checkPoW_eq
    (solves : server.Solves challenge nonce now ts) :
    server.checkPoW challenge nonce now = do
      let fresh ← Handler.spend challenge
        (Time.ofUnix ts + (challengeTTL + minute))
      return if fresh then none else some (ascii "replay") := by
  obtain ⟨⟨stamp, random, parts, isTime⟩, short, young, solved⟩ := solves
  unfold Server.checkPoW
  rw [parts]
  dsimp only
  rw [if_neg short, if_neg (not_not.mpr rfl), isTime]
  dsimp only
  rw [if_neg young, if_neg solved]

/-- The first time it is accepted. -/
theorem Server.Solves.run (solves : server.Solves challenge nonce now ts)
    (fresh : challenge ∉ process.used) :
    Run server.machine.alone (server.checkPoW challenge nonce now) process none
      { process with
        used := process.used.insert challenge
          (Time.ofUnix ts + (challengeTTL + minute)) } := by
  rw [solves.checkPoW_eq]
  exact run_alone_call.mpr ⟨true, _, .spend fresh, run_alone_done.mpr ⟨rfl, rfl⟩⟩

/-- After that it is refused. -/
theorem Server.Solves.run_again (solves : server.Solves challenge nonce now ts)
    (known : challenge ∈ process.used) :
    Run server.machine.alone (server.checkPoW challenge nonce now) process
      (some (ascii "replay")) process := by
  rw [solves.checkPoW_eq]
  exact run_alone_call.mpr
    ⟨false, _, .replay known, run_alone_done.mpr ⟨rfl, rfl⟩⟩

end Solves

/-- The message decides a challenge with its MAC. -/
theorem Server.Macs.eq_of_message {other : Bytes} (macs : server.Macs challenge)
    (otherMacs : server.Macs other)
    (same : macMessage challenge = macMessage other) : challenge = other := by
  obtain ⟨stamp, random, parts⟩ := macs
  obtain ⟨otherStamp, otherRandom, otherParts⟩ := otherMacs
  unfold macMessage at same
  rw [parts, otherParts] at same
  have message : stamp ++ ascii "." ++ random =
      otherStamp ++ ascii "." ++ otherRandom := Option.some.inj same
  have joined : ∀ {challenge stamp random mac : Bytes},
      challenge.splitOn 0x2E = [stamp, random, mac] →
        challenge = stamp ++ ascii "." ++ random ++ ascii "." ++ mac := by
    intro challenge stamp random mac parts
    have whole : List.intercalate [0x2E] (challenge.splitOn 0x2E) = challenge :=
      List.intercalate_splitOn 0x2E
    rw [parts] at whole
    rw [← whole, show ascii "." = [0x2E] from rfl]
    simp [List.intercalate, List.intersperse]
  rw [joined parts, joined otherParts, message]

end Checks

/-! ## Calls over time -/

/-- A signer process, the time, and the challenges it accepted so far. -/
structure Turnstile where
  process : Process
  clock : Time
  accepted : List Bytes

namespace Turnstile

/-- Time goes on, a call checks a challenge, or `gc` forgets old ones.  A call
read its clock at most a minute before it takes the lock. -/
inductive Step (server : Server) (turnstile : Turnstile) : Turnstile → Prop where
  | waits {clock : Time} (forward : turnstile.clock ≤ clock) :
      Step server turnstile { turnstile with clock }
  | checks {challenge nonce : Bytes} {now : Time} {result : Option Bytes}
      {process : Process} (past : now ≤ turnstile.clock)
      (recent : turnstile.clock ≤ now + minute)
      (checked : Run server.machine.alone (server.checkPoW challenge nonce now)
        turnstile.process result process) :
      Step server turnstile
        { turnstile with
          process
          accepted := turnstile.accepted ++
            if result = none then [challenge] else [] }
  | forgets {now : Time} {process : Process} (past : now ≤ turnstile.clock)
      (happens : server.Happens turnstile.process (.forget now) process) :
      Step server turnstile { turnstile with process }

def Run (server : Server) : Turnstile → Turnstile → Prop :=
  Relation.ReflTransGen (Step server)

/-- What is accepted has a MAC, and is remembered until it is too old. -/
structure Remembers (server : Server) (turnstile : Turnstile) : Prop where
  macs : ∀ challenge ∈ turnstile.accepted, server.Macs challenge
  known : ∀ challenge ∈ turnstile.accepted, ∃ ts,
    challengeTime challenge = some ts ∧
      (turnstile.process.used[challenge]? =
          some (Time.ofUnix ts + (challengeTTL + minute)) ∨
        Time.ofUnix ts + (challengeTTL + minute) < turnstile.clock)
  once : turnstile.accepted.Nodup

variable {server : Server} {turnstile later : Turnstile}

/-- What `gc` leaves of the used challenges. -/
private theorem lookup_forget {process after : Process} {now : Time}
    (happens : server.Happens process (.forget now) after) (challenge : Bytes) :
    after.used[challenge]? =
      process.used[challenge]?.bind fun exp =>
        if exp < now then none else some exp := by
  cases happens with
  | forget =>
      dsimp only
      rw [FiniteMap.lookup_foldl
        (fun _ old exp => if exp < now then none else old)]
      · cases process.used[challenge]? with
        | none => rfl
        | some exp => rfl
      · intro map key exp other
        split
        · rw [FiniteMap.lookup_erase]
        · split
          · rename_i same
            rw [same]
          · rfl

/-- A challenge that is not too old by a clock of the last minute is not
forgotten yet. -/
private theorem not_forgotten {born life now clock : Int}
    (young : now - born ≤ life) (recent : clock ≤ now + minute) :
    ¬ born + (life + minute) < clock := by
  omega

theorem Remembers.step (remembers : turnstile.Remembers server)
    (step : Step server turnstile later) : later.Remembers server := by
  cases step with
  | waits forward =>
      refine ⟨remembers.macs, ?_, remembers.once⟩
      intro challenge member
      obtain ⟨ts, isTime, known | old⟩ := remembers.known challenge member
      · exact ⟨ts, isTime, .inl known⟩
      · exact ⟨ts, isTime, .inr (old.trans_le forward)⟩
  | @checks challenge nonce now result process past recent checked =>
      rcases accepts_of_checkPoW checked with
        ⟨isNone, ts, accepts⟩ | ⟨rejected, used⟩
      · subst isNone
        -- an accepted challenge that `gc` forgot is too old by now
        have fresh : challenge ∉ turnstile.accepted := by
          intro member
          obtain ⟨known, isTime, remembered | old⟩ :=
            remembers.known challenge member
          · rw [accepts.fresh] at remembered
            cases remembered
          · rw [accepts.time] at isTime
            cases isTime
            exact not_forgotten accepts.young recent old
        rw [if_pos rfl]
        refine ⟨?_, ?_, ?_⟩
        · intro other member
          rcases List.mem_append.mp member with old | new
          · exact remembers.macs other old
          · cases List.mem_singleton.mp new
            exact accepts.macs
        · intro other member
          dsimp only
          rw [accepts.used, FiniteMap.lookup_insert]
          rcases List.mem_append.mp member with old | new
          · rw [if_neg (ne_of_mem_of_not_mem old fresh).symm]
            exact remembers.known other old
          · cases List.mem_singleton.mp new
            exact ⟨ts, accepts.time, .inl (if_pos rfl)⟩
        · exact remembers.once.append (List.nodup_singleton _)
            (List.disjoint_singleton.mpr fresh)
      · rw [if_neg rejected, List.append_nil]
        refine ⟨remembers.macs, ?_, remembers.once⟩
        dsimp only
        rw [used]
        exact remembers.known
  | @forgets now process past happens =>
      refine ⟨remembers.macs, ?_, remembers.once⟩
      intro challenge member
      obtain ⟨ts, isTime, known | old⟩ := remembers.known challenge member
      · refine ⟨ts, isTime, ?_⟩
        dsimp only
        rw [lookup_forget happens, known, Option.bind_some]
        split
        · rename_i expired
          exact .inr (expired.trans_le past)
        · exact .inl rfl
      · exact ⟨ts, isTime, .inr old⟩

/-- Every challenge is accepted at most once, and accepted challenges carry
different messages under their MACs. -/
theorem challenge_accepted_once {start : Turnstile} (fresh : start.accepted = [])
    (run : Run server start later) :
    later.accepted.Nodup ∧
      ∀ first ∈ later.accepted, ∀ second ∈ later.accepted, first ≠ second →
        macMessage first ≠ macMessage second := by
  have remembers : later.Remembers server := by
    induction run with
    | refl => exact ⟨by simp [fresh], by simp [fresh], by simp [fresh]⟩
    | tail _ last induction => exact induction.step last
  refine ⟨remembers.once, ?_⟩
  intro first firstMember second secondMember different same
  exact different ((remembers.macs first firstMember).eq_of_message
    (remembers.macs second secondMember) same)

end Turnstile

namespace Sample

/-- HMAC-SHA-256 of the messages of two challenges. -/
def challengeMacs : List (Bytes × Bytes) :=
  [(challengeMessage, challengeMac),
    (ascii "1700.222222222222222222222222",
      bytes 32 0x330cde34658c7cda5ba2e5c110c5e6438563ab2d0d58d93ee52f4e50e45afd1c)]

/-- SHA-256 of the challenges with their solutions. -/
def solutionDigests : List (Bytes × Bytes) :=
  [(challenge ++ ascii ":0", solutionDigest),
    (ascii "1700.222222222222222222222222.330cde34658c7cda5ba2e5c110c5e643:1",
      bytes 32 0x1942e700b6bda3338fdeae897352651ef2886a3597c95d863526ac84c9b37755)]

/-- A signer that asks for one bit of work. -/
def checker : Server :=
  { cfg := { config with difficulty := 1 }
    lib :=
      { hashes with
        hmacSha256 := fun _ message => (challengeMacs.lookup message).getD []
        sha256 := fun message => (solutionDigests.lookup message).getD [] } }

def laterTime : Time := Time.ofUnix 1700

def laterChallenge : Bytes :=
  checker.newChallenge laterTime (List.replicate 12 0x22)

/-- The signer at the time when it made the first challenge. -/
def turnstile : Turnstile :=
  { process := { store := newStore none, used := ∅, locked := false }
    clock := issued
    accepted := [] }

/-- The first solution was accepted. -/
def passed : Turnstile :=
  { process :=
      { turnstile.process with
        used := turnstile.process.used.insert challenge
          (issued + (challengeTTL + minute)) }
    clock := issued
    accepted := [challenge] }

/-- Eleven minutes later a tick of `gc` forgets the first challenge. -/
def ticked : Turnstile :=
  { process :=
      { passed.process with
        used := passed.process.used.foldl (fun used challenge exp =>
          if exp < laterTime then used.erase challenge else used)
          passed.process.used }
    clock := laterTime
    accepted := [challenge] }

/-- The second solution was accepted as well. -/
def passedTwice : Turnstile :=
  { process :=
      { ticked.process with
        used := ticked.process.used.insert laterChallenge
          (laterTime + (challengeTTL + minute)) }
    clock := laterTime
    accepted := [challenge, laterChallenge] }

private theorem first_solves {now : Time}
    (young : ¬ (now - issued < -minute ∨ challengeTTL < now - issued)) :
    checker.Solves challenge (ascii "0") now 1000 := by
  refine ⟨⟨ascii "1000", ascii "202020202020202020202020", ?_, ?_⟩, ?_, young, ?_⟩
  · decide
  · decide
  · decide
  · decide

private theorem second_solves :
    checker.Solves laterChallenge (ascii "1") laterTime 1700 := by
  refine ⟨⟨ascii "1700", ascii "222222222222222222222222", ?_, ?_⟩, ?_, ?_, ?_⟩
  · decide
  · decide
  · decide
  · decide
  · decide

private theorem run_to_passed : Turnstile.Run checker turnstile passed :=
  .single (.checks (le_refl issued) (by decide)
    ((first_solves (by decide)).run (by decide)))

/-- A minute later the first solution is sent again. -/
private theorem run_to_replay :
    Turnstile.Run checker passed { passed with clock := issued + minute } := by
  have again : Turnstile.Step checker { passed with clock := issued + minute }
      { passed with clock := issued + minute } :=
    .checks (le_refl (issued + minute)) (by decide)
      ((first_solves (by decide)).run_again (by decide))
  exact .tail (.single (.waits (by decide))) again

private theorem run_to_passedTwice :
    Turnstile.Run checker { passed with clock := issued + minute }
      passedTwice := by
  have waits : Turnstile.Step checker { passed with clock := issued + minute }
      { passed with clock := laterTime } :=
    .waits (by decide)
  have forgets : Turnstile.Step checker { passed with clock := laterTime }
      ticked :=
    .forgets (le_refl laterTime) .forget
  have passes : Turnstile.Step checker ticked passedTwice :=
    .checks (le_refl laterTime) (by decide) (second_solves.run (by decide))
  exact .tail (.tail (.single waits) forgets) passes

/-- Two solutions are accepted, the first of them once, although it was sent
again and forgotten afterwards. -/
theorem challenge_accepted_once_of_replay :
    passedTwice.accepted.Nodup ∧
      macMessage challenge ≠ macMessage laterChallenge := by
  obtain ⟨once, messages⟩ := Turnstile.challenge_accepted_once (by rfl)
    ((run_to_passed.trans run_to_replay).trans run_to_passedTwice)
  exact ⟨once, messages challenge (by decide) laterChallenge (by decide)
    (by decide)⟩

end Sample

end FfmucSalt.MeetReserve
