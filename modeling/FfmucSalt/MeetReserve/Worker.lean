import Mathlib.Data.Nat.Size
import FfmucSalt.MeetReserve.Handlers

/-!
# The proof of work in the browser

`index.html` looks for a nonce in several web workers at once.  A worker tests
a digest byte by byte and then with a mask, while the server counts zero bits.
Both tests agree, and the workers share the natural numbers out among them.
-/

namespace FfmucSalt.MeetReserve

namespace Worker

/-- What the page posts to a worker. -/
structure Task where
  challenge : Bytes
  difficulty : Nat
  start : Nat
  step : Nat

/-- The worker's test of a digest.  JavaScript reads `undefined` behind the end
of an array, which is not zero but has no bit set. -/
def ok (difficulty : Nat) (h : Bytes) : Bool :=
  let full := difficulty >>> 3
  let rest := difficulty &&& 7
  let mask := (0xFF <<< (8 - rest)) &&& 0xFF
  (List.range full).all (fun i => h[i]? == some 0) &&
    (rest == 0 || (h.getD full 0).toNat &&& mask == 0)

/-- Digests that are awaited together. -/
def batch : Nat := 512

/-- The nonces of one round of the worker's loop. -/
def nonces (step n : Nat) : List Nat :=
  (List.range batch).map fun i => n + i * step

/-- The nonces of so many rounds of the loop, for a worker that is at `n`. -/
def tried (step : Nat) : (rounds : Nat) → (n : Nat) → List Nat
  | 0, _ => []
  | rounds + 1, n => nonces step n ++ tried step rounds (n + step * batch)

section Search

-- `crypto.subtle.digest("SHA-256", …)`
variable (digest : Bytes → Bytes)

/-- The digest for a nonce. -/
def Task.hash (task : Task) (nonce : Nat) : Bytes :=
  digest (task.challenge ++ ascii ":" ++ formatUint 10 nonce)

/-- The worker's loop: it ends with the nonce that is posted, if so many rounds
find one. -/
def Task.searchFrom (task : Task) : (rounds : Nat) → (n : Nat) → Option Nat
  | 0, _ => none
  | rounds + 1, n =>
      ((nonces task.step n).find? fun nonce =>
        ok task.difficulty (task.hash digest nonce)).or
          (task.searchFrom rounds (n + task.step * batch))

def Task.search (task : Task) (rounds : Nat) : Option Nat :=
  task.searchFrom digest rounds task.start

end Search

/-! ## The test of a digest -/

/-- Below eight bits only the first byte is looked at. -/
private theorem ok_of_lt {difficulty : Nat} (short : difficulty < 8)
    (byte : UInt8) (rest : Bytes) :
    ok difficulty (byte :: rest) ↔
      difficulty ≤ leadingZeroBits (byte :: rest) := by
  have masked : ∀ difficulty < 8, ∀ value < 256,
      (difficulty = 0 ∨
          value &&& ((0xFF <<< (8 - difficulty)) &&& 0xFF) = 0) ↔
        difficulty ≤ if value = 0 then 8 else 8 - value.size := by
    decide +kernel
  have isZero : byte = 0 ↔ byte.toNat = 0 := by
    rw [← UInt8.toNat_inj]
    rfl
  have noByte : difficulty >>> 3 = 0 := by
    rw [Nat.shiftRight_eq_div_pow]
    omega
  have allBits : difficulty &&& 7 = difficulty := by
    rw [show (7 : Nat) = 2 ^ 3 - 1 from rfl, Nat.and_two_pow_sub_one_eq_mod]
    omega
  have test : ok difficulty (byte :: rest) ↔ difficulty = 0 ∨
      byte.toNat &&& ((0xFF <<< (8 - difficulty)) &&& 0xFF) = 0 := by
    simp [ok, noByte, allBits]
  rw [test, masked difficulty short byte.toNat byte.toNat_lt, leadingZeroBits,
    leadingZeros8]
  by_cases zero : byte = 0
  · rw [if_pos zero, if_pos (isZero.mp zero)]
    omega
  · rw [if_neg zero, if_neg (isZero.not.mp zero)]

/-- A whole byte of difficulty asks for one more byte of zeros. -/
private theorem ok_add_eight (difficulty : Nat) (byte : UInt8) (rest : Bytes) :
    ok (difficulty + 8) (byte :: rest) ↔ byte = 0 ∧ ok difficulty rest := by
  have oneMore : (difficulty + 8) >>> 3 = difficulty >>> 3 + 1 := by
    rw [Nat.shiftRight_eq_div_pow, Nat.shiftRight_eq_div_pow]
    omega
  have sameBits : (difficulty + 8) &&& 7 = difficulty &&& 7 := by
    rw [show (7 : Nat) = 2 ^ 3 - 1 from rfl, Nat.and_two_pow_sub_one_eq_mod,
      Nat.and_two_pow_sub_one_eq_mod]
    omega
  simp only [ok, oneMore, sameBits, List.range_succ_eq_map, List.all_cons,
    List.all_map, Function.comp_def, List.getElem?_cons_zero,
    List.getElem?_cons_succ, List.getD_cons_succ, Bool.and_assoc,
    Bool.and_eq_true, beq_iff_eq, Option.some.injEq]

private theorem add_eight_le_leadingZeroBits {difficulty : Nat} {byte : UInt8}
    {rest : Bytes} :
    difficulty + 8 ≤ leadingZeroBits (byte :: rest) ↔
      byte = 0 ∧ difficulty ≤ leadingZeroBits rest := by
  by_cases zero : byte = 0
  · rw [leadingZeroBits, if_pos zero, and_iff_right zero]
    omega
  · have nonzero : byte.toNat ≠ 0 := fun same => zero (UInt8.toNat_inj.mp same)
    have bits : 0 < byte.toNat.size :=
      Nat.size_pos.mpr (Nat.pos_of_ne_zero nonzero)
    rw [leadingZeroBits, if_neg zero, leadingZeros8]
    exact ⟨fun many => by omega, fun ⟨isZero, _⟩ => absurd isZero zero⟩

/-- The worker and the server test alike. -/
theorem ok_iff {difficulty : Nat} {h : Bytes}
    (enough : difficulty ≤ 8 * h.length) :
    ok difficulty h ↔ difficulty ≤ leadingZeroBits h := by
  induction h generalizing difficulty with
  | nil =>
      have : difficulty = 0 := by simpa using enough
      subst this
      simp [ok]
  | cons byte rest induction =>
      rw [List.length_cons] at enough
      by_cases short : difficulty < 8
      · exact ok_of_lt short byte rest
      · obtain ⟨fewer, rfl⟩ : ∃ fewer, difficulty = fewer + 8 :=
          ⟨difficulty - 8, by omega⟩
        rw [ok_add_eight, add_eight_le_leadingZeroBits,
          induction (by omega)]

/-! ## The numbers of one worker -/

section Numbers

variable {step n : Nat}

/-- What a worker has tried are the first numbers of its stride. -/
theorem tried_eq (rounds : Nat) :
    tried step rounds n =
      (List.range (batch * rounds)).map fun turn => n + turn * step := by
  induction rounds generalizing n with
  | zero => rfl
  | succ rounds induction =>
      have later : ∀ turn, n + step * batch + turn * step =
          n + (batch + turn) * step := by
        intro turn
        rw [Nat.add_mul, Nat.mul_comm step batch, Nat.add_assoc]
      rw [tried, induction, nonces, Nat.mul_succ, Nat.add_comm (batch * rounds),
        List.range_add, List.map_append, List.map_map]
      exact congrArg _ (List.map_congr_left fun turn _ => later turn)

theorem mem_tried {rounds nonce : Nat} :
    nonce ∈ tried step rounds n ↔
      ∃ turn < batch * rounds, n + turn * step = nonce := by
  rw [tried_eq]
  simp

/-- No number is tried twice. -/
theorem nodup_tried (positive : 0 < step) (rounds : Nat) :
    (tried step rounds n).Nodup := by
  rw [tried_eq]
  refine List.nodup_range.map fun first second same => ?_
  exact Nat.eq_of_mul_eq_mul_right positive (Nat.add_left_cancel same)

end Numbers

/-! ## All workers together -/

section Partition

variable {workers nonce : Nat}

/-- The remainder names the worker that tries a number. -/
theorem mem_tried_iff {worker rounds : Nat} (isWorker : worker < workers) :
    nonce ∈ tried workers rounds worker ↔
      worker = nonce % workers ∧ nonce / workers / batch < rounds := by
  have small : nonce / workers / batch < rounds ↔
      nonce / workers < batch * rounds := by
    rw [Nat.div_lt_iff_lt_mul (by decide), Nat.mul_comm]
  rw [mem_tried, small]
  constructor
  · rintro ⟨turn, inside, rfl⟩
    have isTurn : (worker + turn * workers) / workers = turn := by
      rw [Nat.add_mul_div_right _ _ (by omega), Nat.div_eq_of_lt isWorker,
        Nat.zero_add]
    rw [Nat.add_mul_mod_self_right, Nat.mod_eq_of_lt isWorker, isTurn]
    exact ⟨rfl, inside⟩
  · rintro ⟨rfl, inside⟩
    exact ⟨nonce / workers, inside, Nat.mod_add_div' nonce workers⟩

/-- The worker of a number tries it once, in the round it belongs to. -/
theorem count_tried {rounds : Nat} (positive : 0 < workers) :
    (tried workers rounds (nonce % workers)).count nonce =
      if nonce / workers / batch < rounds then 1 else 0 := by
  have belongs := @mem_tried_iff workers nonce _ rounds
    (Nat.mod_lt nonce positive)
  rw [and_iff_right rfl] at belongs
  rw [(nodup_tried positive rounds).count]
  exact if_congr belongs rfl rfl

end Partition

/-! ## What the search finds -/

section Search

variable {digest : Bytes → Bytes} {task : Task}

theorem searchFrom_eq (rounds n : Nat) :
    task.searchFrom digest rounds n = (tried task.step rounds n).find?
      fun nonce => ok task.difficulty (task.hash digest nonce) := by
  induction rounds generalizing n with
  | zero => rfl
  | succ rounds induction =>
      rw [Task.searchFrom, induction, tried, List.find?_append]

/-- A posted nonce passes the test. -/
theorem ok_of_search {rounds nonce : Nat}
    (found : task.search digest rounds = some nonce) :
    ok task.difficulty (task.hash digest nonce) := by
  rw [Task.search, searchFrom_eq] at found
  exact @List.find?_some _
    (fun nonce => ok task.difficulty (task.hash digest nonce)) _ _ found

/-- A worker that comes to a solution posts one. -/
theorem search_isSome {rounds nonce : Nat}
    (comes : nonce ∈ tried task.step rounds task.start)
    (passes : ok task.difficulty (task.hash digest nonce)) :
    ∃ found, task.search digest rounds = some found := by
  rw [Task.search, searchFrom_eq, ← Option.isSome_iff_exists,
    List.find?_isSome]
  exact ⟨nonce, comes, passes⟩

end Search

/-- The worker's test is the server's.  Every number is the nonce of exactly
one worker, which tries it in one round and there once, so a solution is found
if there is one, and what is posted is a solution. -/
theorem browser_and_server_agree {digest : Bytes → Bytes}
    (size : ∀ message, (digest message).length = 32) {challenge : Bytes}
    {difficulty workers : Nat} (admitted : difficulty ≤ 32)
    (positive : 0 < workers) :
    (∀ h : Bytes, h.length = 32 →
      (ok difficulty h ↔ difficulty ≤ leadingZeroBits h)) ∧
    (∀ nonce, ∃ owner < workers,
      (∃ turn, ∀ rounds, (tried workers rounds owner).count nonce =
        if turn < rounds then 1 else 0) ∧
      ∀ other < workers, other ≠ owner →
        ∀ rounds, nonce ∉ tried workers rounds other) ∧
    (∀ nonce,
      difficulty ≤ leadingZeroBits
        (digest (challenge ++ ascii ":" ++ formatUint 10 nonce)) →
      ∃ start < workers, ∃ rounds found,
        Task.search digest { challenge, difficulty, start, step := workers }
          rounds = some found) ∧
    ∀ start rounds found,
      Task.search digest { challenge, difficulty, start, step := workers }
        rounds = some found →
      difficulty ≤ leadingZeroBits
        (digest (challenge ++ ascii ":" ++ formatUint 10 found)) := by
  have agree : ∀ h : Bytes, h.length = 32 →
      (ok difficulty h ↔ difficulty ≤ leadingZeroBits h) :=
    fun h isDigest => ok_iff (by omega)
  have isOwner : ∀ nonce, nonce % workers < workers :=
    fun nonce => Nat.mod_lt nonce positive
  refine ⟨agree, fun nonce => ⟨nonce % workers, isOwner nonce, ?_, ?_⟩,
    fun nonce solves => ?_, fun start rounds found posted => ?_⟩
  · exact ⟨nonce / workers / batch, fun rounds => count_tried positive⟩
  · intro other isWorker different rounds tries
    exact different ((mem_tried_iff isWorker).mp tries).1
  · refine ⟨nonce % workers, isOwner nonce, nonce / workers / batch + 1, ?_⟩
    have comes : nonce ∈ tried workers (nonce / workers / batch + 1)
        (nonce % workers) :=
      (mem_tried_iff (isOwner nonce)).mpr ⟨rfl, Nat.lt_succ_self _⟩
    exact search_isSome comes ((agree _ (size _)).mpr solves)
  · exact (agree _ (size _)).mp (ok_of_search posted)

/-- Two workers, and a digest whose first two bytes are zero for every nonce. -/
theorem Sample.browser_and_server_agree_twoWorkers :
    ok 16 (0 :: 0 :: List.replicate 30 0xFF) ∧
    ∃ start < 2, ∃ rounds found, Task.search
      (fun _ => 0 :: 0 :: List.replicate 30 0xFF)
      { challenge := ascii "1.2.3", difficulty := 16, start, step := 2 } rounds =
        some found := by
  have agree := @browser_and_server_agree
    (fun _ => 0 :: 0 :: List.replicate 30 0xFF) (fun _ => rfl)
    (ascii "1.2.3") 16 2 (by decide) (by decide)
  exact ⟨(agree.1 _ rfl).mpr (by decide), agree.2.2.1 0 (by decide)⟩

end Worker

end FfmucSalt.MeetReserve
