import Mathlib.Data.List.Infix
import Mathlib.Data.List.TakeWhile

/-!
# Patterns with backtracking

Regular expressions that are a row of literal texts and of runs over a class of
symbols, matched as a backtracking engine matches them.
-/

namespace FfmucSalt

inductive Piece (α : Type) where
  | literal (text : List α)
  /-- A run of at least `least` symbols, as long as possible -/
  | many (accepts : α → Bool) (least : Nat)
  /-- The same as a group, whose text the match returns -/
  | group (accepts : α → Bool) (least : Nat)
  /-- A run that is as short as possible -/
  | few (accepts : α → Bool) (least : Nat)

/-- The texts of the groups, and what stands behind the match. -/
structure Found (α : Type) where
  groups : List (List α)
  rest : List α
  deriving DecidableEq

def Found.capture {α : Type} (text : List α) (found : Found α) : Found α :=
  { groups := text :: found.groups, rest := found.rest }

namespace Pattern

variable {α : Type}

/-- How long a run at the start of a text may be, the short ones first. -/
def lengths (accepts : α → Bool) (least : Nat) (text : List α) : List Nat :=
  List.range' least ((text.takeWhile accepts).length + 1 - least)

variable [DecidableEq α]

/-- The match at the start of a text -/
def matchAt : List (Piece α) → List α → Option (Found α)
  | [], text => some { groups := [], rest := text }
  | .literal expected :: pieces, text =>
      if expected <+: text then matchAt pieces (text.drop expected.length)
      else none
  | .many accepts least :: pieces, text =>
      (lengths accepts least text).reverse.findSome? fun length =>
        matchAt pieces (text.drop length)
  | .group accepts least :: pieces, text =>
      (lengths accepts least text).reverse.findSome? fun length =>
        (matchAt pieces (text.drop length)).map
          (Found.capture (text.take length))
  | .few accepts least :: pieces, text =>
      (lengths accepts least text).findSome? fun length =>
        matchAt pieces (text.drop length)

/-- The first match in a text -/
def search (pieces : List (Piece α)) : List α → Option (Found α)
  | [] => matchAt pieces []
  | first :: rest => (matchAt pieces (first :: rest)).or (search pieces rest)

/-- The matches one behind the other; none of them may be empty. -/
def findAllFrom (pieces : List (Piece α)) :
    (skip : Nat) → List α → List (Found α)
  | _, [] => []
  | skip + 1, _ :: rest => findAllFrom pieces skip rest
  | 0, first :: rest =>
      match matchAt pieces (first :: rest) with
      | none => findAllFrom pieces 0 rest
      | some found =>
          found :: findAllFrom pieces (rest.length - found.rest.length) rest

def findAll (pieces : List (Piece α)) (text : List α) : List (Found α) :=
  findAllFrom pieces 0 text

/-- What is left without the matches; none of them may be empty. -/
def removeFrom (pieces : List (Piece α)) : (skip : Nat) → List α → List α
  | _, [] => []
  | skip + 1, _ :: rest => removeFrom pieces skip rest
  | 0, first :: rest =>
      match matchAt pieces (first :: rest) with
      | none => first :: removeFrom pieces 0 rest
      | some found =>
          removeFrom pieces (rest.length - found.rest.length) rest

def remove (pieces : List (Piece α)) (text : List α) : List α :=
  removeFrom pieces 0 text

/-! ## What a pattern reads -/

/-- How a pattern can read the start of a text, whatever is tried first. -/
def Reads : List (Piece α) → List α → Found α → Prop
  | [], text, found => found = { groups := [], rest := text }
  | .literal expected :: pieces, text, found =>
      ∃ rest, text = expected ++ rest ∧ Reads pieces rest found
  | .many accepts least :: pieces, text, found =>
      ∃ run rest, text = run ++ rest ∧ least ≤ run.length ∧
        (∀ symbol ∈ run, accepts symbol) ∧ Reads pieces rest found
  | .few accepts least :: pieces, text, found =>
      ∃ run rest, text = run ++ rest ∧ least ≤ run.length ∧
        (∀ symbol ∈ run, accepts symbol) ∧ Reads pieces rest found
  | .group accepts least :: pieces, text, found =>
      ∃ run rest inner, text = run ++ rest ∧ least ≤ run.length ∧
        (∀ symbol ∈ run, accepts symbol) ∧ Reads pieces rest inner ∧
        found = inner.capture run

section Runs

omit [DecidableEq α]

variable {accepts : α → Bool} {least : Nat} {text run rest : List α}

theorem mem_lengths {length : Nat} : length ∈ lengths accepts least text ↔
    least ≤ length ∧ length ≤ (text.takeWhile accepts).length := by
  rw [lengths, List.mem_range'_1]
  omega

theorem accepted_of_mem_lengths {length : Nat}
    (possible : length ∈ lengths accepts least text) :
    least ≤ (text.take length).length ∧
      ∀ symbol ∈ text.take length, accepts symbol := by
  obtain ⟨enough, short⟩ := mem_lengths.mp possible
  have whole := List.takeWhile_prefix (l := text) accepts
  have fits := whole.length_le
  constructor
  · rw [List.length_take]
    omega
  · have inRun : text.take length <+: text.takeWhile accepts :=
      List.prefix_of_prefix_length_le (List.take_prefix length text) whole
        (by rw [List.length_take]; omega)
    intro symbol member
    exact List.mem_takeWhile_imp (inRun.subset member)

theorem length_mem_lengths (enough : least ≤ run.length)
    (accepted : ∀ symbol ∈ run, accepts symbol) :
    run.length ∈ lengths accepts least (run ++ rest) := by
  rw [mem_lengths, List.takeWhile_append_of_pos accepted, List.length_append]
  omega

end Runs

/-- What the engine finds is a reading. -/
theorem reads_of_matchAt {pieces : List (Piece α)} {text : List α}
    {found : Found α} (matched : matchAt pieces text = some found) :
    Reads pieces text found := by
  induction pieces generalizing text found with
  | nil => exact (Option.some.inj matched).symm
  | cons piece pieces induction =>
      cases piece with
      | literal expected =>
          rw [matchAt] at matched
          split at matched
          case isTrue starts =>
            obtain ⟨rest, rfl⟩ := starts
            rw [List.drop_left] at matched
            exact ⟨rest, rfl, induction matched⟩
          case isFalse => contradiction
      | many accepts least =>
          rw [matchAt] at matched
          obtain ⟨length, possible, inner⟩ :=
            List.exists_of_findSome?_eq_some matched
          obtain ⟨enough, accepted⟩ :=
            accepted_of_mem_lengths (List.mem_reverse.mp possible)
          exact ⟨text.take length, text.drop length,
            (List.take_append_drop length text).symm, enough, accepted,
            induction inner⟩
      | few accepts least =>
          rw [matchAt] at matched
          obtain ⟨length, possible, inner⟩ :=
            List.exists_of_findSome?_eq_some matched
          obtain ⟨enough, accepted⟩ := accepted_of_mem_lengths possible
          exact ⟨text.take length, text.drop length,
            (List.take_append_drop length text).symm, enough, accepted,
            induction inner⟩
      | group accepts least =>
          rw [matchAt] at matched
          obtain ⟨length, possible, captured⟩ :=
            List.exists_of_findSome?_eq_some matched
          obtain ⟨enough, accepted⟩ :=
            accepted_of_mem_lengths (List.mem_reverse.mp possible)
          obtain ⟨inner, isInner, same⟩ := Option.map_eq_some_iff.mp captured
          exact ⟨text.take length, text.drop length, inner,
            (List.take_append_drop length text).symm, enough, accepted,
            induction isInner, same.symm⟩

/-- The engine finds something where there is a reading. -/
theorem exists_matchAt {pieces : List (Piece α)} {text : List α}
    {found : Found α} (reads : Reads pieces text found) :
    ∃ other, matchAt pieces text = some other := by
  apply Option.isSome_iff_exists.mp
  induction pieces generalizing text found with
  | nil => rfl
  | cons piece pieces induction =>
      cases piece with
      | literal expected =>
          obtain ⟨rest, rfl, inner⟩ := reads
          rw [matchAt, if_pos (List.prefix_append expected rest),
            List.drop_left]
          exact induction inner
      | many accepts least =>
          obtain ⟨run, rest, rfl, enough, accepted, inner⟩ := reads
          rw [matchAt, List.findSome?_isSome_iff]
          refine ⟨run.length,
            List.mem_reverse.mpr (length_mem_lengths enough accepted), ?_⟩
          rw [List.drop_left]
          exact induction inner
      | few accepts least =>
          obtain ⟨run, rest, rfl, enough, accepted, inner⟩ := reads
          rw [matchAt, List.findSome?_isSome_iff]
          refine ⟨run.length, length_mem_lengths enough accepted, ?_⟩
          rw [List.drop_left]
          exact induction inner
      | group accepts least =>
          obtain ⟨run, rest, captured, rfl, enough, accepted, inner, _⟩ :=
            reads
          rw [matchAt, List.findSome?_isSome_iff]
          refine ⟨run.length,
            List.mem_reverse.mpr (length_mem_lengths enough accepted), ?_⟩
          rw [List.drop_left, Option.isSome_map]
          exact induction inner

/-! ## Patterns with one reading -/

/-- The next piece is a literal text that no run of the class goes into. -/
def Stops (accepts : α → Bool) : List (Piece α) → Prop
  | .literal (first :: _) :: _ => accepts first = false
  | _ => False

/-- Every run ends where the literal text behind it begins. -/
def Decided : List (Piece α) → Prop
  | [] => True
  | .literal _ :: pieces => Decided pieces
  | .many accepts _ :: pieces => Stops accepts pieces ∧ Decided pieces
  | .few accepts _ :: pieces => Stops accepts pieces ∧ Decided pieces
  | .group accepts _ :: pieces => Stops accepts pieces ∧ Decided pieces

section Decided

omit [DecidableEq α]

variable {accepts : α → Bool} {pieces : List (Piece α)} {text : List α}
  {found other : Found α}

theorem takeWhile_of_stops {run rest : List α} (stops : Stops accepts pieces)
    (accepted : ∀ symbol ∈ run, accepts symbol)
    (reads : Reads pieces rest found) :
    (run ++ rest).takeWhile accepts = run := by
  rw [List.takeWhile_append_of_pos accepted]
  match pieces, stops with
  | .literal (first :: _) :: _, stops =>
      obtain ⟨behind, rfl, _⟩ := reads
      rw [List.cons_append, List.takeWhile_cons_of_neg, List.append_nil]
      exact Bool.eq_false_iff.mp stops

/-- The two readings take the same run. -/
theorem runs_eq {run rest otherRun otherRest : List α}
    (stops : Stops accepts pieces)
    (accepted : ∀ symbol ∈ run, accepts symbol)
    (otherAccepted : ∀ symbol ∈ otherRun, accepts symbol)
    (reads : Reads pieces rest found)
    (otherReads : Reads pieces otherRest other)
    (same : run ++ rest = otherRun ++ otherRest) :
    run = otherRun ∧ rest = otherRest := by
  have runs : run = otherRun := by
    rw [← takeWhile_of_stops stops accepted reads, same,
      takeWhile_of_stops stops otherAccepted otherReads]
  subst otherRun
  exact ⟨rfl, List.append_cancel_left same⟩

theorem Reads.unique (decided : Decided pieces) (reads : Reads pieces text found)
    (otherReads : Reads pieces text other) : found = other := by
  induction pieces generalizing text found other with
  | nil => exact reads.trans otherReads.symm
  | cons piece pieces induction =>
      cases piece with
      | literal expected =>
          obtain ⟨rest, rfl, inner⟩ := reads
          obtain ⟨otherRest, same, otherInner⟩ := otherReads
          obtain rfl := List.append_cancel_left same
          exact induction decided inner otherInner
      | many accepts least =>
          obtain ⟨run, rest, rfl, _, accepted, inner⟩ := reads
          obtain ⟨otherRun, otherRest, same, _, otherAccepted, otherInner⟩ :=
            otherReads
          obtain ⟨rfl, rfl⟩ := runs_eq decided.1 accepted otherAccepted inner
            otherInner same
          exact induction decided.2 inner otherInner
      | few accepts least =>
          obtain ⟨run, rest, rfl, _, accepted, inner⟩ := reads
          obtain ⟨otherRun, otherRest, same, _, otherAccepted, otherInner⟩ :=
            otherReads
          obtain ⟨rfl, rfl⟩ := runs_eq decided.1 accepted otherAccepted inner
            otherInner same
          exact induction decided.2 inner otherInner
      | group accepts least =>
          obtain ⟨run, rest, captured, rfl, _, accepted, inner, rfl⟩ := reads
          obtain ⟨otherRun, otherRest, otherCaptured, same, _, otherAccepted,
            otherInner, rfl⟩ := otherReads
          obtain ⟨rfl, rfl⟩ := runs_eq decided.1 accepted otherAccepted inner
            otherInner same
          rw [induction decided.2 inner otherInner]

end Decided

/-- On such a pattern the engine has no choice. -/
theorem matchAt_eq_some_iff {pieces : List (Piece α)} {text : List α}
    {found : Found α} (decided : Decided pieces) :
    matchAt pieces text = some found ↔ Reads pieces text found := by
  constructor
  · exact reads_of_matchAt
  · intro reads
    obtain ⟨other, matched⟩ := exists_matchAt reads
    rw [matched, reads.unique decided (reads_of_matchAt matched)]

theorem matchAt_eq_none_iff {pieces : List (Piece α)} {text : List α} :
    matchAt pieces text = none ↔ ∀ found, ¬ Reads pieces text found := by
  constructor
  · intro unmatched found reads
    obtain ⟨other, matched⟩ := exists_matchAt reads
    rw [unmatched] at matched
    contradiction
  · intro none
    match matched : matchAt pieces text with
    | .none => rfl
    | some found => exact absurd (reads_of_matchAt matched) (none found)

/-- A shortest run of anything ends at the first symbol that may follow. -/
theorem matchAt_few_literal {inner after : List α} {stop : α}
    {pieces : List (Piece α)} (first : stop ∉ inner)
    (matched : (matchAt pieces after).isSome) :
    matchAt (.few (fun _ => true) 0 :: .literal [stop] :: pieces)
      (inner ++ stop :: after) = matchAt pieces after := by
  obtain ⟨found, isFound⟩ := Option.isSome_iff_exists.mp matched
  have split : lengths (fun _ => true) 0 (inner ++ stop :: after) =
      List.range' 0 inner.length ++
        inner.length :: List.range' (inner.length + 1) (after.length + 1) := by
    have all : (inner ++ stop :: after).takeWhile (fun _ => true) =
        inner ++ stop :: after := by
      simp
    have two := @List.range'_append_1 0 inner.length (after.length + 2)
    rw [Nat.zero_add] at two
    rw [lengths, all, ← List.range'_succ, two, List.length_append,
      List.length_cons]
    congr 1
  rw [matchAt, split, isFound, List.findSome?_eq_some_iff]
  refine ⟨_, _, _, rfl, ?_, ?_⟩
  · rw [List.drop_left, matchAt, if_pos (by simp)]
    exact isFound
  · intro length shorter
    have inside : length < inner.length := by
      have := List.mem_range'_1.mp shorter
      omega
    rw [List.drop_append_of_le_length (by omega), matchAt, if_neg]
    intro starts
    apply first
    obtain ⟨head, tail, isTail⟩ := List.exists_cons_of_length_pos
      (show 0 < (inner.drop length).length by rw [List.length_drop]; omega)
    rw [isTail, List.cons_append, List.cons_prefix_cons] at starts
    have member : head ∈ inner.drop length := by simp [isTail]
    exact starts.1 ▸ List.mem_of_mem_drop member

/-! ## Removing matches -/

theorem removeFrom_skip {pieces : List (Piece α)} {skipped text : List α} :
    removeFrom pieces skipped.length (skipped ++ text) =
      removeFrom pieces 0 text := by
  induction skipped with
  | nil => rfl
  | cons symbol skipped induction => exact induction

theorem remove_cons_of_none {pieces : List (Piece α)} {first : α}
    {rest : List α} (unmatched : matchAt pieces (first :: rest) = none) :
    remove pieces (first :: rest) = first :: remove pieces rest := by
  rw [remove, removeFrom, unmatched]
  rfl

theorem remove_cons_of_some {pieces : List (Piece α)} {first : α}
    {skipped after : List α} {found : Found α}
    (matched : matchAt pieces (first :: (skipped ++ after)) = some found)
    (rest : found.rest = after) :
    remove pieces (first :: (skipped ++ after)) = remove pieces after := by
  have skip : (skipped ++ after).length - found.rest.length =
      skipped.length := by
    rw [rest, List.length_append, Nat.add_sub_cancel]
  rw [remove, removeFrom, matched]
  dsimp only
  rw [skip, removeFrom_skip]
  rfl

/-! ## The first match -/

section Search

variable {pieces : List (Piece α)} {text : List α}

theorem search_eq_none_iff : search pieces text = none ↔
    ∀ before here, text = before ++ here → matchAt pieces here = none := by
  induction text with
  | nil =>
      constructor
      · intro unmatched before here split
        obtain ⟨_, rfl⟩ := List.append_eq_nil_iff.mp split.symm
        exact unmatched
      · intro nowhere
        exact nowhere [] [] rfl
  | cons first rest induction =>
      rw [search, Option.or_eq_none_iff, induction]
      constructor
      · intro ⟨unmatched, later⟩ before here split
        cases before with
        | nil =>
            have same : here = first :: rest := split.symm
            exact same ▸ unmatched
        | cons head before => exact later before here (List.cons.inj split).2
      · intro nowhere
        constructor
        · exact nowhere [] _ rfl
        · intro before here split
          exact nowhere (first :: before) here (by rw [split, List.cons_append])

theorem search_eq_some_iff {found : Found α} :
    search pieces text = some found ↔
      ∃ before here, text = before ++ here ∧
        matchAt pieces here = some found ∧
        ∀ earlier later, text = earlier ++ later →
          earlier.length < before.length → matchAt pieces later = none := by
  induction text with
  | nil =>
      constructor
      · intro matched
        exact ⟨[], [], rfl, matched, by simp⟩
      · intro ⟨before, here, split, matched, _⟩
        obtain ⟨_, rfl⟩ := List.append_eq_nil_iff.mp split.symm
        exact matched
  | cons first rest induction =>
      rw [search, Option.or_eq_some_iff, induction]
      constructor
      · intro either
        cases either with
        | inl matched => exact ⟨[], first :: rest, rfl, matched, by simp⟩
        | inr both =>
            obtain ⟨unmatched, before, here, split, matched, others⟩ := both
            refine ⟨first :: before, here, by rw [split, List.cons_append],
              matched, ?_⟩
            intro earlier later splitLater shorter
            cases earlier with
            | nil =>
                have same : later = first :: rest := splitLater.symm
                exact same ▸ unmatched
            | cons head earlier =>
                exact others earlier later (List.cons.inj splitLater).2
                  (by simpa using shorter)
      · intro ⟨before, here, split, matched, unmatched⟩
        cases before with
        | nil =>
            have same : here = first :: rest := split.symm
            exact .inl (same ▸ matched)
        | cons head before =>
            refine .inr ⟨unmatched [] (first :: rest) rfl (by simp), before, here,
              (List.cons.inj split).2, matched, ?_⟩
            intro earlier later splitLater shorter
            exact unmatched (first :: earlier) later
              (by rw [splitLater, List.cons_append]) (by simpa using shorter)

end Search

end Pattern

end FfmucSalt
