import Mathlib.Data.List.Infix

/-!
# Wildcard patterns

Patterns of literal symbols, of wildcards for one symbol, and of wildcards for
any number of symbols, over any alphabet.
-/

namespace FfmucSalt

inductive Wildcard (α : Type) where
  /-- Any number of symbols. -/
  | any
  /-- One symbol. -/
  | one
  | symbol (value : α)
  deriving DecidableEq

namespace Wildcard

variable {α : Type} [DecidableEq α]

/-- Whether the whole text matches. -/
def matchesAll : List (Wildcard α) → List α → Bool
  | [], text => text.isEmpty
  | .any :: pattern, text => text.tails.any (matchesAll pattern)
  | .one :: _, [] => false
  | .one :: pattern, _ :: text => matchesAll pattern text
  | .symbol _ :: _, [] => false
  | .symbol value :: pattern, first :: text =>
      first = value && matchesAll pattern text

variable {pattern : List (Wildcard α)} {text : List α}

@[simp] theorem matchesAll_nil : matchesAll [] text ↔ text = [] :=
  List.isEmpty_iff

theorem matchesAll_any : matchesAll (.any :: pattern) text ↔
    ∃ rest, rest <:+ text ∧ matchesAll pattern rest := by
  simp [matchesAll]

theorem matchesAll_symbol {value : α} :
    matchesAll (.symbol value :: pattern) text ↔
      ∃ rest, text = value :: rest ∧ matchesAll pattern rest := by
  cases text with
  | nil => simp [matchesAll]
  | cons first text => simp [matchesAll]

/-- Literal symbols in front of a pattern. -/
theorem matchesAll_append (literal : List α) :
    matchesAll (literal.map .symbol ++ pattern) text ↔
      ∃ rest, text = literal ++ rest ∧ matchesAll pattern rest := by
  induction literal generalizing text with
  | nil => simp
  | cons value literal induction =>
      rw [List.map_cons, List.cons_append, matchesAll_symbol]
      constructor
      · intro ⟨rest, isText, isRest⟩
        obtain ⟨more, same, isMore⟩ := induction.mp isRest
        exact ⟨more, by rw [isText, same, List.cons_append], isMore⟩
      · intro ⟨rest, isText, isRest⟩
        exact ⟨literal ++ rest, isText, induction.mpr ⟨rest, rfl, isRest⟩⟩

/-- Without wildcards only the text itself matches. -/
theorem matchesAll_literal (literal : List α) :
    matchesAll (literal.map .symbol) text ↔ text = literal := by
  have split := @matchesAll_append α _ [] text literal
  simpa using split

theorem matchesAll_any_nil : matchesAll [.any] text = true :=
  matchesAll_any.mpr ⟨[], List.nil_suffix, rfl⟩

/-- A wildcard at the end leaves a test for what is in front of it. -/
theorem matchesAll_append_any (literal : List α) :
    matchesAll (literal.map .symbol ++ [.any]) text ↔ literal <+: text := by
  rw [matchesAll_append]
  constructor
  · intro ⟨rest, isText, _⟩
    exact ⟨rest, isText.symm⟩
  · intro ⟨rest, isText⟩
    exact ⟨rest, isText.symm, matchesAll_any_nil⟩

/-- A symbol between two wildcards is somewhere in the text. -/
theorem matchesAll_any_symbol_any {value : α} :
    matchesAll [.any, .symbol value, .any] text ↔ value ∈ text := by
  rw [matchesAll_any]
  constructor
  · intro ⟨rest, isSuffix, isRest⟩
    obtain ⟨more, same, _⟩ := matchesAll_symbol.mp isRest
    exact isSuffix.mem (same ▸ List.mem_cons_self)
  · intro member
    obtain ⟨before, after, isText⟩ := List.append_of_mem member
    exact ⟨value :: after, ⟨before, isText.symm⟩,
      matchesAll_symbol.mpr ⟨after, rfl, matchesAll_any_nil⟩⟩

end Wildcard

end FfmucSalt
