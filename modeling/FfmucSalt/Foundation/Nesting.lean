import Mathlib.Data.List.Basic

/-!
# Nesting

How deep a text stands in brackets, over any alphabet with one kind of them.
-/

namespace FfmucSalt

structure Brackets (α : Type) where
  opening : α
  closing : α
  different : opening ≠ closing

namespace Brackets

variable {α : Type} [DecidableEq α] (brackets : Brackets α)

/-- The depth behind a text that starts at a depth; nothing where a bracket
closes more than was opened. -/
def depthFrom : Nat → List α → Option Nat
  | depth, [] => some depth
  | depth, symbol :: rest =>
      if symbol = brackets.opening then depthFrom (depth + 1) rest
      else if symbol = brackets.closing then
        if depth = 0 then none else depthFrom (depth - 1) rest
      else depthFrom depth rest

/-- Every bracket of the text has its partner in it. -/
def Balanced (text : List α) : Prop := brackets.depthFrom 0 text = some 0

instance (text : List α) : Decidable (brackets.Balanced text) :=
  inferInstanceAs (Decidable (_ = _))

/-- The text has no brackets. -/
def Free (text : List α) : Prop :=
  brackets.opening ∉ text ∧ brackets.closing ∉ text

instance (text : List α) : Decidable (brackets.Free text) :=
  inferInstanceAs (Decidable (_ ∧ _))

variable {brackets} {text rest : List α} {depth after : Nat} {symbol : α}

theorem depthFrom_opening : brackets.depthFrom depth (brackets.opening :: rest) =
    brackets.depthFrom (depth + 1) rest := by
  rw [depthFrom, if_pos rfl]

theorem depthFrom_closing :
    brackets.depthFrom (depth + 1) (brackets.closing :: rest) =
      brackets.depthFrom depth rest := by
  rw [depthFrom, if_neg brackets.different.symm, if_pos rfl,
    if_neg (Nat.succ_ne_zero depth), Nat.add_sub_cancel]

theorem depthFrom_other (notOpening : symbol ≠ brackets.opening)
    (notClosing : symbol ≠ brackets.closing) :
    brackets.depthFrom depth (symbol :: rest) =
      brackets.depthFrom depth rest := by
  rw [depthFrom, if_neg notOpening, if_neg notClosing]

/-- The symbols one after the other: each opens, closes or does neither. -/
theorem depthFrom_cons_eq_some :
    brackets.depthFrom depth (symbol :: rest) = some after ↔
      (symbol = brackets.opening ∧
        brackets.depthFrom (depth + 1) rest = some after) ∨
      (symbol = brackets.closing ∧ ∃ outer, depth = outer + 1 ∧
        brackets.depthFrom outer rest = some after) ∨
      (symbol ≠ brackets.opening ∧ symbol ≠ brackets.closing ∧
        brackets.depthFrom depth rest = some after) := by
  have different := brackets.different
  by_cases opens : symbol = brackets.opening
  · rw [opens, depthFrom_opening]
    simp [different]
  · by_cases closes : symbol = brackets.closing
    · rw [closes, depthFrom, if_neg different.symm, if_pos rfl]
      cases depth with
      | zero => simp [different.symm]
      | succ outer => simp [different.symm]
    · rw [depthFrom_other opens closes]
      simp [opens, closes]

theorem exists_depthFrom_tail
    (inText : brackets.depthFrom depth (symbol :: rest) = some after) :
    ∃ outer, brackets.depthFrom outer rest = some after := by
  obtain ⟨_, inRest⟩ | ⟨_, outer, _, inRest⟩ | ⟨_, _, inRest⟩ :=
    depthFrom_cons_eq_some.mp inText
  · exact ⟨depth + 1, inRest⟩
  · exact ⟨outer, inRest⟩
  · exact ⟨depth, inRest⟩

theorem depthFrom_append :
    brackets.depthFrom depth (text ++ rest) =
      (brackets.depthFrom depth text).bind fun middle =>
        brackets.depthFrom middle rest := by
  induction text generalizing depth with
  | nil => rfl
  | cons symbol text induction =>
      rw [List.cons_append, depthFrom, depthFrom]
      split
      · exact induction
      · split
        · split
          · rfl
          · exact induction
        · exact induction

theorem depthFrom_append_of_eq {middle : Nat}
    (inText : brackets.depthFrom depth text = some middle) :
    brackets.depthFrom depth (text ++ rest) =
      brackets.depthFrom middle rest := by
  rw [depthFrom_append, inText, Option.bind_some]

omit [DecidableEq α] in
theorem Free.append (free : brackets.Free text) (freeRest : brackets.Free rest) :
    brackets.Free (text ++ rest) := by
  constructor
  · exact fun member =>
      (List.mem_append.mp member).elim free.1 freeRest.1
  · exact fun member =>
      (List.mem_append.mp member).elim free.2 freeRest.2

theorem depthFrom_of_free (free : brackets.Free text) :
    brackets.depthFrom depth text = some depth := by
  induction text with
  | nil => rfl
  | cons symbol text induction =>
      obtain ⟨noOpening, noClosing⟩ := free
      rw [List.mem_cons, not_or] at noOpening noClosing
      rw [depthFrom_other (Ne.symm noOpening.1) (Ne.symm noClosing.1)]
      exact induction ⟨noOpening.2, noClosing.2⟩

/-- A text that ends less deep than it begins has a closing bracket. -/
theorem closing_mem (inText : brackets.depthFrom depth text = some after)
    (shallower : after < depth) : brackets.closing ∈ text := by
  induction text generalizing depth with
  | nil =>
      obtain rfl := Option.some.inj inText
      omega
  | cons symbol text induction =>
      rw [depthFrom_cons_eq_some] at inText
      obtain opens | closes | other := inText
      · exact List.mem_cons_of_mem _ (induction opens.2 (by omega))
      · rw [closes.1]
        exact List.mem_cons_self
      · exact List.mem_cons_of_mem _ (induction other.2.2 shallower)

end Brackets

end FfmucSalt
