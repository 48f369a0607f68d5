import FfmucSalt.Text

/-!
# Finding and trimming in byte strings

Where a marker can occur in a text that is put together from parts, and what
`strings.LastIndex` and `strings.TrimSpace` make of such a text.
-/

namespace FfmucSalt

/-! ## Occurrences -/

section Occurrences

variable {marker first second before after : Bytes} {separator : UInt8}

/-- An occurrence does not reach over a byte that it does not contain. -/
theorem occurrence_append_cons (absent : separator ∉ marker)
    (occurs : before ++ marker ++ after = first ++ separator :: second) :
    (∃ rest, first = before ++ marker ++ rest) ∨
      ∃ rest, second = rest ++ marker ++ after := by
  rw [List.append_assoc, List.append_eq_append_iff] at occurs
  rcases occurs with ⟨rest, isFirst, found⟩ | ⟨rest, isBefore, found⟩
  · rw [List.append_eq_append_iff] at found
    rcases found with ⟨more, isRest, isAfter⟩ | ⟨more, isMarker, found⟩
    · exact .inl ⟨more, by rw [isFirst, isRest, List.append_assoc]⟩
    · cases more with
      | nil =>
          refine .inl ⟨[], ?_⟩
          rw [isFirst, isMarker, List.append_nil, List.append_nil]
      | cons byte more =>
          have same : separator = byte := (List.cons.inj found).1
          exact absurd (by simp [isMarker, same]) absent
  · cases rest with
    | nil =>
        cases marker with
        | nil =>
            refine .inl ⟨[], ?_⟩
            rw [isBefore, List.append_nil, List.append_nil, List.append_nil]
        | cons byte marker =>
            have same : separator = byte := (List.cons.inj found).1
            exact absurd (by simp [same]) absent
    | cons byte rest =>
        refine .inr ⟨rest, ?_⟩
        rw [List.append_assoc]
        exact (List.cons.inj found).2

theorem infix_append_cons (absent : separator ∉ marker)
    (inside : marker <:+: first ++ separator :: second) :
    marker <:+: first ∨ marker <:+: second := by
  obtain ⟨before, after, occurs⟩ := inside
  rcases occurrence_append_cons absent occurs with ⟨rest, same⟩ | ⟨rest, same⟩
  · exact .inl ⟨before, rest, same.symm⟩
  · exact .inr ⟨rest, after, same.symm⟩

/-- A marker whose first byte is not in the first part lies in the second. -/
theorem infix_append_of_head {byte : UInt8} (absent : byte ∉ first)
    (inside : byte :: marker <:+: first ++ second) :
    byte :: marker <:+: second := by
  induction first with
  | nil => exact inside
  | cons head first induction =>
      rw [List.mem_cons, not_or] at absent
      rw [List.cons_append, List.infix_cons_iff] at inside
      rcases inside with here | later
      · exact absurd (List.cons_prefix_cons.mp here).1 absent.1
      · exact induction absent.2 later

theorem prefix_of_append_cons (absent : separator ∉ marker)
    (inFront : marker <+: first ++ separator :: second) : marker <+: first := by
  obtain ⟨after, occurs⟩ := inFront
  rw [List.append_eq_append_iff] at occurs
  rcases occurs with ⟨rest, isFirst, _⟩ | ⟨rest, isMarker, same⟩
  · exact ⟨rest, isFirst.symm⟩
  · cases rest with
    | nil => exact ⟨[], by simp [isMarker]⟩
    | cons byte rest =>
        have isByte : separator = byte := (List.cons.inj same).1
        exact absurd (by simp [isMarker, isByte]) absent

end Occurrences

/-! ## The last occurrence -/

section LastIndex

variable {marker text before after : Bytes} {separator : UInt8}

theorem lastIndex_eq_some {position : Nat}
    (found : lastIndex text marker = some position) :
    ∃ before after, text = before ++ marker ++ after ∧
      before.length = position := by
  induction text generalizing position with
  | nil =>
      rw [lastIndex] at found
      split at found
      · rename_i empty
        exact ⟨[], [], by simp [empty], by simpa using found⟩
      · cases found
  | cons first rest induction =>
      rw [lastIndex] at found
      split at found
      · rename_i later isLater
        obtain ⟨before, after, isRest, isLength⟩ := induction isLater
        refine ⟨first :: before, after, by simp [isRest], ?_⟩
        rw [List.length_cons, isLength]
        exact Option.some.inj found
      · split at found
        · rename_i here
          obtain ⟨after, same⟩ := List.isPrefixOf_iff_prefix.mp here
          exact ⟨[], after, by simp [same], by simpa using found⟩
        · cases found

/-- A marker that does not come again is the last one. -/
theorem lastIndex_append (again : ¬ marker <:+: marker.tail ++ after) :
    lastIndex (before ++ marker ++ after) marker = some before.length := by
  induction before with
  | nil =>
      cases marker with
      | nil => exact absurd (List.nil_infix) again
      | cons byte marker =>
          have noLater := lastIndex_eq_none again
          rw [List.tail_cons] at noLater
          simp [lastIndex, noLater]
  | cons byte before induction =>
      simp only [List.append_assoc] at induction
      simp [lastIndex, induction]

end LastIndex

/-! ## Trimming -/

section Trim

variable {forms : List Bytes} {separator : UInt8}

private theorem of_find_form {text form : Bytes}
    (found : forms.find? (·.isPrefixOf text) = some form) :
    form ∈ forms ∧ form <+: text := by
  have inFront : form.isPrefixOf text := by simpa using List.find?_some found
  exact ⟨List.mem_of_find?_eq_some found, List.isPrefixOf_iff_prefix.mp inFront⟩

/-- No form begins like another one. -/
def PrefixFree (forms : List Bytes) : Prop :=
  ∀ form ∈ forms, ∀ other ∈ forms, form <+: other → form = other

instance : Decidable (PrefixFree forms) :=
  inferInstanceAs (Decidable (∀ form ∈ forms, ∀ other ∈ forms, _ → _))

private theorem find_form {text form : Bytes} (prefixFree : PrefixFree forms)
    (isForm : form ∈ forms) (inFront : form <+: text) :
    forms.find? (·.isPrefixOf text) = some form := by
  cases found : forms.find? (·.isPrefixOf text) with
  | none =>
      rw [List.find?_eq_none] at found
      exact absurd (List.isPrefixOf_iff_prefix.mpr inFront) (found form isForm)
  | some other =>
      obtain ⟨alsoForm, alsoInFront⟩ := of_find_form found
      rcases List.prefix_or_prefix_of_prefix inFront alsoInFront with
        shorter | longer
      · rw [prefixFree _ isForm _ alsoForm shorter]
      · rw [prefixFree _ alsoForm _ isForm longer]

private theorem trimFormsFrom_skip {skip : Nat} {skipped : Bytes} (text : Bytes)
    (isSkip : skip = skipped.length) :
    trimFormsFrom forms skip (skipped ++ text) = trimFormsFrom forms 0 text := by
  subst isSkip
  induction skipped with
  | nil => rfl
  | cons first skipped induction =>
      rw [List.cons_append, List.length_cons, trimFormsFrom, induction]

/-- Forms in front of a text are trimmed one by one. -/
theorem trimFormsFrom_flatten {used : List Bytes} (text : Bytes)
    (prefixFree : PrefixFree forms) (nonempty : [] ∉ forms)
    (areForms : ∀ form ∈ used, form ∈ forms) :
    trimFormsFrom forms 0 (used.flatten ++ text) =
      trimFormsFrom forms 0 text := by
  induction used with
  | nil => rfl
  | cons form used induction =>
      rw [List.forall_mem_cons] at areForms
      cases form with
      | nil => exact absurd areForms.1 nonempty
      | cons first form =>
          have found := find_form prefixFree areForms.1
            (List.prefix_append (first :: form) (used.flatten ++ text))
          rw [List.cons_append] at found
          rw [List.flatten_cons, List.append_assoc, List.cons_append,
            trimFormsFrom, found]
          exact (trimFormsFrom_skip _ rfl).trans (induction areForms.2)

/-- Trimming stops at a byte that is in no form. -/
theorem trimFormsFrom_append_cons (absent : ∀ form ∈ forms, separator ∉ form)
    (nonempty : [] ∉ forms) (text rest : Bytes) :
    ∃ trimmed, trimmed <:+ text ∧
      trimFormsFrom forms 0 (text ++ separator :: rest) =
        trimmed ++ separator :: rest := by
  suffices ∀ skip ≤ text.length, ∃ trimmed, trimmed <:+ text ∧
      trimFormsFrom forms skip (text ++ separator :: rest) =
        trimmed ++ separator :: rest from this 0 (Nat.zero_le _)
  induction text with
  | nil =>
      intro skip short
      rw [Nat.le_zero.mp short]
      have noForm : forms.find? (·.isPrefixOf (separator :: rest)) = none := by
        rw [List.find?_eq_none]
        intro form member isForm
        have inFront : form <+: [] ++ separator :: rest :=
          List.isPrefixOf_iff_prefix.mp isForm
        have empty := prefix_of_append_cons (absent form member) inFront
        rw [List.prefix_nil.mp empty] at member
        exact nonempty member
      exact ⟨[], List.suffix_refl _, by simp [trimFormsFrom, noForm]⟩
  | cons first text induction =>
      intro skip short
      have later : ∀ skip ≤ text.length, ∃ trimmed, trimmed <:+ first :: text ∧
          trimFormsFrom forms skip (text ++ separator :: rest) =
            trimmed ++ separator :: rest := by
        intro skip short
        obtain ⟨trimmed, isSuffix, same⟩ := induction skip short
        exact ⟨trimmed, isSuffix.trans (List.suffix_cons first text), same⟩
      cases skip with
      | succ skip => exact later skip (Nat.le_of_succ_le_succ short)
      | zero =>
          rw [List.cons_append, trimFormsFrom]
          cases found : forms.find? (·.isPrefixOf
              (first :: (text ++ separator :: rest))) with
          | none => exact ⟨first :: text, List.suffix_refl _, rfl⟩
          | some form =>
              obtain ⟨isForm, inFront⟩ := of_find_form found
              rw [← List.cons_append] at inFront
              have fits :=
                (prefix_of_append_cons (absent form isForm) inFront).length_le
              rw [List.length_cons] at fits
              exact later (form.length - 1) (by omega)

end Trim

/-! ## White space -/

/-- Text of white space only. -/
def Spaces (text : Bytes) : Prop :=
  ∃ used : List Bytes, (∀ form ∈ used, form ∈ spaces) ∧ text = used.flatten

/-- A byte that is in no white space. -/
def Visible (byte : UInt8) : Prop := 0x20 < byte ∧ byte < 0x80

theorem Visible.not_mem {byte : UInt8} (visible : Visible byte) :
    ∀ form ∈ spaces, byte ∉ form := by
  have outside : ∀ form ∈ spaces, ∀ byte ∈ form,
      ¬ (0x20 < byte ∧ byte < 0x80) := by
    decide +kernel
  exact fun form member present => outside form member byte present visible

private theorem trimFormsFrom_spaces {front : Bytes} (isFront : Spaces front)
    {before rest : Bytes} {first : UInt8} (visible : Visible first) :
    ∃ trimmed, trimmed <:+ before ∧
      trimFormsFrom spaces 0 (front ++ (before ++ first :: rest)) =
        trimmed ++ first :: rest := by
  obtain ⟨used, areForms, rfl⟩ := isFront
  rw [trimFormsFrom_flatten _ (by decide) (by decide) areForms]
  exact trimFormsFrom_append_cons visible.not_mem (by decide) _ _

private theorem trimFormsFrom_spaces_reverse {back : Bytes}
    (isBack : Spaces back) {after rest : Bytes} {last : UInt8}
    (visible : Visible last) :
    ∃ trimmed, trimmed <:+ after.reverse ∧
      trimFormsFrom (spaces.map List.reverse) 0
        (back.reverse ++ (after.reverse ++ last :: rest)) =
          trimmed ++ last :: rest := by
  obtain ⟨used, areForms, rfl⟩ := isBack
  have reversed : used.flatten.reverse =
      (used.map List.reverse).reverse.flatten := List.reverse_flatten
  rw [reversed, trimFormsFrom_flatten _ (by decide) (by decide)]
  · refine trimFormsFrom_append_cons ?_ (by decide) _ _
    intro form member
    obtain ⟨space, isSpace, rfl⟩ := List.mem_map.mp member
    rw [List.mem_reverse]
    exact visible.not_mem space isSpace
  · intro form member
    rw [List.mem_reverse, List.mem_map] at member
    obtain ⟨space, isUsed, rfl⟩ := member
    exact List.mem_map_of_mem (areForms space isUsed)

/-- White space around a text is trimmed, and what else is trimmed lies before
its first or after its last visible byte. -/
theorem trimSpace_around {front back before middle after : Bytes}
    {first last : UInt8} (isFront : Spaces front) (isBack : Spaces back)
    (isFirst : middle.head? = some first) (firstVisible : Visible first)
    (isLast : middle.getLast? = some last) (lastVisible : Visible last) :
    ∃ left right, left <:+ before ∧ right <+: after ∧
      trimSpace (front ++ (before ++ middle ++ after) ++ back) =
        left ++ middle ++ right := by
  obtain ⟨rest, rfl⟩ : ∃ rest, middle = first :: rest := by
    cases middle with
    | nil => cases isFirst
    | cons byte rest => exact ⟨rest, by rw [Option.some.inj isFirst]⟩
  obtain ⟨most, isMiddle⟩ := List.getLast?_eq_some_iff.mp isLast
  obtain ⟨left, isLeft, trimmedLeft⟩ :=
    @trimFormsFrom_spaces front isFront before (rest ++ (after ++ back)) first
      firstVisible
  obtain ⟨right, isRight, trimmedRight⟩ :=
    @trimFormsFrom_spaces_reverse back isBack after
      (most.reverse ++ left.reverse) last lastVisible
  refine ⟨left, right.reverse, isLeft, ?_, ?_⟩
  · rw [← List.reverse_suffix, List.reverse_reverse]
    exact isRight
  · have whole : front ++ (before ++ first :: rest ++ after) ++ back =
        front ++ (before ++ first :: (rest ++ (after ++ back))) := by
      simp
    have reversed : (left ++ first :: (rest ++ (after ++ back))).reverse =
        back.reverse ++ (after.reverse ++ last :: (most.reverse ++
          left.reverse)) := by
      rw [← List.cons_append, isMiddle]
      simp
    rw [trimSpace, whole, trimmedLeft, reversed, trimmedRight, isMiddle]
    simp

end FfmucSalt
