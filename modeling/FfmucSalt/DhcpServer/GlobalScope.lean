import FfmucSalt.DhcpServer.DhcpdConf
import FfmucSalt.DhcpServer.FlatFile

/-!
# The global domain name

`parse` looks for it in what is left when every piece from a `\x7b` to the next
`\x7d` is taken out.  Behind an inner block that still leaves text of the outer
one.
-/

namespace FfmucSalt.DhcpServer.DhcpdConf

open Python

/-! ## Statements that name a domain -/

/-- The words `option domain-name` and a name in quotes -/
def Names (phrase name : Str) : Prop :=
  ∃ first second, IsGap first ∧ IsGap second ∧ '"' ∉ name ∧
    phrase = chars "option" ++ first ++ chars "domain-name" ++ second ++
      '"' :: name ++ ['"']

/-- Such a phrase stands at the start of the text. -/
def Shows (text name : Str) : Prop :=
  ∃ phrase after, text = phrase ++ after ∧ Names phrase name

/-- The first such phrase of a text -/
def FirstShown (text before name : Str) : Prop :=
  ∃ here, text = before ++ here ∧ Shows here name ∧
    ∀ earlier later other, text = earlier ++ later → Shows later other →
      before.length ≤ earlier.length

/-- A statement can begin behind the text. -/
def Begins (before : Str) : Prop :=
  ∃ front gap, before = front ++ gap ∧ (∀ ch ∈ gap, isSpace ch) ∧
    (front = [] ∨ ∃ more, front = more ++ [';'] ∨ front = more ++ ['}'])

/-- Behind `before` a whole statement of the global scope names a domain. -/
structure GlobalAt (text before name : Str) : Prop where
  stands : ∃ phrase gap after, Names phrase name ∧
    (∀ ch ∈ gap, isSpace ch) ∧ text = before ++ phrase ++ gap ++ ';' :: after
  begins : Begins before
  depth : braces.depthFrom 0 before = some 0

/-- The first statement of the global scope that names a domain -/
def FirstGlobal (text name : Str) : Prop :=
  ∃ before, GlobalAt text before name ∧
    ∀ other otherName, GlobalAt text other otherName →
      before.length ≤ other.length

/-- No brace, `#` or `;` stands inside quotes. -/
def plainQuotes : (quoted : Bool) → Str → Bool
  | _, [] => true
  | quoted, ch :: rest =>
      if ch = '"' then plainQuotes (!quoted) rest
      else (!quoted || !(['{', '}', '#', ';'].contains ch)) &&
        plainQuotes quoted rest

/-! ## What the pattern finds -/

theorem decided_domainName : Pattern.Decided domainName := by
  refine ⟨?_, ?_, ?_, trivial⟩ <;> rfl

theorem reads_domainName {here : Str} {found : Found Char} :
    Pattern.Reads domainName here found ↔
      ∃ phrase name, here = phrase ++ found.rest ∧ Names phrase name ∧
        found.groups = [name] := by
  constructor
  · intro reads
    obtain ⟨_, rfl, first, _, rfl, firstLength, isFirst, reads⟩ := reads
    obtain ⟨_, rfl, second, _, rfl, secondLength, isSecond, reads⟩ := reads
    obtain ⟨_, rfl, name, _, _, rfl, _, noQuote, reads, rfl⟩ := reads
    obtain ⟨_, rfl, rfl⟩ := reads
    refine ⟨chars "option" ++ first ++ chars "domain-name" ++ second ++
      '"' :: name ++ ['"'], name, by simp [Found.capture],
      ⟨first, second, ⟨?_, isFirst⟩, ⟨?_, isSecond⟩, ?_, rfl⟩, rfl⟩
    · exact List.ne_nil_of_length_pos firstLength
    · exact List.ne_nil_of_length_pos secondLength
    · intro member
      simpa using noQuote '"' member
  · intro ⟨phrase, name, split, names, groups⟩
    obtain ⟨first, second, isFirst, isSecond, noQuote, rfl⟩ := names
    obtain ⟨groups', rest⟩ := found
    obtain rfl := groups
    refine ⟨_, by rw [split]; simp only [List.append_assoc]; rfl, first, _, rfl,
      List.length_pos_iff.mpr isFirst.1, isFirst.2, _, rfl, second, _, rfl,
      List.length_pos_iff.mpr isSecond.1, isSecond.2, _, rfl, name, _, _, rfl,
      Nat.zero_le _, ?_, ⟨_, rfl, rfl⟩, rfl⟩
    intro ch member
    have other : ch ≠ '"' := fun same => noQuote (same ▸ member)
    simpa using other

theorem shows_iff_matchAt {here name : Str} : Shows here name ↔
    ∃ rest, Pattern.matchAt domainName here =
      some { groups := [name], rest } := by
  constructor
  · intro ⟨phrase, after, split, names⟩
    exact ⟨after, (Pattern.matchAt_eq_some_iff decided_domainName).mpr
      (reads_domainName.mpr ⟨phrase, name, split, names, rfl⟩)⟩
  · intro ⟨rest, matched⟩
    obtain ⟨phrase, other, split, names, groups⟩ := reads_domainName.mp
      ((Pattern.matchAt_eq_some_iff decided_domainName).mp matched)
    obtain rfl := List.singleton_inj.mp groups
    exact ⟨phrase, rest, split, names⟩

theorem Shows.unique {here name other : Str} (shows : Shows here name)
    (otherShows : Shows here other) : name = other := by
  obtain ⟨rest, matched⟩ := shows_iff_matchAt.mp shows
  obtain ⟨otherRest, otherMatched⟩ := shows_iff_matchAt.mp otherShows
  rw [matched, Option.some.injEq, Found.mk.injEq] at otherMatched
  exact List.singleton_inj.mp otherMatched.1

theorem matchAt_eq_none_iff_shows {here : Str} :
    Pattern.matchAt domainName here = none ↔ ∀ name, ¬ Shows here name := by
  constructor
  · intro unmatched name shows
    obtain ⟨rest, matched⟩ := shows_iff_matchAt.mp shows
    rw [unmatched] at matched
    contradiction
  · intro nothing
    rw [Pattern.matchAt_eq_none_iff]
    intro found reads
    obtain ⟨phrase, name, split, names, _⟩ := reads_domainName.mp reads
    exact nothing name ⟨phrase, found.rest, split, names⟩

/-- The search finds the first phrase. -/
theorem searchGroup_domainName_eq_some_iff {top name : Str} :
    searchGroup domainName 1 top = some name ↔
      ∃ before, FirstShown top before name := by
  rw [searchGroup, Option.map_eq_some_iff]
  constructor
  · intro ⟨found, searched, isName⟩
    obtain ⟨before, here, split, matched, nowhere⟩ :=
      Pattern.search_eq_some_iff.mp searched
    obtain ⟨phrase, other, isHere, names, groups⟩ := reads_domainName.mp
      ((Pattern.matchAt_eq_some_iff decided_domainName).mp matched)
    have same : other = name := by
      rw [groups] at isName
      exact isName
    refine ⟨before, here, split, ⟨phrase, found.rest, isHere, same ▸ names⟩, ?_⟩
    intro earlier later otherName splitLater shows
    by_contra shorter
    exact matchAt_eq_none_iff_shows.mp
      (nowhere earlier later splitLater (by omega)) otherName shows
  · intro ⟨before, here, split, shows, first⟩
    obtain ⟨rest, matched⟩ := shows_iff_matchAt.mp shows
    refine ⟨{ groups := [name], rest }, ?_, rfl⟩
    refine Pattern.search_eq_some_iff.mpr ⟨before, here, split, matched, ?_⟩
    intro earlier later splitLater shorter
    refine matchAt_eq_none_iff_shows.mpr fun other otherShows => ?_
    have := first earlier later other splitLater otherShows
    omega

/-- Where there is a phrase, one of them is the first. -/
theorem exists_firstShown {text before here name : Str}
    (split : text = before ++ here) (shows : Shows here name) :
    ∃ first other, FirstShown text first other := by
  match searched : Pattern.search domainName text with
  | none =>
      have unmatched := Pattern.search_eq_none_iff.mp searched before here split
      exact absurd shows (matchAt_eq_none_iff_shows.mp unmatched name)
  | some found =>
      have group : searchGroup domainName 1 text =
          some (found.groups.getD 0 []) := by
        rw [searchGroup, searched]
        rfl
      obtain ⟨first, isFirst⟩ := searchGroup_domainName_eq_some_iff.mp group
      exact ⟨first, _, isFirst⟩

/-! ## What the removal leaves -/

/-- The text outside of the pieces from a `\x7b` to the next `\x7d`. -/
def outside : (inside : Bool) → Str → Str
  | _, [] => []
  | true, ch :: rest => outside (ch ≠ '}') rest
  | false, ch :: rest =>
      if ch = '{' then outside true rest else ch :: outside false rest

/-- Whether such a piece goes on behind the text. -/
def insideAfter : (inside : Bool) → Str → Bool
  | inside, [] => inside
  | true, ch :: rest => insideAfter (ch ≠ '}') rest
  | false, ch :: rest => insideAfter (ch = '{') rest

theorem outside_append (inside : Bool) (text rest : Str) :
    outside inside (text ++ rest) =
      outside inside text ++ outside (insideAfter inside text) rest := by
  induction text generalizing inside with
  | nil => cases inside <;> rfl
  | cons ch text induction =>
      cases inside with
      | true => exact induction _
      | false =>
          rw [List.cons_append, outside, outside, insideAfter]
          by_cases opens : ch = '{'
          · simp only [opens, if_true, decide_true]
            exact induction true
          · simp only [opens, if_false, decide_false]
            rw [induction false, List.cons_append]

/-- Without braces a text outside of these pieces stays. -/
theorem outside_of_free {text : Str} (free : braces.Free text) :
    outside false text = text ∧ insideAfter false text = false := by
  induction text with
  | nil => exact ⟨rfl, rfl⟩
  | cons ch text induction =>
      obtain ⟨noOpening, noClosing⟩ := free
      rw [List.mem_cons, not_or] at noOpening noClosing
      have other : ch ≠ '{' := Ne.symm noOpening.1
      obtain ⟨stays, outsideStill⟩ := induction ⟨noOpening.2, noClosing.2⟩
      rw [outside, insideAfter, if_neg other, stays, decide_eq_false other]
      exact ⟨rfl, outsideStill⟩

theorem outside_inside {inner after : Str} (noClosing : '}' ∉ inner) :
    outside true (inner ++ '}' :: after) = outside false after := by
  induction inner with
  | nil => rfl
  | cons ch inner induction =>
      rw [List.mem_cons, not_or] at noClosing
      rw [List.cons_append, outside, decide_eq_true (Ne.symm noClosing.1)]
      exact induction noClosing.2

/-- The piece that is open behind a text is in some block. -/
theorem depth_pos_of_insideAfter {inside : Bool} {depth after : Nat}
    {text : Str} (inBlock : inside → 0 < depth)
    (inText : braces.depthFrom depth text = some after)
    (open_ : insideAfter inside text) : 0 < after := by
  induction text generalizing inside depth with
  | nil =>
      obtain rfl := Option.some.inj inText
      exact inBlock open_
  | cons ch text induction =>
      rw [Brackets.depthFrom_cons_eq_some] at inText
      obtain ⟨rfl, inRest⟩ | ⟨rfl, outer, rfl, inRest⟩ |
        ⟨notOpening, notClosing, inRest⟩ := inText
      · cases inside <;> exact induction (fun _ => Nat.succ_pos _) inRest open_
      · have neither : ¬ (decide ('}' ≠ '}') : Bool) := by decide
        cases inside <;>
          exact induction (fun none => absurd none neither) inRest open_
      · cases inside with
        | true =>
            have other : ch ≠ '}' := notClosing
            rw [insideAfter, decide_eq_true other] at open_
            exact induction inBlock inRest open_
        | false =>
            have other : ch ≠ '{' := notOpening
            rw [insideAfter, decide_eq_false other] at open_
            exact induction inBlock inRest open_

theorem insideAfter_global {before : Str}
    (global : braces.depthFrom 0 before = some 0) :
    insideAfter false before = false := by
  by_contra open_
  have inBlock := depth_pos_of_insideAfter (fun none => absurd none (by decide))
    global (Bool.not_eq_false _ ▸ open_)
  omega

theorem matchAt_block {inner after : Str} (first : '}' ∉ inner) :
    Pattern.matchAt block ('{' :: (inner ++ '}' :: after)) =
      some { groups := [], rest := after } := by
  rw [block, Pattern.matchAt, if_pos (by simp)]
  exact Pattern.matchAt_few_literal first rfl

/-- Every block ends, so a removed piece goes from its opening brace to the next
closing one. -/
theorem remove_block {text : Str} {depth : Nat}
    (inText : braces.depthFrom depth text = some 0) :
    Pattern.remove block text = outside false text := by
  induction size : text.length using Nat.strongRecOn generalizing text depth with
  | ind size induction =>
      cases text with
      | nil => rfl
      | cons ch rest =>
          by_cases opens : ch = '{'
          · subst opens
            rw [show '{' = braces.opening from rfl,
              Brackets.depthFrom_opening] at inText
            have closes : '}' ∈ rest :=
              Brackets.closing_mem inText (Nat.succ_pos depth)
            obtain ⟨inner, after, rfl, first⟩ :=
              List.eq_append_cons_of_mem closes
            obtain ⟨middle, _, inAfter⟩ := Option.bind_eq_some_iff.mp
              (Brackets.depthFrom_append.symm.trans inText)
            obtain ⟨outer, inRest⟩ := Brackets.exists_depthFrom_tail inAfter
            have piece := @matchAt_block inner after first
            rw [List.append_cons] at piece
            rw [List.append_cons, Pattern.remove_cons_of_some piece rfl,
              ← List.append_cons, outside, if_pos rfl, outside_inside first]
            refine induction after.length ?_ inRest rfl
            rw [← size, List.length_cons, List.length_append, List.length_cons]
            omega
          · have unmatched : Pattern.matchAt block (ch :: rest) = none := by
              rw [block, Pattern.matchAt, if_neg]
              intro starts
              rw [List.cons_prefix_cons] at starts
              exact opens starts.1.symm
            obtain ⟨outer, inRest⟩ := Brackets.exists_depthFrom_tail inText
            rw [Pattern.remove_cons_of_none unmatched, outside, if_neg opens,
              induction rest.length (by rw [← size]; exact Nat.lt_succ_self _)
                inRest rfl]

/-! ## Quotes -/

theorem plainQuotes_unquoted {text rest : Str} (noQuote : '"' ∉ text) :
    plainQuotes false (text ++ rest) = plainQuotes false rest := by
  induction text with
  | nil => rfl
  | cons ch text induction =>
      rw [List.mem_cons, not_or] at noQuote
      rw [List.cons_append, plainQuotes, if_neg (Ne.symm noQuote.1)]
      exact induction noQuote.2

theorem plain_of_quoted {text rest : Str} (noQuote : '"' ∉ text)
    (plain : plainQuotes true (text ++ rest)) :
    ∀ ch ∈ text, ch ∉ ['{', '}', '#', ';'] := by
  induction text with
  | nil => simp
  | cons ch text induction =>
      rw [List.mem_cons, not_or] at noQuote
      rw [List.cons_append, plainQuotes, if_neg (Ne.symm noQuote.1),
        Bool.and_eq_true] at plain
      refine List.forall_mem_cons.mpr ⟨?_, induction noQuote.2 plain.2⟩
      simpa using plain.1

/-- What ends a statement stands outside of quotes. -/
theorem plainQuotes_behind {quoted : Bool} {before rest : Str} {stop : Char}
    (isStop : stop ∈ ['{', '}', '#', ';'])
    (plain : plainQuotes quoted (before ++ stop :: rest)) :
    plainQuotes false rest := by
  induction before generalizing quoted with
  | nil =>
      have noQuote : stop ≠ '"' := by
        rintro rfl
        revert isStop
        decide
      rw [List.nil_append, plainQuotes, if_neg noQuote, Bool.and_eq_true]
        at plain
      cases quoted with
      | false => exact plain.2
      | true =>
          have none := plain.1
          rw [List.contains_iff_mem.mpr isStop] at none
          contradiction
  | cons ch before induction =>
      rw [List.cons_append, plainQuotes] at plain
      split at plain
      · exact induction plain
      · exact induction (Bool.and_eq_true_iff.mp plain).2

theorem quote_notMem_gap {gap : Str} (isGap : ∀ ch ∈ gap, isSpace ch) :
    '"' ∉ gap := by
  intro member
  have space := isGap '"' member
  revert space
  decide

theorem plainQuotes_of_begins {before rest : Str} (begins : Begins before)
    (plain : plainQuotes false (before ++ rest)) : plainQuotes false rest := by
  obtain ⟨front, gap, rfl, isGap, none | ⟨more, stop⟩⟩ := begins
  · rw [none, List.nil_append, plainQuotes_unquoted (quote_notMem_gap isGap)]
      at plain
    exact plain
  · have behindGap : plainQuotes false (gap ++ rest) := by
      obtain rfl | rfl := stop
      · rw [List.append_assoc, List.append_assoc] at plain
        exact plainQuotes_behind (by decide) plain
      · rw [List.append_assoc, List.append_assoc] at plain
        exact plainQuotes_behind (by decide) plain
    rwa [plainQuotes_unquoted (quote_notMem_gap isGap)] at behindGap

/-- A phrase outside of quotes has no braces. -/
theorem Names.free {phrase name rest : Str} (names : Names phrase name)
    (plain : plainQuotes false (phrase ++ rest)) : braces.Free phrase := by
  obtain ⟨first, second, isFirst, isSecond, noQuote, rfl⟩ := names
  have front : '"' ∉ chars "option" ++ first ++ chars "domain-name" ++
      second := by
    simp only [List.mem_append, not_or]
    exact ⟨⟨⟨by decide, quote_notMem_gap isFirst.2⟩, by decide⟩,
      quote_notMem_gap isSecond.2⟩
  rw [List.append_assoc, List.append_assoc, plainQuotes_unquoted front,
    List.cons_append, plainQuotes, if_pos rfl] at plain
  have inName := plain_of_quoted noQuote plain
  have freeName : braces.Free name :=
    ⟨fun member => inName _ member (by decide),
      fun member => inName _ member (by decide)⟩
  have freeOption : braces.Free (chars "option") := by decide
  have freeDomainName : braces.Free (chars "domain-name") := by decide
  have freeQuote : braces.Free ['"'] := by decide
  exact ((((freeOption.append (free_gap isFirst.2)).append
    freeDomainName).append (free_gap isSecond.2)).append
      (freeQuote.append freeName)).append freeQuote

/-! ## The first statement of the global scope -/

/-- The removal leaves a phrase that begins here. -/
def Left (text before name : Str) : Prop :=
  ∃ more, text = before ++ 'o' :: more ∧ insideAfter false before = false ∧
    Shows (outside false ('o' :: more)) name

section Global

variable {text before other name otherName : Str}

theorem Names.starts {phrase name : Str} (names : Names phrase name) :
    ∃ rest, phrase = 'o' :: rest := by
  obtain ⟨first, second, _, _, _, rfl⟩ := names
  exact ⟨_, rfl⟩

/-- A phrase without braces is left if the removal comes by. -/
theorem left_of_free {phrase after : Str} (names : Names phrase name)
    (free : braces.Free phrase) (text : Str)
    (split : text = before ++ phrase ++ after)
    (reached : insideAfter false before = false) : Left text before name := by
  obtain ⟨rest, isPhrase⟩ := names.starts
  refine ⟨rest ++ after, ?_, reached, phrase, outside false after, ?_, names⟩
  · rw [split, isPhrase, List.append_assoc, List.cons_append]
  · have stays := outside_of_free free
    rw [← List.cons_append, ← isPhrase, outside_append, stays.1, stays.2]

/-- A statement of the global scope has no brace in its phrase. -/
theorem GlobalAt.free (global : GlobalAt text before name)
    (plain : plainQuotes false text) :
    ∃ phrase after, Names phrase name ∧ braces.Free phrase ∧
      text = before ++ phrase ++ after := by
  obtain ⟨phrase, gap, after, names, isGap, split⟩ := global.stands
  rw [List.append_assoc] at split
  refine ⟨phrase, gap ++ ';' :: after, names, ?_, split⟩
  rw [split, List.append_assoc] at plain
  exact names.free (plainQuotes_of_begins global.begins plain)

/-- A statement of the global scope is left by the removal. -/
theorem GlobalAt.left (global : GlobalAt text before name)
    (plain : plainQuotes false text) : Left text before name := by
  obtain ⟨phrase, after, names, free, split⟩ := global.free plain
  exact left_of_free names free text split (insideAfter_global global.depth)

/-- What is left begins at its place in what the removal makes. -/
theorem Left.shown (left : Left text before name) :
    ∃ here, outside false text = outside false before ++ here ∧
      Shows here name := by
  obtain ⟨more, rfl, reached, shows⟩ := left
  exact ⟨_, by rw [outside_append, reached], shows⟩

/-- The removal keeps the order of the places. -/
theorem Left.outside_lt (left : Left text before name)
    (otherLeft : Left text other otherName)
    (earlier : before.length < other.length) :
    (outside false before).length < (outside false other).length := by
  obtain ⟨more, split, reached, _⟩ := left
  obtain ⟨otherMore, otherSplit, _, _⟩ := otherLeft
  have bothPrefixes : before <+: other := by
    apply @List.prefix_of_prefix_length_le _ _ _ text
    · exact ⟨_, split.symm⟩
    · exact ⟨_, otherSplit.symm⟩
    · exact Nat.le_of_lt earlier
  obtain ⟨between, rfl⟩ := bothPrefixes
  have starts : ∃ rest, between = 'o' :: rest := by
    cases between with
    | nil => simp at earlier
    | cons ch rest =>
        rw [split] at otherSplit
        simp only [List.append_assoc, List.cons_append,
          List.append_cancel_left_eq, List.cons.injEq] at otherSplit
        exact ⟨rest, by rw [otherSplit.1]⟩
  obtain ⟨rest, rfl⟩ := starts
  rw [outside_append, reached, outside, if_neg (by decide), List.length_append,
    List.length_cons]
  omega

/-- Every symbol of what the removal makes has its place in the text. -/
theorem exists_place {inside : Bool} {made rest : Str} {ch : Char}
    (split : outside inside text = made ++ ch :: rest) :
    ∃ before more, text = before ++ ch :: more ∧
      insideAfter inside before = false ∧ outside inside before = made ∧
      outside false (ch :: more) = ch :: rest := by
  induction text generalizing inside made with
  | nil => cases inside <;> simp [outside] at split
  | cons first text induction =>
      cases inside with
      | true =>
          rw [outside] at split
          obtain ⟨before, more, rfl, reached, isMade, stays⟩ := induction split
          exact ⟨first :: before, more, rfl, reached, isMade, stays⟩
      | false =>
          rw [outside] at split
          by_cases opens : first = '{'
          · rw [if_pos opens] at split
            obtain ⟨before, more, rfl, reached, isMade, stays⟩ :=
              induction split
            refine ⟨first :: before, more, rfl, ?_, ?_, stays⟩
            · rw [insideAfter, decide_eq_true opens]
              exact reached
            · rw [outside, if_pos opens]
              exact isMade
          · rw [if_neg opens] at split
            cases made with
            | nil =>
                obtain ⟨rfl, isRest⟩ := List.cons.inj split
                refine ⟨[], text, rfl, rfl, rfl, ?_⟩
                rw [outside, if_neg opens, isRest]
            | cons kept made =>
                obtain ⟨isKept, splitRest⟩ := List.cons.inj split
                obtain ⟨before, more, rfl, reached, isMade, stays⟩ :=
                  induction splitRest
                refine ⟨first :: before, more, rfl, ?_, ?_, stays⟩
                · rw [insideAfter, decide_eq_false opens]
                  exact reached
                · rw [outside, if_neg opens, isMade, isKept]

/-- What is shown first is the first phrase that is left. -/
theorem FirstShown.left {made : Str}
    (shown : FirstShown (outside false text) made name) :
    ∃ before, Left text before name ∧
      ∀ other otherName, Left text other otherName →
        before.length ≤ other.length := by
  obtain ⟨here, split, shows, first⟩ := shown
  obtain ⟨phrase, after, isHere, names⟩ := shows
  obtain ⟨rest, isPhrase⟩ := names.starts
  rw [isHere, isPhrase, List.cons_append] at split
  obtain ⟨before, more, isText, reached, isMade, stays⟩ := exists_place split
  have left : Left text before name :=
    ⟨more, isText, reached, phrase, after, by rw [stays, isPhrase]; rfl, names⟩
  refine ⟨before, left, ?_⟩
  intro other otherName otherLeft
  by_contra earlier
  obtain ⟨there, otherSplit, otherShows⟩ := otherLeft.shown
  have notEarlier := first _ _ _ otherSplit otherShows
  have shorter := otherLeft.outside_lt left (by omega)
  rw [isMade] at shorter
  omega

theorem Left.unique (left : Left text before name)
    (otherLeft : Left text before otherName) : name = otherName := by
  obtain ⟨more, split, _, shows⟩ := left
  obtain ⟨otherMore, otherSplit, _, otherShows⟩ := otherLeft
  rw [split, List.append_cancel_left_eq, List.cons.injEq] at otherSplit
  rw [← otherSplit.2] at otherShows
  exact shows.unique otherShows

/-- Two places of the same text of the same length are the same. -/
theorem Left.eq_of_length (left : Left text before name)
    (otherLeft : Left text other otherName)
    (same : before.length = other.length) : before = other := by
  obtain ⟨more, split, _⟩ := left
  obtain ⟨otherMore, otherSplit, _⟩ := otherLeft
  rw [split] at otherSplit
  exact (List.append_inj otherSplit same).1

theorem FirstGlobal.unique (plain : plainQuotes false text)
    (isFirst : FirstGlobal text name) (otherFirst : FirstGlobal text otherName) :
    name = otherName := by
  obtain ⟨before, global, least⟩ := isFirst
  obtain ⟨other, otherGlobal, otherLeast⟩ := otherFirst
  have sameLength := Nat.le_antisymm (least _ _ otherGlobal)
    (otherLeast _ _ global)
  have left := global.left plain
  have otherLeft := otherGlobal.left plain
  have same := left.eq_of_length otherLeft sameLength
  rw [← same] at otherLeft
  exact left.unique otherLeft

end Global

/-! ## Options that stray into the global scope -/

/-- Every block that was opened is closed, or has an inner block behind the
place. -/
def Exposed (before : Str) : Prop :=
  ∀ front tail, before = front ++ '{' :: tail → '}' ∈ tail

/-- Behind `before` an option names a domain, but is no statement of the global
scope. -/
inductive Stray (text before name : Str) : Prop where
  /-- It stands behind an inner block of the block that it is in. -/
  | behindBlock {phrase after : Str} {depth : Nat}
      (split : text = before ++ phrase ++ after) (names : Names phrase name)
      (free : braces.Free phrase)
      (inBlock : braces.depthFrom 0 before = some (depth + 1))
      (exposed : Exposed before)
  /-- It stands at depth 0, but not as a whole statement. -/
  | unfinished {phrase after : Str}
      (split : text = before ++ phrase ++ after) (names : Names phrase name)
      (free : braces.Free phrase)
      (outer : braces.depthFrom 0 before = some 0)
      (unfinished : ¬ GlobalAt text before name)
  /-- A block stands in the middle of it. -/
  | interrupted {more : Str} (split : text = before ++ 'o' :: more)
      (exposed : Exposed before)
      (shows : Shows (outside false ('o' :: more)) name)
      (broken : ∀ phrase after, 'o' :: more = phrase ++ after →
        Names phrase name → ¬ braces.Free phrase)

/-- No option strays in front of the first global statement of its kind, or at
all if there is none. -/
def GlobalFirst (text : Str) : Prop :=
  ∀ before name, Stray text before name →
    ∃ start other, GlobalAt text start other ∧ start.length < before.length

section Stray

variable {text before name : Str}

theorem insideAfter_of_exposed {inside : Bool}
    (exposed : Exposed before) (opened : inside → '}' ∈ before) :
    insideAfter inside before = false := by
  induction before generalizing inside with
  | nil =>
      cases inside with
      | false => rfl
      | true => simp at opened
  | cons ch rest induction =>
      have exposedRest : Exposed rest := fun front tail split =>
        exposed (ch :: front) tail (by rw [split, List.cons_append])
      cases inside with
      | true =>
          rw [insideAfter]
          refine induction exposedRest ?_
          intro still
          have other := of_decide_eq_true still
          rcases List.mem_cons.mp (opened rfl) with same | member
          · exact absurd same.symm other
          · exact member
      | false =>
          rw [insideAfter]
          refine induction exposedRest ?_
          intro opens
          exact exposed [] rest (by rw [of_decide_eq_true opens]; rfl)

theorem exposed_of_insideAfter {inside : Bool}
    (reached : insideAfter inside before = false) :
    Exposed before ∧ (inside → '}' ∈ before) := by
  induction before generalizing inside with
  | nil =>
      refine ⟨?_, ?_⟩
      · intro front tail split
        simp at split
      · intro isInside
        rw [isInside] at reached
        cases reached
  | cons ch rest induction =>
      cases inside with
      | true =>
          rw [insideAfter] at reached
          obtain ⟨exposed, closes⟩ := induction reached
          have member : '}' ∈ ch :: rest := by
            by_cases isClosing : ch = '}'
            · rw [isClosing]
              exact List.mem_cons_self
            · exact List.mem_cons_of_mem _ (closes (decide_eq_true isClosing))
          refine ⟨?_, fun _ => member⟩
          intro front tail split
          cases front with
          | nil =>
              obtain ⟨rfl, rfl⟩ := List.cons.inj split
              exact closes (by decide)
          | cons _ front => exact exposed front tail (List.cons.inj split).2
      | false =>
          rw [insideAfter] at reached
          obtain ⟨exposed, closes⟩ := induction reached
          refine ⟨?_, by simp⟩
          intro front tail split
          cases front with
          | nil =>
              obtain ⟨rfl, rfl⟩ := List.cons.inj split
              exact closes (by decide)
          | cons _ front => exact exposed front tail (List.cons.inj split).2

/-- The removal leaves what strays. -/
theorem Stray.left (stray : Stray text before name) : Left text before name := by
  cases stray with
  | behindBlock split names free inBlock exposed =>
      exact left_of_free names free text split
        (insideAfter_of_exposed exposed (by simp))
  | unfinished split names free outer unfinished =>
      exact left_of_free names free text split (insideAfter_global outer)
  | interrupted split exposed shows broken =>
      exact ⟨_, split, insideAfter_of_exposed exposed (by simp), shows⟩

/-- What strays is no statement of the global scope. -/
theorem Stray.not_globalAt (stray : Stray text before name)
    (plain : plainQuotes false text) {other : Str} :
    ¬ GlobalAt text before other := by
  intro global
  obtain rfl := stray.left.unique (global.left plain)
  cases stray with
  | behindBlock _ _ _ inBlock _ =>
      rw [global.depth] at inBlock
      simp at inBlock
  | unfinished _ _ _ _ unfinished => exact unfinished global
  | interrupted split _ _ broken =>
      obtain ⟨phrase, after, names, free, isText⟩ := global.free plain
      rw [split, List.append_assoc, List.append_cancel_left_eq] at isText
      exact broken phrase after isText names free

/-- What the removal leaves is a global statement or strays. -/
theorem Left.stray (left : Left text before name)
    (balanced : braces.Balanced text) (other : ¬ GlobalAt text before name) :
    Stray text before name := by
  obtain ⟨more, split, reached, shows⟩ := left
  have exposed := (exposed_of_insideAfter reached).1
  by_cases whole : ∃ phrase after, 'o' :: more = phrase ++ after ∧
      Names phrase name ∧ braces.Free phrase
  · obtain ⟨phrase, after, isHere, names, free⟩ := whole
    rw [isHere, ← List.append_assoc] at split
    have inText := balanced
    rw [Brackets.Balanced, split, List.append_assoc,
      Brackets.depthFrom_append] at inText
    obtain ⟨depth, isDepth, _⟩ := Option.bind_eq_some_iff.mp inText
    cases depth with
    | zero => exact .unfinished split names free isDepth other
    | succ depth => exact .behindBlock split names free isDepth exposed
  · refine .interrupted split exposed shows ?_
    intro phrase after isHere names free
    exact whole ⟨phrase, after, isHere, names, free⟩

end Stray

/-! ## When the global scope sets the global domain name -/

section DomainName

variable {raw : Str} {interfaces : List Str} {validLifetime : Option Nat}
variable {context : Context}

/-- `parse` returns the first phrase that the removal leaves. -/
theorem domainName_eq_some_iff
    (returned : parse raw interfaces validLifetime = .ok context)
    (balanced : braces.Balanced (uncommented raw)) {name : Str} :
    context.domainName = some name ↔
      ∃ made, FirstShown (outside false (uncommented raw)) made name := by
  obtain ⟨reading, parsed⟩ := parse_eq_ok returned
  rw [parsed.domainName, remove_block balanced]
  exact searchGroup_domainName_eq_some_iff

/-- `parse` returns the domain name of the first global statement unless an
option strays in front of it.  If one does, it returns that name only if a
global statement further on happens to have the name of one that strays. -/
theorem domainName_global
    (returned : parse raw interfaces validLifetime = .ok context)
    (balanced : braces.Balanced (uncommented raw))
    (plain : plainQuotes false (uncommented raw)) :
    (GlobalFirst (uncommented raw) →
      ∀ name, context.domainName = some name ↔
        FirstGlobal (uncommented raw) name) ∧
    ((∀ name, context.domainName = some name ↔
        FirstGlobal (uncommented raw) name) →
      GlobalFirst (uncommented raw) ∨
        ∃ before start name, Stray (uncommented raw) before name ∧
          GlobalAt (uncommented raw) start name ∧
          before.length < start.length) := by
  constructor
  · intro globalFirst
    -- The first phrase that is left is a global statement.
    have first : ∀ made name,
        FirstShown (outside false (uncommented raw)) made name →
        FirstGlobal (uncommented raw) name := by
      intro made name shown
      obtain ⟨before, left, least⟩ := shown.left
      refine ⟨before, ?_, ?_⟩
      · by_contra other
        obtain ⟨start, _, global, earlier⟩ :=
          globalFirst before name (left.stray balanced other)
        have notEarlier := least _ _ (global.left plain)
        omega
      · intro other otherName global
        exact least _ _ (global.left plain)
    intro name
    rw [domainName_eq_some_iff returned balanced]
    constructor
    · intro ⟨made, shown⟩
      exact first made name shown
    · intro isFirst
      have ⟨start, global, _⟩ := isFirst
      obtain ⟨here, split, shows⟩ := (global.left plain).shown
      obtain ⟨made, other, shown⟩ := exists_firstShown split shows
      obtain rfl := (first made other shown).unique plain isFirst
      exact ⟨made, shown⟩
  · intro meets
    by_contra neither
    obtain ⟨notFirst, noOther⟩ := not_or.mp neither
    apply notFirst
    intro before name stray
    by_contra noGlobal
    obtain ⟨here, split, shows⟩ := stray.left.shown
    obtain ⟨made, found, shown⟩ := exists_firstShown split shows
    obtain ⟨place, left, least⟩ := shown.left
    obtain ⟨start, global, _⟩ := (meets found).mp
      ((domainName_eq_some_iff returned balanced).mpr ⟨made, shown⟩)
    -- What is left first strays, as no global statement is that early.
    have notEarlier := least _ _ stray.left
    have behind : ∀ start other, GlobalAt (uncommented raw) start other →
        before.length ≤ start.length := by
      intro start other global
      by_contra earlier
      exact noGlobal ⟨start, other, global, by omega⟩
    have strays : Stray (uncommented raw) place found := by
      apply left.stray balanced
      intro isGlobal
      have same := left.eq_of_length stray.left
        (Nat.le_antisymm notEarlier (behind _ _ isGlobal))
      rw [same] at isGlobal
      exact stray.not_globalAt plain isGlobal
    have later : place.length < start.length := by
      have notBehind := behind _ _ global
      by_contra earlier
      have same := left.eq_of_length (global.left plain) (by omega)
      rw [← same] at global
      exact strays.not_globalAt plain global
    exact noOther ⟨place, start, found, strays, global, later⟩

end DomainName

/-- Without the word `option` at depth 0 the global scope names no domain. -/
theorem not_firstGlobal {text : Str}
    (nowhere : ∀ length ≤ text.length,
      braces.depthFrom 0 (text.take length) = some 0 →
        ¬ chars "option" <+: text.drop length) (name : Str) :
    ¬ FirstGlobal text name := by
  intro ⟨before, global, _⟩
  obtain ⟨phrase, gap, after, names, _, split⟩ := global.stands
  obtain ⟨first, second, _, _, _, rfl⟩ := names
  have fits : before.length ≤ text.length := by
    rw [split]
    simp only [List.length_append]
    omega
  rw [List.append_assoc, List.append_assoc] at split
  apply nowhere before.length fits
  · rw [split, List.take_left]
    exact global.depth
  · rw [split, List.drop_left]
    simp only [List.append_assoc]
    exact List.prefix_append _ _

namespace Sample

def context (domainName : Option Str) : Context :=
  { enabled := true
    interfaces := [chars "eth0"]
    subnets :=
      [{ subnet := chars "10.0.0.0/8"
         routers := none
         dns := none
         nextServer := none
         bootFile := none
         pool := chars "10.0.0.1 - 10.0.0.9"
         reservations := [] }]
    domainName
    validLifetime := none
    maxValidLifetime := none }

/-- The subnet's own option stands behind its pool. -/
def inner : Str :=
  chars "subnet 10.0.0.0 netmask 255.0.0.0 \x7b\n" ++
    chars "pool \x7b range 10.0.0.1 10.0.0.9; \x7d\n" ++
    chars "option domain-name \"inner\";\n\x7d"

theorem domainName_leaks :
    parse inner [chars "eth0"] none =
      .ok (context (some (chars "inner"))) ∧
    braces.Balanced (uncommented inner) ∧
    plainQuotes false (uncommented inner) ∧
    ∀ name, ¬ FirstGlobal (uncommented inner) name := by
  refine ⟨by decide +kernel, by decide +kernel, by decide +kernel, ?_⟩
  apply not_firstGlobal
  decide

/-- A global option in front of the same subnet -/
def global : Str :=
  chars "option domain-name \"outer\";#\n" ++ inner

theorem outer_globalAt :
    GlobalAt (uncommented global) [] (chars "outer") := by
  refine ⟨⟨chars "option domain-name \"outer\"", [], (uncommented global).drop 27,
    ?_, by simp, by decide⟩, ⟨[], [], rfl, by simp, .inl rfl⟩, rfl⟩
  have gap : IsGap [' '] := ⟨by decide, by simp [isSpace]⟩
  exact ⟨[' '], [' '], gap, gap, by decide, by decide⟩

theorem globalFirst_global : GlobalFirst (uncommented global) := by
  intro before name stray
  refine ⟨[], chars "outer", outer_globalAt, ?_⟩
  apply List.length_pos_of_ne_nil
  intro atStart
  rw [atStart] at stray
  exact stray.not_globalAt (by decide) outer_globalAt

theorem domainName_global_outer :
    parse global [chars "eth0"] none =
      .ok (context (some (chars "outer"))) ∧
    ∀ name, (context (some (chars "outer"))).domainName = some name ↔
      FirstGlobal (uncommented global) name := by
  have returned : parse global [chars "eth0"] none =
      .ok (context (some (chars "outer"))) := by
    decide +kernel
  constructor
  · exact returned
  · apply (domainName_global returned (by decide) (by decide)).1
    exact globalFirst_global

end Sample

end FfmucSalt.DhcpServer.DhcpdConf
