import FfmucSalt.DhcpServer.DhcpdConf
import FfmucSalt.DhcpServer.FlatFile

/-!
# The blocks of a flat file

`_blocks` counts braces and takes the header of a block from what stands
between it and the block before it.
-/

namespace FfmucSalt.DhcpServer.DhcpdConf

open Python

/-! ## Headers -/

section Headers

variable {before header : Str}

theorem getLastD_splitOn {text : Str} (noSemicolon : ';' ∉ header) :
    ((text ++ ';' :: header).splitOn ';').getLastD [] = header := by
  rw [List.splitOn_append_cons_self, List.splitOn_eq_singleton noSemicolon,
    List.getLastD_eq_getLast?, List.getLast?_concat]
  rfl

theorem notMem_strip {ch : Char} {text : Str} (absent : ch ∉ text) :
    ch ∉ strip text := by
  intro member
  apply absent
  exact (List.dropWhile_suffix isSpace).subset
    ((List.rdropWhile_prefix isSpace _).subset member)

/-- What stands between two blocks: statements and the header of the second. -/
theorem header_eq (noSemicolon : ';' ∉ header)
    (statements : before = [] ∨ ∃ text, before = text ++ [';']) :
    DhcpdConf.header (before ++ header) = strip header := by
  obtain rfl | ⟨text, rfl⟩ := statements
  · rw [List.nil_append, DhcpdConf.header,
      List.splitOn_eq_singleton (notMem_strip noSemicolon)]
    exact strip_strip
  · have noneLeft : ';' ∉ header.rdropWhile isSpace :=
      fun member =>
        noSemicolon ((List.rdropWhile_prefix isSpace _).subset member)
    rw [DhcpdConf.header, List.append_assoc, List.singleton_append,
      strip_append_cons (by decide), getLastD_splitOn noneLeft,
      strip_rdropWhile]

end Headers

/-! ## Counting braces -/

section Scan

variable {whole text rest : Str} {scan : Scan} {position : Nat} {ch : Char}

theorem next_other (notOpening : ch ≠ '{') (notClosing : ch ≠ '}') :
    Scan.next whole scan (ch, position) = scan := by
  simp [Scan.next, notOpening, notClosing]

theorem next_opening : Scan.next whole scan ('{', position) =
    { scan with
      depth := scan.depth + 1
      start := if scan.depth = 0 then position else scan.start } := by
  simp [Scan.next]

theorem next_closing_inner (inner : scan.depth ≠ 1) :
    Scan.next whole scan ('}', position) =
      { scan with depth := scan.depth - 1 } := by
  have deeper : scan.depth - 1 ≠ 0 := by omega
  simp [Scan.next, deeper]

theorem next_closing (outer : scan.depth = 1) :
    Scan.next whole scan ('}', position) =
      { scan with
        depth := 0
        headStart := position + 1
        blocks := scan.blocks ++
          [(DhcpdConf.header (slice scan.headStart scan.start whole),
            slice (scan.start + 1) position whole)] } := by
  simp [Scan.next, outer]

theorem scan_free (free : braces.Free text) :
    (text.zipIdx position).foldl (Scan.next whole) scan = scan := by
  induction text generalizing position with
  | nil => rfl
  | cons ch text induction =>
      obtain ⟨noOpening, noClosing⟩ := free
      rw [List.mem_cons, not_or] at noOpening noClosing
      rw [List.zipIdx_cons, List.foldl_cons,
        next_other (Ne.symm noOpening.1) (Ne.symm noClosing.1)]
      exact induction ⟨noOpening.2, noClosing.2⟩

/-- Inside a block only the depth changes. -/
theorem scan_inside {depth after : Nat}
    (inText : braces.depthFrom depth text = some after) :
    (text.zipIdx position).foldl (Scan.next whole)
        { scan with depth := depth + 1 } =
      { scan with depth := after + 1 } := by
  induction text generalizing depth position with
  | nil =>
      obtain rfl := Option.some.inj inText
      rfl
  | cons ch text induction =>
      rw [List.zipIdx_cons, List.foldl_cons]
      obtain ⟨opens, inRest⟩ | ⟨closes, outer, rfl, inRest⟩ |
        ⟨notOpening, notClosing, inRest⟩ :=
          Brackets.depthFrom_cons_eq_some.mp inText
      · obtain rfl : ch = '{' := opens
        have notGlobal : (depth + 1 : Int) ≠ 0 := by omega
        rw [next_opening]
        simp only [notGlobal, if_false]
        exact induction inRest
      · obtain rfl : ch = '}' := closes
        have inner : ((outer + 1 : Nat) : Int) + 1 ≠ 1 := by omega
        have shallower : ((outer + 1 : Nat) : Int) + 1 - 1 = outer + 1 := by
          omega
        rw [next_closing_inner inner]
        simp only [shallower]
        exact induction inRest
      · rw [next_other notOpening notClosing]
        exact induction inRest

/-- Between two items: `before` ends with the last block, and what stands
behind it so far are statements. -/
structure Between (whole before pending rest : Str) (scan : Scan) : Prop where
  split : whole = before ++ pending ++ rest
  depth : scan.depth = 0
  headStart : scan.headStart = before.length
  statements : pending = [] ∨ ∃ text, pending = text ++ [';']

theorem slice_append {before middle after : Str} {start stop : Nat}
    (isStart : start = before.length)
    (isStop : stop = before.length + middle.length) :
    slice start stop (before ++ middle ++ after) = middle := by
  rw [slice, isStart, isStop, ← List.length_append, List.take_left,
    List.drop_left]

/-- A block is found with its header and its body. -/
theorem Between.block {before pending header body : Str}
    (between : Between whole before pending
      (header ++ '{' :: (body ++ ['}']) ++ rest) scan)
    (plain : Plain header) (balanced : braces.Balanced body) :
    ∃ next, ((header ++ '{' :: (body ++ ['}'])).zipIdx
        (before ++ pending).length).foldl (Scan.next whole) scan = next ∧
      Between whole
        (before ++ pending ++ (header ++ '{' :: (body ++ ['}']))) [] rest next ∧
      next.blocks = scan.blocks ++ [(strip header, body)] := by
  have headerSlice : slice scan.headStart
      ((before ++ pending).length + header.length) whole =
        pending ++ header := by
    rw [between.split, show before ++ pending ++
        (header ++ '{' :: (body ++ ['}']) ++ rest) = before ++
          (pending ++ header) ++ ('{' :: (body ++ ['}']) ++ rest) by simp]
    exact slice_append between.headStart (by
      simp only [List.length_append]
      omega)
  have bodySlice : slice ((before ++ pending).length + header.length + 1)
      ((before ++ pending).length + header.length + 1 + body.length) whole =
        body := by
    rw [between.split, show before ++ pending ++
        (header ++ '{' :: (body ++ ['}']) ++ rest) =
          (before ++ pending ++ header ++ ['{']) ++ body ++
            ('}' :: rest) by simp]
    apply slice_append
    · simp only [List.length_append, List.length_cons, List.length_nil]
    · simp only [List.length_append, List.length_cons, List.length_nil]
  have inBody : (body.zipIdx
      ((before ++ pending).length + header.length + 1)).foldl (Scan.next whole)
        { depth := 0 + 1
          start := (before ++ pending).length + header.length
          headStart := scan.headStart
          blocks := scan.blocks } =
        { depth := 0 + 1
          start := (before ++ pending).length + header.length
          headStart := scan.headStart
          blocks := scan.blocks } :=
    @scan_inside whole body
      { depth := 0 + 1
        start := (before ++ pending).length + header.length
        headStart := scan.headStart
        blocks := scan.blocks } _ 0 0 balanced
  refine ⟨_, rfl, ?_⟩
  rw [List.zipIdx_append, List.foldl_append, scan_free plain.2,
    List.zipIdx_cons, List.foldl_cons, next_opening, between.depth, if_pos rfl,
    List.zipIdx_append, List.foldl_append, inBody, List.zipIdx_singleton,
    List.foldl_cons, List.foldl_nil, next_closing rfl]
  dsimp only
  rw [headerSlice, bodySlice, header_eq plain.1 between.statements]
  constructor
  · exact
      { split := by
          rw [between.split]
          simp only [List.append_assoc, List.append_nil]
        depth := rfl
        headStart := by
          simp only [List.length_append, List.length_cons, List.length_nil]
          omega
        statements := .inl rfl }
  · rfl

theorem Between.statement {before pending : Str} {statement : Statement}
    (between : Between whole before pending
      (statement.text ++ [';'] ++ rest) scan) :
    ((statement.text ++ [';']).zipIdx (before ++ pending).length).foldl
        (Scan.next whole) scan = scan ∧
      Between whole before (pending ++ (statement.text ++ [';'])) rest scan := by
  have freeSemicolon : braces.Free [';'] := by decide
  constructor
  · exact scan_free (statement.plain.2.append freeSemicolon)
  · exact
      { split := by
          rw [between.split]
          simp only [List.append_assoc]
        depth := between.depth
        headStart := between.headStart
        statements := .inr ⟨pending ++ statement.text, by
          rw [List.append_assoc]⟩ }

theorem Between.item {before pending : Str} {item : Item}
    (between : Between whole before pending (item.text ++ rest) scan) :
    ∃ next before' pending', (item.text.zipIdx
        (before ++ pending).length).foldl (Scan.next whole) scan = next ∧
      Between whole before' pending' rest next ∧
      before' ++ pending' = before ++ pending ++ item.text ∧
      next.blocks = scan.blocks ++ item.block?.toList := by
  cases item with
  | statement statement =>
      obtain ⟨unchanged, next⟩ := between.statement
      exact ⟨scan, before, _, unchanged, next, by simp [Item.text],
        by simp [Item.block?]⟩
  | subnet subnet =>
      obtain ⟨next, run, isBetween, found⟩ :=
        between.block subnet.plain (balanced_body subnet)
      exact ⟨next, _, [], run, isBetween, by simp [Item.text], found⟩
  | host host =>
      obtain ⟨next, run, isBetween, found⟩ :=
        between.block host.plain (Brackets.depthFrom_of_free host.free)
      exact ⟨next, _, [], run, isBetween, by simp [Item.text], found⟩

theorem Between.items {before pending : Str} {items : List Item}
    (between : Between whole before pending
      (items.flatMap Item.text ++ rest) scan) :
    ∃ next, ((items.flatMap Item.text).zipIdx
        (before ++ pending).length).foldl (Scan.next whole) scan = next ∧
      next.blocks = scan.blocks ++ items.filterMap Item.block? := by
  induction items generalizing before pending scan with
  | nil => exact ⟨scan, rfl, by simp⟩
  | cons item items induction =>
      rw [List.flatMap_cons, List.append_assoc] at between
      obtain ⟨next, before', pending', run, isBetween, consumed, found⟩ :=
        between.item
      obtain ⟨last, runRest, foundRest⟩ := induction isBetween
      refine ⟨last, ?_, ?_⟩
      · rw [List.flatMap_cons, List.zipIdx_append, List.foldl_append, run,
          ← List.length_append, ← consumed, runRest]
      · rw [foundRest, found, List.append_assoc]
        cases item <;> rfl

end Scan

/-- `_blocks` yields the blocks of a flat file in order, with their headers. -/
theorem blocks_text (file : FlatFile) : blocks file.text = file.blocks := by
  have start : Between file.text [] [] file.text
      { depth := 0, start := 0, headStart := 0, blocks := [] } :=
    { split := rfl, depth := rfl, headStart := rfl, statements := .inl rfl }
  obtain ⟨next, run, found⟩ := start.items
  rw [blocks, FlatFile.text, List.zipIdx_append, List.foldl_append,
    scan_free file.free]
  exact (congrArg Scan.blocks run).trans found

end FfmucSalt.DhcpServer.DhcpdConf
