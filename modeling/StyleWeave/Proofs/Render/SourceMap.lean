import StyleWeave.Proofs.Render.Splicing
import StyleWeave.Proofs.Syntax.OneLine

/-!
# Source maps are exact

The mappings of a pass tell of each line of its output where it comes from, rules apart
(`source_map_of_rendered`). The output itself has one defect: if it is a single empty line, its CSS
is the empty text, and the mapping of the line leads nowhere (`mapping_of_nothing`).
-/

namespace StyleWeave.Inline

open Text (solid)

/-! ## Mappings of written lines -/

namespace Write

variable {output : Nat} {writes : List Write}

theorem le_output {m : Mapping} (h : m ∈ mappings output writes) : output ≤ m.output := by
  induction writes generalizing output with
  | nil => cases h
  | cons w rest ih =>
    cases w with
    | rule indent s =>
      have hrest := ih h
      omega
    | mapped s index number =>
      rcases List.mem_cons.1 h with rfl | h
      · exact Nat.le_refl _
      · have hrest := ih h
        omega

/-- The mappings lead to lines further and further down. -/
theorem pairwise_mappings (output : Nat) (writes : List Write) :
    (mappings output writes).Pairwise fun a b => a.output < b.output := by
  induction writes generalizing output with
  | nil => exact List.Pairwise.nil
  | cons w rest ih =>
    cases w with
    | rule indent s => exact ih (output + 1)
    | mapped s index number =>
      refine List.Pairwise.cons (fun m hm => ?_) (ih (output + 1))
      have hle := le_output hm
      show output < m.output
      omega

end Write

/-- The lines that mappings lead to, with the source and the line that they come from. -/
def mappedLines (lines : List String) (mappings : List Mapping) : List (Nat × Nat × String) :=
  mappings.filterMap fun m => (lines[m.output]?).map fun s => (m.source, m.line, s)

theorem mappedLines_mappings (before : List String) (writes : List Write) :
    mappedLines (before ++ writes.map Write.line) (Write.mappings before.length writes) =
      writes.filterMap Write.origin? := by
  induction writes generalizing before with
  | nil => rfl
  | cons w rest ih =>
    have hrest := ih (before ++ [w.line])
    rw [List.length_append, List.length_singleton, List.append_assoc,
      List.singleton_append] at hrest
    have hline : (before ++ (w :: rest).map Write.line)[before.length]? = some w.line := by
      rw [List.getElem?_append_right (Nat.le_refl _)]
      simp
    cases w with
    | rule indent s => exact hrest
    | mapped s index number =>
      rw [Write.mappings, mappedLines, List.filterMap_cons, hline, ← mappedLines]
      exact congrArg ((index, number, s) :: ·) hrest

/-- The lines from line `output` on that no mapping leads to. -/
def unmappedLines (mappings : List Mapping) (output : Nat) (lines : List String) : List String :=
  ((lines.zipIdx output).filter fun x => x.2 ∉ mappings.map Mapping.output).map Prod.fst

theorem unmappedLines_cons (mappings : List Mapping) (output : Nat) (s : String)
    (lines : List String) :
    unmappedLines mappings output (s :: lines) =
      if output ∈ mappings.map Mapping.output then unmappedLines mappings (output + 1) lines
      else s :: unmappedLines mappings (output + 1) lines := by
  unfold unmappedLines
  rw [List.zipIdx_cons, List.filter_cons]
  by_cases h : output ∈ mappings.map Mapping.output <;> simp [h]

/-- A mapping of an earlier line makes no difference. -/
theorem unmappedLines_of_earlier (m : Mapping) (mappings : List Mapping) {output : Nat}
    (h : m.output < output) (lines : List String) :
    unmappedLines (m :: mappings) output lines = unmappedLines mappings output lines := by
  induction lines generalizing output with
  | nil => rfl
  | cons s rest ih =>
    have hne : output ≠ m.output := by omega
    rw [unmappedLines_cons, unmappedLines_cons, ih (by omega)]
    simp [hne]

/-- The rules among some lines. -/
def Write.rule? : Write → Option String
  | .rule _ s => some s
  | .mapped _ _ _ => none

/-- The lines that no mapping leads to are the rules, indented. -/
theorem unmappedLines_mappings (output : Nat) (writes : List Write)
    (h : ∀ indent s, .rule indent s ∈ writes → IsIndent indent) :
    List.Forall₂ (fun line rule => ∃ indent, IsIndent indent ∧ line = indent ++ rule)
      (unmappedLines (Write.mappings output writes) output (writes.map Write.line))
      (writes.filterMap Write.rule?) := by
  induction writes generalizing output with
  | nil => exact .nil
  | cons w rest ih =>
    have hrest := ih (output + 1) fun indent s hs => h indent s (List.mem_cons_of_mem _ hs)
    rw [List.map_cons, unmappedLines_cons]
    cases w with
    | rule indent s =>
      have hnone : output ∉ (Write.mappings (output + 1) rest).map Mapping.output := by
        intro hm
        obtain ⟨m, hm, heq⟩ := List.mem_map.1 hm
        have hle := Write.le_output hm
        omega
      rw [Write.mappings, if_neg hnone]
      exact .cons ⟨indent, h indent s List.mem_cons_self, rfl⟩ hrest
    | mapped s index number =>
      have hsome : output ∈ (Write.mappings output (.mapped s index number :: rest)).map
          Mapping.output := List.mem_cons_self
      rw [if_pos hsome, Write.mappings, unmappedLines_of_earlier _ _ (Nat.lt_succ_self output)]
      exact hrest

/-- Behind each mapping there is a line that was written with it. -/
theorem mapped_of_mem_mappings {before : List String} {writes : List Write} {m : Mapping}
    (h : m ∈ Write.mappings before.length writes) :
    ∃ s, (before ++ writes.map Write.line)[m.output]? = some s ∧
      .mapped s m.source m.line ∈ writes := by
  induction writes generalizing before with
  | nil => cases h
  | cons w rest ih =>
    have hrest : m ∈ Write.mappings (before.length + 1) rest →
        ∃ s, (before ++ (w :: rest).map Write.line)[m.output]? = some s ∧
          .mapped s m.source m.line ∈ w :: rest := by
      intro hm
      have hlength : (before ++ [w.line]).length = before.length + 1 := by simp
      rw [← hlength] at hm
      obtain ⟨s, hs, hwritten⟩ := ih hm
      rw [List.append_assoc, List.singleton_append] at hs
      exact ⟨s, hs, List.mem_cons_of_mem _ hwritten⟩
    cases w with
    | rule indent s => exact hrest h
    | mapped s index number =>
      rcases List.mem_cons.1 h with rfl | hm
      · refine ⟨s, ?_, List.mem_cons_self⟩
        show (before ++ s :: rest.map Write.line)[before.length]? = some s
        rw [List.getElem?_append_right (Nat.le_refl _), Nat.sub_self]
        rfl
      · exact hrest hm

/-! ## Rules -/

/-- The rule that a piece is. -/
def Piece.rule? : Piece → Option String
  | .kept _ => none
  | .rule s => some s

theorem rules_of_marks {pieces : List Piece} {writes : List Write}
    (h : pieces.flatMap Piece.marks = writes.flatMap Write.marks) :
    pieces.filterMap Piece.rule? = writes.filterMap Write.rule? := by
  have hkept : ∀ rows : List (List Char), (rows.map Sum.inl).filterMap
      (Sum.getRight? : List Char ⊕ String → Option String) = [] := by
    intro rows
    refine List.filterMap_eq_nil_iff.2 fun x hx => ?_
    obtain ⟨c, -, rfl⟩ := List.mem_map.1 hx
    rfl
  have hpieces : (pieces.flatMap Piece.marks).filterMap Sum.getRight? =
      pieces.filterMap Piece.rule? := by
    clear h
    induction pieces with
    | nil => rfl
    | cons piece rest ih =>
      rw [List.flatMap_cons, List.filterMap_append, ih]
      cases piece with
      | kept cs => rw [Piece.marks, hkept]; rfl
      | rule s => rfl
  have hwrites : (writes.flatMap Write.marks).filterMap Sum.getRight? =
      writes.filterMap Write.rule? := by
    clear h hpieces
    induction writes with
    | nil => rfl
    | cons w rest ih =>
      rw [List.flatMap_cons, List.filterMap_append, ih]
      cases w with
      | rule indent s => rfl
      | mapped s index number => rw [Write.marks, hkept]; rfl
  rw [← hpieces, h, hwrites]

/-! ## Lines -/

theorem named_of_oneLine {site : ImportSite} (h : site.OneLine) :
    Named OneLine (site.statement.exprs.zip site.names) := by
  rintro ⟨expr, name⟩ he
  obtain ⟨hexpr, hname⟩ := List.of_mem_zip he
  refine ⟨fun t ht => ?_, fun name hsome => ?_⟩
  · have hexpr' : expr.OneLine := h.1 expr hexpr
    have ht' : urlTarget? expr = some t := ht
    unfold urlTarget? at ht'
    split at ht'
    · rw [← Option.some.inj ht']
      cases hexpr' with
      | call hargs =>
        cases hargs _ List.mem_cons_self with
        | literal htext => exact htext
    · rw [← Option.some.inj ht']
      exact fun hm => by cases hm
    · cases ht'
  · exact h.2 name (hsome ▸ hname)

theorem IsIndent.oneLine {s : String} (h : IsIndent s) : OneLine s :=
  fun hm => (h '\n' hm).2 rfl

theorem oneLine_urlRule {t : String} (h : OneLine t) : OneLine (urlRule t) :=
  (OneLine.append (by decide) h).append (by decide)

theorem oneLine_nameRule {t : String} (h : OneLine t) : OneLine (nameRule t) :=
  (OneLine.append (by decide) h).append (by decide)

/-- No line that is written is broken. -/
theorem oneLine_of_from {D : Path → String → Prop} {outer sources : List Path} {w : Write}
    (h : w.From D OneLine outer sources) : OneLine w.line := by
  cases w with
  | rule indent s =>
    obtain ⟨hindent, t, ht, hs⟩ := h
    refine hindent.oneLine.append ?_
    rcases hs with rfl | rfl
    · exact oneLine_urlRule ht
    · exact oneLine_nameRule ht
  | mapped s index number =>
    obtain ⟨listed, file, text, document, line, -, -, -, -, -, hline, -, indent, hindent, hs⟩ := h
    have hsingle := (Text.linesAt_lines text.toList).single_of_mem hline
    show OneLine s
    split at hs
    · rw [hs, lineText]
      split
      · exact fun hm => by cases hm
      · exact hindent.oneLine.append (oneLine_ofList.2 hsingle)
    · obtain ⟨piece, hpiece, rfl⟩ := hs
      refine hindent.oneLine.append (oneLine_ofList.2 fun hm => hsingle ?_)
      exact hpiece.subset ((Text.trim_infix piece).subset hm)

/-! ## Whole passes -/

/-- The line `s` of the output comes from where the mapping says: from that line of the entry, whose
path and text are given, or from that line of a file read for that source. -/
def IsTraced (l : Lookup) (entry : Path) (source : String) (sources : List Path) (m : Mapping)
    (s : String) : Prop :=
  ∃ listed file text document line, sources[m.source]? = some listed ∧ (listed == file) = true ∧
    (if m.source = 0 then file = entry ∧ text = source else l.tree.read file = .ok text) ∧
    parse text.toList = .ok document ∧ line ∈ Text.lines text.toList ∧ line.number = m.line ∧
    IsWritten (Node.importsOfAll document) line s

/-- The number of a document among the sources is that of the first equal one. -/
theorem findIdx?_sourceIndex {σ : Type} (file : Path) (p : Pass σ) :
    (sourceIndex file p).2.sources.findIdx? (· == file) = some (sourceIndex file p).1 := by
  unfold sourceIndex
  split
  · next i hi => exact hi
  · next hnone =>
    show (p.sources ++ [file]).findIdx? (· == file) = some p.sources.length
    rw [List.findIdx?_append, hnone]
    simp

theorem findIdx?_of_prefix {sources sources' : List Path} {file : Path} {i : Nat}
    (h : sources.findIdx? (· == file) = some i) (hfront : sources <+: sources') :
    sources'.findIdx? (· == file) = some i := by
  obtain ⟨more, rfl⟩ := hfront
  rw [List.findIdx?_append, h]
  rfl

/-- The mappings that a pass has added lead to the lines that it has written with an origin. -/
theorem Grown.mappedLines {σ : Type} {writes : List Write} {p q : Pass σ} (h : Grown writes p q) :
    mappedLines q.lines.toList (q.mappings.toList.drop p.mappings.size) =
      writes.filterMap Write.origin? := by
  have hlines : q.lines.toList = p.lines.toList ++ writes.map Write.line := by
    rw [h.lines]
    simp [Pass.write]
  have hmappings : q.mappings.toList.drop p.mappings.size =
      Write.mappings p.lines.toList.length writes := by
    rw [h.mappings]
    simp [Pass.write]
  rw [hlines, hmappings, mappedLines_mappings]

/-- Of a document that is inlined, the lines on which no import has a part are all written, once
each and in order, and mapped to where they come from. -/
theorem ownLines_of_inline {σ : Type} {env : Setting σ} {depth : Nat} {stack : List Path}
    {file : Path} {text indent : String} {p q : Pass σ} {document : List Node}
    (hparsed : p.parsed.Valid) (hnew : stack.contains file = false) (hindent : IsIndent indent)
    (h : Step.exec (inline env depth stack file text indent) p = (.ok (), q))
    (hparse : parse text.toList = .ok document) :
    ∃ index, q.sources.findIdx? (· == file) = some index ∧
      ownLines index (freeLines text.toList document)
        (mappedLines q.lines.toList (q.mappings.toList.drop p.mappings.size)) =
        (freeLines text.toList document).map fun line =>
          (index, line.number, lineText indent line) := by
  obtain ⟨writes, hdoes⟩ := does_of_exec h
  rw [hdoes.grown.mappedLines]
  cases hdoes with
  | @document depth _ _ _ _ document' _ _ _ hread hacts =>
    rw [hparsed.parse_eq, hparse] at hread
    obtain rfl := Except.ok.inj hread
    have hnamed : ∀ source document, parse source = .ok document →
        ∀ site ∈ importSites document env.options.define,
          Named (fun _ => True) (site.statement.exprs.zip site.names) :=
      fun _ _ _ _ _ => named_of_any _
    have hsheet := sheetReady_of_parse hnamed (D := fun _ _ => True) trivial hnew hindent hparse
      { p with parsed := (p.parsed.parse text).2 }
    have hown := hacts.own_lines (valid_entered hparsed file text) hsheet
    have hindex := findIdx?_sourceIndex file { p with parsed := (p.parsed.parse text).2 }
    refine ⟨_, findIdx?_of_prefix hindex hacts.grown.sources, ?_⟩
    rw [wholeLines_planSheet (show parse (Sheet.of file text indent _).source = _ from hparse)]
      at hown
    exact hown

variable {l : Lookup} {depth : Nat}

/-- What a render knows of a text: it is that of the entry, or that of another file, which was
read. -/
def IsText (l : Lookup) (entry : Path) (source : String) (file : Path) (text : String) : Prop :=
  (file = entry ∧ text = source) ∨ ((file == entry) = false ∧ l.tree.read file = .ok text)

/-- All lines of a render come from texts that it knows, and its entry is the first source. -/
theorem origins_of_render (hdefine : Table.OneLine l.options.define) {file : Path}
    {source : String} {writes : List Write} {p q : Pass PathSet} (hparsed : p.parsed.Valid)
    (hsources : p.sources = [])
    (h : Does (.ofLocator l.options l.locator) depth [] (.document file source "") writes p q) :
    q.sources.head? = some file ∧
      ∀ w ∈ writes, w.From (IsText l file source) OneLine [] q.sources := by
  cases h with
  | @document depth _ _ _ _ document _ _ _ hread hacts =>
    rw [hparsed.parse_eq] at hread
    have hentry : (sourceIndex file { p with parsed := (p.parsed.parse source).2 }).2 =
        { p with parsed := (p.parsed.parse source).2, sources := [file] } := by
      simp [sourceIndex, hsources]
    have hnamed : ∀ source document, parse source = .ok document →
        ∀ site ∈ importSites document (Setting.ofLocator l.options l.locator).options.define,
          Named OneLine (site.statement.exprs.zip site.names) :=
      fun source document hparse site hsite =>
        named_of_oneLine (oneLine_importSites hdefine hparse site hsite)
    have hdocument : IsText l file source file source := Or.inl ⟨rfl, rfl⟩
    have hnew : ([] : List Path).contains file = false := rfl
    have hsheet := sheetReady_of_parse hnamed hdocument hnew IsIndent.empty hread
      { p with parsed := (p.parsed.parse source).2 }
    constructor
    · obtain ⟨more, hmore⟩ := hacts.grown.sources
      rw [← hmore, hentry]
      rfl
    · -- A text that is read below the entry is not that of the entry.
      have hroot : ∀ f, [file].contains f = false → [file].contains f = false := fun _ hf => hf
      refine hacts.origins (fun f s text hother hfound => ?_) hnamed
        (valid_entered hparsed file source) ⟨[], document, rfl, hsheet⟩ hroot
      have hother' : (f == file) = false := by simpa using hother
      exact Or.inr ⟨hother', read_of_ofLocator hfound⟩

/-- The first source is the entry, and each other one is a file that was read. -/
theorem isTraced_of_hasOrigin {entry : Path} {source s : String} {sources : List Path} {m : Mapping}
    (hhead : sources.head? = some entry) (hdiffer : sources.Pairwise fun a b => (a == b) = false)
    (h : HasOrigin (IsText l entry source) [] sources s m.source m.line) :
    IsTraced l entry source sources m s := by
  obtain ⟨listed, file, text, document, line, hlisted, hfile, -, htext, hrest⟩ := h
  have hfirst : sources[0]? = some entry := by
    rw [← List.head?_eq_getElem?]
    exact hhead
  refine ⟨listed, file, text, document, line, hlisted, hfile, ?_, hrest⟩
  by_cases hzero : m.source = 0
  · rw [if_pos hzero]
    rw [hzero, hfirst] at hlisted
    obtain rfl : entry = listed := Option.some.inj hlisted
    rcases htext with htext | ⟨hother, -⟩
    · exact htext
    · rw [Path.beq_comm, hfile] at hother
      cases hother
  · rw [if_neg hzero]
    rcases htext with ⟨rfl, -⟩ | ⟨-, hread⟩
    · -- Another source would be equal to the entry.
      obtain ⟨hlt, rfl⟩ := List.getElem?_eq_some_iff.1 hlisted
      obtain ⟨hlt', hentry⟩ := List.getElem?_eq_some_iff.1 hfirst
      have hne := List.pairwise_iff_getElem.1 hdiffer 0 m.source hlt' hlt (by omega)
      rw [hentry, Path.beq_comm, hfile] at hne
      cases hne
    · exact hread

/-- The source map of a document is exact: the lines that no mapping leads to are the rules, and the
others come from where their mappings say. If the output is a single empty line, its CSS lacks the
line. And whenever a document is inlined, its lines without imports are mapped. -/
theorem source_map_of_rendered {parsed : ParseCache} (hparsed : parsed.Valid) {file : Path}
    {source : String} {found : PathSet} {step : RenderStep ParseCache} {r : Rendered}
    (h : (renderer depth).render parsed file source l.options l.locator found = some step)
    (hr : step.outcome = .ok (.rendered r)) (hmap : l.options.sourceMap = true)
    (hdefine : Table.OneLine l.options.define) :
    (∃ (lines : List String) (map : LineMap) (pieces : List Piece) (included : List Path),
      (r.css.toList = lines.flatMap (fun s => s.toList ++ ['\n']) ∨
        (lines = [""] ∧ r.css = "")) ∧
      (∀ s ∈ lines, OneLine s) ∧
      r.sourceMap = some map.json ∧ map.file = file ∧ map.sources.head? = some file ∧
      (map.sources.Pairwise fun a b => (a == b) = false) ∧
      (map.mappings.Pairwise fun a b => a.output < b.output) ∧
      substitute l depth file source [] = some (pieces, included) ∧
      List.Forall₂ (fun line rule => ∃ indent, IsIndent indent ∧ line = indent ++ rule)
        (unmappedLines map.mappings 0 lines) (pieces.filterMap Piece.rule?) ∧
      ∀ m ∈ map.mappings, ∃ s, lines[m.output]? = some s ∧
        IsTraced l file source map.sources m s) ∧
    ∀ (depth' : Nat) (stack : List Path) (file' : Path) (text indent : String)
      (p q : Pass PathSet) (document : List Node), p.parsed.Valid →
      stack.contains file' = false → IsIndent indent →
      Step.exec (inline (.ofLocator l.options l.locator) depth' stack file' text indent) p =
        (.ok (), q) → parse text.toList = .ok document →
      ∃ index, q.sources.findIdx? (· == file') = some index ∧
        ownLines index (freeLines text.toList document)
          (mappedLines q.lines.toList (q.mappings.toList.drop p.mappings.size)) =
          (freeLines text.toList document).map fun line =>
            (index, line.number, lineText indent line) := by
  refine ⟨?_, fun depth' stack file' text indent p q document hp hnew hindent hexec hparse =>
    ownLines_of_inline hp hnew hindent hexec hparse⟩
  obtain ⟨writes, q, hdoes, rfl⟩ := does_of_rendered h hr
  have hgrown := hdoes.grown
  have hlines : q.lines.toList = writes.map Write.line := by
    rw [hgrown.lines]
    simp [Pass.write]
  have hmappings : q.mappings.toList = Write.mappings 0 writes := by
    rw [hgrown.mappings]
    simp [Pass.write]
  have hdiffer : q.Differ := hdoes.differ List.Pairwise.nil
  obtain ⟨⟨pieces, included⟩, hsubstitute, hmarks⟩ :=
    Option.map_eq_some_iff.1 (hdoes.substituted IsIndent.empty hparsed)
  obtain ⟨hhead, hfrom⟩ := origins_of_render hdefine hparsed rfl hdoes
  refine ⟨q.lines.toList, ⟨file, q.sources, q.mappings.toList⟩, pieces, included, ?_, ?_, ?_, rfl,
    hhead, hdiffer, ?_, hsubstitute, ?_, ?_⟩
  · by_cases hempty : q.lines.toList = [""]
    · right
      refine ⟨hempty, ?_⟩
      rw [finish, hempty]
      rfl
    · left
      exact toList_cssOf hempty
  · intro s hs
    rw [hlines] at hs
    obtain ⟨w, hw, rfl⟩ := List.mem_map.1 hs
    exact oneLine_of_from (hfrom w hw)
  · rw [finish, if_pos hmap]
  · rw [hmappings]
    exact Write.pairwise_mappings 0 writes
  · have hrules := rules_of_marks (Prod.mk.inj hmarks).1
    rw [hrules]
    show List.Forall₂ _ (unmappedLines q.mappings.toList 0 q.lines.toList) _
    rw [hmappings, hlines]
    exact unmappedLines_mappings 0 writes fun indent s hs => (hfrom _ hs).1
  · intro m hm
    have hm' : m ∈ Write.mappings ([] : List String).length writes := by
      rw [List.length_nil, ← hmappings]
      exact hm
    obtain ⟨s, hs, hwritten⟩ := mapped_of_mem_mappings hm'
    rw [List.nil_append, ← hlines] at hs
    exact ⟨s, hs, isTraced_of_hasOrigin hhead hdiffer (hfrom _ hwritten)⟩

theorem eq_ok_of_toOption {ε α : Type} {result : Except ε α} {a : α}
    (h : result.toOption = some a) : result = .ok a := by
  cases result with
  | error e => cases h
  | ok b => rw [Option.some.inj h]

theorem source_map_of_rendered_oneImport :
    (∃ step r map, (renderer 3).render {} ⟨"/s/m.styl"⟩ importingEntry oneImport.options
        oneImport.locator .empty = some step ∧ step.outcome = .ok (.rendered r) ∧
      r.sourceMap = some (LineMap.json map) ∧ map.sources.head? = some ⟨"/s/m.styl"⟩) ∧
    ∃ index q, Step.exec (inline (.ofLocator oneImport.options oneImport.locator) 2
        [⟨"/s/m.styl"⟩] ⟨"/s/b.styl"⟩ importedText "  ")
        { search := PathSet.empty, parsed := {} } = (.ok (), q) ∧
      ∃ document, parse importedText.toList = .ok document ∧
        ownLines index (freeLines importedText.toList document)
          (mappedLines q.lines.toList q.mappings.toList) = [(index, 0, "  b \x7b c \x7d")] := by
  have hrun : (((renderer 3).render {} ⟨"/s/m.styl"⟩ importingEntry oneImport.options
      oneImport.locator .empty).bind rendered?).isSome = true := by
    decide +kernel
  obtain ⟨r, hrun⟩ := Option.isSome_iff_exists.1 hrun
  obtain ⟨step, hstep, hanswer⟩ := Option.bind_eq_some_iff.1 hrun
  have hr := rendered?_eq_some hanswer
  have hdefine : Table.OneLine oneImport.options.define := fun _ _ hfind => by cases hfind
  obtain ⟨⟨lines, map, pieces, included, -, -, hmap, -, hhead, -⟩, hinlined⟩ :=
    source_map_of_rendered ParseCache.valid_empty hstep hr rfl hdefine
  refine ⟨⟨step, r, map, hstep, hr, hmap, hhead⟩, ?_⟩
  have hfree : (parse importedText.toList).toOption.map (fun document =>
      (freeLines importedText.toList document).map fun line =>
        (line.number, lineText "  " line)) = some [(0, "  b \x7b c \x7d")] := by
    decide +kernel
  obtain ⟨document, hparse, hlines⟩ := Option.map_eq_some_iff.1 hfree
  have hparse := eq_ok_of_toOption hparse
  have hend : (Step.exec (inline (.ofLocator oneImport.options oneImport.locator) 2
      [⟨"/s/m.styl"⟩] ⟨"/s/b.styl"⟩ importedText "  ")
      { search := PathSet.empty, parsed := {} }).1.toOption = some () := by
    decide +kernel
  obtain ⟨q, hexec⟩ : ∃ q, Step.exec (inline (.ofLocator oneImport.options oneImport.locator) 2
      [⟨"/s/m.styl"⟩] ⟨"/s/b.styl"⟩ importedText "  ")
      { search := PathSet.empty, parsed := {} } = (.ok (), q) :=
    ⟨_, Prod.ext (eq_ok_of_toOption hend) rfl⟩
  have hindent : IsIndent "  " := by
    intro c hc
    have hspace : c = ' ' := by simpa using hc
    rw [hspace]
    decide
  obtain ⟨index, -, hown⟩ := hinlined 2 [⟨"/s/m.styl"⟩] ⟨"/s/b.styl"⟩ importedText "  " _ q
    document ParseCache.valid_empty (by decide) hindent hexec hparse
  refine ⟨index, q, hexec, document, hparse, hown.trans ?_⟩
  have hshown := congrArg (List.map fun shown => (index, shown)) hlines
  rwa [List.map_map] at hshown

/-- An entry that is one empty line leaves a mapping, but no line for it. -/
theorem mapping_of_nothing :
    (((renderer 1).render {} ⟨"/s/m.styl"⟩ "\n" oneImport.options oneImport.locator .empty).bind
      rendered?).map (fun r => (r.css, r.sourceMap)) =
        some ("", some (LineMap.json ⟨⟨"/s/m.styl"⟩, [⟨"/s/m.styl"⟩], [⟨0, 0, 0⟩]⟩)) := by
  decide +kernel

end StyleWeave.Inline
