import StyleWeave.Proofs.Render.Derivation
import StyleWeave.Proofs.Render.Indentation

/-!
# Where the lines of the output come from

Each line that a pass writes is a rule, or comes from a line of a document (`Does.origins`). Of one
document, the lines on which no import has a part are all written, once each and in order
(`Does.own_lines`): documents that are inlined into it are other files, so what they write is told
apart by its source.
-/

namespace StyleWeave.Inline

/-! ## Lines with an origin -/

/-- The text is written of a line of a document: of the whole line if no import has a part on it,
and otherwise of a part of the line. -/
def IsWritten (imports : List Import) (line : Text.Line) (s : String) : Prop :=
  ∃ indent, IsIndent indent ∧
    if IsFree imports line then s = lineText indent line
    else ∃ piece, piece <:+: line.text ∧ s = indent ++ String.ofList (Text.trim piece)

/-- The text is written of line `number` of the source with this index. The source is a file outside
`outer`, and `D` says which files have which texts. -/
def HasOrigin (D : Path → String → Prop) (outer sources : List Path) (s : String)
    (index number : Nat) : Prop :=
  ∃ listed file text document line, sources[index]? = some listed ∧ (listed == file) = true ∧
    outer.contains file = false ∧ D file text ∧ parse text.toList = .ok document ∧
    line ∈ Text.lines text.toList ∧ line.number = number ∧
    IsWritten (Node.importsOfAll document) line s

/-- The line is a rule made of a text that satisfies `N`, or it has an origin. -/
def Write.From (D : Path → String → Prop) (N : String → Prop) (outer sources : List Path) :
    Write → Prop
  | .rule indent s => IsIndent indent ∧ ∃ t, N t ∧ (s = urlRule t ∨ s = nameRule t)
  | .mapped s index number => HasOrigin D outer sources s index number

/-- All targets and names of path expressions satisfy `N`. -/
def Named (N : String → Prop) (exprs : List (Expr × Option String)) : Prop :=
  ∀ e ∈ exprs, (∀ t, urlTarget? e.1 = some t → N t) ∧ ∀ name, e.2 = some name → N name

section

variable {D : Path → String → Prop} {N : String → Prop} {outer outer' sources sources' : List Path}

theorem getElem?_of_prefix {i : Nat} {file : Path} (h : sources[i]? = some file)
    (hfront : sources <+: sources') : sources'[i]? = some file := by
  obtain ⟨more, rfl⟩ := hfront
  obtain ⟨hlt, -⟩ := List.getElem?_eq_some_iff.1 h
  rw [List.getElem?_append_left hlt]
  exact h

theorem HasOrigin.mono {s : String} {index number : Nat}
    (h : HasOrigin D outer sources s index number) (hsources : sources <+: sources')
    (houter : ∀ file, outer.contains file = false → outer'.contains file = false) :
    HasOrigin D outer' sources' s index number := by
  obtain ⟨listed, file, text, document, line, hlisted, hfile, hnew, hrest⟩ := h
  exact ⟨listed, file, text, document, line, getElem?_of_prefix hlisted hsources, hfile,
    houter file hnew, hrest⟩

theorem Write.From.mono {w : Write} (h : w.From D N outer sources) (hsources : sources <+: sources')
    (houter : ∀ file, outer.contains file = false → outer'.contains file = false) :
    w.From D N outer' sources' := by
  cases w with
  | rule indent s => exact h
  | mapped s index number => exact HasOrigin.mono h hsources houter

end

/-! ## Tasks -/

/-- A document while a pass goes through it: what is still planned for it, with `outer` around
it. -/
structure SheetReady (D : Path → String → Prop) (N : String → Prop) (outer sources : List Path)
    (document : List Node) (sheet : Sheet) (acts : List Act) : Prop where
  listed : ∃ listed, sources[sheet.index]? = some listed ∧ (listed == sheet.file) = true
  text : ∃ text, sheet.source = text.toList ∧ D sheet.file text
  parsed : parse sheet.source = .ok document
  new : outer.contains sheet.file = false
  fits : ∀ act ∈ acts, ∃ line ∈ Text.lines sheet.source, act.Fits sheet.indent line ∧
    (act.IsLine ↔ IsFree (Node.importsOfAll document) line)
  named : ∀ indent site, .site indent site ∈ acts →
    Named N (site.statement.exprs.zip site.names)
  indent : IsIndent sheet.indent

/-- What a task starts with. -/
def Task.Ready (D : Path → String → Prop) (N : String → Prop) (stack sources : List Path) :
    Task → Prop
  | .document file source indent => IsIndent indent ∧ D file source ∧ stack.contains file = false
  | .acts sheet plan =>
    ∃ outer document, stack = sheet.file :: outer ∧ SheetReady D N outer sources document sheet plan
  | .exprs _ _ indent es => IsIndent indent ∧ Named N es
  | .files _ _ indent _ => IsIndent indent

/-- The documents around those that a task writes lines of. -/
def Task.around (stack : List Path) : Task → List Path
  | .acts _ _ => stack.tail
  | .document _ _ _ | .exprs _ _ _ _ | .files _ _ _ _ => stack

section

variable {D : Path → String → Prop} {N : String → Prop} {outer sources sources' : List Path}
  {document : List Node} {sheet : Sheet} {act : Act} {acts : List Act}

theorem SheetReady.mono (h : SheetReady D N outer sources document sheet acts)
    (hsources : sources <+: sources') : SheetReady D N outer sources' document sheet acts := by
  obtain ⟨listed, hlisted, hfile⟩ := h.listed
  exact { h with listed := ⟨listed, getElem?_of_prefix hlisted hsources, hfile⟩ }

theorem SheetReady.rest (h : SheetReady D N outer sources document sheet (act :: acts)) :
    SheetReady D N outer sources document sheet acts :=
  { h with
    fits := fun a ha => h.fits a (List.mem_cons_of_mem _ ha)
    named := fun indent site hs => h.named indent site (List.mem_cons_of_mem _ hs) }

theorem SheetReady.hasOrigin (h : SheetReady D N outer sources document sheet acts)
    {line : Text.Line} (hline : line ∈ Text.lines sheet.source) {s : String}
    (hs : IsWritten (Node.importsOfAll document) line s) :
    HasOrigin D outer sources s sheet.index line.number := by
  obtain ⟨listed, hlisted, hfile⟩ := h.listed
  obtain ⟨text, hsource, htext⟩ := h.text
  have hparsed := h.parsed
  rw [hsource] at hline hparsed
  exact ⟨listed, sheet.file, text, document, line, hlisted, hfile, h.new, htext, hparsed, hline,
    rfl, hs⟩

theorem SheetReady.line_from {line : Text.Line}
    (h : SheetReady D N outer sources document sheet (.line line :: acts)) :
    (Write.mapped (lineText sheet.indent line) sheet.index line.number).From D N outer sources := by
  obtain ⟨line', hline, hfits, hwhole⟩ := h.fits _ List.mem_cons_self
  obtain rfl : line = line' := hfits
  refine h.hasOrigin hline ⟨sheet.indent, h.indent, ?_⟩
  rw [if_pos (hwhole.1 trivial)]

theorem SheetReady.fragment_from {base : String} {text : List Char} {opened number : Nat}
    (h : SheetReady D N outer sources document sheet (.fragment base text opened number :: acts)) :
    (Write.mapped (fragmentText base text opened) sheet.index number).From D N outer sources := by
  obtain ⟨line, hline, ⟨rfl, rfl, hpart⟩, hwhole⟩ := h.fits _ List.mem_cons_self
  have hsingle := (Text.linesAt_lines sheet.source).single_of_mem hline
  have hindent := (isIndent_lineBase h.indent hsingle).append (isIndent_levels
    (opened - ((Text.trim text).takeWhile (· = '\x7d')).length))
  refine h.hasOrigin hline ⟨_, hindent, ?_⟩
  rw [if_neg fun hfree => hwhole.2 hfree]
  exact ⟨text, hpart, rfl⟩

theorem SheetReady.site_indent {indent : String} {site : ImportSite}
    (h : SheetReady D N outer sources document sheet (.site indent site :: acts)) :
    IsIndent indent := by
  obtain ⟨line, hline, hfits, -⟩ := h.fits _ List.mem_cons_self
  exact hfits.indented h.indent ((Text.linesAt_lines sheet.source).single_of_mem hline)

end

/-! ## The tree of a pass -/

variable {σ : Type} {env : Setting σ} {depth : Nat} {stack : List Path} {task : Task}
  {writes : List Write} {p q : Pass σ} {D : Path → String → Prop} {N : String → Prop}

/-- A file has its place among the sources when a pass has entered it. -/
theorem getElem?_sourceIndex (file : Path) (p : Pass σ) :
    ∃ listed, (sourceIndex file p).2.sources[(sourceIndex file p).1]? = some listed ∧
      (listed == file) = true := by
  unfold sourceIndex
  split
  · next i hi =>
    obtain ⟨hlt, hfile, -⟩ := List.findIdx?_eq_some_iff_getElem.1 hi
    exact ⟨p.sources[i], List.getElem?_eq_getElem hlt, hfile⟩
  · exact ⟨file, by simp, Path.beq_self file⟩

section

-- A file is read only if it is none of `root`, which every stack below holds.
variable {root : List Path} (hread : ∀ file s text, root.contains file = false →
    (env.read file s).1 = .ok text → D file text)
  (hnamed : ∀ source document, parse source = .ok document →
    ∀ site ∈ importSites document env.options.define,
      Named N (site.statement.exprs.zip site.names))

include hnamed in
/-- A document is ready to be gone through when a pass has entered it. -/
theorem sheetReady_of_parse {file : Path} {source indent : String} {document : List Node}
    (hdocument : D file source) (hnew : stack.contains file = false) (hindent : IsIndent indent)
    (hparse : parse source.toList = .ok document) (p : Pass σ) :
    let sheet := Sheet.of file source indent (sourceIndex file p).1
    SheetReady D N stack (sourceIndex file p).2.sources document sheet
      (planSheet sheet document env.options.define) := by
  intro sheet
  refine ⟨getElem?_sourceIndex file p, ⟨source, rfl, hdocument⟩, hparse, hnew,
    fits_planSheet hparse, ?_, hindent⟩
  intro indent' site hsite
  exact hnamed source.toList document hparse site (mem_of_mem_planSheet hsite)

include hread hnamed

/-- All lines that a task writes are rules or come from lines of documents. -/
theorem Does.origins (h : Does env depth stack task writes p q) (hparsed : p.parsed.Valid)
    (hready : task.Ready D N stack p.sources)
    (hroot : ∀ file, stack.contains file = false → root.contains file = false) :
    ∀ w ∈ writes, w.From D N (task.around stack) q.sources := by
  induction h with
  | @document depth stack file source indent document writes p q parse acts ih =>
    have hparse : StyleWeave.parse source.toList = .ok document := by
      rw [← hparsed.parse_eq]
      exact parse
    obtain ⟨hindent, hdocument, hnew⟩ := hready
    have hsheet := sheetReady_of_parse hnamed hdocument hnew hindent hparse
      { p with parsed := (p.parsed.parse source).2 }
    refine ih (valid_entered hparsed file source) ⟨stack, document, rfl, hsheet⟩
      fun other hother => hroot other ?_
    exact (Bool.or_eq_false_iff.1 ((List.contains_cons).symm.trans hother)).2
  | done | noExpr | noFile => intro w hw; cases hw
  | @line depth stack sheet line rest written writes p q hwritten others ih =>
    obtain ⟨outer, document, rfl, hsheet⟩ := hready
    intro w hw
    rcases List.mem_append.1 hw with hw | hw
    · rw [hwritten, List.mem_singleton] at hw
      rw [hw]
      exact hsheet.line_from.mono others.grown.sources fun _ hfile => hfile
    · exact ih hparsed ⟨outer, document, rfl, hsheet.rest⟩ hroot w hw
  | @fragment depth stack sheet base text opened number rest written writes p q hwritten others
      ih =>
    obtain ⟨outer, document, rfl, hsheet⟩ := hready
    intro w hw
    rcases List.mem_append.1 hw with hw | hw
    · rw [hwritten, fragmentWrites] at hw
      split at hw
      · cases hw
      · rw [List.mem_singleton] at hw
        rw [hw]
        exact hsheet.fragment_from.mono others.grown.sources fun _ hfile => hfile
    · exact ih hparsed ⟨outer, document, rfl, hsheet.rest⟩ hroot w hw
  | @site depth stack sheet indent site rest written writes p m q here others ihHere ihOthers =>
    obtain ⟨outer, document, rfl, hsheet⟩ := hready
    have hnames := hsheet.named indent site List.mem_cons_self
    intro w hw
    rcases List.mem_append.1 hw with hw | hw
    · -- What is written for an import comes from documents outside the importing one as well.
      refine (ihHere hparsed ⟨hsheet.site_indent, hnames⟩ hroot w hw).mono others.grown.sources ?_
      intro file hfile
      simp only [Task.around, List.contains_cons, Bool.or_eq_false_iff] at hfile
      exact hfile.2
    · exact ihOthers (here.valid hparsed)
        ⟨outer, document, rfl, hsheet.rest.mono here.grown.sources⟩ hroot w hw
  | @url depth stack importer statement indent expr name target rest written writes p q hurl
      hwritten others ih =>
    obtain ⟨hindent, hnames⟩ := hready
    intro w hw
    rcases List.mem_append.1 hw with hw | hw
    · rw [hwritten, List.mem_singleton] at hw
      rw [hw]
      exact ⟨hindent, target, (hnames _ List.mem_cons_self).1 target hurl, Or.inl rfl⟩
    · exact ih hparsed ⟨hindent, fun e he => hnames e (List.mem_cons_of_mem _ he)⟩ hroot w hw
  | @rule depth stack importer statement indent expr name rest written writes p q hurl hrule
      hwritten others ih =>
    obtain ⟨hindent, hnames⟩ := hready
    intro w hw
    rcases List.mem_append.1 hw with hw | hw
    · rw [hwritten, List.mem_singleton] at hw
      rw [hw]
      exact ⟨hindent, name, (hnames _ List.mem_cons_self).2 name rfl, Or.inr rfl⟩
    · exact ih hparsed ⟨hindent, fun e he => hnames e (List.mem_cons_of_mem _ he)⟩ hroot w hw
  | @located depth stack importer statement indent expr name rest files written writes p m q hurl
      hrule hlocate here others ihHere ihOthers =>
    obtain ⟨hindent, hnames⟩ := hready
    intro w hw
    rcases List.mem_append.1 hw with hw | hw
    · exact (ihHere hparsed hindent hroot w hw).mono others.grown.sources fun _ hfile => hfile
    · exact ihOthers (here.valid hparsed)
        ⟨hindent, fun e he => hnames e (List.mem_cons_of_mem _ he)⟩ hroot w hw
  | skipped _ _ ih => exact ih hparsed hready hroot
  | @included depth stack importer kind indent file text rest written writes p m q hnew hstack
      hfound here others ihHere ihOthers =>
    have hdocument : D file text := hread file p.search text (hroot file hstack) hfound
    intro w hw
    rcases List.mem_append.1 hw with hw | hw
    · exact (ihHere hparsed ⟨hready, hdocument, hstack⟩ hroot w hw).mono others.grown.sources
        fun _ hfile => hfile
    · exact ihOthers (here.valid hparsed) hready hroot w hw

end

theorem named_of_any (exprs : List (Expr × Option String)) : Named (fun _ => True) exprs :=
  fun _ _ => ⟨fun _ _ => trivial, fun _ _ => trivial⟩

/-- Whatever is read, all lines that a task writes have an origin. -/
theorem Does.has_origins (h : Does env depth stack task writes p q) (hparsed : p.parsed.Valid)
    (hready : task.Ready (fun _ _ => True) (fun _ => True) stack p.sources) :
    ∀ w ∈ writes, w.From (fun _ _ => True) (fun _ => True) (task.around stack) q.sources := by
  have hread : ∀ file s text, ([] : List Path).contains file = false →
      (env.read file s).1 = .ok text → True := fun _ _ _ _ _ => trivial
  exact h.origins hread (fun _ _ _ _ _ => named_of_any _) hparsed hready fun _ _ => rfl

/-! ## The lines of one document -/

/-- Where a line comes from: the index of its source, the number of the line there, and the line as
it is written. -/
def Write.origin? : Write → Option (Nat × Nat × String)
  | .rule _ _ => none
  | .mapped s index number => some (index, number, s)

/-- The lines of a document on which no import has a part. -/
def freeLines (source : List Char) (document : List Node) : List Text.Line :=
  (Text.lines source).filter fun line => IsFree (Node.importsOfAll document) line

/-- Of some lines with their origins, those that come from lines of source `index` without any part
of an import. -/
def ownLines (index : Nat) (free : List Text.Line) (origins : List (Nat × Nat × String)) :
    List (Nat × Nat × String) :=
  origins.filter fun o => o.1 = index ∧ o.2.1 ∈ free.map Text.Line.number

theorem ownLines_append (index : Nat) (free : List Text.Line)
    (origins origins' : List (Nat × Nat × String)) :
    ownLines index free (origins ++ origins') =
      ownLines index free origins ++ ownLines index free origins' :=
  List.filter_append origins origins'

theorem ownLines_eq_nil {index : Nat} {free : List Text.Line}
    {origins : List (Nat × Nat × String)}
    (h : ∀ o ∈ origins, o.1 = index → o.2.1 ∉ free.map Text.Line.number) :
    ownLines index free origins = [] := by
  refine List.filter_eq_nil_iff.2 fun o ho hown => ?_
  obtain ⟨hindex, hnumber⟩ := of_decide_eq_true hown
  exact h o ho hindex hnumber

/-- A line without imports is one of the document's own lines. -/
theorem SheetReady.ownLines_line {outer sources : List Path} {document : List Node} {sheet : Sheet}
    {line : Text.Line} {rest : List Act} (h : SheetReady D N outer sources document sheet
      (.line line :: rest)) (s : String) :
    ownLines sheet.index (freeLines sheet.source document) [(sheet.index, line.number, s)] =
      [(sheet.index, line.number, s)] := by
  obtain ⟨line', hline, hfits, hwhole⟩ := h.fits _ List.mem_cons_self
  obtain rfl : line = line' := hfits
  have hfree : line ∈ freeLines sheet.source document :=
    List.mem_filter.2 ⟨hline, decide_eq_true (hwhole.1 trivial)⟩
  have hnumber : line.number ∈ (freeLines sheet.source document).map Text.Line.number :=
    List.mem_map_of_mem hfree
  simp only [ownLines, List.filter_cons, hnumber, and_self, decide_true, if_true, List.filter_nil]

/-- A fragment shares its line with an import, so the line is none of the document's own lines. -/
theorem SheetReady.ownLines_fragment {outer sources : List Path} {document : List Node}
    {sheet : Sheet} {base : String} {text : List Char} {opened number : Nat} {rest : List Act}
    (h : SheetReady D N outer sources document sheet (.fragment base text opened number :: rest)) :
    ownLines sheet.index (freeLines sheet.source document)
      ((fragmentWrites base text opened sheet.index number).filterMap Write.origin?) = [] := by
  obtain ⟨line, hline, ⟨-, hnumber, -⟩, hwhole⟩ := h.fits _ List.mem_cons_self
  refine ownLines_eq_nil fun o ho _ hmem => ?_
  obtain ⟨w, hw, horigin⟩ := List.mem_filterMap.1 ho
  rw [fragmentWrites] at hw
  split at hw
  · cases hw
  · rw [List.mem_singleton.1 hw] at horigin
    rw [← Option.some.inj horigin] at hmem
    obtain ⟨free, hfree, heq⟩ := List.mem_map.1 hmem
    obtain ⟨hfree', hisFree⟩ := List.mem_filter.1 hfree
    have hsame : free = line := (Text.linesAt_lines sheet.source).eq_of_number hfree' hline
      (heq.trans hnumber)
    rw [hsame] at hisFree
    exact hwhole.2 (of_decide_eq_true hisFree)

/-- What is inlined into a document is another file than the document. -/
theorem SheetReady.ownLines_inlined {outer sources sources' : List Path} {document : List Node}
    {sheet : Sheet} {acts : List Act} (h : SheetReady D N outer sources document sheet acts)
    (hsources : sources <+: sources') {writes : List Write}
    (hfrom : ∀ w ∈ writes, w.From D N (sheet.file :: outer) sources') :
    ownLines sheet.index (freeLines sheet.source document) (writes.filterMap Write.origin?) =
      [] := by
  obtain ⟨listed, hlisted, hsame⟩ := h.listed
  refine ownLines_eq_nil fun o ho hindex _ => ?_
  obtain ⟨w, hw, horigin⟩ := List.mem_filterMap.1 ho
  cases w with
  | rule indent s => cases horigin
  | mapped s index number =>
    obtain rfl := Option.some.inj horigin
    obtain rfl : index = sheet.index := hindex
    obtain ⟨listed', file, text, document', line, hlisted', hfile, hnew, -⟩ := hfrom _ hw
    have hfront := getElem?_of_prefix hlisted hsources
    obtain rfl : listed = listed' := Option.some.inj (hfront.symm.trans hlisted')
    simp only [List.contains_cons, Bool.or_eq_false_iff] at hnew
    have hback : (file == sheet.file) = true :=
      Path.beq_trans ((Path.beq_comm file listed).trans hfile) hsame
    rw [hback] at hnew
    exact Bool.noConfusion hnew.1

/-- Of what is written for a document, the lines on which no import has a part are those that the
plan writes as they are. -/
theorem Does.own_lines {outer : List Path} {document : List Node} {sheet : Sheet}
    {acts : List Act} (h : Does env depth (sheet.file :: outer) (.acts sheet acts) writes p q)
    (hparsed : p.parsed.Valid)
    (hsheet : SheetReady (fun _ _ => True) (fun _ => True) outer p.sources document sheet acts) :
    ownLines sheet.index (freeLines sheet.source document) (writes.filterMap Write.origin?) =
      (wholeLines acts).map fun l => (sheet.index, l.number, lineText sheet.indent l) := by
  induction acts generalizing writes p with
  | nil =>
    cases h
    rfl
  | cons act rest ih =>
    cases h with
    | @line _ _ _ line _ written writes _ _ hwritten others =>
      have hrest := ih others hparsed hsheet.rest
      have hhere := hsheet.ownLines_line (lineText sheet.indent line)
      rw [List.filterMap_append, ownLines_append, hwritten, hrest]
      exact congrArg (· ++ _) hhere
    | @fragment _ _ _ base text opened number _ written writes _ _ hwritten others =>
      have hrest := ih others hparsed hsheet.rest
      rw [List.filterMap_append, ownLines_append, hwritten, hsheet.ownLines_fragment, hrest]
      rfl
    | @site _ _ _ indent site _ written writes _ m _ here others =>
      have hrest := ih others (here.valid hparsed) (hsheet.rest.mono here.grown.sources)
      have hfrom := here.has_origins hparsed ⟨hsheet.site_indent, named_of_any _⟩
      rw [List.filterMap_append, ownLines_append,
        hsheet.ownLines_inlined here.grown.sources hfrom, hrest]
      rfl

end StyleWeave.Inline
