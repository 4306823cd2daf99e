import StyleWeave.Proofs.Render.Origins

/-!
# Splicing loses and repeats nothing

Blanks apart, the CSS that a pass comes to is the text of its document with what the imports stand
for in their place (`rendered_as_substituted`). The proof follows the tree of the pass: each task
writes the rows and rules that it is replaced with (`Does.substituted`).
-/

namespace StyleWeave.Inline

open Text (solid rows)

/-! ## Marks -/

/-- The rows of a piece, or the rule that it is. -/
def Piece.marks : Piece → List (List Char ⊕ String)
  | .kept cs => (rows cs).map .inl
  | .rule s => [.inr s]

/-- What a line shows: the line without the blanks around it, or the rule that it is. -/
def Write.marks : Write → List (List Char ⊕ String)
  | .rule _ s => [.inr s]
  | .mapped s _ _ => (rows s.toList).map .inl

/-- A replacement by what it shows. -/
def shown (result : Option (List Piece × List Path)) :
    Option (List (List Char ⊕ String) × List Path) :=
  result.map fun r => (r.1.flatMap Piece.marks, r.2)

theorem shown_inTurn_append {α : Type} (f : α → Replacement) (as bs : List α)
    (included : List Path) :
    shown (inTurn f (as ++ bs) included) =
      (shown (inTurn f as included)).bind fun here =>
        (shown (inTurn f bs here.2)).map fun there => (here.1 ++ there.1, there.2) := by
  rw [inTurn_append]
  cases inTurn f as included with
  | none => rfl
  | some here =>
    simp only [shown, Option.bind_some, Option.map_some, Option.map_map]
    cases inTurn f bs here.2 with
    | none => rfl
    | some there => simp

theorem inTurn_singleton {α : Type} (f : α → Replacement) (a : α) (included : List Path) :
    inTurn f [a] included = f a included := by
  unfold inTurn
  cases f a included with
  | none => rfl
  | some here => simp [inTurn]

section

variable {α : Type} {f : α → Replacement} {marks marks' : List (List Char ⊕ String)}
  {included included' included'' : List Path}

theorem shown_inTurn_append_of {as bs : List α}
    (h : shown (inTurn f as included) = some (marks, included'))
    (h' : shown (inTurn f bs included') = some (marks', included'')) :
    shown (inTurn f (as ++ bs) included) = some (marks ++ marks', included'') := by
  rw [shown_inTurn_append, h, Option.bind_some, h']
  rfl

theorem shown_inTurn_cons_of {a : α} {as : List α}
    (h : shown (f a included) = some (marks, included'))
    (h' : shown (inTurn f as included') = some (marks', included'')) :
    shown (inTurn f (a :: as) included) = some (marks ++ marks', included'') := by
  rw [← inTurn_singleton f] at h
  exact shown_inTurn_append_of h h'

end

section

variable (l : Lookup) (nested : Path → String → Replacement) (importer : Path)

/-- Rows one by one show what they show together. -/
theorem shown_inTurn_rows (texts : List (List Char)) (hrows : ∀ text ∈ texts, rows text = [text])
    (included : List Path) :
    shown (inTurn (replacePart l nested importer) (texts.map .text) included) =
      some (texts.map .inl, included) := by
  induction texts with
  | nil => rfl
  | cons text texts ih =>
    have htext := hrows text List.mem_cons_self
    have hrest := ih fun other hother => hrows other (List.mem_cons_of_mem _ hother)
    have hsplit : (text :: texts).map Part.text = [Part.text text] ++ texts.map Part.text := rfl
    rw [hsplit, shown_inTurn_append, inTurn_singleton]
    simp only [replacePart, shown, Option.map_some, Option.bind_some]
    rw [← shown, hrest]
    simp [Piece.marks, htext]

theorem shown_inTurn_textAtoms (cs : List Char) (included : List Path) :
    shown (inTurn (replacePart l nested importer) (Part.text cs).atoms included) =
      some ((rows cs).map .inl, included) :=
  shown_inTurn_rows l nested importer (rows cs) (fun _ => Text.rows_of_mem) included

theorem shown_inTurn_atomsOf (part : Part) (included : List Path) :
    shown (inTurn (replacePart l nested importer) part.atoms included) =
      shown (replacePart l nested importer part included) := by
  cases part with
  | text cs =>
    rw [shown_inTurn_textAtoms]
    simp [replacePart, shown, Piece.marks]
  | site text site =>
    rw [Part.atoms, inTurn_singleton]
    rfl

/-- To replace parts atom by atom comes to the same. -/
theorem shown_inTurn_atoms (ps : List Part) (included : List Path) :
    shown (inTurn (replacePart l nested importer) (atoms ps) included) =
      shown (inTurn (replacePart l nested importer) ps included) := by
  induction ps generalizing included with
  | nil => rfl
  | cons part rest ih =>
    have hsplit : part :: rest = [part] ++ rest := rfl
    rw [atoms_cons, shown_inTurn_append, hsplit, shown_inTurn_append, inTurn_singleton,
      shown_inTurn_atomsOf]
    simp only [ih]

end

/-! ## The tree of a pass -/

/-- All that a task is indented by is blank. -/
def Task.Indented : Task → Prop
  | .acts sheet plan => IsIndent sheet.indent ∧ ∀ act ∈ plan, act.Indented
  | .document _ _ indent | .exprs _ _ indent _ | .files _ _ indent _ => IsIndent indent

theorem indented_planSheet {sheet : Sheet} {document : List Node} {table : Table}
    (h : parse sheet.source = .ok document) (hindent : IsIndent sheet.indent) :
    Task.Indented (.acts sheet (planSheet sheet document table)) := by
  refine ⟨hindent, fun act hact => ?_⟩
  obtain ⟨line, hline, hfits, -⟩ := fits_planSheet h act hact
  exact hfits.indented hindent ((Text.linesAt_lines sheet.source).single_of_mem hline)

/-- What a task is replaced with, with documents nested `depth` deep. -/
def Task.substitute (l : Lookup) (depth : Nat) : Task → Replacement
  | .document file source _ => StyleWeave.Inline.substitute l depth file source
  | .acts sheet plan =>
    inTurn (replacePart l (StyleWeave.Inline.substitute l depth) sheet.file) (planned plan)
  | .exprs importer statement _ es =>
    inTurn (replaceExpr l (StyleWeave.Inline.substitute l depth) importer statement.kind) es
  | .files _ kind _ fs =>
    inTurn (replaceFile l (StyleWeave.Inline.substitute l depth) kind) fs

variable {l : Lookup} {depth : Nat} {stack : List Path} {task : Task} {writes : List Write}
  {p q : Pass PathSet}

theorem marks_lineText {indent : String} (h : IsIndent indent) (line : Text.Line)
    (source number : Nat) :
    (Write.mapped (lineText indent line) source number).marks = (rows line.text).map .inl := by
  show (rows (lineText indent line).toList).map Sum.inl = _
  unfold lineText
  split
  · next hblank =>
    rw [Text.rows_blank (Text.solid_eq_nil_iff.1 (Text.trim_isEmpty_iff.1 hblank))]
    rfl
  · rw [String.toList_append, Text.rows_blank_append fun c hc => (h c hc).1, String.toList_ofList]

theorem marks_fragmentWrites {base : String} (h : IsIndent base) (text : List Char)
    (opened source number : Nat) :
    (fragmentWrites base text opened source number).flatMap Write.marks =
      (rows text).map .inl := by
  unfold fragmentWrites
  split
  · next hblank =>
    rw [Text.rows_blank (Text.solid_eq_nil_iff.1 (Text.trim_isEmpty_iff.1 hblank))]
    rfl
  · have hindent := h.append (isIndent_levels
      (opened - ((Text.trim text).takeWhile (· = '\x7d')).length))
    rw [List.flatMap_singleton, Write.marks, fragmentText, String.toList_append,
      Text.rows_blank_append fun c hc => (hindent c hc).1, String.toList_ofList, Text.rows_trim]

/-- What is planned for a document is replaced with what the document is. -/
theorem substitute_planSheet {file : Path} {source indent : String} {index : Nat}
    {document : List Node} (h : parse source.toList = .ok document) (included : List Path) :
    let sheet := Sheet.of file source indent index
    shown (Task.substitute l depth
        (.acts sheet (planSheet sheet document l.options.define)) included) =
      shown (Task.substitute l (depth + 1) (.document file source indent) included) := by
  intro sheet
  have hplanned : planned (planSheet sheet document l.options.define) =
      atoms (parts source.toList 0 (importSites document l.options.define)) := planned_planSheet h
  rw [Task.substitute, Task.substitute, substitute_of_parse h, hplanned, shown_inTurn_atoms]
  rfl

/-- What a task writes shows what it is replaced with. -/
theorem Does.substituted
    (h : Does (.ofLocator l.options l.locator) depth stack task writes p q)
    (hindent : task.Indented) (hparsed : p.parsed.Valid) :
    shown (task.substitute l depth p.included) =
      some (writes.flatMap Write.marks, q.included) := by
  induction h with
  | @document depth stack file source indent document writes p q parse acts ih =>
    have hparse : StyleWeave.parse source.toList = .ok document := by
      rw [← hparsed.parse_eq]
      exact parse
    obtain ⟨more, hsources⟩ :=
      sourceIndex_snd file { p with parsed := (p.parsed.parse source).2 }
    have hshown := ih (indented_planSheet hparse hindent) (valid_entered hparsed file source)
    rw [hsources] at hshown
    exact (substitute_planSheet hparse p.included).symm.trans hshown
  | done => exact rfl
  | @line depth stack sheet line rest written writes p q hwritten others ih =>
    have hrest := fun act hact => hindent.2 act (List.mem_cons_of_mem _ hact)
    have hshown := ih ⟨hindent.1, hrest⟩ hparsed
    have hline : shown (inTurn (replacePart l (substitute l depth) sheet.file)
        (Part.text line.text).atoms p.included) =
        some (written.flatMap Write.marks, p.included) := by
      rw [shown_inTurn_textAtoms, hwritten, List.flatMap_cons, List.flatMap_nil, List.append_nil,
        marks_lineText hindent.1]
    rw [List.flatMap_append]
    exact shown_inTurn_append_of hline hshown
  | @fragment depth stack sheet base text opened number rest written writes p q hwritten others
      ih =>
    have hrest := fun act hact => hindent.2 act (List.mem_cons_of_mem _ hact)
    have hbase : IsIndent base := hindent.2 _ List.mem_cons_self
    have hshown := ih ⟨hindent.1, hrest⟩ hparsed
    have htext : shown (inTurn (replacePart l (substitute l depth) sheet.file)
        (Part.text text).atoms p.included) =
        some (written.flatMap Write.marks, p.included) := by
      rw [shown_inTurn_textAtoms, hwritten, marks_fragmentWrites hbase]
    rw [List.flatMap_append]
    exact shown_inTurn_append_of htext hshown
  | @site depth stack sheet indent site rest written writes p m q here others ihHere ihOthers =>
    have hrest := fun act hact => hindent.2 act (List.mem_cons_of_mem _ hact)
    have hsite : IsIndent indent := hindent.2 _ List.mem_cons_self
    have hstatement := ihHere hsite hparsed
    have hshown := ihOthers ⟨hindent.1, hrest⟩ (here.valid hparsed)
    have hatoms : shown (inTurn (replacePart l (substitute l depth) sheet.file)
        (Part.site [] site).atoms p.included) =
        some (written.flatMap Write.marks, m.included) := by
      rw [shown_inTurn_atomsOf]
      exact hstatement
    rw [List.flatMap_append]
    exact shown_inTurn_append_of hatoms hshown
  | noExpr => exact rfl
  | @url depth stack importer statement indent expr name target rest written writes p q hurl
      hwritten others ih =>
    have hshown := ih hindent hparsed
    have hexpr : shown (replaceExpr l (substitute l depth) importer statement.kind (expr, name)
        p.included) = some (written.flatMap Write.marks, p.included) := by
      simp [replaceExpr, hurl, hwritten, shown, Piece.marks, Write.marks]
    rw [List.flatMap_append]
    exact shown_inTurn_cons_of hexpr hshown
  | @rule depth stack importer statement indent expr name rest written writes p q hurl hrule
      hwritten others ih =>
    have hshown := ih hindent hparsed
    have hrule' : isRule l.options name = true := hrule
    have hexpr : shown (replaceExpr l (substitute l depth) importer statement.kind
        (expr, some name) p.included) = some (written.flatMap Write.marks, p.included) := by
      simp [replaceExpr, hurl, hrule', hwritten, shown, Piece.marks, Write.marks]
    rw [List.flatMap_append]
    exact shown_inTurn_cons_of hexpr hshown
  | @located depth stack importer statement indent expr name rest files written writes p m q hurl
      hrule hlocate here others ihHere ihOthers =>
    have hrule' : isRule l.options name = false := hrule
    obtain ⟨file, hknown, rfl⟩ := known?_of_ofLocator hlocate
    have hfile := ihHere hindent hparsed
    have hshown := ihOthers hindent (here.valid hparsed)
    have hexpr : shown (replaceExpr l (substitute l depth) importer statement.kind
        (expr, some name) p.included) = some (written.flatMap Write.marks, m.included) := by
      rw [Task.substitute, inTurn_singleton] at hfile
      simp only [replaceExpr, hurl, hrule', hknown]
      exact hfile
    rw [List.flatMap_append]
    exact shown_inTurn_cons_of hexpr hshown
  | noFile => exact rfl
  | @skipped depth stack importer kind indent file rest writes p q hskipped others ih =>
    have hshown := ih hindent hparsed
    have hfile : shown (replaceFile l (substitute l depth) kind file p.included) =
        some ([], p.included) := by
      simp [replaceFile, hskipped.1, hskipped.2, shown]
    exact shown_inTurn_cons_of hfile hshown
  | @included depth stack importer kind indent file text rest written writes p m q hnew hstack
      hread here others ihHere ihOthers =>
    have hdocument := ihHere hindent hparsed
    have hshown := ihOthers hindent (here.valid hparsed)
    have hnew' : (decide (kind = .require) && p.included.contains file) = false := by
      simpa [IsSkipped] using hnew
    have htext := read_of_ofLocator hread
    have hfile : shown (replaceFile l (substitute l depth) kind file p.included) =
        some (written.flatMap Write.marks, m.included) := by
      simp only [replaceFile, hnew', htext]
      exact hdocument
    rw [List.flatMap_append]
    exact shown_inTurn_cons_of hfile hshown

/-! ## The text of the CSS -/

theorem toList_intercalate {lines : List String} (h : lines ≠ []) :
    ("\n".intercalate lines).toList ++ ['\n'] = lines.flatMap fun s => s.toList ++ ['\n'] := by
  rw [String.toList_intercalate]
  induction lines with
  | nil => exact (h rfl).elim
  | cons s rest ih =>
    cases rest with
    | nil => simp
    | cons t rest =>
      have hrest := ih (List.cons_ne_nil _ _)
      rw [List.map_cons, List.map_cons, List.intercalate_cons_cons, List.flatMap_cons,
        List.append_assoc, ← List.map_cons, hrest]
      rfl

/-- The CSS is its lines, each with a line feed behind it, but for a single empty line. -/
theorem toList_cssOf {lines : List String} (h : lines ≠ [""]) :
    (cssOf lines).toList = lines.flatMap fun s => s.toList ++ ['\n'] := by
  by_cases hnil : lines = []
  · subst hnil
    rfl
  · have htext := toList_intercalate hnil
    unfold cssOf
    dsimp only
    split
    · next hempty =>
      exfalso
      have hnone : ("\n".intercalate lines).toList = [] := by
        rw [String.isEmpty_iff.1 hempty]
        rfl
      rw [hnone, List.nil_append] at htext
      match lines, hnil, h, htext with
      | [s], _, h, htext =>
        have hs : s.toList = [] := by simpa using htext
        exact h (by rw [String.toList_eq_nil_iff.1 hs])
      | s :: t :: rest, _, _, htext =>
        have hlength := congrArg List.length htext
        simp at hlength
        omega
    · rw [String.toList_append]
      exact htext

theorem solid_cssOf (lines : List String) :
    solid (cssOf lines).toList = lines.flatMap fun s => solid s.toList := by
  by_cases h : lines = [""]
  · subst h
    rfl
  · rw [toList_cssOf h, solid, List.filter_flatMap]
    congr 1
    funext s
    exact (Text.solid_append s.toList ['\n']).trans (List.append_nil _)

/-! ## Whole passes -/

/-- The characters that something shows, but for blanks. -/
def shownChars : List Char ⊕ String → List Char
  | .inl row => solid row
  | .inr s => solid s.toList

theorem flatMap_inl (cs : List Char) :
    ((rows cs).map Sum.inl).flatMap shownChars = solid cs := by
  rw [List.flatMap_map]
  exact Text.solid_rows cs

theorem solid_piece (piece : Piece) : solid piece.text = piece.marks.flatMap shownChars := by
  cases piece with
  | kept cs => exact (flatMap_inl cs).symm
  | rule s => exact (List.append_nil _).symm

theorem solid_write {D : Path → String → Prop} {N : String → Prop} {outer sources : List Path}
    {w : Write} (h : w.From D N outer sources) :
    solid w.line.toList = w.marks.flatMap shownChars := by
  cases w with
  | rule indent s =>
    rw [Write.line, String.toList_append, Text.solid_append, h.1.solid, List.nil_append]
    exact (List.append_nil _).symm
  | mapped s index number => exact (flatMap_inl s.toList).symm

/-- The tree of a render that comes to a result. -/
theorem does_of_rendered {parsed : ParseCache} {file : Path} {source : String} {options : Options}
    {locator : Locator PathSet} {found : PathSet} {step : RenderStep ParseCache} {r : Rendered}
    (h : (renderer depth).render parsed file source options locator found = some step)
    (hr : step.outcome = .ok (.rendered r)) :
    ∃ writes q, Does (.ofLocator options locator) depth [] (.document file source "") writes
      { search := found, parsed } q ∧ r = finish options file q := by
  rw [render_eq] at h
  obtain ⟨result, houtcome, rfl⟩ := Option.map_eq_some_iff.1 h
  obtain rfl : result = .ok (.rendered r) := hr
  obtain ⟨hok, hfinish⟩ := outcome_eq_rendered_iff.1 houtcome
  obtain ⟨writes, hdoes⟩ := does_of_exec
    (q := (passThrough (.ofLocator options locator) depth file source found parsed).2)
    (Prod.ext hok rfl)
  exact ⟨writes, _, hdoes, hfinish⟩

/-- Blanks apart, the CSS is the text of the entry document with what the imports stand for in their
place; and of every document, the texts between the statements and those of the statements make it
up. -/
theorem rendered_as_substituted {parsed : ParseCache} (hparsed : parsed.Valid) {file : Path}
    {source : String} {found : PathSet} {step : RenderStep ParseCache} {r : Rendered}
    (h : (renderer depth).render parsed file source l.options l.locator found = some step)
    (hr : step.outcome = .ok (.rendered r)) :
    (∃ pieces included, substitute l depth file source [] = some (pieces, included) ∧
      solid r.css.toList = solid (pieces.flatMap Piece.text)) ∧
    ∀ text document, parse text = .ok document →
      (parts text 0 (importSites document l.options.define)).flatMap Part.source = text := by
  obtain ⟨writes, q, hdoes, rfl⟩ := does_of_rendered h hr
  constructor
  · have hshown := hdoes.substituted IsIndent.empty hparsed
    have hfrom := hdoes.has_origins hparsed ⟨IsIndent.empty, trivial, rfl⟩
    have hlines : q.lines.toList = writes.map Write.line := by
      rw [hdoes.grown.lines]
      simp [Pass.write]
    obtain ⟨⟨pieces, included⟩, hsubstitute, hmarks⟩ := Option.map_eq_some_iff.1 hshown
    refine ⟨pieces, included, hsubstitute, ?_⟩
    calc solid (finish l.options file q).css.toList
        = (writes.map Write.line).flatMap fun s => solid s.toList := by
          rw [finish, hlines, solid_cssOf]
      _ = writes.flatMap fun w => w.marks.flatMap shownChars := by
          rw [List.flatMap_map]
          exact List.flatMap_congr fun w hw => solid_write (hfrom w hw)
      _ = (pieces.flatMap Piece.marks).flatMap shownChars := by
          rw [← List.flatMap_assoc, ← (Prod.mk.inj hmarks).1]
      _ = pieces.flatMap fun piece => solid piece.text := by
          rw [List.flatMap_assoc]
          exact List.flatMap_congr fun piece _ => (solid_piece piece).symm
      _ = solid (pieces.flatMap Piece.text) := by
          rw [solid, List.filter_flatMap]
          rfl
  · intro text document hparse
    have hspans := Syntax.spans_of_parse hparse
    rw [← statements_of_importSites document l.options.define] at hspans
    rw [flatMap_source_parts hspans (Text.boundary_zero text), Text.dropBytes_zero]

def rendered? (step : RenderStep ParseCache) : Option Rendered :=
  match step.outcome with
  | .ok (.rendered r) => some r
  | _ => none

theorem rendered?_eq_some {step : RenderStep ParseCache} {r : Rendered}
    (h : rendered? step = some r) : step.outcome = .ok (.rendered r) := by
  unfold rendered? at h
  split at h
  · next hr => rw [hr, Option.some.inj h]
  · cases h

theorem exists_rendered {answer : Option (RenderStep ParseCache)} {css : String}
    (h : (answer.bind rendered?).map Rendered.css = some css) :
    ∃ step r, answer = some step ∧ step.outcome = .ok (.rendered r) ∧ r.css = css := by
  obtain ⟨r, hrun, hcss⟩ := Option.map_eq_some_iff.1 h
  obtain ⟨step, hstep, hanswer⟩ := Option.bind_eq_some_iff.1 hrun
  exact ⟨step, r, hstep, rendered?_eq_some hanswer, hcss⟩

def importedText : String :=
  "b \x7b c \x7d\n"

def importingEntry : String :=
  "x \x7b @import 'b'; y \x7d\n"

/-- A tree with one document, which `importingEntry` imports in the middle of a line. -/
def oneImport : Lookup where
  tree := ⟨fun p => p == ⟨"/s/b.styl"⟩, fun _ => .ok importedText⟩
  cache := {}
  options := { sourceMap := true }

theorem rendered_as_substituted_oneImport :
    ∃ step r, (renderer 3).render {} ⟨"/s/m.styl"⟩ importingEntry oneImport.options
        oneImport.locator .empty = some step ∧ step.outcome = .ok (.rendered r) ∧
      solid r.css.toList = "x\x7bb\x7bc\x7dy\x7d".toList := by
  have hrun : (((renderer 3).render {} ⟨"/s/m.styl"⟩ importingEntry oneImport.options
      oneImport.locator .empty).bind rendered?).map Rendered.css =
        some "x \x7b\n  b \x7b c \x7d\n  y \x7d\n" := by
    decide +kernel
  obtain ⟨step, r, hstep, hr, -⟩ := exists_rendered hrun
  obtain ⟨⟨pieces, included, hsubstitute, hsolid⟩, -⟩ :=
    rendered_as_substituted ParseCache.valid_empty hstep hr
  have hpieces : (substitute oneImport 3 ⟨"/s/m.styl"⟩ importingEntry []).map
      (fun result => solid (result.1.flatMap Piece.text)) =
        some "x\x7bb\x7bc\x7dy\x7d".toList := by
    decide +kernel
  rw [hsubstitute] at hpieces
  exact ⟨step, r, hstep, hr, hsolid.trans (Option.some.inj hpieces)⟩

end StyleWeave.Inline
