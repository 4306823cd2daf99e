import StyleWeave.Proofs.Render.Coupling
import StyleWeave.Proofs.Render.Slices
import StyleWeave.Proofs.Render.Splicing
import StyleWeave.Proofs.Syntax.Moving
import StyleWeave.Scan

/-!
# Line ends do not matter

With a carriage return in front of each line feed, a document is planned as before: the same lines
are written as they are, the fragments between the imports are the same but for blanks around them,
and each import is carried out in the same place (`planLines_moved`). So a pass through the document
does the same (`performAll_crlf`), and its imports, its CSS and its source map are those of
the document without carriage returns (`withReturns_neutral`).
-/

namespace StyleWeave

open Text (Boundary Near Recut crlf near_moved slice slice_near)

namespace Inline

/-! ## Plans -/

theorem count_trim {c : Char} (h : Text.isBlank c = false) (text : List Char) :
    (Text.trim text).count c = text.count c := by
  have hsolid : ∀ cs : List Char, (Text.solid cs).count c = cs.count c := by
    intro cs
    exact List.count_filter (by rw [h]; rfl)
  rw [← hsolid, Text.solid_trim, hsolid]

/-- Braces are no blanks, so it makes no difference whether a fragment is trimmed. -/
theorem fragmentOpen_eq (opened : Nat) (text : List Char) :
    fragmentOpen opened text = openBehind opened text := by
  have htrim : openBehind opened (Text.trim text) = openBehind opened text := by
    rw [openBehind, openBehind, count_trim (by decide), count_trim (by decide)]
  unfold fragmentOpen
  by_cases hblank : (Text.trim text).isEmpty = true
  · rw [if_pos hblank, ← htrim, List.isEmpty_iff.1 hblank]
    rfl
  · rw [if_neg hblank, htrim]

theorem fragmentOpen_recut {text text' : List Char} (h : Recut text text') (opened : Nat) :
    fragmentOpen opened text' = fragmentOpen opened text := by
  rw [fragmentOpen_eq, fragmentOpen_eq, openBehind, openBehind, h.count (by decide),
    h.count (by decide)]

/-- The act does the same with a document whose line ends are others. -/
inductive Act.Moved (source : List Char) : Act → Act → Prop where
  | line {line line' : Text.Line} (same : line.Moved source line') :
      Act.Moved source (.line line) (.line line')
  | fragment (base : String) {text text' : List Char} (opened number : Nat)
      (recut : Recut text text') :
      Act.Moved source (.fragment base text opened number) (.fragment base text' opened number)
  | site (indent : String) {site site' : ImportSite} (same : site.Moved source site') :
      Act.Moved source (.site indent site) (.site indent site')

variable {source : List Char} {sites sites' : List ImportSite} {line line' : Text.Line}
  {pos pos' : Nat}

/-- What is planned for the statements on a line, with the place and the open braces behind them, is
the same for both texts. -/
structure PlannedAlike (source : List Char) (plan plan' : List Act × Nat × Nat) : Prop where
  acts : List.Forall₂ (Act.Moved source) plan.1 plan'.1
  near : Near source plan.2.1 plan'.2.1
  boundary : Boundary source plan.2.1
  opened : plan'.2.2 = plan.2.2

/-- The statement of an import stands between characters. -/
def ImportSite.Between (source : List Char) (site : ImportSite) : Prop :=
  Boundary source site.statement.start ∧ Boundary source site.statement.stop

theorem planSites_moved (base : String) (number : Nat)
    (h : List.Forall₂ (ImportSite.Moved source) sites sites') (opened : Nat)
    (hpos : Near source pos pos') (hboundary : Boundary source pos)
    (hsites : ∀ site ∈ sites, ImportSite.Between source site) :
    PlannedAlike source (planSites source base number sites pos opened)
      (planSites (crlf source) base number sites' pos' opened) := by
  induction h generalizing pos pos' opened with
  | nil => exact ⟨.nil, hpos, hboundary, rfl⟩
  | @cons site site' rest rest' hsite _ ih =>
    obtain ⟨hstart, hstop⟩ := hsites site List.mem_cons_self
    have hbefore := slice_near hpos hboundary hstart
    rw [← hsite.statement.start] at hbefore
    have hrest := ih (fragmentOpen opened (slice source pos site.statement.start))
      hsite.statement.stop hstop fun s hs => hsites s (List.mem_cons_of_mem _ hs)
    unfold planSites
    dsimp only
    rw [fragmentOpen_recut hbefore]
    exact ⟨.cons (.fragment base opened number hbefore) (.cons (.site _ hsite) hrest.acts),
      hrest.near, hrest.boundary, hrest.opened⟩

theorem sitesOn_moved (hline : line.Moved source line')
    (h : List.Forall₂ (ImportSite.Moved source) sites sites') :
    List.Forall₂ (ImportSite.Moved source) (sitesOn line sites) (sitesOn line' sites') := by
  induction h with
  | nil => exact .nil
  | @cons site site' rest rest' hsite _ ih =>
    have hsame : decide (site'.statement.start < line'.stop) =
        decide (site.statement.start < line.stop) := by
      rw [hsite.statement.start, hline.stop, decide_eq_decide]
      exact Text.moved_lt_iff source
    unfold sitesOn at ih ⊢
    rw [List.takeWhile_cons, List.takeWhile_cons, hsame]
    split
    · exact .cons hsite ih
    · exact .nil

theorem planTail_moved (base : String) (opened : Nat) (hline : line.Moved source line')
    (hpos : Near source pos pos') (hboundary : Boundary source pos)
    (hstop : Boundary source line.stop) :
    List.Forall₂ (Act.Moved source) (planTail source base line pos opened)
      (planTail (crlf source) base line' pos' opened) := by
  unfold planTail
  rw [hline.stop, hline.number]
  by_cases hlt : pos < line.stop
  · rw [if_pos hlt, if_pos ((hpos.lt_iff line.stop).2 hlt)]
    exact .cons (.fragment base opened line.number (slice_near hpos hboundary hstop)) .nil
  · rw [if_neg hlt, if_neg fun hlt' => hlt ((hpos.lt_iff line.stop).1 hlt')]
    exact .nil

theorem isEmpty_of_forall₂ {α β : Type} {R : α → β → Prop} {xs : List α} {ys : List β}
    (h : List.Forall₂ R xs ys) : ys.isEmpty = xs.isEmpty := by
  cases h <;> rfl

/-- The same is planned for the lines of both texts. The induction is on the lines; the place up to
which the text is done may lie behind a carriage return that was put there. -/
theorem planLines_moved (indent : String) {lines lines' : List Text.Line}
    (hlines : List.Forall₂ (Text.Line.Moved source) lines lines')
    (hbetween : ∀ line ∈ lines, Boundary source line.start ∧ Boundary source line.stop)
    {cursor cursor' : Nat} (hcursor : Near source cursor cursor')
    (hboundary : Boundary source cursor)
    (hmoved : List.Forall₂ (ImportSite.Moved source) sites sites')
    (hsites : ∀ site ∈ sites, ImportSite.Between source site) :
    List.Forall₂ (Act.Moved source) (planLines source indent lines cursor sites)
      (planLines (crlf source) indent lines' cursor' sites') := by
  induction hlines generalizing cursor cursor' sites sites' with
  | nil => exact .nil
  | @cons line line' rest rest' hline _ ih =>
    obtain ⟨hstart, hstop⟩ := hbetween line List.mem_cons_self
    have hothers : ∀ line ∈ rest, Boundary source line.start ∧ Boundary source line.stop :=
      fun line hmem => hbetween line (List.mem_cons_of_mem _ hmem)
    have hhere := sitesOn_moved hline hmoved
    have hdone : decide (cursor' ≤ line'.start) = decide (cursor ≤ line.start) := by
      rw [hline.start, decide_eq_decide]
      exact hcursor.le_iff hline.begins
    unfold planLines
    rw [hdone, isEmpty_of_forall₂ hhere]
    split
    · exact .cons (.line hline) (ih hothers hcursor hboundary hmoved hsites)
    · have hbase : lineBase indent line' = lineBase indent line := by
        rw [lineBase, lineBase, hline.text]
      have hrest : Near source (lineRest cursor line) (lineRest cursor' line') := by
        unfold lineRest
        rw [hline.start, hline.stop]
        exact (hcursor.max (near_moved source line.start)).min_stop line.stop
      have hrestBoundary : Boundary source (lineRest cursor line) := by
        unfold lineRest
        rcases Nat.le_total (max cursor line.start) line.stop with hle | hle
        · rw [Nat.min_eq_left hle]
          exact boundary_max hboundary hstart
        · rwa [Nat.min_eq_right hle]
      have hplan := planSites_moved (lineBase indent line) line.number hhere 0 hrest hrestBoundary
        fun site hmem => hsites site (List.takeWhile_subset _ hmem)
      dsimp only
      rw [hbase, hline.number, hplan.opened, hhere.length_eq.symm]
      refine List.rel_append hplan.acts (List.rel_append ?_ ?_)
      · exact planTail_moved _ _ hline hplan.near hplan.boundary hstop
      · exact ih hothers (hcursor.max hplan.near) (boundary_max hboundary hplan.boundary)
          (List.forall₂_drop _ hmoved) fun site hmem => hsites site (List.mem_of_mem_drop hmem)

/-! ## Passes -/

section

variable {σ : Type} {env : Setting σ} {nested : Inliner σ} {stack : List Path}

theorem importAll_moved {s s' : Import} (h : s.Moved source s') (importer : Path) (indent : String)
    (exprs : List (Expr × Option String)) :
    importAll env nested stack importer s' indent exprs =
      importAll env nested stack importer s indent exprs := by
  induction exprs with
  | nil => rfl
  | cons e rest ih =>
    obtain ⟨expr, name⟩ := e
    have hone : importOne env nested stack importer s' indent expr name =
        importOne env nested stack importer s indent expr name := by
      unfold importOne
      rw [h.kind, h.line]
    rw [importAll, importAll, hone, ih]

/-- What is written of a fragment is the same: it has no line end in it. -/
theorem perform_moved {sheet : Sheet} {act act' : Act} (h : Act.Moved source act act')
    (hsingle : ∀ text, act.text? = some text → '\n' ∉ text) (cs : List Char) :
    perform env nested stack { sheet with source := cs } act' =
      perform env nested stack sheet act := by
  cases h with
  | @line line line' same =>
    have hwrite : writeLine (σ := σ) sheet.indent sheet.index line' =
        writeLine sheet.indent sheet.index line := by
      unfold writeLine
      rw [same.number, same.text]
    exact congrArg modify hwrite
  | @fragment base text text' opened number recut =>
    have hwrite : (fun p : Pass σ => (writeFragment base text' opened sheet.index number p).2) =
        fun p => (writeFragment base text opened sheet.index number p).2 := by
      unfold writeFragment
      rw [recut.trim (hsingle text rfl)]
    exact congrArg modify hwrite
  | @site indent site site' same =>
    show importAll _ _ _ _ site'.statement indent _ = importAll _ _ _ _ site.statement indent _
    rw [same.statement.exprs, same.names, importAll_moved same.statement]

theorem performAll_moved {sheet : Sheet} {acts acts' : List Act}
    (h : List.Forall₂ (Act.Moved source) acts acts')
    (hsingle : ∀ act ∈ acts, ∀ text, act.text? = some text → '\n' ∉ text) (cs : List Char) :
    performAll env nested stack { sheet with source := cs } acts' =
      performAll env nested stack sheet acts := by
  induction h with
  | nil => rfl
  | @cons act act' rest rest' hact _ ih =>
    rw [performAll, performAll, perform_moved hact (hsingle act List.mem_cons_self),
      ih fun act hmem => hsingle act (List.mem_cons_of_mem _ hmem)]

/-- What is planned for both texts is carried out in the same way. -/
theorem performAll_crlf {text : String} (hreturn : '\r' ∉ text.toList)
    {document document' : List Node} (hparse : parse text.toList = .ok document)
    (hparse' : parse (crlf text.toList) = .ok document')
    (hmoved : Node.MovedAll text.toList document document') (file : Path) (indent : String)
    (index : Nat) (table : Table) :
    let sheet := Sheet.of file text indent index
    let sheet' := Sheet.of file (String.ofList (crlf text.toList)) indent index
    performAll env nested stack sheet' (planSheet sheet' document' table) =
      performAll env nested stack sheet (planSheet sheet document table) := by
  intro sheet sheet'
  have hsheet : sheet' = { sheet with source := crlf text.toList } := by
    show Sheet.of _ _ _ _ = _
    rw [Sheet.of, String.toList_ofList]
    rfl
  have hbetween : ∀ line ∈ Text.lines text.toList,
      Boundary text.toList line.start ∧ Boundary text.toList line.stop := by
    intro line hmem
    obtain ⟨-, hstart, hstop, -⟩ := (Text.linesAt_lines text.toList).between_of_mem hmem
    exact ⟨hstart, hstop⟩
  have hsites : ∀ site ∈ importSites document table, ImportSite.Between text.toList site := by
    obtain ⟨⟨items, -, hsited⟩, -, -⟩ := safe_of_parse hparse table
    intro site hmem
    obtain ⟨-, -, hstart, hstop⟩ := hsited.between _ (List.mem_map_of_mem hmem)
    exact ⟨hstart, hstop⟩
  have hplan : List.Forall₂ (Act.Moved text.toList) (planSheet sheet document table)
      (planSheet { sheet with source := crlf text.toList } document' table) := by
    unfold planSheet
    rw [sitesInOrder_eq hparse, sitesInOrder_eq hparse']
    exact planLines_moved indent (Text.lines_crlf hreturn) hbetween
      (Text.near_zero text.toList) (Text.boundary_zero text.toList) (hmoved.importSites table)
      hsites
  rw [hsheet]
  refine performAll_moved hplan ?_ (crlf text.toList)
  intro act hact part hpart hfeed
  obtain ⟨line, hline, hfits, -⟩ := fits_planSheet hparse act hact
  have hsingle := (Text.linesAt_lines text.toList).single_of_mem hline
  cases act with
  | line l =>
    obtain rfl : l = line := hfits
    exact hsingle (Option.some.inj hpart ▸ hfeed)
  | fragment base cs opened number =>
    obtain ⟨-, -, hcut⟩ := hfits
    exact hsingle (hcut.subset (Option.some.inj hpart ▸ hfeed))
  | site indent site => cases hpart

/-- Whole passes through both texts do the same. -/
theorem linked_crlf (env : Setting σ) (depth : Nat) (file : Path) {text : String}
    (hreturn : '\r' ∉ text.toList) (s : σ) {parsed parsed' : ParseCache} (hparsed : parsed.Valid)
    (hparsed' : parsed'.Valid) :
    let pass := passThrough env depth file text s parsed
    let pass' := passThrough env depth file (String.ofList (crlf text.toList)) s parsed'
    pass.1 = pass'.1 ∧ Linked Trusty pass.2 pass'.2 := by
  intro pass pass'
  cases depth with
  | zero => exact ⟨rfl, ⟨rfl, hparsed, hparsed'⟩, rfl, rfl, rfl, rfl⟩
  | succ depth =>
    have hread := Syntax.parse_crlf text.toList
    have hfirst := hparsed.parse_eq text
    have hsecond := hparsed'.parse_eq (String.ofList (crlf text.toList))
    have hstart : Linked (Trusty (σ := σ)) { search := s, parsed := (parsed.parse text).2 }
        { search := s, parsed := (parsed'.parse (String.ofList (crlf text.toList))).2 } :=
      ⟨⟨rfl, hparsed.parse _, hparsed'.parse _⟩, rfl, rfl, rfl, rfl⟩
    have hpass : pass = Step.exec (renderSheet env (inline env depth) [] file text "") _ := rfl
    have hpass' : pass' = Step.exec (renderSheet env (inline env depth) [] file
      (String.ofList (crlf text.toList)) "") _ := rfl
    rw [hpass, hpass', exec_renderSheet, exec_renderSheet]
    dsimp only
    rw [String.toList_ofList] at hsecond
    generalize parsed.parse text = answer at hfirst hstart ⊢
    generalize parsed'.parse (String.ofList (crlf text.toList)) = answer' at hsecond hstart ⊢
    obtain ⟨result, cache⟩ := answer
    obtain ⟨result', cache'⟩ := answer'
    obtain rfl : result = parse text.toList := hfirst
    obtain rfl : result' = parse (crlf text.toList) := hsecond
    dsimp only at hstart
    obtain ⟨hindex, hentered⟩ := hstart.sourceIndex file
    cases hparse : parse text.toList with
    | error e =>
      rw [hread.error hparse]
      exact ⟨rfl, hstart⟩
    | ok document =>
      obtain ⟨document', hparse', hmoved⟩ := hread.ok hparse
      rw [hparse']
      dsimp only
      rw [← hindex, performAll_crlf hreturn hparse hparse' hmoved]
      have hnested : ∀ file' text' indent, Coupled Trusty
          (inline env depth [file] file' text' indent)
          (inline env depth [file] file' text' indent) :=
        coupled_inline (couples_trusty env) (fun _ _ _ _ _ h => trusty_parse h) depth [file]
      exact coupled_performAll (couples_trusty env) hnested file text "" _ _ _ _ hentered

end

end Inline

/-! ## Both texts -/

/-- A text with a carriage return in front of each line feed. -/
def withReturns (text : String) : String :=
  String.ofList (crlf text.toList)

theorem Scan.names_moved {source : List Char} {document document' : List Node}
    (h : Node.MovedAll source document document') (table : Table) :
    Scan.names document' table = Scan.names document table := by
  have hsites := h.importSites table
  unfold Scan.names
  generalize importSites document table = sites at hsites ⊢
  generalize importSites document' table = sites' at hsites ⊢
  induction hsites with
  | nil => rfl
  | cons hsite _ ih =>
    rw [List.flatMap_cons, List.flatMap_cons, hsite.names, hsite.statement.kind, ih]

/-- In both texts, the same imports are found. -/
theorem scanImports_withReturns (file : Path) (text : String) (tables : List Table)
    (dialect : Dialect) :
    scanImports file (withReturns text) tables dialect = scanImports file text tables dialect := by
  have hread := Syntax.parse_crlf text.toList
  unfold scanImports withReturns
  rw [String.toList_ofList]
  cases hparse : parse text.toList with
  | error e => rw [hread.error hparse]
  | ok document =>
    obtain ⟨document', hparse', hmoved⟩ := hread.ok hparse
    have hnames : Scan.names document' = Scan.names document := funext (Scan.names_moved hmoved)
    rw [hparse']
    dsimp only
    rw [hnames]

/-- A text without carriage returns may get one in front of each line feed. The same imports are
found in it, and it is rendered with the same outcome, under all options and with every locator,
whatever documents were parsed before. -/
theorem withReturns_neutral {text : String} (hreturn : '\r' ∉ text.toList) (file : Path) :
    (∀ tables dialect,
      scanImports file (withReturns text) tables dialect = scanImports file text tables dialect) ∧
    ∀ (depth : Nat) {parsed parsed' : Inline.ParseCache}, parsed.Valid → parsed'.Valid →
      ∀ (options : Options) (locator : Locator PathSet) (found : PathSet),
        ((Inline.renderer depth).render parsed' file (withReturns text) options locator found).map
            (fun step => (step.outcome, step.found)) =
          ((Inline.renderer depth).render parsed file text options locator found).map
            fun step => (step.outcome, step.found) := by
  refine ⟨scanImports_withReturns file text, ?_⟩
  intro depth parsed parsed' hparsed hparsed' options locator found
  rw [Inline.render_eq, Inline.render_eq]
  dsimp only
  rw [Option.map_map, Option.map_map]
  obtain ⟨hresult, hlinked⟩ := Inline.linked_crlf (.ofLocator options locator) depth file hreturn
    found hparsed hparsed'
  have hsearch := hlinked.state.1
  dsimp only at hsearch
  unfold withReturns
  rw [Inline.outcome_congr hresult (hlinked.finish_eq options file)]
  refine congrArg (Option.map · _) (funext fun outcome => ?_)
  rw [Function.comp_apply, Function.comp_apply, hsearch]

/-- A statement that is continued on the next line, between other text on its lines. -/
def continuedEntry : String :=
  "x \x7b @import 'b',\n  'b'; y \x7d\n"

theorem withReturns_neutral_continuedEntry :
    withReturns continuedEntry = "x \x7b @import 'b',\r\n  'b'; y \x7d\r\n" ∧
    (scanImports ⟨"/s/m.styl"⟩ (withReturns continuedEntry) [] {}).map FoundImport.name = ["b"] ∧
    ∃ step r, (Inline.renderer 3).render {} ⟨"/s/m.styl"⟩ (withReturns continuedEntry)
        Inline.oneImport.options Inline.oneImport.locator .empty = some step ∧
      step.outcome = .ok (.rendered r) ∧
      r.css = "x \x7b\n  b \x7b c \x7d\n  b \x7b c \x7d\n  y \x7d\n" := by
  obtain ⟨hscan, hrender⟩ := @withReturns_neutral continuedEntry (by decide) ⟨"/s/m.styl"⟩
  refine ⟨by decide +kernel, ?_, ?_⟩
  · rw [hscan]
    decide +kernel
  · have hsame := hrender 3 Inline.ParseCache.valid_empty Inline.ParseCache.valid_empty
      Inline.oneImport.options Inline.oneImport.locator .empty
    have hrun : (((Inline.renderer 3).render {} ⟨"/s/m.styl"⟩ continuedEntry
        Inline.oneImport.options Inline.oneImport.locator .empty).bind Inline.rendered?).map
          Rendered.css =
        some "x \x7b\n  b \x7b c \x7d\n  b \x7b c \x7d\n  y \x7d\n" := by
      decide +kernel
    obtain ⟨step, r, hstep, hr, hcss⟩ := Inline.exists_rendered hrun
    rw [hstep, Option.map_some] at hsame
    obtain ⟨step', hstep', heq⟩ := Option.map_eq_some_iff.1 hsame
    refine ⟨step', r, hstep', ?_, hcss⟩
    rw [(Prod.mk.inj heq).1]
    exact hr

end StyleWeave
