import StyleWeave.Proofs.Render.Splicing
import StyleWeave.Proofs.Text.Rows

/-!
# A pass through its own output

A pass that goes through lines which a pass wrote writes the same lines, if the import statements in
them are the rules among the lines, each on the line of its own (`Restated`). Such a statement has
nothing but its indentation in front of it and nothing behind it, so no fragment is written for it.
-/

namespace StyleWeave

namespace Node

mutual

/-- The names of an import are what its path expressions evaluate to. -/
theorem names_of_sites (table : Table) (scope : Scope) (node : Node) :
    ∀ site ∈ (node.sites table scope).1, ∃ scope,
      site.names = site.statement.exprs.map (Expr.eval scope table) :=
  match node with
  | block children | rule _ children => names_of_sitesOfAll table scope children
  | importing statement => by
    intro site hsite
    rw [List.mem_singleton.1 hsite]
    exact ⟨scope, rfl⟩
  | assign _ _ _ | declaration _ => by
    intro site hsite
    cases hsite

theorem names_of_sitesOfAll (table : Table) (scope : Scope) (nodes : List Node) :
    ∀ site ∈ (sitesOfAll table scope nodes).1, ∃ scope,
      site.names = site.statement.exprs.map (Expr.eval scope table) :=
  match nodes with
  | [] => by
    intro site hsite
    cases hsite
  | node :: rest => by
    intro site hsite
    rcases List.mem_append.1 hsite with hsite | hsite
    · exact names_of_sites table scope node site hsite
    · exact names_of_sitesOfAll table _ rest site hsite

end

end Node

namespace Inline

open Text (bytes slice)

/-! ## Lines that can be read again -/

/-- The statement imports what the rule stands for. -/
def Denotes (options : Options) (rule : String) (statement : Import) : Prop :=
  (∃ target, rule = urlRule target ∧ statement.exprs = [.call "url" [.literal target]]) ∨
    ∃ name, rule = nameRule name ∧ isRule options name = true ∧ statement.exprs = [.literal name]

/-- The rules among some lines, which stand in a text from byte `pos` on, are these statements. -/
inductive Restated (options : Options) : Nat → List Write → List Import → Prop where
  | nil {pos : Nat} : Restated options pos [] []
  | mapped {pos source number : Nat} {s : String} {writes : List Write} {imports : List Import}
      (others : Restated options (pos + bytes s.toList + 1) writes imports) :
      Restated options pos (.mapped s source number :: writes) imports
  | rule {pos : Nat} {indent rule : String} {statement : Import} {writes : List Write}
      {imports : List Import} (start : statement.start = pos + bytes indent.toList)
      (stop : statement.stop = statement.start + bytes rule.toList)
      (denotes : Denotes options rule statement)
      (others : Restated options (statement.stop + 1) writes imports) :
      Restated options pos (.rule indent rule :: writes) (statement :: imports)

/-- The line is read as it is written: it is not broken, and empty if it is blank. -/
def Write.IsStable : Write → Prop
  | .rule indent s => IsIndent indent ∧ '\n' ∉ s.toList
  | .mapped s _ _ => '\n' ∉ s.toList ∧ s.toList.getLast? ≠ some '\r' ∧
    ((Text.trim s.toList).isEmpty = true → s = "")

/-- The text of some lines. -/
def Write.texts (writes : List Write) : List Char :=
  writes.flatMap fun w => w.line.toList ++ ['\n']

variable {options : Options} {writes : List Write} {imports : List Import} {w : Write}

theorem denotes_head {rule : String} {statement : Import} (h : Denotes options rule statement) :
    ∃ cs, rule.toList = '@' :: (cs ++ [';']) := by
  rcases h with ⟨target, rfl, -⟩ | ⟨name, rfl, -⟩
  · exact ⟨"import url(\"".toList ++ (target.toList ++ "\")".toList), by simp [urlRule]⟩
  · exact ⟨"import \"".toList ++ (name.toList ++ "\"".toList), by simp [nameRule]⟩

theorem Restated.le_start {pos : Nat} (h : Restated options pos writes imports)
    {statement : Import} (hm : statement ∈ imports) : pos ≤ statement.start := by
  induction h with
  | nil => cases hm
  | mapped _ ih =>
    have hrest := ih hm
    omega
  | rule start stop _ _ ih =>
    rcases List.mem_cons.1 hm with rfl | hm
    · omega
    · have hrest := ih hm
      omega

/-! ## Their lines -/

theorem Write.IsStable.single (h : w.IsStable) : '\n' ∉ w.line.toList := by
  cases w with
  | rule indent s =>
    rw [Write.line, String.toList_append, List.mem_append]
    rintro (hm | hm)
    · exact (h.1 _ hm).2 rfl
    · exact h.2 hm
  | mapped s source number => exact h.1

theorem chunks_texts (h : ∀ w ∈ writes, w.IsStable) :
    Text.chunks (Write.texts writes) = writes.map fun w => w.line.toList ++ ['\n'] := by
  induction writes with
  | nil => rfl
  | cons w writes ih =>
    have hrest := ih fun w' hw' => h w' (List.mem_cons_of_mem _ hw')
    have hfirst := Text.chunks_line (h w List.mem_cons_self).single (Write.texts writes)
    rw [hrest] at hfirst
    rw [Write.texts, List.flatMap_cons, List.append_assoc]
    exact hfirst

theorem lineBody_line {cs : List Char} (h : cs.getLast? ≠ some '\r') :
    Text.lineBody (cs ++ ['\n']) = cs := by
  have hfeed : Text.dropLastIf '\n' (cs ++ ['\n']) = cs := by
    simp [Text.dropLastIf]
  rw [Text.lineBody, hfeed, Text.dropLastIf, if_neg h]

theorem leading_append {indent : String} (h : IsIndent indent) {c : Char}
    (hc : Text.isBlank c = false) (cs : List Char) :
    Text.leading (indent.toList ++ c :: cs) = indent.toList := by
  rw [Text.leading, List.takeWhile_append_of_pos fun d hd => (h d hd).1,
    List.takeWhile_cons_of_neg (by simp [hc]), List.append_nil]

/-! ## What is done with them -/

variable {σ : Type} {env : Setting σ} {nested : Inliner σ} {stack : List Path}

/-- A statement that a rule was read as is written as that rule. -/
theorem exec_importSite {site : ImportSite} {rule : String} {importer : Path} {scope : Scope}
    {table : Table} (h : Denotes env.options rule site.statement)
    (hnames : site.names = site.statement.exprs.map (Expr.eval scope table)) (indent : String)
    (p : Pass σ) :
    Step.exec (importSite env nested stack importer indent site) p =
      (.ok (), p.write [.rule indent rule]) := by
  have hwrite : ∀ expr name, site.statement.exprs = [expr] →
      expr.eval scope table = name →
      Step.exec (importOne env nested stack importer site.statement indent expr name) p =
        (.ok (), p.write [.rule indent rule]) →
      Step.exec (importSite env nested stack importer indent site) p =
        (.ok (), p.write [.rule indent rule]) := by
    intro expr name hexprs heval hone
    rw [importSite, hnames, hexprs, List.map_singleton, List.zip_cons_cons, List.zip_nil_left,
      heval, importAll, Step.exec_bind, hone]
    rfl
  rcases h with ⟨target, rfl, hexprs⟩ | ⟨name, rfl, hrule, hexprs⟩
  · refine hwrite _ none hexprs (by rw [Expr.eval]) ?_
    have hurl : urlTarget? (.call "url" [.literal target]) = some target := by
      simp [urlTarget?]
    rw [exec_importOne, hurl]
  · refine hwrite _ (some name) hexprs (by rw [Expr.eval]) ?_
    have hurl : urlTarget? (.literal name) = none := rfl
    rw [exec_importOne, hurl]
    exact if_pos hrule

section

variable {sheet : Sheet} {table : Table} {sites : List ImportSite}

/-- The lines that start in a text at byte `pos`. -/
def linesOf (number pos : Nat) (writes : List Write) : List Text.Line :=
  Text.linesFrom number pos (writes.map fun w => w.line.toList ++ ['\n'])

theorem linesOf_cons {w : Write} (h : w.line.toList.getLast? ≠ some '\r') (number pos : Nat)
    (writes : List Write) :
    linesOf number pos (w :: writes) =
      ⟨number, pos, pos + bytes w.line.toList, w.line.toList⟩ ::
        linesOf (number + 1) (pos + bytes w.line.toList + 1) writes := by
  rw [linesOf, List.map_cons, Text.linesFrom, lineBody_line h, Text.bytes_append]
  rfl

/-- A line is planned as a whole if all statements that are left start behind it. -/
theorem planLines_whole {cs : List Char} {indent : String} {line : Text.Line} {cursor : Nat}
    (hcursor : cursor ≤ line.start) (h : ∀ site ∈ sites, line.stop ≤ site.statement.start)
    (rest : List Text.Line) :
    planLines cs indent (line :: rest) cursor sites =
      .line line :: planLines cs indent rest cursor sites := by
  have hnone : sitesOn line sites = [] := by
    cases sites with
    | nil => rfl
    | cons site sites =>
      refine List.takeWhile_cons_of_neg ?_
      have hbehind := h site List.mem_cons_self
      simp only [decide_eq_true_eq]
      omega
  rw [planLines, if_pos (by simp [hcursor, hnone])]

/-- A statement that takes up its line, but for the blanks it is indented by, is all that is planned
for the line. -/
theorem planLines_rule {indent rule : String} {site : ImportSite} {before behind : List Char}
    {number cursor : Nat} (hindent : IsIndent indent)
    (hrule : ∃ cs, rule.toList = '@' :: cs)
    (hsource : sheet.source = before ++ (indent.toList ++ (rule.toList ++ behind)))
    (hstart : site.statement.start = bytes before + bytes indent.toList)
    (hstop : site.statement.stop = site.statement.start + bytes rule.toList)
    (hcursor : cursor ≤ bytes before)
    (h : ∀ other ∈ sites, site.statement.stop + 1 ≤ other.statement.start)
    (rest : List Text.Line) :
    planLines sheet.source "" (⟨number, bytes before,
        bytes before + bytes (indent ++ rule).toList, (indent ++ rule).toList⟩ :: rest) cursor
        (site :: sites) =
      .fragment indent indent.toList 0 number :: .site indent site ::
        planLines sheet.source "" rest site.statement.stop sites := by
  obtain ⟨cs, hcs⟩ := hrule
  have hwidth : bytes (indent ++ rule).toList = bytes indent.toList + bytes rule.toList := by
    rw [String.toList_append, Text.bytes_append]
  have hpos : 0 < bytes rule.toList := by
    rw [hcs]
    exact Nat.lt_of_lt_of_le (Char.utf8Size_pos _) (Nat.le_add_right _ _)
  generalize hline : (⟨number, bytes before, bytes before + bytes (indent ++ rule).toList,
    (indent ++ rule).toList⟩ : Text.Line) = line
  have hlineStart : line.start = bytes before := by rw [← hline]
  have hlineStop : line.stop = site.statement.stop := by
    rw [← hline]
    show bytes before + bytes (indent ++ rule).toList = _
    omega
  have hon : sitesOn line (site :: sites) = [site] := by
    unfold sitesOn
    rw [List.takeWhile_cons_of_pos (by simp; omega)]
    cases sites with
    | nil => rfl
    | cons other sites =>
      have hbehind := h other List.mem_cons_self
      rw [List.takeWhile_cons_of_neg (by simp; omega)]
  have hbase : lineBase "" line = indent := by
    have hleading := leading_append hindent (c := '@') (by decide) cs
    have htext : line.text = indent.toList ++ '@' :: cs := by
      rw [← hline, ← hcs]
      exact String.toList_append
    rw [lineBase, htext, hleading, String.ofList_toList, String.empty_append]
  have hfront : slice sheet.source (bytes before) site.statement.start = indent.toList := by
    rw [hsource, hstart, Text.slice_of_append]
  have hblank : (Text.trim indent.toList).isEmpty = true :=
    Text.trim_isEmpty_iff.2 hindent.solid
  have hrest : lineRest cursor line = bytes before := by
    unfold lineRest
    omega
  have hopen : fragmentOpen 0 indent.toList = 0 := by
    rw [fragmentOpen, if_pos hblank]
  have hlevels : indent ++ levels 0 = indent := String.append_empty
  have hnumber : line.number = number := by rw [← hline]
  rw [planLines, hon, if_neg (by simp)]
  dsimp only
  rw [hbase, hrest, planSites, hfront, hopen, planSites, planTail]
  dsimp only
  rw [if_neg (by omega), hnumber, hlevels, Nat.max_eq_right (by omega)]
  rfl

/-- A line that is stable is written as it is. -/
theorem lineText_stable {s : String} {source number : Nat}
    (h : (Write.mapped s source number).IsStable) (line : Text.Line)
    (hline : line.text = s.toList) :
    lineText "" line = s := by
  unfold lineText
  rw [hline]
  split
  · next hblank => exact (h.2.2 hblank).symm
  · rw [String.ofList_toList, String.empty_append]

theorem exec_line (line : Text.Line) (acts : List Act) (p : Pass σ) :
    Step.exec (performAll env nested stack sheet (.line line :: acts)) p =
      Step.exec (performAll env nested stack sheet acts)
        (p.write [.mapped (lineText sheet.indent line) sheet.index line.number]) := by
  rw [exec_performAll_cons, exec_perform_of_not_site fun _ _ => by simp]
  rfl

theorem exec_blank {base : String} {text : List Char} (h : (Text.trim text).isEmpty = true)
    (opened number : Nat) (acts : List Act) (p : Pass σ) :
    Step.exec (performAll env nested stack sheet (.fragment base text opened number :: acts)) p =
      Step.exec (performAll env nested stack sheet acts) p := by
  have hsame : p.write [] = p := by simp [Pass.write, Write.mappings]
  rw [exec_performAll_cons, exec_perform_of_not_site fun _ _ => by simp, Act.writes,
    fragmentWrites, if_pos h, hsame]

theorem Write.texts_cons (w : Write) (writes : List Write) :
    Write.texts (w :: writes) = w.line.toList ++ '\n' :: Write.texts writes := by
  simp [Write.texts]

/-- A line without a statement is written, and the lines behind it are next. -/
theorem exec_planLines_mapped {s : String} {source written : Nat} (hindent : sheet.indent = "")
    (hstable : (Write.mapped s source written).IsStable) {pos cursor : Nat} (hcursor : cursor ≤ pos)
    (hlater : ∀ site ∈ sites, pos + bytes s.toList ≤ site.statement.start) (number : Nat)
    (writes : List Write) (p : Pass σ) :
    Step.exec (performAll env nested stack sheet (planLines sheet.source ""
        (linesOf number pos (.mapped s source written :: writes)) cursor sites)) p =
      Step.exec (performAll env nested stack sheet (planLines sheet.source ""
        (linesOf (number + 1) (pos + bytes s.toList + 1) writes) cursor sites))
        (p.write [.mapped s sheet.index number]) := by
  rw [linesOf_cons (w := .mapped s source written) hstable.2.1, planLines_whole hcursor hlater,
    exec_line, hindent, lineText_stable hstable _ rfl]
  rfl

/-- A line that is a rule is written by its statement, and the lines behind it are next. -/
theorem exec_planLines_rule {indent rule : String} {site : ImportSite} {scope : Scope}
    (hstable : (Write.rule indent rule).IsStable)
    (hdenotes : Denotes env.options rule site.statement)
    (hnames : site.names = site.statement.exprs.map (Expr.eval scope table))
    {before : List Char} {writes : List Write}
    (hsource : sheet.source = before ++ Write.texts (.rule indent rule :: writes))
    (hstart : site.statement.start = bytes before + bytes indent.toList)
    (hstop : site.statement.stop = site.statement.start + bytes rule.toList)
    {cursor : Nat} (hcursor : cursor ≤ bytes before)
    (hlater : ∀ other ∈ sites, site.statement.stop + 1 ≤ other.statement.start) (number : Nat)
    (p : Pass σ) :
    Step.exec (performAll env nested stack sheet (planLines sheet.source ""
        (linesOf number (bytes before) (.rule indent rule :: writes)) cursor (site :: sites))) p =
      Step.exec (performAll env nested stack sheet (planLines sheet.source ""
        (linesOf (number + 1) (bytes before + bytes (indent ++ rule).toList + 1) writes)
        site.statement.stop sites)) (p.write [.rule indent rule]) := by
  obtain ⟨hblank, -⟩ := hstable
  obtain ⟨cs, hhead⟩ := denotes_head hdenotes
  have hlast : (Write.rule indent rule).line.toList.getLast? ≠ some '\r' := by
    rw [Write.line, String.toList_append, hhead, ← List.cons_append, ← List.append_assoc,
      List.getLast?_concat]
    simp
  have htext : sheet.source = before ++ (indent.toList ++ (rule.toList ++
      ('\n' :: Write.texts writes))) := by
    rw [hsource, Write.texts_cons, Write.line, String.toList_append, List.append_assoc]
  rw [linesOf_cons hlast, Write.line, planLines_rule hblank ⟨_, hhead⟩ htext hstart hstop hcursor
    hlater, exec_blank (Text.trim_isEmpty_iff.2 hblank.solid), exec_performAll_cons, perform,
    exec_importSite hdenotes hnames]

/-- Lines that were written are written again. -/
theorem exec_planLines (env : Setting σ) (nested : Inliner σ) (stack : List Path)
    (hindent : sheet.indent = "") (hstable : ∀ w ∈ writes, w.IsStable)
    (hnames : ∀ site ∈ sites, ∃ scope,
      site.names = site.statement.exprs.map (Expr.eval scope table))
    {before : List Char} (hsource : sheet.source = before ++ Write.texts writes)
    (h : Restated env.options (bytes before) writes (sites.map ImportSite.statement))
    (number cursor : Nat) (hcursor : cursor ≤ bytes before) (p : Pass σ) :
    ∃ again, again.map Write.line = writes.map Write.line ∧
      Step.exec (performAll env nested stack sheet (planLines sheet.source ""
        (linesOf number (bytes before) writes) cursor sites)) p = (.ok (), p.write again) := by
  induction writes generalizing before sites number cursor p with
  | nil =>
    refine ⟨[], rfl, ?_⟩
    have hsame : p.write [] = p := by simp [Pass.write, Write.mappings]
    rw [hsame]
    rfl
  | cons w writes ih =>
    have hothers := fun w' hw' => hstable w' (List.mem_cons_of_mem _ hw')
    have hw := hstable w List.mem_cons_self
    have hbehind : sheet.source = before ++ (w.line.toList ++ ['\n']) ++ Write.texts writes := by
      rw [hsource, Write.texts_cons, List.append_assoc, List.append_assoc]
      rfl
    have hnext : bytes (before ++ (w.line.toList ++ ['\n'])) =
        bytes before + bytes w.line.toList + 1 := by
      rw [Text.bytes_append, Text.bytes_append, Nat.add_assoc]
      rfl
    generalize himports : sites.map ImportSite.statement = imports at h
    cases h with
    | @mapped _ source written s _ _ others =>
      subst himports
      have hlater : ∀ site ∈ sites, bytes before + bytes s.toList ≤ site.statement.start := by
        intro site hsite
        have hstart := others.le_start (List.mem_map_of_mem hsite)
        omega
      obtain ⟨again, hlines, hexec⟩ := ih hothers hnames hbehind (by rw [hnext]; exact others)
        (number + 1) cursor (by omega) (p.write [.mapped s sheet.index number])
      refine ⟨.mapped s sheet.index number :: again, congrArg (s :: ·) hlines, ?_⟩
      rw [hnext] at hexec
      rw [exec_planLines_mapped hindent hw hcursor hlater]
      exact hexec.trans (congrArg (Except.ok (), ·) (p.write_append _ again).symm)
    | @rule _ indent rule statement _ imports start stop denotes others =>
      obtain ⟨site, sites, rfl, rfl, rfl⟩ := List.map_eq_cons_iff.1 himports
      obtain ⟨scope, hscope⟩ := hnames site List.mem_cons_self
      have hlater : ∀ other ∈ sites, site.statement.stop + 1 ≤ other.statement.start :=
        fun other hother => others.le_start (List.mem_map_of_mem hother)
      have hwidth : bytes (Write.rule indent rule).line.toList =
          bytes indent.toList + bytes rule.toList := by
        rw [Write.line, String.toList_append, Text.bytes_append]
      have hstop : bytes before + bytes (Write.rule indent rule).line.toList + 1 =
          site.statement.stop + 1 := by omega
      obtain ⟨again, hlines, hexec⟩ := ih hothers
        (fun other hother => hnames other (List.mem_cons_of_mem _ hother)) hbehind
        (by rw [hnext, hstop]; exact others) (number + 1) site.statement.stop (by omega)
        (p.write [.rule indent rule])
      refine ⟨.rule indent rule :: again, congrArg (_ :: ·) hlines, ?_⟩
      rw [hnext] at hexec
      rw [exec_planLines_rule hw denotes hscope hsource start stop hcursor hlater]
      exact hexec.trans (congrArg (Except.ok (), ·) (p.write_append _ again).symm)

end

/-! ## Rendering again -/

/-- A pass through a document succeeds as what is planned for it does. -/
theorem exec_inline (env : Setting σ) (depth : Nat) (stack : List Path) (file : Path)
    {source : String} {document : List Node} {p : Pass σ}
    (hparse : (p.parsed.parse source).1 = .ok document) :
    ∃ m index, m.lines = p.lines ∧
      let sheet := Sheet.of file source "" index
      Step.exec (inline env (depth + 1) stack file source "") p =
        Step.exec (performAll env (inline env depth) (file :: stack) sheet
          (planSheet sheet document env.options.define)) m := by
  obtain ⟨more, hsources⟩ :=
    sourceIndex_snd file { p with parsed := (p.parsed.parse source).2 }
  refine ⟨(sourceIndex file { p with parsed := (p.parsed.parse source).2 }).2,
    (sourceIndex file { p with parsed := (p.parsed.parse source).2 }).1, by rw [hsources], ?_⟩
  rw [inline, exec_renderSheet]
  generalize p.parsed.parse source = answer at hparse ⊢
  obtain ⟨result, parsed⟩ := answer
  obtain rfl : result = .ok document := hparse
  rfl

/-- CSS whose import statements are its rules is rendered to itself. -/
theorem render_restated {css : String} {document : List Node}
    (hcss : css = cssOf (writes.map Write.line)) (hparse : parse css.toList = .ok document)
    (hstable : ∀ w ∈ writes, w.IsStable)
    (h : Restated options 0 writes (Node.importsOfAll document)) (depth : Nat)
    {parsed : ParseCache} (hparsed : parsed.Valid) (file : Path) (locator : Locator PathSet)
    (found : PathSet) :
    ∃ step r, (renderer (depth + 1)).render parsed file css options locator found = some step ∧
      step.outcome = .ok (.rendered r) ∧ r.css = css := by
  obtain ⟨m, index, hlines, hexec⟩ := exec_inline (.ofLocator options locator) depth [] file
    (p := { search := found, parsed }) ((hparsed.parse_eq css).trans hparse)
  generalize hsheet : Sheet.of file css "" index = sheet at hexec
  have hsource : sheet.source = css.toList := by rw [← hsheet]; rfl
  have hindent : sheet.indent = "" := by rw [← hsheet]; rfl
  have hagain : ∃ again, cssOf (again.map Write.line) = css ∧
      Step.exec (performAll (.ofLocator options locator) (inline (.ofLocator options locator) depth)
        (file :: []) sheet (planSheet sheet document options.define)) m =
        (.ok (), m.write again) := by
    by_cases hsingle : writes.map Write.line = [""]
    · -- The only line is empty, and the text has none.
      have hempty : css = "" := by
        rw [hcss, hsingle]
        rfl
      have hnone : planSheet sheet document options.define = [] := by
        rw [planSheet, hsource, hempty]
        rfl
      refine ⟨[], hempty.symm, ?_⟩
      have hsame : m.write [] = m := by simp [Pass.write, Write.mappings]
      rw [hnone, hsame]
      rfl
    · have htext : css.toList = Write.texts writes := by
        rw [hcss, toList_cssOf hsingle, List.flatMap_map]
        rfl
      have hlinesOf : Text.lines sheet.source = linesOf 0 0 writes := by
        rw [hsource, htext, Text.lines, chunks_texts hstable]
        rfl
      rw [← statements_of_importSites document options.define] at h
      obtain ⟨again, hlines, hdone⟩ := exec_planLines (.ofLocator options locator)
        (inline (.ofLocator options locator) depth) [file] hindent hstable
        (Node.names_of_sitesOfAll options.define [] document)
        (show sheet.source = [] ++ Write.texts writes by rw [hsource, htext]; rfl) h 0 0
        (Nat.le_refl 0) m
      refine ⟨again, by rw [hlines, hcss], ?_⟩
      rw [planSheet, hindent, sitesInOrder_eq hparse, hlinesOf]
      exact hdone
  obtain ⟨again, hagainCss, hdone⟩ := hagain
  have hpass : passThrough (.ofLocator options locator) (depth + 1) file css found parsed =
      (.ok (), m.write again) := hexec.trans hdone
  have hfinish : (finish options file (m.write again)).css = css := by
    rw [finish]
    simp [Pass.write, hlines, hagainCss]
  have hstep : (renderer (depth + 1)).render parsed file css options locator found =
      some ⟨.ok (.rendered (finish options file (m.write again))), (m.write again).search,
        (m.write again).parsed⟩ := by
    rw [render_eq, hpass]
    rfl
  exact ⟨_, _, hstep, rfl, hfinish⟩

end Inline

end StyleWeave
