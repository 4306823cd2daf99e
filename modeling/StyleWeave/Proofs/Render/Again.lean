import StyleWeave.Proofs.Render.Modular

/-!
# Rendering what was rendered

Where all documents that a pass reaches are plain, what it comes to is read as what it is: if it is
well-formed, rendering it again gives the same text, and its import statements are the rules that
were written for imports. If all of them are modular too, it is well-formed (`render_again`).

This is not so in general. The renderer writes the name of an import into its rule as it is, and the
lexer takes escapes out of a string, so the rule for a name with a backslash is read as an import of
another file (`rule_of_escaped_name`).
-/

namespace StyleWeave.Inline

open Text (bytes)

variable {l : Lookup} {file : Path} {source : String}

theorem importsOfAll_of_empty {document : List Node} (h : parse [] = .ok document) :
    Node.importsOfAll document = [] := by
  have hnone : (parse []).toOption.map (fun nodes => (Node.importsOfAll nodes).length) =
      some 0 := by
    decide +kernel
  rw [h] at hnone
  exact List.length_eq_zero_iff.1 (Option.some.inj hnone)

/-- A rule is not empty. -/
theorem Woven.rule_shown {writes : List Write} {indent s : String} (h : Woven l.options writes)
    (hmem : .rule indent s ∈ writes) : s.toList ≠ [] := by
  induction h with
  | nil => cases hmem
  | passage mapped _ _ ih =>
    rcases List.mem_append.1 hmem with hmem | hmem
    · exact (mapped _ hmem).elim
    · exact ih hmem
  | rule readable _ ih =>
    rcases List.mem_cons.1 hmem with heq | hmem
    · obtain ⟨-, rfl⟩ := Write.rule.inj heq
      exact readable.shown
    · exact ih hmem

/-- The import statements of CSS that was written for plain documents are the rules in it. -/
theorem restated_of_woven {writes : List Write} {css : String} {document : List Node}
    (h : Woven l.options writes) (htidy : ∀ w ∈ writes, w.IsTidy)
    (hcss : css = cssOf (writes.map Write.line)) (hparse : parse css.toList = .ok document) :
    Restated l.options 0 writes (Node.importsOfAll document) := by
  have hstable := fun w hw => (htidy w hw).stable
  obtain ⟨spots, hlexes, hread⟩ := h.isReread hstable fun w hw => (htidy w hw).spaced
  by_cases hsingle : writes.map Write.line = [""]
  · -- The only line is empty, and the text has none.
    obtain ⟨w, rfl, hline⟩ := List.map_eq_singleton_iff.1 hsingle
    have hempty : css.toList = [] := by
      rw [hcss, hsingle]
      rfl
    rw [hempty] at hparse
    rw [importsOfAll_of_empty hparse]
    cases w with
    | mapped s index number => exact .mapped .nil
    | rule indent s =>
      have hnone : (indent ++ s).toList = [] := congrArg String.toList hline
      rw [String.toList_append] at hnone
      exact absurd (List.append_eq_nil_iff.1 hnone).2 (h.rule_shown List.mem_cons_self)
  · have htext : css.toList = Write.texts writes := by
      rw [hcss, toList_cssOf hsingle, List.flatMap_map]
      rfl
    obtain ⟨items, htokens, -⟩ := bind_eq_ok hparse
    have himports := Syntax.importsOf_of_parse htokens hparse
    rw [htext] at htokens
    obtain ⟨hlaid, hitems⟩ := tokens_of_lexes hlexes htokens
    rw [← himports]
    rw [← Nat.zero_add (bytes (Write.texts writes))] at hitems
    exact hread 0 0 true items hlaid hitems

/-- CSS whose lines stand alone is well-formed. -/
theorem exists_document_of_standsAlone {writes : List Write} {css : String}
    (h : Syntax.StandsAlone (Write.texts writes)) (hcss : css = cssOf (writes.map Write.line)) :
    ∃ document, parse css.toList = .ok document := by
  by_cases hsingle : writes.map Write.line = [""]
  · rw [hcss, hsingle]
    exact Syntax.StandsAlone.nil.exists_document
  · have htext : css.toList = Write.texts writes := by
      rw [hcss, toList_cssOf hsingle, List.flatMap_map]
      rfl
    rw [htext]
    exact h.exists_document

/-- What a pass over plain documents comes to is, if it is well-formed, rendered to itself, whatever
is in the tree and in the caches. Its lines show what the document is replaced with. The statements
that import something in it are the rules among these lines, in order, and each of them imports what
the rule says. It is well-formed if the documents are modular. -/
theorem render_again {depth : Nat} {parsed : ParseCache} (hparsed : parsed.Valid) {found : PathSet}
    {step : RenderStep ParseCache} {r : Rendered}
    (h : (renderer depth).render parsed file source l.options l.locator found = some step)
    (hr : step.outcome = .ok (.rendered r)) (hplain : AllPlain l file source) :
    (∀ document, parse r.css.toList = .ok document →
      (∃ pieces included writes, substitute l depth file source [] = some (pieces, included) ∧
        writes.flatMap Write.marks = pieces.flatMap Piece.marks ∧
        r.css = cssOf (writes.map Write.line) ∧
        Restated l.options 0 writes (Node.importsOfAll document)) ∧
      ∀ (depth' : Nat) (parsed' : ParseCache), parsed'.Valid → ∀ (locator : Locator PathSet)
        (found' : PathSet), ∃ step' r',
          (renderer (depth' + 1)).render parsed' file r.css l.options locator found' = some step' ∧
          step'.outcome = .ok (.rendered r') ∧ r'.css = r.css) ∧
    (AllModular l file source → ∃ document, parse r.css.toList = .ok document) := by
  obtain ⟨writes, q, hdoes, rfl⟩ := does_of_rendered h hr
  have hcss : (finish l.options file q).css = cssOf (writes.map Write.line) := by
    rw [finish, hdoes.grown.lines]
    simp [Pass.write]
  have hreached : Task.IsReached l file source (.document file source "") := .entry
  refine ⟨fun document hdocument => ?_, fun hmodular => ?_⟩
  · have hshown := hdoes.substituted IsIndent.empty hparsed
    obtain ⟨⟨pieces, included⟩, hsubstitute, hmarks⟩ := Option.map_eq_some_iff.1 hshown
    have hlegible := legible_substitute hplain depth .entry [] (pieces, included) hsubstitute
    have htidy := hdoes.tidy hplain hreached Lexeme.gaps_nil hparsed
    have hstable := fun w hw => (htidy w hw).stable
    have hsame : writes.flatMap Write.marks = pieces.flatMap Piece.marks :=
      (Prod.mk.inj hmarks).1.symm
    have hwoven := woven_of_marks hlegible hstable hsame
    have hrestated := restated_of_woven hwoven htidy hcss hdocument
    refine ⟨⟨pieces, included, writes, hsubstitute, hsame, hcss, hrestated⟩, ?_⟩
    intro depth' parsed' hparsed' locator found'
    exact render_restated hcss hdocument hstable hrestated depth' hparsed' file locator found'
  · have hbehind := hdoes.standsBehind hplain hmodular hreached rfl hparsed
    exact exists_document_of_standsAlone (hbehind.standsAlone .nil) hcss

/-- A tree with one document, which imports a stylesheet that is left to the browser. -/
def oneRule : Lookup where
  tree := ⟨fun p => p == ⟨"/s/b.styl"⟩, fun _ => .ok "@import 'c.css'\n"⟩
  cache := {}
  options := {}

/-- A document with text around the import, which has a line of its own. -/
def modularEntry : String :=
  "x\n  y\n@import 'b'\nz\n"

/-- A document in the middle of a line, with a rule in it, and the same on a line of its own. -/
theorem render_again_oneRule :
    (∃ step r, (renderer 3).render {} ⟨"/s/m.styl"⟩ importingEntry oneRule.options oneRule.locator
        .empty = some step ∧ step.outcome = .ok (.rendered r) ∧
      r.css = "x \x7b\n  @import \"c.css\";\n  y \x7d\n" ∧
      AllPlain oneRule ⟨"/s/m.styl"⟩ importingEntry ∧
      ∃ document, parse r.css.toList = .ok document ∧
        (∃ writes, r.css = cssOf (writes.map Write.line) ∧
          Restated oneRule.options 0 writes (Node.importsOfAll document)) ∧
        ∃ step' r', (renderer 1).render {} ⟨"/s/m.styl"⟩ r.css oneRule.options oneRule.locator
            .empty = some step' ∧ step'.outcome = .ok (.rendered r') ∧ r'.css = r.css) ∧
    ∃ step r, (renderer 3).render {} ⟨"/s/m.styl"⟩ modularEntry oneRule.options oneRule.locator
        .empty = some step ∧ step.outcome = .ok (.rendered r) ∧
      r.css = "x\n  y\n@import \"c.css\";\nz\n" ∧
      AllPlain oneRule ⟨"/s/m.styl"⟩ modularEntry ∧ AllModular oneRule ⟨"/s/m.styl"⟩ modularEntry ∧
      ∃ document, parse r.css.toList = .ok document := by
  have htree : ∀ target text, oneRule.tree.read target = .ok text →
      IsPlain oneRule.options text ∧ IsModular oneRule.options text := by
    intro target text hread
    obtain rfl := Except.ok.inj hread
    constructor <;> decide +kernel
  have hplain : ∀ source, IsPlain oneRule.options source → AllPlain oneRule ⟨"/s/m.styl"⟩ source :=
    fun source hsource => allPlain_of_tree hsource fun target text hread =>
      (htree target text hread).1
  constructor
  · have hrun : (((renderer 3).render {} ⟨"/s/m.styl"⟩ importingEntry oneRule.options
        oneRule.locator .empty).bind rendered?).map Rendered.css =
          some "x \x7b\n  @import \"c.css\";\n  y \x7d\n" := by
      decide +kernel
    obtain ⟨step, r, hstep, hr, hcss⟩ := exists_rendered hrun
    have hread : ∃ document, parse "x \x7b\n  @import \"c.css\";\n  y \x7d\n".toList =
        .ok document := by
      decide +kernel
    rw [← hcss] at hread
    obtain ⟨document, hdocument⟩ := hread
    have hall := hplain importingEntry (by decide +kernel)
    obtain ⟨⟨-, -, writes, -, -, hwrites, hrestated⟩, hagain⟩ :=
      (render_again ParseCache.valid_empty hstep hr hall).1 document hdocument
    exact ⟨step, r, hstep, hr, hcss, hall, document, hdocument, ⟨writes, hwrites, hrestated⟩,
      hagain 0 {} ParseCache.valid_empty oneRule.locator .empty⟩
  · have hrun : (((renderer 3).render {} ⟨"/s/m.styl"⟩ modularEntry oneRule.options
        oneRule.locator .empty).bind rendered?).map Rendered.css =
          some "x\n  y\n@import \"c.css\";\nz\n" := by
      decide +kernel
    obtain ⟨step, r, hstep, hr, hcss⟩ := exists_rendered hrun
    have hall := hplain modularEntry (by decide +kernel)
    have hmodular : AllModular oneRule ⟨"/s/m.styl"⟩ modularEntry :=
      allModular_of_tree (by decide +kernel) fun target text hread => (htree target text hread).2
    exact ⟨step, r, hstep, hr, hcss, hall, hmodular,
      (render_again ParseCache.valid_empty hstep hr hall).2 hmodular⟩

theorem rule_of_escaped_name :
    (((renderer 1).render {} ⟨"/s/m.styl"⟩ "@import 'a\\\\b.css'\n" {} oneImport.locator
      .empty).bind rendered?).map Rendered.css = some "@import \"a\\b.css\";\n" ∧
    (((renderer 1).render {} ⟨"/s/m.styl"⟩ "@import \"a\\b.css\";\n" {} oneImport.locator
      .empty).bind rendered?).map Rendered.css = some "@import \"ab.css\";\n" := by
  constructor <;> decide +kernel

end StyleWeave.Inline
