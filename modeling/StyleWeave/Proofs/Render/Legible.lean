import StyleWeave.Proofs.Render.Finder
import StyleWeave.Proofs.Render.Weaving

/-!
# Documents whose output can be read again

What a pass writes of plain documents (`IsPlain`) can be read again: the text between their imports
is silent, the rules are readable (`legible_substitute`), and the lines are read as they are written
(`Does.tidy`).
-/

namespace StyleWeave

open Lexeme (Gaps Spaced)

namespace Text

theorem getLast?_trim {cs : List Char} {c : Char} (h : (trim cs).getLast? = some c) :
    isBlank c = false := by
  unfold trim dropEndWhile at h
  rw [List.getLast?_reverse] at h
  have hnot := List.head?_dropWhile_not isBlank (trimStart cs).reverse
  rw [h] at hnot
  simpa using hnot

theorem slice_subset {cs : List Char} {m n : Nat} (hm : Boundary cs m) (hn : Boundary cs n)
    (h : m ≤ n) : slice cs m n ⊆ cs := by
  obtain ⟨a, b, c, rfl, rfl, rfl⟩ := hm.split hn h
  rw [slice_of_append]
  exact List.subset_append_of_subset_right a (List.subset_append_left b c)

end Text

namespace Lexeme

variable {cs ds : List Char}

theorem Spaced.mono (h : Spaced cs) (hsub : ds ⊆ cs) : Spaced ds :=
  fun c hc => h c (hsub hc)

theorem Spaced.append (h : Spaced cs) (h' : Spaced ds) : Spaced (cs ++ ds) := by
  intro c hc
  rcases List.mem_append.1 hc with hc | hc
  · exact h c hc
  · exact h' c hc

theorem Gaps.spaced (h : Gaps cs) : Spaced cs :=
  fun c hc _ => Or.inl (h c hc)

theorem Gaps.append (h : Gaps cs) (h' : Gaps ds) : Gaps (cs ++ ds) := by
  intro c hc
  rcases List.mem_append.1 hc with hc | hc
  · exact h c hc
  · exact h' c hc

end Lexeme

namespace Inline

open Lexeme (Gaps Spaced)

/-! ## Plain documents -/

/-- The path expressions in the imports of a document, with the names that they evaluate to. -/
def paths (options : Options) (text : String) : List (Expr × Option String) :=
  match parse text.toList with
  | .ok document => (importSites document options.define).flatMap fun site =>
      site.statement.exprs.zip site.names
  | .error _ => []

/-- The target of a URL can be written into a rule: it does not end the parentheses there, and is
what stands between the quotes. -/
def IsUrlText (target : String) : Prop :=
  ')' ∉ target.toList ∧ '\n' ∉ target.toList ∧
    Syntax.urlTarget ("url(\"" ++ target ++ "\")") = target

/-- The name of an import can be written into a rule: it does not end the string there, and has no
escape. -/
def IsNameText (name : String) : Prop :=
  '"' ∉ name.toList ∧ '\\' ∉ name.toList ∧ '\n' ∉ name.toList

/-- The document can be read again once it is written: all blanks in it separate tokens or lines, no
line ends with a carriage return of its own, and all that is written into rules for its imports can
be written there. -/
structure IsPlain (options : Options) (text : String) : Prop where
  spaced : Spaced text.toList
  ends : ∀ line ∈ Text.lines text.toList, line.text.getLast? ≠ some '\r'
  url : ∀ e ∈ paths options text, ∀ target ∈ urlTarget? e.1, IsUrlText target
  name : ∀ e ∈ paths options text, urlTarget? e.1 = none → ∀ name ∈ e.2,
    isRule options name = true → IsNameText name

instance (target : String) : Decidable (IsUrlText target) :=
  inferInstanceAs (Decidable (_ ∧ _))

instance (name : String) : Decidable (IsNameText name) :=
  inferInstanceAs (Decidable (_ ∧ _))

instance (cs : List Char) : Decidable (Spaced cs) :=
  List.decidableBAll (fun c => Text.isBlank c = true → Text.isGap c = true ∨ c = '\n') cs

instance (options : Options) (text : String) : Decidable (IsPlain options text) :=
  decidable_of_iff (Spaced text.toList ∧
      (∀ line ∈ Text.lines text.toList, line.text.getLast? ≠ some '\r') ∧
      (∀ e ∈ paths options text, ∀ target ∈ urlTarget? e.1, IsUrlText target) ∧
      ∀ e ∈ paths options text, urlTarget? e.1 = none → ∀ name ∈ e.2,
        isRule options name = true → IsNameText name)
    ⟨fun ⟨hspaced, hends, hurl, hname⟩ => ⟨hspaced, hends, hurl, hname⟩,
      fun h => ⟨h.spaced, h.ends, h.url, h.name⟩⟩

/-- All documents that the pass may reach are plain. -/
def AllPlain (l : Lookup) (file : Path) (source : String) : Prop :=
  ∀ importer text, Reaches l.options l.tree l.known? file source importer text →
    IsPlain l.options text

variable {l : Lookup} {file : Path} {source : String} {options : Options}

theorem IsPlain.readable_url {text target : String} {e : Expr × Option String}
    (h : IsPlain options text) (he : e ∈ paths options text) (hurl : urlTarget? e.1 = some target) :
    Readable options (urlRule target) (.call "url" [.literal target]) :=
  have htarget := h.url e he target hurl
  .url htarget.1 htarget.2.1 htarget.2.2

theorem IsPlain.readable_name {text name : String} {e : Expr × Option String}
    (h : IsPlain options text) (he : e ∈ paths options text) (hurl : urlTarget? e.1 = none)
    (hname : e.2 = some name) (hrule : isRule options name = true) :
    Readable options (nameRule name) (.literal name) :=
  have htext := h.name e he hurl name hname hrule
  .name hrule htext.1 htext.2.1 htext.2.2

/-- If all that can be read is plain, so is all that is reached. -/
theorem allPlain_of_tree (hsource : IsPlain l.options source)
    (htree : ∀ target text, l.tree.read target = .ok text → IsPlain l.options text) :
    AllPlain l file source := by
  intro importer text h
  cases h with
  | entry => exact hsource
  | imported _ _ _ read => exact htree importer text read

theorem mem_paths {text : String} {document : List Node} {site : ImportSite}
    {e : Expr × Option String} (hparse : parse text.toList = .ok document)
    (hsite : site ∈ importSites document options.define)
    (he : e ∈ site.statement.exprs.zip site.names) : e ∈ paths options text := by
  rw [paths, hparse]
  exact List.mem_flatMap.2 ⟨site, hsite, he⟩

/-- A file that an import of a reached document leads to is reached. -/
theorem reaches_of_path {importer target : Path} {text text' name : String} {expr : Expr}
    (h : Reaches l.options l.tree l.known? file source importer text)
    (hpath : (expr, some name) ∈ paths l.options text) (hurl : urlTarget? expr = none)
    (hrule : isRule l.options name = false) (hknown : l.known? importer name = some target)
    (hread : l.tree.read target = .ok text') :
    Reaches l.options l.tree l.known? file source target text' := by
  unfold paths at hpath
  split at hpath
  · next document hparse =>
    obtain ⟨site, hsite, he⟩ := List.mem_flatMap.1 hpath
    exact .imported h ⟨document, hparse, site, hsite, expr, he, hurl, hrule⟩ hknown hread
  · cases hpath

/-! ## Pieces -/

/-- All that the replacement may give is legible. -/
def Gives (options : Options) (r : Replacement) : Prop :=
  ∀ included here, r included = some here → ∀ piece ∈ here.1, piece.IsLegible options

theorem gives_inTurn {α : Type} {f : α → Replacement} {as : List α}
    (h : ∀ a ∈ as, Gives options (f a)) : Gives options (inTurn f as) := by
  induction as with
  | nil =>
    intro included here hhere piece hpiece
    rw [← Option.some.inj hhere] at hpiece
    cases hpiece
  | cons a rest ih =>
    intro included all hall piece hpiece
    obtain ⟨here, hhere, hmore⟩ := Option.bind_eq_some_iff.1 hall
    obtain ⟨there, hthere, rfl⟩ := Option.map_eq_some_iff.1 hmore
    rcases List.mem_append.1 hpiece with hpiece | hpiece
    · exact h a List.mem_cons_self included here hhere piece hpiece
    · exact ih (fun b hb => h b (List.mem_cons_of_mem _ hb)) here.2 there hthere piece hpiece

theorem gives_single {piece : Piece} (h : piece.IsLegible options) :
    Gives options fun included => some ([piece], included) := by
  intro included here hhere other hother
  rw [← Option.some.inj hhere, List.mem_singleton] at hother
  rw [hother]
  exact h

theorem gives_rule {s : String} {expr : Expr} (h : Readable options s expr) :
    Gives options fun included => some ([.rule s], included) :=
  have hpiece : (Piece.rule s).IsLegible options := ⟨expr, h⟩
  gives_single hpiece

theorem gives_none : Gives options fun _ => none := by
  intro included here hhere
  cases hhere

/-- A file is replaced with nothing, or with what its text is replaced with. -/
theorem gives_replaceFile {nested : Path → String → Replacement} {kind : ImportKind} {target : Path}
    (h : ∀ text, l.tree.read target = .ok text → Gives options (nested target text)) :
    Gives options (replaceFile l nested kind target) := by
  intro included here hhere
  unfold replaceFile at hhere
  split at hhere
  · rw [← Option.some.inj hhere]
    intro piece hpiece
    cases hpiece
  · cases hread : l.tree.read target with
    | error failure =>
      rw [hread] at hhere
      cases hhere
    | ok text =>
      rw [hread] at hhere
      exact h text hread _ here hhere

/-- A path expression is replaced with a legible rule, or as the file that it leads to. -/
theorem gives_replaceExpr {nested : Path → String → Replacement} {kind : ImportKind}
    {importer : Path} {text : String} {e : Expr × Option String} (htext : IsPlain l.options text)
    (hpath : e ∈ paths l.options text)
    (hfile : ∀ name target, e = (e.1, some name) → urlTarget? e.1 = none →
      isRule l.options name = false → l.known? importer name = some target →
      Gives l.options (replaceFile l nested kind target)) :
    Gives l.options (replaceExpr l nested importer kind e) := by
  obtain ⟨expr, name⟩ := e
  intro included here hhere
  unfold replaceExpr at hhere
  cases hurl : urlTarget? expr with
  | some target =>
    simp only [hurl] at hhere
    exact gives_rule (htext.readable_url hpath hurl) included here hhere
  | none =>
    cases name with
    | none =>
      simp only [hurl] at hhere
      cases hhere
    | some name =>
      cases hrule : isRule l.options name with
      | true =>
        simp only [hurl, hrule, if_true] at hhere
        exact gives_rule (htext.readable_name hpath hurl rfl hrule) included here hhere
      | false =>
        simp only [hurl, hrule, Bool.false_eq_true, if_false] at hhere
        cases hknown : l.known? importer name with
        | none =>
          simp only [hknown] at hhere
          cases hhere
        | some target =>
          simp only [hknown] at hhere
          exact hfile name target rfl hurl hrule hknown included here hhere

theorem mem_of_mem_parts {source : List Char} {pos : Nat} {sites : List ImportSite} {cs : List Char}
    {site : ImportSite} (h : .site cs site ∈ parts source pos sites) : site ∈ sites := by
  induction sites generalizing pos with
  | nil =>
    rw [parts, List.mem_singleton] at h
    cases h
  | cons first rest ih =>
    rw [parts] at h
    rcases List.mem_cons.1 h with h | h
    · cases h
    · rcases List.mem_cons.1 h with h | h
      · rw [(Part.site.inj h).2]
        exact List.mem_cons_self
      · exact List.mem_cons_of_mem _ (ih h)

/-- What stands between the imports of a document is in its text. -/
theorem subset_of_mem_parts {text : String} {document : List Node}
    (hparse : parse text.toList = .ok document) {cs : List Char}
    (h : .text cs ∈ parts text.toList 0 (importSites document options.define)) :
    cs ⊆ text.toList := by
  have hspans := Syntax.spans_of_parse hparse
  rw [← statements_of_importSites document options.define] at hspans
  have hall := flatMap_source_parts hspans (Text.boundary_zero text.toList)
  rw [Text.dropBytes_zero] at hall
  intro c hc
  rw [← hall]
  exact List.mem_flatMap.2 ⟨_, h, hc⟩

/-- What a plain document is replaced with is legible if all documents it leads to are plain. -/
theorem legible_substitute (hplain : AllPlain l file source) (depth : Nat) {importer : Path}
    {text : String} (h : Reaches l.options l.tree l.known? file source importer text) :
    Gives l.options (substitute l depth importer text) := by
  induction depth generalizing importer text with
  | zero => exact gives_none
  | succ depth ih =>
    have htext := hplain importer text h
    cases hparse : parse text.toList with
    | error e =>
      simp only [substitute, hparse]
      exact gives_none
    | ok document =>
      rw [substitute_of_parse hparse]
      refine gives_inTurn fun part hpart => ?_
      cases part with
      | text cs =>
        refine gives_single (silent_of_parse hparse l.options.define ?_ hpart)
        exact htext.spaced.mono (subset_of_mem_parts hparse hpart)
      | site cs site =>
        have hsite := mem_of_mem_parts hpart
        refine gives_inTurn fun e he => ?_
        have hpath := mem_paths hparse hsite he
        refine gives_replaceExpr htext hpath fun name target hname hurl hrule hknown => ?_
        -- What an import leads to is reached too, and is nested less deep.
        exact gives_replaceFile fun text' hread =>
          ih (reaches_of_path h (hname ▸ hpath) hurl hrule hknown hread)

/-! ## Lines that are written -/

/-- The line is read as it is written, and the lexer takes its blanks for blanks. -/
structure Write.IsTidy (w : Write) : Prop where
  stable : w.IsStable
  spaced : w.IsSpaced

theorem isIndent_of_gaps {s : String} (h : Gaps s.toList) : IsIndent s := by
  intro c hc
  refine ⟨Text.isBlank_of_isGap (h c hc), ?_⟩
  rintro rfl
  exact Lexeme.no_feed_of_gaps h hc

theorem gaps_levels (n : Nat) : Gaps (levels n).toList := by
  intro c hc
  obtain rfl := eq_space_of_mem_levels hc
  rfl

/-- Text that is not blank is read as it is written behind some indentation. -/
theorem tidy_indented {indent : String} {cs : List Char} (hindent : Gaps indent.toList)
    (hsingle : '\n' ∉ cs) (hspaced : Spaced cs) (hends : cs.getLast? ≠ some '\r')
    (hsolid : Text.solid cs ≠ []) (source number : Nat) :
    (Write.mapped (indent ++ String.ofList cs) source number).IsTidy := by
  have htext : (indent ++ String.ofList cs).toList = indent.toList ++ cs := by
    rw [String.toList_append, String.toList_ofList]
  refine ⟨⟨?_, ?_, fun hblank => ?_⟩, ?_⟩
  · rw [htext, List.mem_append]
    rintro (hfeed | hfeed)
    · exact (isIndent_of_gaps hindent _ hfeed).2 rfl
    · exact hsingle hfeed
  · have hne : cs ≠ [] := by
      rintro rfl
      exact hsolid rfl
    rwa [htext, List.getLast?_append_of_ne_nil _ hne]
  · rw [Text.trim_isEmpty_iff, htext, Text.solid_append] at hblank
    exact absurd (List.append_eq_nil_iff.1 hblank).2 hsolid
  · show Spaced (indent ++ String.ofList cs).toList
    rw [htext]
    exact hindent.spaced.append hspaced

theorem tidy_rule {indent s : String} {expr : Expr} (hindent : Gaps indent.toList)
    (h : Readable options s expr) : (Write.rule indent s).IsTidy :=
  ⟨⟨isIndent_of_gaps hindent, h.single⟩, hindent⟩

theorem tidy_lineText {indent : String} {line : Text.Line} (hindent : Gaps indent.toList)
    (hsingle : '\n' ∉ line.text) (hspaced : Spaced line.text)
    (hends : line.text.getLast? ≠ some '\r') (source number : Nat) :
    (Write.mapped (lineText indent line) source number).IsTidy := by
  unfold lineText
  split
  · have hnone : Spaced [] := fun c hc => nomatch hc
    exact ⟨⟨by simp, by simp, fun _ => rfl⟩, hnone⟩
  · next hshows =>
    exact tidy_indented hindent hsingle hspaced hends
      (fun hblank => hshows (Text.trim_isEmpty_iff.2 hblank)) source number

theorem tidy_fragmentWrites {base : String} {text : List Char} (hbase : Gaps base.toList)
    (hsingle : '\n' ∉ text) (hspaced : Spaced text) (opened source number : Nat) :
    ∀ w ∈ fragmentWrites base text opened source number, w.IsTidy := by
  unfold fragmentWrites
  split
  · intro w hw
    cases hw
  · next hshows =>
    intro w hw
    rw [List.mem_singleton.1 hw]
    have hpart := (Text.trim_infix text).subset
    have hindent : Gaps (base ++ levels (opened -
        ((Text.trim text).takeWhile (· = '\x7d')).length)).toList := by
      rw [String.toList_append]
      exact hbase.append (gaps_levels _)
    refine tidy_indented hindent (fun hfeed => hsingle (hpart hfeed)) (hspaced.mono hpart) ?_ ?_
      source number
    · intro hlast
      have hnot := Text.getLast?_trim hlast
      cases hnot
    · rw [Text.solid_trim]
      exact fun hblank => hshows (Text.trim_isEmpty_iff.2 hblank)

/-! ## The tree of a pass -/

/-- A task goes through documents that are reached. -/
def Task.IsReached (l : Lookup) (file : Path) (source : String) : Task → Prop
  | .document importer text _ => Reaches l.options l.tree l.known? file source importer text
  | .acts sheet plan =>
    ∃ text, sheet.source = text.toList ∧
      Reaches l.options l.tree l.known? file source sheet.file text ∧
      ∀ indent site, .site indent site ∈ plan → ∀ e ∈ site.statement.exprs.zip site.names,
        e ∈ paths l.options text
  | .exprs importer _ _ es =>
    ∃ text, Reaches l.options l.tree l.known? file source importer text ∧
      ∀ e ∈ es, e ∈ paths l.options text
  | .files _ _ _ fs =>
    ∀ target ∈ fs, ∀ text, l.tree.read target = .ok text →
      Reaches l.options l.tree l.known? file source target text

/-- The indentation of a task separates tokens, and what is planned fits lines of the document. -/
def Task.IsSpaced : Task → Prop
  | .acts sheet plan =>
    Gaps sheet.indent.toList ∧
      ∀ act ∈ plan, ∃ line ∈ Text.lines sheet.source, act.Fits sheet.indent line
  | .document _ _ indent | .exprs _ _ indent _ | .files _ _ indent _ => Gaps indent.toList

namespace Task.IsReached

variable {sheet : Sheet} {act : Act} {acts : List Act} {importer target : Path}
  {text indent name : String} {statement : Import} {e : Expr × Option String}
  {es : List (Expr × Option String)} {kind : ImportKind} {targets : List Path}

theorem planned {index : Nat} {document : List Node}
    (h : Task.IsReached l file source (.document importer text indent))
    (hparse : parse text.toList = .ok document) :
    Task.IsReached l file source (.acts (Sheet.of importer text indent index)
      (planSheet (Sheet.of importer text indent index) document l.options.define)) :=
  ⟨text, rfl, h, fun _ _ hsite _ he => mem_paths hparse (mem_of_mem_planSheet hsite) he⟩

theorem nextAct (h : Task.IsReached l file source (.acts sheet (act :: acts))) :
    Task.IsReached l file source (.acts sheet acts) := by
  obtain ⟨text, hsource, hreach, hpaths⟩ := h
  exact ⟨text, hsource, hreach,
    fun indent site hsite => hpaths indent site (List.mem_cons_of_mem _ hsite)⟩

theorem site {site : ImportSite}
    (h : Task.IsReached l file source (.acts sheet (.site indent site :: acts))) :
    Task.IsReached l file source
      (.exprs sheet.file site.statement indent (site.statement.exprs.zip site.names)) := by
  obtain ⟨text, -, hreach, hpaths⟩ := h
  exact ⟨text, hreach, hpaths indent site List.mem_cons_self⟩

theorem nextExpr (h : Task.IsReached l file source (.exprs importer statement indent (e :: es))) :
    Task.IsReached l file source (.exprs importer statement indent es) := by
  obtain ⟨text, hreach, hpaths⟩ := h
  exact ⟨text, hreach, fun e' he' => hpaths e' (List.mem_cons_of_mem _ he')⟩

theorem readable_url {expr : Expr} {name : Option String} {url : String}
    (h : Task.IsReached l file source (.exprs importer statement indent ((expr, name) :: es)))
    (hplain : AllPlain l file source) (hurl : urlTarget? expr = some url) :
    Readable l.options (urlRule url) (.call "url" [.literal url]) := by
  obtain ⟨text, hreach, hpaths⟩ := h
  exact (hplain importer text hreach).readable_url (hpaths _ List.mem_cons_self) hurl

theorem readable_name {expr : Expr}
    (h : Task.IsReached l file source (.exprs importer statement indent ((expr, some name) :: es)))
    (hplain : AllPlain l file source) (hurl : urlTarget? expr = none)
    (hrule : isRule l.options name = true) :
    Readable l.options (nameRule name) (.literal name) := by
  obtain ⟨text, hreach, hpaths⟩ := h
  exact (hplain importer text hreach).readable_name (hpaths _ List.mem_cons_self) hurl rfl hrule

/-- The import is one of a document that is reached, so the file it leads to is reached too. -/
theorem located {expr : Expr} {s : PathSet} {files : List Path}
    (h : Task.IsReached l file source (.exprs importer statement indent ((expr, some name) :: es)))
    (hurl : urlTarget? expr = none) (hrule : isRule l.options name = false)
    (hlocate : ((Setting.ofLocator l.options l.locator).locate importer name s).1 = .ok files) :
    Task.IsReached l file source (.files importer statement.kind indent files) := by
  obtain ⟨text, hreach, hpaths⟩ := h
  obtain ⟨target, hknown, rfl⟩ := known?_of_ofLocator hlocate
  intro target' htarget text' hread
  rw [List.mem_singleton.1 htarget] at hread ⊢
  exact reaches_of_path hreach (hpaths _ List.mem_cons_self) hurl hrule hknown hread

theorem nextFile
    (h : Task.IsReached l file source (.files importer kind indent (target :: targets))) :
    Task.IsReached l file source (.files importer kind indent targets) :=
  fun target' htarget => h target' (List.mem_cons_of_mem _ htarget)

theorem included {s : PathSet}
    (h : Task.IsReached l file source (.files importer kind indent (target :: targets)))
    (hread : ((Setting.ofLocator l.options l.locator).read target s).1 = .ok text) :
    Task.IsReached l file source (.document target text indent) :=
  h target List.mem_cons_self text (read_of_ofLocator hread)

/-- A line of a plain document is on one line, and its blanks separate tokens. -/
theorem line_spaced (h : Task.IsReached l file source (.acts sheet acts))
    (hplain : AllPlain l file source) {line : Text.Line} (hline : line ∈ Text.lines sheet.source) :
    '\n' ∉ line.text ∧ Spaced line.text ∧ line.text.getLast? ≠ some '\r' := by
  obtain ⟨text, hsource, hreach, -⟩ := h
  have htext := hplain sheet.file text hreach
  have hlines := Text.linesAt_lines sheet.source
  obtain ⟨hle, hstart, hstop, hslice⟩ := hlines.between_of_mem hline
  have hsub : line.text ⊆ text.toList := by
    rw [← hslice, ← hsource]
    exact Text.slice_subset hstart hstop hle
  exact ⟨hlines.single_of_mem hline, htext.spaced.mono hsub, htext.ends line (hsource ▸ hline)⟩

theorem gaps_lineBase (h : Task.IsReached l file source (.acts sheet acts))
    (hplain : AllPlain l file source) (hindent : Gaps sheet.indent.toList) {line : Text.Line}
    (hline : line ∈ Text.lines sheet.source) : Gaps (lineBase sheet.indent line).toList := by
  obtain ⟨hsingle, hspaced, -⟩ := h.line_spaced hplain hline
  rw [lineBase, String.toList_append, String.toList_ofList]
  refine hindent.append (Lexeme.no_feed_gaps hspaced ?_ ?_ hsingle)
  · exact (List.takeWhile_prefix _).subset
  · exact List.all_eq_true.1 (List.all_takeWhile (l := line.text))

end Task.IsReached

variable {depth : Nat} {stack : List Path} {task : Task} {writes : List Write}
  {p q : Pass PathSet}

/-- All lines that a task writes of plain documents are tidy. -/
theorem Does.tidy (h : Does (.ofLocator l.options l.locator) depth stack task writes p q)
    (hplain : AllPlain l file source) (hreached : task.IsReached l file source)
    (hspaced : task.IsSpaced) (hparsed : p.parsed.Valid) : ∀ w ∈ writes, w.IsTidy := by
  induction h with
  | @document depth stack importer text indent document writes p q parse acts ih =>
    have hparse : StyleWeave.parse text.toList = .ok document := by
      rw [← hparsed.parse_eq]
      exact parse
    refine ih (hreached.planned hparse) ⟨hspaced, fun act hact => ?_⟩
      (valid_entered hparsed importer text)
    obtain ⟨line, hline, hfits, -⟩ := fits_planSheet hparse act hact
    exact ⟨line, hline, hfits⟩
  | done | noExpr | noFile => intro w hw; cases hw
  | @line depth stack sheet line rest written writes p q hwritten others ih =>
    obtain ⟨hindent, hfits⟩ := hspaced
    intro w hw
    rcases List.mem_append.1 hw with hw | hw
    · obtain ⟨line', hline, hfit⟩ := hfits _ List.mem_cons_self
      obtain rfl : line = line' := hfit
      obtain ⟨hsingle, hblanks, hends⟩ := hreached.line_spaced hplain hline
      rw [hwritten, List.mem_singleton] at hw
      rw [hw]
      exact tidy_lineText hindent hsingle hblanks hends _ _
    · exact ih hreached.nextAct ⟨hindent, fun act hact => hfits act (List.mem_cons_of_mem _ hact)⟩
        hparsed w hw
  | @fragment depth stack sheet base text opened number rest written writes p q hwritten others
      ih =>
    obtain ⟨hindent, hfits⟩ := hspaced
    intro w hw
    rcases List.mem_append.1 hw with hw | hw
    · obtain ⟨line, hline, rfl, -, hpart⟩ := hfits _ List.mem_cons_self
      obtain ⟨hsingle, hblanks, -⟩ := hreached.line_spaced hplain hline
      have hbase := hreached.gaps_lineBase hplain hindent hline
      rw [hwritten] at hw
      exact tidy_fragmentWrites hbase (fun hfeed => hsingle (hpart.subset hfeed))
        (hblanks.mono hpart.subset) opened _ _ w hw
    · exact ih hreached.nextAct ⟨hindent, fun act hact => hfits act (List.mem_cons_of_mem _ hact)⟩
        hparsed w hw
  | @site depth stack sheet indent site rest written writes p m q here others ihHere ihOthers =>
    obtain ⟨hindent, hfits⟩ := hspaced
    have hsite : Gaps indent.toList := by
      obtain ⟨line, hline, n, rfl⟩ := hfits _ List.mem_cons_self
      rw [String.toList_append]
      exact (hreached.gaps_lineBase hplain hindent hline).append (gaps_levels n)
    intro w hw
    rcases List.mem_append.1 hw with hw | hw
    · exact ihHere hreached.site hsite hparsed w hw
    · exact ihOthers hreached.nextAct
        ⟨hindent, fun act hact => hfits act (List.mem_cons_of_mem _ hact)⟩ (here.valid hparsed) w hw
  | @url depth stack importer statement indent expr name target rest written writes p q hurl
      hwritten others ih =>
    intro w hw
    rcases List.mem_append.1 hw with hw | hw
    · rw [hwritten, List.mem_singleton] at hw
      rw [hw]
      exact tidy_rule hspaced (hreached.readable_url hplain hurl)
    · exact ih hreached.nextExpr hspaced hparsed w hw
  | @rule depth stack importer statement indent expr name rest written writes p q hurl hrule
      hwritten others ih =>
    intro w hw
    rcases List.mem_append.1 hw with hw | hw
    · rw [hwritten, List.mem_singleton] at hw
      rw [hw]
      exact tidy_rule hspaced (hreached.readable_name hplain hurl hrule)
    · exact ih hreached.nextExpr hspaced hparsed w hw
  | @located depth stack importer statement indent expr name rest files written writes p m q hurl
      hrule hlocate here others ihHere ihOthers =>
    intro w hw
    rcases List.mem_append.1 hw with hw | hw
    · exact ihHere (hreached.located hurl hrule hlocate) hspaced hparsed w hw
    · exact ihOthers hreached.nextExpr hspaced (here.valid hparsed) w hw
  | skipped _ _ ih => exact ih hreached.nextFile hspaced hparsed
  | @included depth stack importer kind indent target text rest written writes p m q hnew hstack
      hfound here others ihHere ihOthers =>
    intro w hw
    rcases List.mem_append.1 hw with hw | hw
    · exact ihHere (hreached.included hfound) hspaced hparsed w hw
    · exact ihOthers hreached.nextFile hspaced (here.valid hparsed) w hw

end Inline

end StyleWeave
