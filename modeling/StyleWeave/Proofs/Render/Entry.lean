import StyleWeave.Proofs.Host.Finite
import StyleWeave.Proofs.Path.Parent
import StyleWeave.Proofs.Render.Lockstep

/-!
# Entry documents and imported ones

A document that is imported by a text with nothing else in it is rendered like the document by
itself (`rendered_like_imported`), but for one thing: a pass does not count its entry among the
files that were included, so a `@require` that leads back to the entry is not skipped.
-/

namespace StyleWeave.Inline

open Step (exec)
open Text (bytes slice dropBytes)

/-! ## Texts of one import -/

/-- Whether a text is one line with nothing on it but an `@import` of the name. -/
def isWrapping (text name : String) : Bool :=
  match StyleWeave.parse text.toList, Text.lines text.toList with
  | .ok [.importing ⟨.import_, [.literal name'], _, 0, stop⟩], [line] =>
    name' = name && (Text.trim (slice text.toList stop line.stop)).isEmpty
  | _, _ => false

/-- The text is one line, `line`, with nothing on it but `statement`, an `@import` of the name. -/
structure Wraps (text name : String) (statement : Import) (line : Text.Line) : Prop where
  parse : StyleWeave.parse text.toList = .ok [.importing statement]
  kind : statement.kind = .import_
  exprs : statement.exprs = [.literal name]
  start : statement.start = 0
  lines : Text.lines text.toList = [line]
  blank : Text.trim (slice text.toList statement.stop line.stop) = []

section

variable {text name : String} {statement : Import} {line : Text.Line}

theorem Wraps.importSites_eq (h : Wraps text name statement line) (table : Table) :
    importSites [.importing statement] table = [⟨statement, [some name]⟩] := by
  show [(⟨statement, statement.exprs.map (Expr.eval [] table)⟩ : ImportSite)] = _
  rw [h.exprs]
  rfl

theorem exists_wraps (h : isWrapping text name = true) :
    ∃ statement line, Wraps text name statement line := by
  unfold isWrapping at h
  split at h
  · next name' number stop line hparse hlines =>
    rw [Bool.and_eq_true, decide_eq_true_eq, List.isEmpty_iff] at h
    obtain ⟨rfl, hblank⟩ := h
    exact ⟨_, line, hparse, rfl, rfl, rfl, hlines, hblank⟩
  · cases h

/-- The line starts with the statement. -/
theorem Wraps.line_spec (h : Wraps text name statement line) :
    line.start = 0 ∧ 0 < line.stop ∧ Text.leading line.text = [] := by
  have hspans := Syntax.spans_of_parse h.parse
  have hhead : (dropBytes text.toList 0).head? = some '@' := by
    rw [← h.start]
    obtain - | ⟨-, -, -, -, hhead, -⟩ := hspans
    exact hhead
  have hlines := Text.linesAt_lines text.toList
  rw [h.lines] at hlines
  obtain ⟨hstart, hbreak⟩ := hlines.single_line
  obtain ⟨-, -, hstop, htext⟩ := hlines.between_of_mem List.mem_cons_self
  obtain ⟨front, behind, hcs, hbytes⟩ := hstop
  rw [Text.dropBytes_zero, hcs] at hhead
  rw [hstart, hcs, ← hbytes] at htext
  have hfront : front = line.text := by
    rw [← htext]
    simpa using (Text.slice_of_append [] front behind).symm
  cases front with
  | nil =>
    -- The line would be a line break only.
    rw [← hbytes, hcs, List.nil_append] at hbreak
    have hslice : slice behind 0 (bytes behind) = behind := by
      simpa using Text.slice_of_append [] behind []
    rw [Text.bytes_nil, hslice] at hbreak
    rcases hbreak '@' (List.mem_of_head? hhead) with heq | heq <;> cases heq
  | cons c rest =>
    obtain rfl : c = '@' := Option.some.inj hhead
    refine ⟨hstart, ?_, ?_⟩
    · rw [← hbytes, Text.bytes_cons]
      exact Nat.lt_of_lt_of_le (Char.utf8Size_pos _) (Nat.le_add_right _ _)
    · rw [← hfront]
      rfl

/-- What is planned for the text is the import, without an indentation, between blanks. -/
theorem Wraps.planSheet_eq (h : Wraps text name statement line) (file : Path) (index : Nat)
    (table : Table) :
    planSheet (Sheet.of file text "" index) [.importing statement] table =
      .fragment "" [] 0 line.number :: .site "" ⟨statement, [some name]⟩ ::
        planTail text.toList "" line statement.stop 0 := by
  obtain ⟨hstart, hpos, hleading⟩ := h.line_spec
  have hsites : sitesInOrder [.importing statement] table = [⟨statement, [some name]⟩] := by
    unfold sitesInOrder
    rw [h.importSites_eq]
    exact List.mergeSort_singleton _
  have hhere : sitesOn line [⟨statement, [some name]⟩] = [⟨statement, [some name]⟩] := by
    unfold sitesOn
    rw [List.takeWhile_cons_of_pos (by simpa [h.start] using hpos)]
    rfl
  have hrest : lineRest 0 line = 0 := by
    unfold lineRest
    rw [hstart]
    simp
  have hbase : lineBase "" line = "" := by
    unfold lineBase
    rw [hleading]
    rfl
  have hbehind : fragmentOpen 0 (slice text.toList 0 statement.start) = 0 := by
    rw [h.start, Text.slice_self]
    rfl
  unfold planSheet
  rw [hsites]
  show planLines text.toList "" (Text.lines text.toList) 0 [⟨statement, [some name]⟩] = _
  rw [h.lines, planLines, hhere, if_neg (by simp)]
  dsimp only
  rw [hrest, hbase]
  simp only [planSites, hbehind, planLines, List.append_nil]
  rw [h.start, Text.slice_self]
  rfl

end

/-! ## The pass through such a text -/

section

variable {σ : Type} {env : Setting σ} {nested : Inliner σ} {stack : List Path} {text name : String}
  {statement : Import} {line : Text.Line}

theorem exec_performAll_blank {sheet : Sheet} {base : String} {cs : List Char}
    (h : (Text.trim cs).isEmpty = true) (opened number : Nat) (rest : List Act) (p : Pass σ) :
    exec (performAll env nested stack sheet (.fragment base cs opened number :: rest)) p =
      exec (performAll env nested stack sheet rest) p := by
  have hwrites : (Act.fragment base cs opened number).writes sheet = [] := if_pos h
  rw [exec_performAll_cons, exec_perform_of_not_site (fun _ _ => by simp), hwrites]
  simp [Pass.write, Write.mappings]

/-- The pass through the text is that of its import. -/
theorem Wraps.exec_eq (h : Wraps text name statement line) (file : Path) {p : Pass σ}
    (hvalid : p.parsed.Valid) :
    exec (renderSheet env nested stack file text "") p =
      exec (importOne env nested (file :: stack) file statement "" (.literal name) (some name))
        (sourceIndex file { p with parsed := (p.parsed.parse text).2 }).2 := by
  have hparse : (p.parsed.parse text).1 = .ok [.importing statement] :=
    (hvalid.parse_eq text).trans h.parse
  rw [exec_renderSheet]
  rcases hanswer : p.parsed.parse text with ⟨result, parsed⟩
  rw [hanswer] at hparse
  obtain rfl : result = .ok [.importing statement] := hparse
  dsimp only
  rw [h.planSheet_eq, exec_performAll_blank rfl, exec_performAll_cons]
  generalize (sourceIndex file { p with parsed }).2 = q
  have hsite : exec (perform env nested (file :: stack) (Sheet.of file text ""
      (sourceIndex file { p with parsed }).1) (.site "" ⟨statement, [some name]⟩)) q =
        exec (importOne env nested (file :: stack) file statement "" (.literal name) (some name))
          q := by
    show exec (importAll env nested (file :: stack) file statement ""
      (statement.exprs.zip [some name])) q = _
    rw [h.exprs]
    exact exec_importAll_single file statement "" (.literal name) (some name) q
  rw [hsite]
  rcases exec (importOne env nested (file :: stack) file statement "" (.literal name)
    (some name)) q with ⟨halt | ⟨⟩, r⟩
  · rfl
  · dsimp only
    unfold planTail
    split
    · rw [exec_performAll_blank (by rw [h.blank]; rfl)]
      rfl
    · rfl

end

/-! ## Importing a file by its name -/

/-- A document is known for its file name in the documents beside it. -/
theorem known?_fileName {l : Lookup} {importer file dir : Path} {name : String}
    (hname : file.fileName? = some name) (hdialect : l.options.dialect.isDialectFile file = true)
    (hparent : importer.parent? = some dir) (hbeside : dir == file.directory)
    (hnormal : file.normalize = file) (hother : (file == importer) = false)
    (hfile : l.tree.isFile file = true) : l.known? importer name = some file := by
  have hlegal := Path.legal_of_fileName hname
  have hpath : filePath l.options.dialect name = name := by
    have hsame : (Path.mk name).fileName? = file.fileName? := by
      rw [hname, Path.fileName?_eq_some_iff, Path.components_name hlegal]
      rfl
    unfold filePath
    rw [if_pos ((l.options.dialect.isDialectFile_of_fileName hsame).trans hdialect)]
  have hsearch : (searchPaths l.options importer).reverse = dir :: l.options.paths.reverse := by
    unfold searchPaths
    rw [hparent]
    simp
  have hjoin : (dir.join ⟨name⟩).normalize = file := by
    rw [Path.normalize_join_fileName hname hbeside, hnormal]
  have hnative : l.nativeFile? importer name = some file := by
    have hrelative : ¬ (Path.mk name).isAbsolute = true := by
      rw [(Path.components_of_legal hlegal true).1]
      exact Bool.false_ne_true
    unfold Lookup.nativeFile? Lookup.nativeFind
    dsimp only
    rw [hpath, if_neg hrelative, hsearch, List.map_cons, hjoin]
    refine List.find?_cons_of_pos ?_
    rw [hfile]
    simpa [Lookup.isIgnored] using hother
  rw [Lookup.known?, hnative, Option.some_or]

/-! ## Two doors into a document -/

/-- The document and a text that imports it from beside it, and from nowhere else does anything lead
to that text. -/
structure Wrapped (m : Memory) (cache : Cache) (options : Options) (file : Path) (text : String)
    (wrapper : Path) (wrapping : String) (name : String) : Prop where
  text_eq : m.text? file = some text
  normal : file.normalize = file
  dialect : options.dialect.isDialectFile file = true
  name_eq : file.fileName? = some name
  resolvable : Reference.isUnresolvable name = false
  native : options.dialect.isHostReference name = false
  beside : ∃ dir, wrapper.parent? = some dir ∧ dir == file.directory
  other : (file == wrapper) = false
  wraps : isWrapping wrapping name = true
  unimported : ∀ importer name' target,
    ReachesImport options m.tree (Lookup.known? ⟨m.tree, cache, options⟩) file text importer name' →
      Lookup.known? ⟨m.tree, cache, options⟩ importer name' = some target →
        (target == wrapper) = false

/-- A `@require` of a document that is reached leads back to the file. -/
def RequiredBack (l : Lookup) (file : Path) (text : String) (importer target : Path) : Prop :=
  (target == file) = true ∧ ∃ source name,
    Reaches l.options l.tree l.known? file text importer source ∧
      ImportsAs l.options source .require name ∧ l.known? importer name = some target

/-- One pass stands where the other does, but for what was included in front: the files `before`
there, and the one file here. -/
structure BesideFile (before : List Path) (file : Path) (p q : Pass PathSet) : Prop where
  lines : p.lines = q.lines
  parsed : p.parsed.Valid
  parsed' : q.parsed.Valid
  included : ∃ since, p.included = before ++ since ∧ q.included = file :: since

/-- What is known of the documents that are reached. -/
def reached (l : Lookup) (file : Path) (text : String) : Reach where
  document importer source := Reaches l.options l.tree l.known? file text importer source
  asks importer kind name := ∃ source, Reaches l.options l.tree l.known? file text importer source ∧
    ImportsAs l.options source kind name
  file importer kind target := ∃ source name,
    Reaches l.options l.tree l.known? file text importer source ∧
      ImportsAs l.options source kind name ∧ l.known? importer name = some target

theorem ImportsAs.imports {options : Options} {source name : String} {kind : ImportKind}
    (h : ImportsAs options source kind name) : Imports options source name := by
  obtain ⟨document, hparse, site, hsite, -, hlocates⟩ := h
  exact ⟨document, hparse, site, hsite, hlocates⟩

theorem verdict_congr {stack stack' included included' : List Path} {kind : ImportKind}
    {file : Path} (hstack : stack.contains file = stack'.contains file)
    (hincluded : kind = .require → included.contains file = included'.contains file) :
    verdict stack included kind file = verdict stack' included' kind file := by
  unfold verdict
  rw [hstack]
  cases kind with
  | import_ => rfl
  | require => rw [hincluded rfl]

section

variable {l : Lookup} {file wrapper : Path} {text : String} {before : List Path}

/-- Failures by which the passes may differ: for a `@require` that leads back to a file which was
not included before. -/
def Backwards (l : Lookup) (file : Path) (text : String) (before : List Path) (halt : Halt) :
    Prop :=
  before = [] ∧ ∃ importer target, RequiredBack l file text importer target ∧
    halt = importLoop importer target

theorem judge_besideFile (hbefore : before = [] ∨ before = [file]) {p q : Pass PathSet}
    {importer target : Path} {kind : ImportKind} (stack : List Path)
    (h : BesideFile before file p q) (hreach : (reached l file text).file importer kind target)
    (hother : (target == wrapper) = false) :
    (verdict (stack ++ [file]) p.included kind target = .loop ∧
        Backwards l file text before (importLoop importer target)) ∨
      verdict (stack ++ [file]) p.included kind target =
        verdict (stack ++ [file, wrapper]) q.included kind target := by
  obtain ⟨since, hp, hq⟩ := h.included
  have hstack : (stack ++ [file]).contains target = (stack ++ [file, wrapper]).contains target := by
    simp [List.contains_eq_any_beq, hother]
  rcases hbefore with rfl | rfl
  · rw [hp, hq, List.nil_append]
    by_cases hback : kind = .require ∧ (target == file) = true ∧ since.contains target = false
    · obtain ⟨rfl, hfile, hnew⟩ := hback
      refine Or.inl ⟨verdict_eq_loop_iff.2 ⟨?_, ?_⟩, rfl, importer, target, ⟨hfile, hreach⟩, rfl⟩
      · simp [List.contains_eq_any_beq, hfile]
      · rw [hnew]
        simp
    · refine Or.inr (verdict_congr hstack fun hkind => ?_)
      rw [List.contains_cons]
      cases hfile : target == file with
      | false => rfl
      | true =>
        cases hsince : since.contains target with
        | false => exact absurd ⟨hkind, hfile, hsince⟩ hback
        | true => rfl
  · rw [hp, hq]
    exact Or.inr (verdict_congr hstack fun _ => rfl)

theorem BesideFile.of_same {p p' q q' : Pass PathSet} (h : BesideFile before file p q)
    (hlines : p'.lines = q'.lines) (hparsed : p'.parsed.Valid) (hparsed' : q'.parsed.Valid)
    (hp : p'.included = p.included) (hq : q'.included = q.included) :
    BesideFile before file p' q' := by
  refine ⟨hlines, hparsed, hparsed', ?_⟩
  rw [hp, hq]
  exact h.included

theorem lockstep_besideFile (hbefore : before = [] ∨ before = [file])
    (hother : ∀ importer kind target, (reached l file text).file importer kind target →
      (target == wrapper) = false) :
    Lockstep (Backwards l file text before) "" (fun _ _ => True) (reached l file text) [file]
      [file, wrapper] (BesideFile before file) (.ofLocator l.options l.locator)
      (.ofLocator l.options l.locator) where
  options := rfl
  write {p q w w'} h hw := by
    refine h.of_same ?_ h.parsed h.parsed' rfl rfl
    have hline : w.line = w'.line := by rw [hw.line_eq, empty_indentLine]
    simp [Pass.write, h.lines, hline]
  parse source h := by
    refine ⟨by rw [h.parsed.parse_eq, h.parsed'.parse_eq], ?_⟩
    exact h.of_same h.lines (h.parsed.parse source) (h.parsed'.parse source) rfl rfl
  asks {p q importer source document} h hreach hparse site hsite name hlocates := by
    rw [h.parsed.parse_eq] at hparse
    exact ⟨source, hreach, document, hparse, site, hsite, rfl, hlocates⟩
  number {p q} importer h := by
    obtain ⟨more, hp⟩ := sourceIndex_snd importer p
    obtain ⟨more', hq⟩ := sourceIndex_snd importer q
    rw [hp, hq]
    exact ⟨trivial, h.of_same h.lines h.parsed h.parsed' rfl rfl⟩
  judge stack h hreach := judge_besideFile hbefore stack h hreach (hother _ _ _ hreach)
  including target h := by
    obtain ⟨since, hp, hq⟩ := h.included
    refine ⟨h.lines, h.parsed, h.parsed', since ++ [target], ?_, ?_⟩
    · rw [hp, List.append_assoc]
    · rw [hq, List.cons_append]
  locate {p q importer kind name} h hasks := by
    have hlocate := locateIn_locator l importer name p.search
    have hlocate' := locateIn_locator l importer name q.search
    refine ⟨(congrArg Prod.fst hlocate).trans (congrArg Prod.fst hlocate').symm,
      h.of_same h.lines h.parsed h.parsed' rfl rfl, fun files hfiles target htarget => ?_⟩
    obtain ⟨found, hknown, rfl⟩ := known?_of_ofLocator hfiles
    obtain rfl := List.mem_singleton.1 htarget
    obtain ⟨source, hreach, himports⟩ := hasks
    exact ⟨source, name, hreach, himports, hknown⟩
  read {p q importer kind target} h hreach := by
    refine ⟨rfl, h.of_same h.lines h.parsed h.parsed' rfl rfl, fun source hread => ?_⟩
    obtain ⟨source', name, hreach, himports, hknown⟩ := hreach
    exact .imported hreach himports.imports hknown (read_of_ofLocator hread)

/-- A document does the same as an entry and as what the wrapper imports, but for the statements
that lead back to it. -/
theorem inStep_besideFile (hbefore : before = [] ∨ before = [file])
    (hother : ∀ importer kind target, (reached l file text).file importer kind target →
      (target == wrapper) = false) (depth : Nat) :
    InStep (Backwards l file text before) (BesideFile before file)
      (inline (.ofLocator l.options l.locator) depth [] file text "")
      (inline (.ofLocator l.options l.locator) depth [wrapper] file text "") := by
  have hlockstep := lockstep_besideFile hbefore hother
  cases depth with
  | zero => exact fun _ _ h => Or.inr ⟨rfl, h⟩
  | succ depth =>
    have hnested : ∀ file' source indent, (reached l file text).document file' source →
        InStep (Backwards l file text before) (BesideFile before file)
          (inline (.ofLocator l.options l.locator) depth ([] ++ [file]) file' source
            ("" ++ indent))
          (inline (.ofLocator l.options l.locator) depth ([] ++ [file, wrapper]) file' source
            indent) :=
      fun file' source indent hd => lockstep_inline hlockstep depth [] indent hd
    have hentry : (reached l file text).document file text := .entry
    have hdocument : InStep (Backwards l file text before) (BesideFile before file)
        (inline (.ofLocator l.options l.locator) (depth + 1) [] file text ("" ++ ""))
        (inline (.ofLocator l.options l.locator) (depth + 1) [wrapper] file text "") :=
      lockstep_renderSheet hlockstep hnested "" hentry rfl rfl
    rw [String.append_empty] at hdocument
    exact hdocument

end

/-! ## Answers -/

/-- How a render ended, without the source map. -/
def withoutMap : Except Failure Outcome → Except Failure Outcome
  | .ok (.rendered r) => .ok (.rendered { r with sourceMap := none })
  | answer => answer

/-- What a render answers, without the source map. -/
def answer {ρ : Type} (step : Option (RenderStep ρ)) : Option (Except Failure Outcome) :=
  step.map fun s => withoutMap s.outcome

theorem answer_render (depth : Nat) (parsed : ParseCache) (file : Path) (source : String)
    (options : Options) (locator : Locator PathSet) (found : PathSet) :
    answer ((renderer depth).render parsed file source options locator found) =
      let pass := passThrough (.ofLocator options locator) depth file source found parsed
      (outcome options file pass.2 pass.1).map withoutMap := by
  rw [render_eq]
  unfold answer
  dsimp only
  rw [Option.map_map]
  rfl

theorem outcome_of_lines {σ : Type} {options : Options} {file : Path} {p : Pass σ}
    {result : Except Halt Unit} {lines : List String} (hresult : result = .ok ())
    (hlines : p.lines.toList = lines) : (outcome options file p result).map withoutMap =
      some (.ok (.rendered ⟨cssOf lines, none⟩)) := by
  subst hresult hlines
  rfl

theorem outcome_withoutMap {σ τ : Type} {options : Options} {file file' : Path} {p : Pass σ}
    {q : Pass τ} {result result' : Except Halt Unit} (hresult : result = result')
    (hlines : p.lines = q.lines) :
    (outcome options file p result).map withoutMap =
      (outcome options file' q result').map withoutMap := by
  subst hresult
  rcases result with (pending | failure | _) | ⟨⟩
  · rfl
  · rfl
  · rfl
  · have hcss := congrArg Array.toList hlines
    exact (outcome_of_lines rfl hcss).trans (outcome_of_lines rfl rfl).symm

/-- The CSS of an answer. -/
def css? : Except Failure Outcome → Option String
  | .ok (.rendered r) => some r.css
  | _ => none

/-- The message of an answer that is a compile error. -/
def compileError? : Except Failure Outcome → Option String
  | .error (.compile message) => some message
  | _ => none

theorem answer_of_css? {ρ : Type} {step : Option (RenderStep ρ)} {css : String}
    (h : (answer step).bind css? = some css) :
    answer step = some (.ok (.rendered ⟨css, none⟩)) := by
  cases step with
  | none => cases h
  | some step =>
    obtain ⟨failure | ⟨rendered | pending⟩, found, state⟩ := step
    · cases h
    · obtain rfl := Option.some.inj h
      rfl
    · cases h

theorem answer_of_compileError? {ρ : Type} {step : Option (RenderStep ρ)} {message : String}
    (h : (answer step).bind compileError? = some message) :
    answer step = some (.error (.compile message)) := by
  obtain ⟨result, hanswer, hmessage⟩ := Option.bind_eq_some_iff.1 h
  unfold compileError? at hmessage
  split at hmessage
  · rw [hanswer, Option.some.inj hmessage]
  · cases hmessage

/-! ## Entries -/

section

variable {σ : Type} {m : Memory} {cache : Cache} {options : Options} {file wrapper : Path}
  {text wrapping name : String}

theorem Wrapped.isRule_eq (h : Wrapped m cache options file text wrapper wrapping name) :
    isRule options name = options.dialect.isPlainStylesheet name := by
  unfold isRule
  rw [h.resolvable, Bool.or_false]

/-- The pass through the wrapper is that of an import of the name. -/
theorem Wrapped.exec_eq (h : Wrapped m cache options file text wrapper wrapping name)
    (env : Setting σ) (depth : Nat) {p : Pass σ} (hvalid : p.parsed.Valid) :
    ∃ statement parsed more, statement.kind = .import_ ∧ parsed.Valid ∧
      exec (inline env (depth + 1) [] wrapper wrapping "") p =
        exec (importOne env (inline env depth) [wrapper] wrapper statement "" (.literal name)
          (some name)) { p with parsed, sources := p.sources ++ more } := by
  obtain ⟨statement, line, hwraps⟩ := exists_wraps h.wraps
  obtain ⟨more, hentered⟩ :=
    sourceIndex_snd wrapper { p with parsed := (p.parsed.parse wrapping).2 }
  refine ⟨statement, (p.parsed.parse wrapping).2, more, hwraps.kind, hvalid.parse wrapping, ?_⟩
  show exec (renderSheet env (inline env depth) [] wrapper wrapping "") p = _
  rw [hwraps.exec_eq wrapper hvalid, hentered]

/-- Where the name is that of a plain stylesheet, the wrapper has a rule for it. -/
theorem Wrapped.exec_of_plain (h : Wrapped m cache options file text wrapper wrapping name)
    (env : Setting σ) (henv : env.options = options)
    (hplain : options.dialect.isPlainStylesheet name = true) (depth : Nat) {p : Pass σ}
    (hvalid : p.parsed.Valid) :
    let pass := exec (inline env (depth + 1) [] wrapper wrapping "") p
    pass.1 = .ok () ∧ pass.2.lines = p.lines.push (nameRule name) := by
  intro pass
  obtain ⟨statement, parsed, more, -, -, hpass⟩ := h.exec_eq env depth hvalid
  have hrule : isRule env.options name = true := by
    rw [henv, h.isRule_eq, hplain]
  have hurl : urlTarget? (.literal name) = none := rfl
  rw [exec_importOne, hurl] at hpass
  dsimp only at hpass
  rw [if_pos hrule] at hpass
  show (exec (inline env (depth + 1) [] wrapper wrapping "") p).1 = _ ∧
    (exec (inline env (depth + 1) [] wrapper wrapping "") p).2.lines = _
  rw [hpass]
  refine ⟨rfl, ?_⟩
  simp [Pass.write, Write.line]

/-- Otherwise the wrapper gets to the document, which is included then. -/
theorem Wrapped.exec_of_not_plain (h : Wrapped m cache options file text wrapper wrapping name)
    (hplain : options.dialect.isPlainStylesheet name = false) (depth : Nat) {p : Pass PathSet}
    (hvalid : p.parsed.Valid) (hnone : p.included = []) :
    let l : Lookup := ⟨m.tree, cache, options⟩
    let env := Setting.ofLocator options l.locator
    ∃ q, exec (inline env (depth + 1) [] wrapper wrapping "") p =
        exec (inline env depth [wrapper] file text "") q ∧
      q.lines = p.lines ∧ q.included = [file] ∧ q.parsed.Valid := by
  intro l env
  obtain ⟨statement, parsed, more, hkind, hparsed, hpass⟩ := h.exec_eq env depth hvalid
  obtain ⟨dir, hparent, hbeside⟩ := h.beside
  have hrule : isRule env.options name = false := by
    show isRule options name = false
    rw [h.isRule_eq, hplain]
  have hurl : urlTarget? (.literal name) = none := rfl
  have hfile : m.tree.isFile file = true := by
    show (m.text? file).isSome = true
    rw [h.text_eq]
    rfl
  have hlocate : env.locate wrapper name p.search = (.ok [file], p.search.insert file) := by
    refine (locateIn_locator l wrapper name p.search).trans ?_
    have hknown : l.known? wrapper name = some file :=
      known?_fileName h.name_eq h.dialect hparent hbeside h.normal h.other hfile
    rw [Lookup.search_eq, hknown]
    rfl
  have hread : ∀ s, env.read file s = (.ok text, s) := by
    intro s
    show ((m.tree.read file).mapError Halt.failed, s) = _
    unfold Memory.tree
    dsimp only
    rw [h.text_eq]
    rfl
  have hverdict : verdict [wrapper] [] .import_ file = .included := by
    refine verdict_eq_included_iff.2 ⟨?_, by simp⟩
    simpa using h.other
  rw [exec_importOne, hurl] at hpass
  dsimp only at hpass
  rw [hrule, if_neg Bool.false_ne_true, hlocate] at hpass
  dsimp only at hpass
  rw [exec_includeFiles_single, exec_includeFile, hkind, hnone] at hpass
  dsimp only at hpass
  rw [hverdict] at hpass
  dsimp only at hpass
  rw [hread] at hpass
  exact ⟨_, hpass, rfl, rfl, hparsed⟩

/-- Rendering a document gives what rendering a text that only imports it gives, unless a `@require`
leads back to the document: as an entry it was not included, so that is an import loop. -/
theorem rendered_like_imported
    (h : Wrapped m cache options file text wrapper wrapping name) (depth : Nat)
    {parsed parsed' : ParseCache} (hparsed : parsed.Valid) (hparsed' : parsed'.Valid)
    (found found' : PathSet) :
    let l : Lookup := ⟨m.tree, cache, options⟩
    let entry := answer ((renderer depth).render parsed file text options l.locator found)
    let imported :=
      answer ((renderer (depth + 1)).render parsed' wrapper wrapping options l.locator found')
    let counted := exec (inline (.ofLocator options l.locator) depth [] file text "")
      { search := found, parsed, included := [file] }
    (options.dialect.isPlainStylesheet name = true →
      imported = some (.ok (.rendered ⟨nameRule name ++ "\n", none⟩))) ∧
    (options.dialect.isPlainStylesheet name = false →
      (outcome options file counted.2 counted.1).map withoutMap = imported ∧
      (entry = imported ∨ ∃ importer target, RequiredBack l file text importer target ∧
        entry = some (.error (.compile ("import loop has been found: " ++ importer.text ++
          " imports " ++ target.text))))) := by
  intro l entry imported counted
  have himported : imported = _ :=
    answer_render (depth + 1) parsed' wrapper wrapping options l.locator found'
  have hentry : entry = _ := answer_render depth parsed file text options l.locator found
  refine ⟨fun hplain => ?_, fun hplain => ?_⟩
  · obtain ⟨hresult, hlines⟩ := h.exec_of_plain (.ofLocator options l.locator) rfl hplain depth
      (p := { search := found', parsed := parsed' }) hparsed'
    have hcss : cssOf [nameRule name] = nameRule name ++ "\n" := by
      have hjoined : "\n".intercalate [nameRule name] = nameRule name := rfl
      unfold cssOf
      rw [hjoined]
      exact if_neg (by simpa using nameRule_ne_empty name)
    rw [himported, ← hcss]
    refine outcome_of_lines hresult ?_
    exact (congrArg Array.toList hlines).trans rfl
  · obtain ⟨q, hpass, hlines, hincluded, hvalid⟩ :=
      h.exec_of_not_plain hplain depth (p := { search := found', parsed := parsed' }) hparsed' rfl
    have hthrough : passThrough (.ofLocator options l.locator) (depth + 1) wrapper wrapping found'
        parsed' = exec (inline (.ofLocator options l.locator) depth [wrapper] file text "") q :=
      hpass
    rw [hthrough] at himported
    have hother : ∀ importer kind target, (reached l file text).file importer kind target →
        (target == wrapper) = false := by
      rintro importer kind target ⟨source, name', hreach, himports, hknown⟩
      exact h.unimported importer name' target ⟨source, hreach, himports.imports⟩ hknown
    constructor
    · have hbeside : BesideFile [file] file { search := found, parsed, included := [file] } q :=
        ⟨hlines.symm, hparsed, hvalid, [], rfl, hincluded⟩
      rcases inStep_besideFile (Or.inr rfl) hother depth _ _ hbeside with
        ⟨_, -, hnone, -⟩ | ⟨hresult, hrelated⟩
      · cases hnone
      · rw [himported]
        exact outcome_withoutMap hresult hrelated.lines
    · have hbeside : BesideFile [] file { search := found, parsed } q :=
        ⟨hlines.symm, hparsed, hvalid, [], rfl, hincluded⟩
      rcases inStep_besideFile (Or.inl rfl) hother depth _ _ hbeside with
        ⟨_, hresult, -, importer, target, hback, rfl⟩ | ⟨hresult, hrelated⟩
      · refine Or.inr ⟨importer, target, hback, ?_⟩
        rw [hentry]
        exact congrArg (Option.map withoutMap) (outcome_eq_error_iff.2 hresult)
      · left
        rw [himported, hentry]
        exact outcome_withoutMap hresult hrelated.lines

end

/-- A document, and another one that requires it back. -/
def requiredBack : Memory where
  files := [(⟨"/app/a.styl"⟩, "@require 'b'\n"), (⟨"/app/b.styl"⟩, "@require 'a'\nx\n")]

/-- A text that imports a document of its directory wraps it, if no import leads to the wrapper. -/
theorem wrapped_of_targets {m : Memory} {text : String}
    (htext : m.text? ⟨"/app/a.styl"⟩ = some text)
    (htargets : ∀ target ∈ m.targets, (target == ⟨"/app/w.styl"⟩) = false) :
    Wrapped m {} {} ⟨"/app/a.styl"⟩ text ⟨"/app/w.styl"⟩ "@import 'a.styl'\n" "a.styl" where
  text_eq := htext
  normal := by
    have hnormal : (Path.normalize ⟨"/app/a.styl"⟩).text = "/app/a.styl" := by decide +kernel
    exact congrArg Path.mk hnormal
  dialect := by decide +kernel
  name_eq := by decide +kernel
  resolvable := by decide +kernel
  native := by decide +kernel
  beside := by
    have hparent : (Path.parent? ⟨"/app/w.styl"⟩).map Path.text = some "/app" := by
      decide +kernel
    obtain ⟨⟨_⟩, hdir, rfl⟩ := Option.map_eq_some_iff.1 hparent
    exact ⟨⟨"/app"⟩, hdir, by decide +kernel⟩
  other := by decide +kernel
  wraps := by decide +kernel
  unimported := by
    intro importer name target _ hknown
    have hgrowth : Cache.Growth m.host {} {} {} := .refl
    exact htargets target (Memory.known?_leadsInto hgrowth importer name target hknown)

theorem wrapped_requiredBack :
    Wrapped requiredBack {} {} ⟨"/app/a.styl"⟩ "@require 'b'\n" ⟨"/app/w.styl"⟩
      "@import 'a.styl'\n" "a.styl" :=
  wrapped_of_targets (by decide +kernel) (by decide +kernel)

theorem answer_wrapper_requiredBack :
    answer ((renderer 6).render {} ⟨"/app/w.styl"⟩ "@import 'a.styl'\n" {}
      (Lookup.locator ⟨requiredBack.tree, {}, {}⟩) .empty) =
        some (.ok (.rendered ⟨"x\n", none⟩)) := by
  have hrun : (answer ((renderer 6).render {} ⟨"/app/w.styl"⟩ "@import 'a.styl'\n" {}
      (Lookup.locator ⟨requiredBack.tree, {}, {}⟩) .empty)).bind css? = some "x\n" := by
    decide +kernel
  exact answer_of_css? hrun

/-- By itself the document fails, although what imports it has its CSS. -/
theorem entry_unlike_imported :
    Wrapped requiredBack {} {} ⟨"/app/a.styl"⟩ "@require 'b'\n" ⟨"/app/w.styl"⟩
        "@import 'a.styl'\n" "a.styl" ∧
      answer ((renderer 5).render {} ⟨"/app/a.styl"⟩ "@require 'b'\n" {}
        (Lookup.locator ⟨requiredBack.tree, {}, {}⟩) .empty) =
          some (.error (.compile
            "import loop has been found: /app/b.styl imports /app/a.styl")) ∧
      answer ((renderer 6).render {} ⟨"/app/w.styl"⟩ "@import 'a.styl'\n" {}
        (Lookup.locator ⟨requiredBack.tree, {}, {}⟩) .empty) =
          some (.ok (.rendered ⟨"x\n", none⟩)) := by
  refine ⟨wrapped_requiredBack, ?_, answer_wrapper_requiredBack⟩
  have hrun : (answer ((renderer 5).render {} ⟨"/app/a.styl"⟩ "@require 'b'\n" {}
      (Lookup.locator ⟨requiredBack.tree, {}, {}⟩) .empty)).bind compileError? =
        some "import loop has been found: /app/b.styl imports /app/a.styl" := by
    decide +kernel
  exact answer_of_compileError? hrun

/-- A document that requires another one, which does not lead back. -/
def requiredOnce : Memory where
  files := [(⟨"/app/a.styl"⟩, "@require 'b'\nx\n"), (⟨"/app/b.styl"⟩, "y\n")]

/-- Counted as included, the document has that CSS too. And a document to which nothing leads back
has the CSS of what imports it. -/
theorem rendered_like_imported_requiredBack :
    let l : Lookup := ⟨requiredBack.tree, {}, {}⟩
    let counted := exec (inline (.ofLocator {} l.locator) 5 [] ⟨"/app/a.styl"⟩ "@require 'b'\n" "")
      { search := .empty, parsed := {}, included := [⟨"/app/a.styl"⟩] }
    let l' : Lookup := ⟨requiredOnce.tree, {}, {}⟩
    let entry := answer
      ((renderer 5).render {} ⟨"/app/a.styl"⟩ "@require 'b'\nx\n" {} l'.locator .empty)
    Wrapped requiredBack {} {} ⟨"/app/a.styl"⟩ "@require 'b'\n" ⟨"/app/w.styl"⟩
        "@import 'a.styl'\n" "a.styl" ∧
      (outcome {} ⟨"/app/a.styl"⟩ counted.2 counted.1).map withoutMap =
        some (.ok (.rendered ⟨"x\n", none⟩)) ∧
    Wrapped requiredOnce {} {} ⟨"/app/a.styl"⟩ "@require 'b'\nx\n" ⟨"/app/w.styl"⟩
        "@import 'a.styl'\n" "a.styl" ∧
      entry = some (.ok (.rendered ⟨"y\nx\n", none⟩)) ∧
      entry = answer
        ((renderer 6).render {} ⟨"/app/w.styl"⟩ "@import 'a.styl'\n" {} l'.locator .empty) := by
  intro l counted l' entry
  have hplain : Dialect.isPlainStylesheet {} "a.styl" = false := by decide +kernel
  have hwrapped : Wrapped requiredOnce {} {} ⟨"/app/a.styl"⟩ "@require 'b'\nx\n" ⟨"/app/w.styl"⟩
      "@import 'a.styl'\n" "a.styl" :=
    wrapped_of_targets (by decide +kernel) (by decide +kernel)
  have hcss : entry.bind css? = some "y\nx\n" := by decide +kernel
  have hentry : entry = some (.ok (.rendered ⟨"y\nx\n", none⟩)) := answer_of_css? hcss
  obtain ⟨-, hback⟩ := rendered_like_imported wrapped_requiredBack 5 ParseCache.valid_empty
    ParseCache.valid_empty .empty .empty
  obtain ⟨-, honce⟩ := rendered_like_imported hwrapped 5 ParseCache.valid_empty
    ParseCache.valid_empty .empty .empty
  refine ⟨wrapped_requiredBack, (hback hplain).1.trans answer_wrapper_requiredBack, hwrapped,
    hentry, ?_⟩
  rcases (honce hplain).2 with hsame | ⟨importer, target, -, hfailed⟩
  · exact hsame
  · cases hentry.symm.trans hfailed

end StyleWeave.Inline
