import StyleWeave.Proofs.Render.Inclusion

/-!
# What happens in a pass

`trace` lists in their order the events of a pass: documents are opened and closed, imports are
located, and statements come to files. `History` says once which events may follow one another and
what they make of the pass, and `history_trace` that a trace is such a history. So each event fits
where it stands (`History.fits`), and a pass ends with the refusal of a file or for another cause
(`History.ends`).
-/

namespace StyleWeave.Inline

open Step (exec)

inductive Event where
  /-- A document is put on top of those being inlined. -/
  | opened (file : Path) (source : String)
  /-- The document on top is done. -/
  | closed
  /-- The search answers an import. -/
  | located (importer : Path) (name : String) (files : List Path)
  /-- A statement of the document on top comes to a file that was located. -/
  | reference (kind : ImportKind) (importer file : Path) (verdict : Verdict)
  deriving Repr

variable {σ α : Type}

/-! ## Traces -/

/-- The events of a pass through a document, from the pass in front of it. -/
abbrev Tracer (σ : Type) := List Path → Path → String → String → Pass σ → List Event

/-- The events of steps that are taken in turn until one halts. -/
def eventsInTurn (step : α → Step σ Unit) (events : α → Pass σ → List Event) :
    List α → Pass σ → List Event
  | [], _ => []
  | a :: rest, p =>
    events a p ++
      match exec (step a) p with
      | (.ok _, q) => eventsInTurn step events rest q
      | (.error _, _) => []

section

variable (env : Setting σ) (nested : Inliner σ) (inside : Tracer σ) (stack : List Path)

def traceFile (importer : Path) (kind : ImportKind) (indent : String) (file : Path)
    (p : Pass σ) : List Event :=
  .reference kind importer file (verdict stack p.included kind file) ::
    match verdict stack p.included kind file, env.read file p.search with
    | .included, (.ok text, s) =>
      inside stack file text indent { p with included := p.included ++ [file], search := s }
    | _, _ => []

def traceOne (importer : Path) (statement : Import) (indent : String)
    (e : Expr × Option String) (p : Pass σ) : List Event :=
  match urlTarget? e.1, e.2 with
  | none, some name =>
    if isRule env.options name then []
    else
      match env.locate importer name p.search with
      | (.ok files, s) =>
        .located importer name files ::
          eventsInTurn (includeFile env nested stack importer statement.kind indent)
            (traceFile env inside stack importer statement.kind indent) files
            { p with search := s }
      | (.error _, _) => []
  | _, _ => []

def traceAct (importer : Path) : Act → Pass σ → List Event
  | .site indent site, p =>
    eventsInTurn
      (fun e => importOne env nested stack importer site.statement indent e.1 e.2)
      (traceOne env nested inside stack importer site.statement indent)
      (site.statement.exprs.zip site.names) p
  | _, _ => []

end

/-- The event at the end of a document, if the pass gets there. -/
def closing : Except Halt Unit → List Event
  | .ok _ => [.closed]
  | .error _ => []

/-- The events of the pass through a document. -/
def trace (env : Setting σ) : Nat → Tracer σ
  | 0 => fun _ _ _ _ _ => []
  | depth + 1 => fun stack file source indent p =>
    match p.parsed.parse source with
    | (.error _, _) => []
    | (.ok document, parsed) =>
      let entered := sourceIndex file { p with parsed }
      let sheet := Sheet.of file source indent entered.1
      .opened file source ::
        (eventsInTurn (perform env (inline env depth) (file :: stack) sheet)
            (traceAct env (inline env depth) (trace env depth) (file :: stack) file)
            (planSheet sheet document env.options.define) entered.2 ++
          closing (exec (inline env (depth + 1) stack file source indent) p).1)

/-! ## What is read off events -/

/-- The files that the search has answered with. -/
def returned (events : List Event) : List Path :=
  events.flatMap fun
    | .located _ _ files => files
    | _ => []

/-- The files that were included, with the kind of statement that did it. -/
def inclusions (events : List Event) : List (ImportKind × Path) :=
  events.filterMap fun
    | .reference kind _ file .included => some (kind, file)
    | _ => none

/-- What events leave of a pass: the documents being inlined, the last one first, the files that
were included, and those that the search has answered with. -/
structure Standing where
  stack : List Path
  included : List Path
  returned : List Path

namespace Standing

/-- Where nothing has happened. -/
def start : Standing := ⟨[], [], []⟩

def after (s : Standing) : Event → Standing
  | .opened file _ => { s with stack := file :: s.stack }
  | .closed => { s with stack := s.stack.tail }
  | .located _ _ files => { s with returned := s.returned ++ files }
  | .reference _ _ file .included => { s with included := s.included ++ [file] }
  | .reference _ _ _ _ => s

def afterAll (s : Standing) (events : List Event) : Standing :=
  events.foldl after s

@[simp] theorem afterAll_nil (s : Standing) : s.afterAll [] = s := rfl

@[simp] theorem afterAll_cons (s : Standing) (e : Event) (events : List Event) :
    s.afterAll (e :: events) = (s.after e).afterAll events := rfl

@[simp] theorem afterAll_append (s : Standing) (events events' : List Event) :
    s.afterAll (events ++ events') = (s.afterAll events).afterAll events' :=
  List.foldl_append

theorem returned_afterAll (s : Standing) (events : List Event) :
    (s.afterAll events).returned = s.returned ++ Inline.returned events := by
  induction events generalizing s with
  | nil => exact (List.append_nil _).symm
  | cons e rest ih =>
    rw [afterAll_cons, ih]
    unfold Inline.returned
    rw [List.flatMap_cons]
    cases e with
    | opened file source => rfl
    | closed => rfl
    | located importer name files => exact List.append_assoc ..
    | reference kind importer file v => cases v <;> rfl

/-- An event is the inclusion of a file, or nothing is included by it. -/
theorem includes_or (e : Event) :
    (∃ kind importer file, e = .reference kind importer file .included) ∨
      (∀ rest, inclusions (e :: rest) = inclusions rest) ∧
        ∀ s : Standing, (s.after e).included = s.included := by
  cases e with
  | opened file source => exact Or.inr ⟨fun _ => rfl, fun _ => rfl⟩
  | closed => exact Or.inr ⟨fun _ => rfl, fun _ => rfl⟩
  | located importer name files => exact Or.inr ⟨fun _ => rfl, fun _ => rfl⟩
  | reference kind importer file v =>
    cases v with
    | skipped => exact Or.inr ⟨fun _ => rfl, fun _ => rfl⟩
    | loop => exact Or.inr ⟨fun _ => rfl, fun _ => rfl⟩
    | included => exact Or.inl ⟨kind, importer, file, rfl⟩

theorem included_afterAll (s : Standing) (events : List Event) :
    (s.afterAll events).included = s.included ++ (inclusions events).map Prod.snd := by
  induction events generalizing s with
  | nil => exact (List.append_nil _).symm
  | cons e rest ih =>
    rw [afterAll_cons, ih]
    rcases includes_or e with ⟨kind, importer, file, rfl⟩ | ⟨hnone, hsame⟩
    · exact List.append_assoc ..
    · rw [hnone, hsame]

end Standing

/-- An event fits where a pass stands. A document that is opened is none of those being inlined, and
was located unless it is the first. A statement is of the document on top, comes to a file that was
located, and deals with it by its verdict. -/
def Event.Fits (s : Standing) : Event → Prop
  | .opened file _ => s.stack.contains file = false ∧ (s.stack = [] ∨ file ∈ s.returned)
  | .closed => s.stack ≠ []
  | .located importer _ _ => s.stack.head? = some importer
  | .reference kind importer file v =>
    s.stack.head? = some importer ∧ file ∈ s.returned ∧ v = verdict s.stack s.included kind file

/-- Each of the events fits where those in front of it lead. -/
def AllFit : Standing → List Event → Prop
  | _, [] => True
  | s, e :: rest => e.Fits s ∧ AllFit (s.after e) rest

theorem allFit_append {s : Standing} {events events' : List Event} :
    AllFit s (events ++ events') ↔ AllFit s events ∧ AllFit (s.afterAll events) events' := by
  induction events generalizing s with
  | nil => exact (true_and _).symm.to_iff
  | cons e rest ih =>
    rw [List.cons_append, AllFit, AllFit, ih, Standing.afterAll_cons, and_assoc]

theorem AllFit.fits {s : Standing} {before behind : List Event} {e : Event}
    (h : AllFit s (before ++ e :: behind)) : e.Fits (s.afterAll before) :=
  (allFit_append.1 h).2.1

/-! ## Histories -/

namespace Standing

/-- Where a pass stands behind its first events. -/
def behind (events : List Event) : Standing :=
  start.afterAll events

theorem behind_append (before events : List Event) :
    behind (before ++ events) = (behind before).afterAll events :=
  afterAll_append start before events

theorem behind_concat (before : List Event) (e : Event) :
    behind (before ++ [e]) = (behind before).after e :=
  behind_append before [e]

end Standing

/-- A whole pass: its setting, the entry with its text, the documents that were parsed and kept
before it, and how many documents may be inlined at once. -/
structure Whole (σ : Type) where
  env : Setting σ
  entry : Path
  source : String
  kept : ParseCache
  limit : Nat

/-- The document that a pass enters next: the entry, or the file that was included last, with the
text that was read of it. -/
inductive ComesNext (w : Whole σ) : List Event → Path → String → Prop where
  | entry : ComesNext w [] w.entry w.source
  | read {before : List Event} {kind : ImportKind} {importer file : Path} {text : String} {s : σ}
      (h : (w.env.read file s).1 = .ok text) :
      ComesNext w (before ++ [.reference kind importer file .included]) file text

/-- The text is that of a document with this import statement. -/
def HasSite (options : Options) (source : String) (site : ImportSite) : Prop :=
  ∃ document, StyleWeave.parse source.toList = .ok document ∧
    site ∈ importSites document options.define

/-- The text is that of a document in which the path of an import on line `line` is not known. -/
def Obscures (options : Options) (source : String) (line : Nat) : Prop :=
  ∃ site, HasSite options source site ∧ site.statement.line = line ∧
    ∃ expr, (expr, none) ∈ site.statement.exprs.zip site.names ∧ urlTarget? expr = none

/-- The document on top of those being inlined behind the events was opened with this text. -/
structure OnTop (events : List Event) (importer : Path) (text : String) : Prop where
  top : (Standing.behind events).stack.head? = some importer
  opened : .opened importer text ∈ events

/-- Why a pass halts behind some events, other than for a file that is being inlined. It is the
document that comes next, or an import of the document on top, or the file that was included last.
What stands in the document on top is known if the documents that were parsed before the pass, those
that are kept, are what their texts are parsed to. -/
inductive Cause (w : Whole σ) (events : List Event) : Halt → Prop where
  | tooDeep {file : Path} {text : String} (next : ComesNext w events file text)
      (full : (Standing.behind events).stack.length = w.limit) : Cause w events .tooDeep
  | malformed {file : Path} {text : String} {e : ParseError} (next : ComesNext w events file text)
      (refused : StyleWeave.parse text.toList = .error e) : Cause w events (malformed file e)
  | notStatic {importer : Path} {text : String} {line : Nat} (top : OnTop events importer text)
      (obscures : w.kept.Valid → Obscures w.env.options text line) :
      Cause w events (notStatic importer line)
  | notLocated {importer : Path} {text name : String} {s : σ} {halt : Halt}
      (top : OnTop events importer text) (imports : w.kept.Valid → Imports w.env.options text name)
      (h : (w.env.locate importer name s).1 = .error halt) : Cause w events halt
  | notRead {before : List Event} {kind : ImportKind} {importer file : Path} {s : σ} {halt : Halt}
      (last : events = before ++ [.reference kind importer file .included])
      (h : (w.env.read file s).1 = .error halt) : Cause w events halt

/-- What can happen in a pass behind the events `before`, and how the pass ends: the events lead
from one state to the other. -/
inductive History (w : Whole σ) :
    List Event → Pass σ → List Event → Except Halt Unit × Pass σ → Prop where
  | quiet {before : List Event} {p q : Pass σ} (parsed : q.parsed = p.parsed)
      (included : q.included = p.included) : History w before p [] (.ok (), q)
  | halts {before : List Event} {p q : Pass σ} {halt : Halt}
      (included : q.included = p.included) (cause : Cause w before halt) :
      History w before p [] (.error halt, q)
  | append {before : List Event} {p m : Pass σ} {events events' : List Event}
      {x : Except Halt Unit × Pass σ} (first : History w before p events (.ok (), m))
      (others : History w (before ++ events) m events' x) :
      History w before p (events ++ events') x
  | located {before : List Event} {files : List Path} {importer : Path} {name : String}
      {p : Pass σ} {s : σ} {events : List Event} {x : Except Halt Unit × Pass σ}
      (top : (Standing.behind before).stack.head? = some importer)
      (found : w.env.locate importer name p.search = (.ok files, s))
      (others : History w (before ++ [.located importer name files]) { p with search := s } events
        x) :
      History w before p (.located importer name files :: events) x
  | skipped {before : List Event} {kind : ImportKind} {importer file : Path} {p : Pass σ}
      (top : (Standing.behind before).stack.head? = some importer)
      (answer : file ∈ (Standing.behind before).returned)
      (h : verdict (Standing.behind before).stack p.included kind file = .skipped) :
      History w before p [.reference kind importer file .skipped] (.ok (), p)
  | loop {before : List Event} {kind : ImportKind} {importer file : Path} {p : Pass σ}
      (top : (Standing.behind before).stack.head? = some importer)
      (answer : file ∈ (Standing.behind before).returned)
      (h : verdict (Standing.behind before).stack p.included kind file = .loop) :
      History w before p [.reference kind importer file .loop]
        (.error (importLoop importer file), p)
  | included {before : List Event} {kind : ImportKind} {importer file : Path} {p q : Pass σ}
      {events : List Event} {x : Except Halt Unit × Pass σ}
      (top : (Standing.behind before).stack.head? = some importer)
      (answer : file ∈ (Standing.behind before).returned)
      (h : verdict (Standing.behind before).stack p.included kind file = .included)
      (parsed : q.parsed = p.parsed) (record : q.included = p.included ++ [file])
      (inside : History w (before ++ [.reference kind importer file .included]) q events x) :
      History w before p (.reference kind importer file .included :: events) x
  | document {depth : Nat} {before : List Event} {file : Path} {text indent : String}
      {p q : Pass σ} {events : List Event} {x : Except Halt Unit × Pass σ}
      (new : (Standing.behind before).stack.contains file = false)
      (answer : (Standing.behind before).stack = [] ∨ file ∈ (Standing.behind before).returned)
      (run : exec (inline w.env depth (Standing.behind before).stack file text indent) p = x)
      (parsed : q.parsed = (p.parsed.parse text).2) (included : q.included = p.included)
      (inside : History w (before ++ [.opened file text]) q events x) :
      History w before p (.opened file text :: (events ++ closing x.1)) x

/-- What fails to be parsed is malformed, whatever was parsed before. -/
theorem parse_of_refused {c c' : ParseCache} {text : String} {e : ParseError}
    (h : c.parse text = (.error e, c')) : StyleWeave.parse text.toList = .error e := by
  unfold ParseCache.parse at h
  split at h
  · cases (Prod.mk.inj h).1
  · split at h
    · cases (Prod.mk.inj h).1
    · next e' hrefused =>
      obtain rfl : e' = e := Except.error.inj (Prod.mk.inj h).1
      exact hrefused

section

variable {w : Whole σ} {before events : List Event} {p : Pass σ} {x : Except Halt Unit × Pass σ}

/-- A history that does not halt ends with the documents being inlined with which it began. -/
theorem History.stack_eq (h : History w before p events x) (hok : x.1 = .ok ()) :
    (Standing.behind (before ++ events)).stack = (Standing.behind before).stack := by
  induction h with
  | quiet => rw [List.append_nil]
  | halts => cases hok
  | append _ _ ih ih' => rw [← List.append_assoc, ih' hok, ih rfl]
  | located _ _ _ ih =>
    rw [List.append_cons, ih hok, Standing.behind_concat]
    rfl
  | skipped => rw [Standing.behind_concat]; rfl
  | loop => cases hok
  | included _ _ _ _ _ _ ih =>
    rw [List.append_cons, ih hok, Standing.behind_concat]
    rfl
  | document _ _ _ _ _ _ ih =>
    rw [hok, closing, List.append_cons, ← List.append_assoc, Standing.behind_concat]
    show (Standing.behind _).stack.tail = _
    rw [ih hok, Standing.behind_concat]
    rfl

theorem History.valid (h : History w before p events x) (hok : x.1 = .ok ())
    (hvalid : p.parsed.Valid) : x.2.parsed.Valid := by
  induction h with
  | quiet parsed included =>
    rw [parsed]
    exact hvalid
  | halts included cause => cases hok
  | append first others ih ih' => exact ih' hok (ih rfl hvalid)
  | located top found others ih => exact ih hok hvalid
  | skipped top answer h => exact hvalid
  | loop top answer h => cases hok
  | included top answer h parsed record inside ih =>
    rw [← parsed] at hvalid
    exact ih hok hvalid
  | @document _ _ file text _ p q _ x new answer run parsed included inside ih =>
    have hentered : q.parsed.Valid := by
      rw [parsed]
      exact hvalid.parse text
    exact ih hok hentered

/-- Behind the events the documents `stack` are being inlined, that on top was opened with `text`,
and `files` are among the answers of the search. -/
structure StandsAt (events : List Event) (stack : List Path) (text : String) (files : List Path) :
    Prop where
  stack : (Standing.behind events).stack = stack
  opened : ∀ importer ∈ (Standing.behind events).stack.head?, .opened importer text ∈ events
  files : files ⊆ (Standing.behind events).returned

theorem StandsAt.append {stack files : List Path} {text : String} {m : Pass σ}
    (h : StandsAt before stack text files)
    (hfirst : History w before p events (.ok (), m)) :
    StandsAt (before ++ events) stack text files := by
  have hsame := hfirst.stack_eq rfl
  refine ⟨hsame.trans h.stack, fun importer top => ?_, ?_⟩
  · rw [hsame] at top
    exact List.mem_append_left _ (h.opened importer top)
  · rw [Standing.behind_append, Standing.returned_afterAll]
    exact List.Subset.trans h.files (List.subset_append_left _ _)

theorem StandsAt.onTop {stack files : List Path} {text : String} {importer : Path}
    (h : StandsAt before stack text files) (top : stack.head? = some importer) :
    OnTop before importer text := by
  rw [← h.stack] at top
  exact ⟨top, h.opened importer top⟩

end

section

variable {w : Whole σ} {nested : Inliner σ} {inside : Tracer σ} {text : String}
  {stack : List Path} {before : List Event}

/-- Steps that are taken in turn have the histories of each. -/
theorem history_inTurn (step : α → Step σ Unit) (run : List α → Step σ Unit)
    {events : α → Pass σ → List Event} (hnil : run [] = pure ())
    (hcons : ∀ a rest, run (a :: rest) = step a >>= fun _ => run rest) {files : List Path}
    (as : List α)
    (h : ∀ a ∈ as, ∀ before, StandsAt before stack text files →
      ∀ p : Pass σ, (w.kept.Valid → p.parsed.Valid) →
        History w before p (events a p) (exec (step a) p))
    (hstands : StandsAt before stack text files) (p : Pass σ)
    (hvalid : w.kept.Valid → p.parsed.Valid) :
    History w before p (eventsInTurn step events as p) (exec (run as) p) := by
  induction as generalizing before p with
  | nil =>
    rw [hnil]
    exact .quiet rfl rfl
  | cons a rest ih =>
    have hfirst := h a List.mem_cons_self before hstands p hvalid
    rw [hcons, Step.exec_bind, eventsInTurn]
    rcases hstep : exec (step a) p with ⟨halt | ⟨⟩, q⟩
    · rw [hstep] at hfirst
      dsimp only
      rw [List.append_nil]
      exact hfirst
    · rw [hstep] at hfirst
      have hothers := ih (fun b hb => h b (List.mem_cons_of_mem _ hb)) (hstands.append hfirst) q
        fun hkept => hfirst.valid rfl (hvalid hkept)
      exact .append hfirst hothers

variable (hinside : ∀ file text indent before (p : Pass σ), (Standing.behind before).stack = stack →
  stack.contains file = false → file ∈ (Standing.behind before).returned →
  ComesNext w before file text → (w.kept.Valid → p.parsed.Valid) →
  History w before p (inside stack file text indent p) (exec (nested stack file text indent) p))

include hinside

theorem history_traceFile {importer : Path} (top : stack.head? = some importer)
    (kind : ImportKind) (indent : String) {files : List Path} {file : Path}
    (hanswer : file ∈ files) (hstands : StandsAt before stack text files) (p : Pass σ)
    (hvalid : w.kept.Valid → p.parsed.Valid) :
    History w before p (traceFile w.env inside stack importer kind indent file p)
      (exec (includeFile w.env nested stack importer kind indent file) p) := by
  obtain ⟨rfl, -, hfiles⟩ := hstands
  have hreturned := hfiles hanswer
  rw [exec_includeFile, traceFile]
  cases hverdict : verdict (Standing.behind before).stack p.included kind file with
  | skipped => exact .skipped top hreturned hverdict
  | loop => exact .loop top hreturned hverdict
  | included =>
    have hnew : (Standing.behind before).stack.contains file = false :=
      (verdict_eq_included_iff.1 hverdict).1
    have hbehind : Standing.behind (before ++ [.reference kind importer file .included]) =
        (Standing.behind before).after (.reference kind importer file .included) :=
      Standing.behind_concat _ _
    rcases hread : w.env.read file p.search with ⟨halt | text, s⟩
    · have hcause : (w.env.read file p.search).1 = .error halt := by rw [hread]
      exact .included (q := { p with included := p.included ++ [file] }) top hreturned hverdict rfl
        rfl (.halts rfl (.notRead rfl hcause))
    · have htext : (w.env.read file p.search).1 = .ok text := by rw [hread]
      refine .included (q := { p with included := p.included ++ [file], search := s }) top
        hreturned hverdict rfl rfl (hinside file text indent _ _ ?_ hnew ?_ (.read htext) hvalid)
      · rw [hbehind]
        rfl
      · rw [hbehind]
        exact hreturned

theorem history_traceOne {importer : Path} (top : stack.head? = some importer)
    {site : ImportSite} (hsite : w.kept.Valid → HasSite w.env.options text site) (indent : String)
    {e : Expr × Option String} (he : e ∈ site.statement.exprs.zip site.names)
    (hstands : StandsAt before stack text []) (p : Pass σ)
    (hvalid : w.kept.Valid → p.parsed.Valid) :
    History w before p
      (traceOne w.env nested inside stack importer site.statement indent e p)
      (exec (importOne w.env nested stack importer site.statement indent e.1 e.2) p) := by
  obtain ⟨expr, name⟩ := e
  have htop := hstands.onTop top
  rw [exec_importOne, traceOne]
  dsimp only
  cases hurl : urlTarget? expr with
  | some target => exact .quiet rfl rfl
  | none =>
    cases name with
    | none =>
      exact .halts rfl (.notStatic htop fun hkept => ⟨site, hsite hkept, rfl, expr, he, hurl⟩)
    | some name =>
      dsimp only
      by_cases hrule : isRule w.env.options name = true
      · rw [if_pos hrule, if_pos hrule]
        exact .quiet rfl rfl
      · rw [if_neg hrule, if_neg hrule]
        rcases hfound : w.env.locate importer name p.search with ⟨halt | files, s⟩
        · refine .halts rfl (.notLocated htop (fun hkept => ?_) (by rw [hfound]))
          obtain ⟨document, hparse, hmem⟩ := hsite hkept
          exact ⟨document, hparse, site, hmem, expr, he, hurl, by simpa using hrule⟩
        · have hlocated : StandsAt (before ++ [.located importer name files]) stack text files := by
            refine ⟨?_, fun importer top => ?_, ?_⟩
            · rw [Standing.behind_concat]
              exact hstands.stack
            · rw [Standing.behind_concat] at top
              exact List.mem_append_left _ (hstands.opened importer top)
            · rw [Standing.behind_concat]
              exact List.subset_append_right _ _
          refine .located htop.top hfound (history_inTurn
            (includeFile w.env nested stack importer site.statement.kind indent)
            (includeFiles w.env nested stack importer site.statement.kind indent) rfl
            (fun _ _ => rfl) files ?_ hlocated _ hvalid)
          intro file hfile before' hstands' q hq
          exact history_traceFile hinside top site.statement.kind indent hfile hstands' q hq

theorem history_traceAct {sheet : Sheet} (top : stack.head? = some sheet.file) (act : Act)
    (hact : w.kept.Valid → ∀ indent site, act = .site indent site → HasSite w.env.options text site)
    (hstands : StandsAt before stack text []) (p : Pass σ)
    (hvalid : w.kept.Valid → p.parsed.Valid) :
    History w before p (traceAct w.env nested inside stack sheet.file act p)
      (exec (perform w.env nested stack sheet act) p) := by
  cases act with
  | line l =>
    rw [exec_perform_of_not_site fun _ _ => by simp]
    exact .quiet rfl rfl
  | fragment base text opened number =>
    rw [exec_perform_of_not_site fun _ _ => by simp]
    exact .quiet rfl rfl
  | site indent site =>
    refine history_inTurn
      (fun e => importOne w.env nested stack sheet.file site.statement indent e.1 e.2)
      (importAll w.env nested stack sheet.file site.statement indent) rfl (fun _ _ => rfl) _ ?_
      hstands p hvalid
    intro e he before' hstands' q hq
    exact history_traceOne hinside top (fun hkept => hact hkept indent site rfl) indent he hstands'
      q hq

end

/-- The trace of a pass through a document is a history. -/
theorem history_trace {w : Whole σ} (depth : Nat) {stack : List Path} {before : List Event}
    {file : Path} {text : String} (indent : String)
    (hstack : (Standing.behind before).stack = stack) (hnew : stack.contains file = false)
    (hanswer : stack = [] ∨ file ∈ (Standing.behind before).returned)
    (hnext : ComesNext w before file text) (hdepth : stack.length + depth = w.limit)
    (p : Pass σ) (hvalid : w.kept.Valid → p.parsed.Valid) :
    History w before p (trace w.env depth stack file text indent p)
      (exec (inline w.env depth stack file text indent) p) := by
  induction depth generalizing stack before file text indent p with
  | zero => exact .halts rfl (.tooDeep hnext (hstack ▸ hdepth))
  | succ depth ih =>
    subst hstack
    rcases hparse : p.parsed.parse text with ⟨e | document, parsed⟩
    · rw [inline, exec_renderSheet, trace]
      dsimp only
      rw [hparse]
      exact .halts rfl (.malformed hnext (parse_of_refused hparse))
    · rw [trace]
      dsimp only
      rw [hparse]
      dsimp only
      obtain ⟨more, hentered⟩ := sourceIndex_snd file { p with parsed }
      refine .document (q := (sourceIndex file { p with parsed }).2) hnew hanswer rfl
        (by rw [hentered, hparse]) (by rw [hentered]) ?_
      rw [inline, exec_renderSheet, hparse]
      let stack := file :: (Standing.behind before).stack
      have hbelow : stack.length + depth = w.limit := by
        show (Standing.behind before).stack.length + 1 + depth = w.limit
        omega
      have hinside : ∀ file' text' indent' before' (r : Pass σ),
          (Standing.behind before').stack = stack →
          stack.contains file' = false → file' ∈ (Standing.behind before').returned →
          ComesNext w before' file' text' → (w.kept.Valid → r.parsed.Valid) →
          History w before' r (trace w.env depth stack file' text' indent' r)
            (exec (inline w.env depth stack file' text' indent') r) :=
        fun file' text' indent' before' r hstack' hnew' hanswer' hnext' hr =>
          ih indent' hstack' hnew' (Or.inr hanswer') hnext' hbelow r hr
      have hstands : StandsAt (before ++ [.opened file text]) stack text [] := by
        refine ⟨?_, fun importer top => ?_, List.nil_subset _⟩
        · rw [Standing.behind_concat]
          rfl
        · rw [Standing.behind_concat] at top
          obtain rfl : file = importer := Option.some.inj top
          exact List.mem_append_right _ List.mem_cons_self
      let sheet := Sheet.of file text indent (sourceIndex file { p with parsed }).1
      refine history_inTurn (perform w.env (inline w.env depth) stack sheet)
        (performAll w.env (inline w.env depth) stack sheet) rfl (fun _ _ => rfl) _
        (fun act hact before' hstands' q hq => ?_) hstands _ ?_
      · have htop : stack.head? = some sheet.file := rfl
        refine history_traceAct hinside htop act (fun hkept indent' site heq => ?_) hstands' q hq
        have hread : StyleWeave.parse text.toList = .ok document := by
          rw [← (hvalid hkept).parse_eq, hparse]
        exact ⟨document, hread, mem_of_mem_planSheet (heq ▸ hact)⟩
      · rw [hentered]
        intro hkept
        have hbehind := (hvalid hkept).parse text
        rwa [hparse] at hbehind

/-! ## Along a history -/

section

variable {w : Whole σ} {before events : List Event} {p : Pass σ} {x : Except Halt Unit × Pass σ}

theorem inclusions_append (events events' : List Event) :
    inclusions (events ++ events') = inclusions events ++ inclusions events' :=
  List.filterMap_append

/-- What a pass has recorded as included are the files of the inclusions. -/
theorem History.included_eq (h : History w before p events x) :
    x.2.included = p.included ++ (inclusions events).map Prod.snd := by
  induction h with
  | quiet parsed included => simp [inclusions, included]
  | halts included cause => simp [inclusions, included]
  | append first others ih ih' =>
    rw [ih', ih, inclusions_append, List.map_append, List.append_assoc]
  | located top found others ih => exact ih
  | skipped top answer h => simp [inclusions]
  | loop top answer h => simp [inclusions]
  | included top answer h parsed record inside ih =>
    rw [ih, record, List.append_assoc]
    rfl
  | @document _ _ file text _ _ _ events x new answer run parsed included inside ih =>
    have hclosing : inclusions (closing x.1) = [] := by
      cases x.1 <;> rfl
    have hinside : inclusions (.opened file text :: (events ++ closing x.1)) =
        inclusions events := by
      show inclusions (events ++ closing x.1) = _
      rw [inclusions_append, hclosing, List.append_nil]
    rw [hinside, ih, included]

/-- Every event of a history fits. -/
theorem History.fits (h : History w before p events x)
    (hincluded : (Standing.behind before).included = p.included) :
    AllFit (Standing.behind before) events := by
  induction h with
  | quiet parsed included => trivial
  | halts included cause => trivial
  | append first others ih ih' =>
    rw [allFit_append]
    refine ⟨ih hincluded, ?_⟩
    rw [← Standing.behind_append]
    refine ih' ?_
    rw [Standing.behind_append, Standing.included_afterAll, hincluded, first.included_eq]
  | located top found others ih =>
    have hothers := ih (by rw [Standing.behind_concat]; exact hincluded)
    rw [Standing.behind_concat] at hothers
    exact ⟨top, hothers⟩
  | skipped top answer h => exact ⟨⟨top, answer, by rw [hincluded, h]⟩, trivial⟩
  | loop top answer h => exact ⟨⟨top, answer, by rw [hincluded, h]⟩, trivial⟩
  | included top answer h parsed record inside ih =>
    have hothers := ih (by rw [Standing.behind_concat, record, ← hincluded]; rfl)
    rw [Standing.behind_concat] at hothers
    exact ⟨⟨top, answer, by rw [hincluded, h]⟩, hothers⟩
  | @document _ before file text _ p _ events x new answer run parsed included inside ih =>
    have hopened := ih (by rw [Standing.behind_concat, included]; exact hincluded)
    rw [Standing.behind_concat] at hopened
    refine ⟨⟨new, answer⟩, allFit_append.2 ⟨hopened, ?_⟩⟩
    obtain ⟨result, q⟩ := x
    cases result with
    | error halt => trivial
    | ok u =>
      -- The document is still on top where it is closed.
      refine ⟨?_, trivial⟩
      have hstack := inside.stack_eq rfl
      rw [Standing.behind_append, Standing.behind_concat] at hstack
      show (Standing.afterAll _ events).stack ≠ []
      exact hstack ▸ List.cons_ne_nil file _

/-- No file was refused. -/
def Loopless (events : List Event) : Prop :=
  ∀ kind importer file, .reference kind importer file .loop ∉ events

/-- How a pass ends: no file was refused and it succeeds or halts for another cause, or the last
event is the first refusal and its failure names the document on top and the file. -/
inductive Ending (w : Whole σ) : List Event → Except Halt Unit → Prop where
  | done {events : List Event} (h : Loopless events) : Ending w events (.ok ())
  | halted {events : List Event} {halt : Halt} (h : Loopless events)
      (cause : Cause w events halt) : Ending w events (.error halt)
  | loop {events : List Event} (kind : ImportKind) (importer file : Path) (h : Loopless events) :
      Ending w (events ++ [.reference kind importer file .loop])
        (.error (importLoop importer file))

theorem Loopless.append {events events' : List Event} (h : Loopless events)
    (h' : Loopless events') : Loopless (events ++ events') := by
  intro kind importer file hm
  rcases List.mem_append.1 hm with hm | hm
  · exact h kind importer file hm
  · exact h' kind importer file hm

theorem loopless_nil : Loopless [] := fun _ _ _ hm => by cases hm

theorem Loopless.concat {e : Event} (h : Loopless events)
    (he : ∀ kind importer file, e ≠ .reference kind importer file .loop) :
    Loopless (events ++ [e]) := by
  refine h.append fun kind importer file hm => ?_
  exact he kind importer file (List.mem_singleton.1 hm).symm

theorem Ending.loopless (h : Ending w events (.ok ())) : Loopless events := by
  cases h with
  | done h => exact h

theorem History.ends (h : History w before p events x) (hbefore : Loopless before) :
    Ending w (before ++ events) x.1 := by
  induction h with
  | quiet parsed included =>
    rw [List.append_nil]
    exact .done hbefore
  | halts included cause =>
    rw [List.append_nil]
    exact .halted hbefore cause
  | append first others ih ih' =>
    rw [← List.append_assoc]
    exact ih' (ih hbefore).loopless
  | located top found others ih =>
    rw [List.append_cons]
    exact ih (hbefore.concat fun _ _ _ => by simp)
  | skipped top answer h => exact .done (hbefore.concat fun _ _ _ => by simp)
  | loop top answer h => exact .loop _ _ _ hbefore
  | included top answer h parsed record inside ih =>
    rw [List.append_cons]
    exact ih (hbefore.concat fun _ _ _ => by simp)
  | @document _ _ file text _ _ _ events x new answer run parsed included inside ih =>
    have hinside := ih (hbefore.concat fun _ _ _ => by simp)
    rw [List.append_cons]
    obtain ⟨result, q⟩ := x
    cases result with
    | error halt =>
      rw [closing, List.append_nil]
      exact hinside
    | ok u =>
      rw [← List.append_assoc]
      exact .done (hinside.loopless.concat fun _ _ _ => by simp)

/-- In a pass that succeeds, the pass through each document that is opened succeeds. -/
theorem History.exists_run (h : History w before p events x)
    (hok : x.1 = .ok ()) (hvalid : p.parsed.Valid) {file : Path} {text : String}
    (hm : .opened file text ∈ events) :
    ∃ depth stack indent q r, q.parsed.Valid ∧
      exec (inline w.env depth stack file text indent) q = (.ok (), r) := by
  induction h with
  | quiet parsed included => cases hm
  | halts included cause => cases hm
  | append first others ih ih' =>
    rcases List.mem_append.1 hm with hm | hm
    · exact ih rfl hvalid hm
    · exact ih' hok (first.valid rfl hvalid) hm
  | located top found others ih =>
    rcases List.mem_cons.1 hm with heq | hm
    · cases heq
    · exact ih hok hvalid hm
  | skipped top answer h => cases List.mem_singleton.1 hm
  | loop top answer h => cases hok
  | included top answer h parsed record inside ih =>
    rcases List.mem_cons.1 hm with heq | hm
    · cases heq
    · rw [← parsed] at hvalid
      exact ih hok hvalid hm
  | @document depth before _ text indent p q _ x new answer run parsed included inside ih =>
    obtain ⟨result, r⟩ := x
    obtain rfl : result = .ok () := hok
    rcases List.mem_cons.1 hm with heq | hm
    · obtain ⟨rfl, rfl⟩ := Event.opened.inj heq
      exact ⟨depth, _, indent, p, r, hvalid, run⟩
    · have hentered : q.parsed.Valid := by
        rw [parsed]
        exact hvalid.parse text
      rcases List.mem_append.1 hm with hm | hm
      · exact ih rfl hentered hm
      · cases List.mem_singleton.1 hm

end

/-! ## The whole pass -/

/-- The events of the pass that renders a document. -/
def eventsThrough (env : Setting σ) (depth : Nat) (file : Path) (source : String) (s : σ)
    (parsed : ParseCache) : List Event :=
  trace env depth [] file source "" { search := s, parsed }

theorem opened_mem_eventsThrough {env : Setting σ} {depth : Nat} {file : Path} {source : String}
    {s : σ} {parsed : ParseCache} {document : List Node}
    (h : (parsed.parse source).1 = .ok document) :
    .opened file source ∈ eventsThrough env (depth + 1) file source s parsed := by
  unfold eventsThrough trace
  dsimp only
  rcases hparse : parsed.parse source with ⟨result, parsed'⟩
  rw [hparse] at h
  subst h
  exact List.mem_cons_self

theorem history_through (env : Setting σ) (depth : Nat) (file : Path) (source : String) (s : σ)
    (parsed : ParseCache) :
    History ⟨env, file, source, parsed, depth⟩ [] { search := s, parsed }
      (eventsThrough env depth file source s parsed)
      (passThrough env depth file source s parsed) :=
  let w : Whole σ := ⟨env, file, source, parsed, depth⟩
  have hentry : ComesNext w [] file source := .entry
  have hdepth : 0 + depth = w.limit := Nat.zero_add depth
  history_trace depth "" rfl rfl (Or.inl rfl) hentry hdepth _ id

end StyleWeave.Inline
