import StyleWeave.Proofs.Render.Cover
import StyleWeave.Proofs.Render.Inclusion

/-!
# Two passes in lockstep

One pass goes through a document with a further indentation, or with other documents around it, than
another. What both plan for the document is the same but for the indentation (`planSheet_shift`). So
a relation between passes that every kind of step keeps (`Strides`, and `Lockstep` with parsing) is
kept by the whole document (`lockstep_inline`), unless the first pass halts in a way that the
comparison leaves open.
-/

namespace StyleWeave.Inline

open Step (exec)

/-! ## Further indentation -/

/-- A line behind an indentation. An empty line stays empty. -/
def indentLine (indent line : String) : String :=
  if line.isEmpty then line else indent ++ line

@[simp] theorem indentLine_empty (indent : String) : indentLine indent "" = "" := rfl

theorem indentLine_of_ne {indent line : String} (h : line ≠ "") :
    indentLine indent line = indent ++ line := by
  unfold indentLine
  rw [if_neg (by simpa using h)]

theorem empty_indentLine (line : String) : indentLine "" line = line := by
  unfold indentLine
  split
  · rfl
  · rw [String.empty_append]

theorem append_ne_empty {s t : String} (h : t ≠ "") : s ++ t ≠ "" := by
  intro heq
  exact h (String.append_eq_empty_iff.1 heq).2

theorem ofList_ne_empty {cs : List Char} (h : cs.isEmpty = false) : String.ofList cs ≠ "" := by
  intro heq
  have hlist : cs = [] := by simpa using congrArg String.toList heq
  rw [hlist] at h
  cases h

theorem lineText_append (i indent : String) (line : Text.Line) :
    lineText (i ++ indent) line = indentLine i (lineText indent line) := by
  unfold lineText
  by_cases hblank : (Text.trim line.text).isEmpty = true
  · rw [if_pos hblank, if_pos hblank, indentLine_empty]
  · rw [if_neg hblank, if_neg hblank]
    have hsome : line.text.isEmpty = false := by
      cases htext : line.text with
      | nil =>
        rw [htext] at hblank
        exact absurd rfl hblank
      | cons c cs => rfl
    rw [indentLine_of_ne (append_ne_empty (ofList_ne_empty hsome)), String.append_assoc]

theorem fragmentText_append (i base : String) {text : List Char} (opened : Nat)
    (h : (Text.trim text).isEmpty = false) :
    fragmentText (i ++ base) text opened = indentLine i (fragmentText base text opened) := by
  unfold fragmentText
  dsimp only
  rw [indentLine_of_ne (append_ne_empty (ofList_ne_empty h))]
  simp only [String.append_assoc]

/-- What is done with a part of a document if the whole is indented by `i` more. -/
def Act.shift (i : String) : Act → Act
  | .line l => .line l
  | .fragment base text opened number => .fragment (i ++ base) text opened number
  | .site indent s => .site (i ++ indent) s

theorem planSites_shift (source : List Char) (i base : String) (number : Nat)
    (sites : List ImportSite) (pos opened : Nat) :
    planSites source (i ++ base) number sites pos opened =
      ((planSites source base number sites pos opened).1.map (Act.shift i),
        (planSites source base number sites pos opened).2) := by
  induction sites generalizing pos opened with
  | nil => rfl
  | cons site rest ih =>
    unfold planSites
    dsimp only
    rw [ih]
    simp only [List.map_cons, Act.shift, String.append_assoc]

theorem planTail_shift (source : List Char) (i base : String) (line : Text.Line)
    (pos opened : Nat) :
    planTail source (i ++ base) line pos opened =
      (planTail source base line pos opened).map (Act.shift i) := by
  unfold planTail
  split <;> rfl

theorem planLines_shift (source : List Char) (i indent : String) (lines : List Text.Line)
    (cursor : Nat) (sites : List ImportSite) :
    planLines source (i ++ indent) lines cursor sites =
      (planLines source indent lines cursor sites).map (Act.shift i) := by
  induction lines generalizing cursor sites with
  | nil => rfl
  | cons line rest ih =>
    have hbase : lineBase (i ++ indent) line = i ++ lineBase indent line :=
      String.append_assoc ..
    unfold planLines
    dsimp only
    split
    · rw [ih, List.map_cons]
      rfl
    · rw [hbase, planSites_shift, planTail_shift, ih]
      simp only [List.map_append]

/-- The same is planned for a document whatever its indentation. -/
theorem planSheet_shift (file : Path) (source i indent : String) (index index' : Nat)
    (document : List Node) (table : Table) :
    planSheet (Sheet.of file source (i ++ indent) index) document table =
      (planSheet (Sheet.of file source indent index') document table).map (Act.shift i) :=
  planLines_shift _ _ _ _ _ _

/-- The same line, indented by `i` more and from a source with a related number. -/
inductive Write.Shifted (i : String) (X : Nat → Nat → Prop) : Write → Write → Prop where
  | rule (indent : String) {text : String} (h : text ≠ "") :
      Shifted i X (.rule (i ++ indent) text) (.rule indent text)
  | mapped {n n' : Nat} (h : X n n') (line : String) (number : Nat) :
      Shifted i X (.mapped (indentLine i line) n number) (.mapped line n' number)

theorem Write.Shifted.line_eq {i : String} {X : Nat → Nat → Prop} {w w' : Write}
    (h : w.Shifted i X w') : w.line = indentLine i w'.line := by
  cases h with
  | rule indent h =>
    unfold Write.line
    dsimp only
    rw [indentLine_of_ne (append_ne_empty h), String.append_assoc]
  | mapped h line number => rfl

theorem urlRule_ne_empty (target : String) : urlRule target ≠ "" := by
  unfold urlRule
  exact append_ne_empty (by decide)

theorem nameRule_ne_empty (name : String) : nameRule name ≠ "" := by
  unfold nameRule
  exact append_ne_empty (by decide)

/-! ## Steps in lockstep -/

variable {σ τ α β : Type}

/-- Started where `R` relates two passes, the steps end alike where it does, unless the first halts
in a way that `E` leaves open. -/
def InStep (E : Halt → Prop) (R : Pass σ → Pass τ → Prop) (x : Step σ α) (y : Step τ α) : Prop :=
  ∀ p q, R p q → (∃ halt, (exec x p).1 = .error halt ∧ E halt) ∨
    ((exec x p).1 = (exec y q).1 ∧ R (exec x p).2 (exec y q).2)

section

variable {E : Halt → Prop} {R : Pass σ → Pass τ → Prop}

theorem InStep.pure (a : α) : InStep E R (pure a : Step σ α) (pure a : Step τ α) :=
  fun _ _ h => Or.inr ⟨rfl, h⟩

theorem InStep.bind {x : Step σ α} {y : Step τ α} {f : α → Step σ β} {g : α → Step τ β}
    (hx : InStep E R x y) (hf : ∀ a, InStep E R (f a) (g a)) :
    InStep E R (x >>= f) (y >>= g) := by
  intro p q h
  rw [Step.exec_bind, Step.exec_bind]
  rcases hx p q h with ⟨halt, hresult, hopen⟩ | ⟨hresult, hrelated⟩
  · left
    generalize exec x p = answer at hresult ⊢
    obtain ⟨result, p'⟩ := answer
    obtain rfl : result = .error halt := hresult
    exact ⟨halt, rfl, hopen⟩
  · generalize exec x p = answer at hresult hrelated ⊢
    generalize exec y q = answer' at hresult hrelated ⊢
    obtain ⟨result, p'⟩ := answer
    obtain ⟨result', q'⟩ := answer'
    obtain rfl : result = result' := hresult
    cases result with
    | error halt => exact Or.inr ⟨rfl, hrelated⟩
    | ok a => exact hf a p' q' hrelated

end

/-! ## What every kind of step keeps -/

/-- What is known of the documents of a pass with their texts, of the names that they look for, and
of the files that their statements lead to. -/
structure Reach where
  document : Path → String → Prop
  asks : Path → ImportKind → String → Prop
  file : Path → ImportKind → Path → Prop

/-- Nothing is known of them. -/
def Reach.any : Reach :=
  ⟨fun _ _ => True, fun _ _ _ => True, fun _ _ _ => True⟩

/-- `R` is kept by what two passes do with documents that are parsed. The first pass has the further
indentation `i`, the documents `below` in place of `below'` around everything, and numbers of
sources that `X` relates to those of the second. -/
structure Strides (E : Halt → Prop) (i : String) (X : Nat → Nat → Prop) (reach : Reach)
    (below below' : List Path) (R : Pass σ → Pass τ → Prop) (env : Setting σ) (env' : Setting τ) :
    Prop where
  options : env'.options = env.options
  write : ∀ {p q w w'}, R p q → w.Shifted i X w' → R (p.write [w]) (q.write [w'])
  number : ∀ {p q} (file : Path), R p q →
    X (sourceIndex file p).1 (sourceIndex file q).1 ∧
      R (sourceIndex file p).2 (sourceIndex file q).2
  judge : ∀ {p q importer kind file} (stack : List Path), R p q → reach.file importer kind file →
    (verdict (stack ++ below) p.included kind file = .loop ∧ E (importLoop importer file)) ∨
      verdict (stack ++ below) p.included kind file = verdict (stack ++ below') q.included kind file
  including : ∀ {p q} (file : Path), R p q →
    R { p with included := p.included ++ [file] } { q with included := q.included ++ [file] }
  locate : ∀ {p q importer kind name}, R p q → reach.asks importer kind name →
    (env.locate importer name p.search).1 = (env'.locate importer name q.search).1 ∧
      R { p with search := (env.locate importer name p.search).2 }
        { q with search := (env'.locate importer name q.search).2 } ∧
      ∀ files, (env.locate importer name p.search).1 = .ok files →
        ∀ file ∈ files, reach.file importer kind file
  read : ∀ {p q importer kind file}, R p q → reach.file importer kind file →
    (env.read file p.search).1 = (env'.read file q.search).1 ∧
      R { p with search := (env.read file p.search).2 }
        { q with search := (env'.read file q.search).2 } ∧
      ∀ text, (env.read file p.search).1 = .ok text → reach.document file text

/-- `R` is kept by parsing a document, too. -/
structure Lockstep (E : Halt → Prop) (i : String) (X : Nat → Nat → Prop) (reach : Reach)
    (below below' : List Path) (R : Pass σ → Pass τ → Prop) (env : Setting σ) (env' : Setting τ) :
    Prop extends Strides E i X reach below below' R env env' where
  parse : ∀ {p q} (source : String), R p q →
    (p.parsed.parse source).1 = (q.parsed.parse source).1 ∧
      R { p with parsed := (p.parsed.parse source).2 }
        { q with parsed := (q.parsed.parse source).2 }
  asks : ∀ {p q file source document}, R p q → reach.document file source →
    (p.parsed.parse source).1 = .ok document →
    ∀ site ∈ importSites document env.options.define, ∀ name, Locates env.options site name →
      reach.asks file site.statement.kind name

section

variable {E : Halt → Prop} {i : String} {X : Nat → Nat → Prop} {reach : Reach}
  {below below' : List Path} {R : Pass σ → Pass τ → Prop} {env : Setting σ} {env' : Setting τ}
  {nested : Inliner σ} {nested' : Inliner τ} {stack : List Path}

variable (h : Strides E i X reach below below' R env env')
  (hnested : ∀ file text indent, reach.document file text →
    InStep E R (nested (stack ++ below) file text (i ++ indent))
      (nested' (stack ++ below') file text indent))

include h hnested

theorem strides_includeFile (importer : Path) (kind : ImportKind) (indent : String) {file : Path}
    (hfile : reach.file importer kind file) :
    InStep E R (includeFile env nested (stack ++ below) importer kind (i ++ indent) file)
      (includeFile env' nested' (stack ++ below') importer kind indent file) := by
  intro p q hp
  rw [exec_includeFile, exec_includeFile]
  rcases h.judge stack hp hfile with ⟨hloop, hopen⟩ | hsame
  · rw [hloop]
    exact Or.inl ⟨importLoop importer file, rfl, hopen⟩
  · rw [hsame]
    cases verdict (stack ++ below') q.included kind file with
    | skipped => exact Or.inr ⟨rfl, hp⟩
    | loop => exact Or.inr ⟨rfl, hp⟩
    | included =>
      obtain ⟨hresult, hrelated, hdocument⟩ := h.read (h.including file hp) hfile
      dsimp only at hresult hrelated hdocument ⊢
      generalize env.read file p.search = answer at hresult hrelated hdocument ⊢
      generalize env'.read file q.search = answer' at hresult hrelated ⊢
      obtain ⟨result, s⟩ := answer
      obtain ⟨result', t⟩ := answer'
      obtain rfl : result = result' := hresult
      cases result with
      | error halt => exact Or.inr ⟨rfl, hrelated⟩
      | ok text => exact hnested file text indent (hdocument text rfl) _ _ hrelated

theorem strides_includeFiles (importer : Path) (kind : ImportKind) (indent : String)
    (files : List Path) (hfiles : ∀ file ∈ files, reach.file importer kind file) :
    InStep E R (includeFiles env nested (stack ++ below) importer kind (i ++ indent) files)
      (includeFiles env' nested' (stack ++ below') importer kind indent files) := by
  induction files with
  | nil => exact InStep.pure ()
  | cons file rest ih =>
    refine InStep.bind ?_ fun _ => ih fun f hf => hfiles f (List.mem_cons_of_mem _ hf)
    exact strides_includeFile h hnested importer kind indent (hfiles file List.mem_cons_self)

theorem strides_importOne (importer : Path) (statement : Import) (indent : String) (expr : Expr)
    (name : Option String)
    (hasks : ∀ n, name = some n → urlTarget? expr = none → isRule env.options n = false →
      reach.asks importer statement.kind n) :
    InStep E R
      (importOne env nested (stack ++ below) importer statement (i ++ indent) expr name)
      (importOne env' nested' (stack ++ below') importer statement indent expr name) := by
  intro p q hp
  rw [exec_importOne, exec_importOne, h.options]
  cases hurl : urlTarget? expr with
  | some target => exact Or.inr ⟨rfl, h.write hp (.rule indent (urlRule_ne_empty target))⟩
  | none =>
    cases name with
    | none => exact Or.inr ⟨rfl, hp⟩
    | some name =>
      dsimp only
      by_cases hrule : isRule env.options name = true
      · rw [if_pos hrule, if_pos hrule]
        exact Or.inr ⟨rfl, h.write hp (.rule indent (nameRule_ne_empty name))⟩
      · rw [if_neg hrule, if_neg hrule]
        have hname := hasks name rfl hurl (by simpa using hrule)
        obtain ⟨hresult, hrelated, hfiles⟩ := h.locate hp hname
        generalize env.locate importer name p.search = answer at hresult hrelated hfiles ⊢
        generalize env'.locate importer name q.search = answer' at hresult hrelated ⊢
        obtain ⟨result, s⟩ := answer
        obtain ⟨result', t⟩ := answer'
        obtain rfl : result = result' := hresult
        cases result with
        | error halt => exact Or.inr ⟨rfl, hrelated⟩
        | ok files =>
          exact strides_includeFiles h hnested importer statement.kind indent files
            (hfiles files rfl) _ _ hrelated

theorem strides_importAll (importer : Path) (statement : Import) (indent : String)
    (exprs : List (Expr × Option String))
    (hasks : ∀ expr n, (expr, some n) ∈ exprs → urlTarget? expr = none →
      isRule env.options n = false → reach.asks importer statement.kind n) :
    InStep E R (importAll env nested (stack ++ below) importer statement (i ++ indent) exprs)
      (importAll env' nested' (stack ++ below') importer statement indent exprs) := by
  induction exprs with
  | nil => exact InStep.pure ()
  | cons e rest ih =>
    obtain ⟨expr, name⟩ := e
    refine InStep.bind ?_ fun _ => ih fun expr n hm => hasks expr n (List.mem_cons_of_mem _ hm)
    refine strides_importOne h hnested importer statement indent expr name ?_
    rintro n rfl
    exact hasks expr n List.mem_cons_self

theorem strides_perform (file : Path) (source indent : String) {n n' : Nat} (hn : X n n')
    (act : Act)
    (hasks : ∀ own site, act = .site own site → ∀ name, Locates env.options site name →
      reach.asks file site.statement.kind name) :
    InStep E R
      (perform env nested (stack ++ below) (Sheet.of file source (i ++ indent) n) (act.shift i))
      (perform env' nested' (stack ++ below') (Sheet.of file source indent n') act) := by
  cases act with
  | line l =>
    intro p q hp
    rw [exec_perform_of_not_site (fun _ _ => by simp [Act.shift]),
      exec_perform_of_not_site (fun _ _ => by simp)]
    refine Or.inr ⟨rfl, h.write hp ?_⟩
    show Write.Shifted i X (.mapped (lineText (i ++ indent) l) n l.number) _
    rw [lineText_append]
    exact .mapped hn _ _
  | fragment base text opened number =>
    intro p q hp
    rw [exec_perform_of_not_site (fun _ _ => by simp [Act.shift]),
      exec_perform_of_not_site (fun _ _ => by simp)]
    refine Or.inr ⟨rfl, ?_⟩
    unfold Act.shift Act.writes fragmentWrites
    by_cases hblank : (Text.trim text).isEmpty = true
    · dsimp only
      rw [if_pos hblank, if_pos hblank]
      simpa [Pass.write, Write.mappings] using hp
    · dsimp only
      rw [if_neg hblank, if_neg hblank, fragmentText_append i base opened (by simpa using hblank)]
      exact h.write hp (.mapped hn _ _)
  | site own site =>
    refine strides_importAll h hnested file site.statement own _ fun expr name hm hurl hrule => ?_
    exact hasks own site rfl name ⟨expr, hm, hurl, hrule⟩

theorem strides_performAll (file : Path) (source indent : String) {n n' : Nat} (hn : X n n')
    (acts : List Act)
    (hasks : ∀ own site, .site own site ∈ acts → ∀ name, Locates env.options site name →
      reach.asks file site.statement.kind name) :
    InStep E R
      (performAll env nested (stack ++ below) (Sheet.of file source (i ++ indent) n)
        (acts.map (Act.shift i)))
      (performAll env' nested' (stack ++ below') (Sheet.of file source indent n') acts) := by
  induction acts with
  | nil => exact InStep.pure ()
  | cons act rest ih =>
    refine InStep.bind ?_ fun _ => ih fun own site hm => hasks own site (List.mem_cons_of_mem _ hm)
    refine strides_perform h hnested file source indent hn act ?_
    rintro own site rfl
    exact hasks own site List.mem_cons_self

/-- The document comes on top of the others. -/
theorem strides_renderSheet {outer outer' : List Path} {file : Path} {source : String}
    (indent : String) (htop : file :: outer = stack ++ below)
    (htop' : file :: outer' = stack ++ below') {p : Pass σ} {q : Pass τ}
    (hparse : (p.parsed.parse source).1 = (q.parsed.parse source).1)
    (hparsed : R { p with parsed := (p.parsed.parse source).2 }
      { q with parsed := (q.parsed.parse source).2 })
    (hasks : ∀ document, (p.parsed.parse source).1 = .ok document →
      ∀ site ∈ importSites document env.options.define, ∀ name, Locates env.options site name →
        reach.asks file site.statement.kind name) :
    let ended := exec (renderSheet env nested outer file source (i ++ indent)) p
    let ended' := exec (renderSheet env' nested' outer' file source indent) q
    (∃ halt, ended.1 = .error halt ∧ E halt) ∨ (ended.1 = ended'.1 ∧ R ended.2 ended'.2) := by
  dsimp only
  rw [exec_renderSheet, exec_renderSheet, h.options, htop, htop']
  generalize p.parsed.parse source = answer at hparse hparsed hasks ⊢
  generalize q.parsed.parse source = answer' at hparse hparsed ⊢
  obtain ⟨result, parsed⟩ := answer
  obtain ⟨result', parsed'⟩ := answer'
  obtain rfl : result = result' := hparse
  cases result with
  | error e => exact Or.inr ⟨rfl, hparsed⟩
  | ok document =>
    obtain ⟨hnumber, hentered⟩ := h.number file hparsed
    dsimp only
    rw [planSheet_shift file source i indent _ (sourceIndex file { q with parsed := parsed' }).1]
    refine strides_performAll h hnested file source indent hnumber _ (fun own site hm => ?_) _ _
      hentered
    exact hasks document rfl site (mem_of_mem_planSheet hm)

end

theorem lockstep_renderSheet {E : Halt → Prop} {i : String} {X : Nat → Nat → Prop} {reach : Reach}
    {below below' : List Path} {R : Pass σ → Pass τ → Prop} {env : Setting σ} {env' : Setting τ}
    {nested : Inliner σ} {nested' : Inliner τ} {stack : List Path}
    (h : Lockstep E i X reach below below' R env env')
    (hnested : ∀ file text indent, reach.document file text →
      InStep E R (nested (stack ++ below) file text (i ++ indent))
        (nested' (stack ++ below') file text indent))
    {outer outer' : List Path} {file : Path} {source : String} (indent : String)
    (hdocument : reach.document file source) (htop : file :: outer = stack ++ below)
    (htop' : file :: outer' = stack ++ below') :
    InStep E R (renderSheet env nested outer file source (i ++ indent))
      (renderSheet env' nested' outer' file source indent) := by
  intro p q hp
  obtain ⟨hparse, hparsed⟩ := h.parse source hp
  exact strides_renderSheet h.toStrides hnested indent htop htop' hparse hparsed fun document =>
    h.asks hp hdocument

/-- Passes through one document keep what every kind of step keeps. The induction is on the depth;
the document itself is put on top of both stacks. -/
theorem lockstep_inline {E : Halt → Prop} {i : String} {X : Nat → Nat → Prop} {reach : Reach}
    {below below' : List Path} {R : Pass σ → Pass τ → Prop} {env : Setting σ} {env' : Setting τ}
    (h : Lockstep E i X reach below below' R env env') (depth : Nat) (stack : List Path)
    {file : Path} {source : String} (indent : String) (hdocument : reach.document file source) :
    InStep E R (inline env depth (stack ++ below) file source (i ++ indent))
      (inline env' depth (stack ++ below') file source indent) := by
  induction depth generalizing stack file source indent with
  | zero => exact fun _ _ hp => Or.inr ⟨rfl, hp⟩
  | succ depth ih =>
    have hnested : ∀ file' text indent', reach.document file' text →
        InStep E R (inline env depth ((file :: stack) ++ below) file' text (i ++ indent'))
          (inline env' depth ((file :: stack) ++ below') file' text indent') :=
      fun file' text indent' hd => ih (file :: stack) indent' hd
    exact lockstep_renderSheet h hnested indent hdocument rfl rfl

end StyleWeave.Inline
