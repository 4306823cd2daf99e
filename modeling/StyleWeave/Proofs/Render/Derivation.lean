import StyleWeave.Proofs.Render.Inclusion

/-!
# How a pass succeeds

A pass that halts nowhere is a tree of smaller ones: of documents, of what is planned for their
lines, of the path expressions of a statement, and of the files that an expression stands for.
`Does` has one rule for each way such a part is carried out, and `does_of_exec` finds the tree
behind a pass. Properties of successful passes are proved by induction on it.
-/

namespace StyleWeave.Inline

variable {σ : Type}

/-- The pass has written these lines since, and may have more sources. -/
structure Grown (writes : List Write) (p q : Pass σ) : Prop where
  lines : q.lines = (p.write writes).lines
  mappings : q.mappings = (p.write writes).mappings
  sources : p.sources <+: q.sources

theorem Grown.of_same {p q : Pass σ} (hlines : q.lines = p.lines)
    (hmappings : q.mappings = p.mappings) (hsources : p.sources <+: q.sources) :
    Grown [] p q := by
  refine ⟨?_, ?_, hsources⟩
  · simp [Pass.write, hlines]
  · simp [Pass.write, Write.mappings, hmappings]

theorem Grown.of_write (writes : List Write) (p : Pass σ) : Grown writes p (p.write writes) :=
  ⟨rfl, rfl, List.prefix_refl _⟩

theorem Grown.trans {writes writes' : List Write} {p m q : Pass σ} (h : Grown writes p m)
    (h' : Grown writes' m q) : Grown (writes ++ writes') p q := by
  have hlines : m.lines.size = (p.write writes).lines.size := by rw [h.lines]
  refine ⟨?_, ?_, h.sources.trans h'.sources⟩
  · rw [Pass.write_append, h'.lines]
    simp only [Pass.write, h.lines]
  · rw [Pass.write_append, h'.mappings]
    simp only [Pass.write, h.mappings, hlines]

/-! ## Trees of passes -/

/-- A part of a pass. -/
inductive Task where
  | document (file : Path) (source indent : String)
  | acts (sheet : Sheet) (acts : List Act)
  | exprs (importer : Path) (statement : Import) (indent : String)
      (exprs : List (Expr × Option String))
  | files (importer : Path) (kind : ImportKind) (indent : String) (files : List Path)

/-- A file that an import stands for is passed over. -/
def IsSkipped (kind : ImportKind) (file : Path) (p : Pass σ) : Prop :=
  kind = .require ∧ p.included.contains file = true

/-- With documents nested `depth` deep and `stack` around it, a task takes a pass from one state to
another and writes some lines. -/
inductive Does (env : Setting σ) :
    Nat → List Path → Task → List Write → Pass σ → Pass σ → Prop where
  | document {depth : Nat} {stack : List Path} {file : Path} {source indent : String}
      {document : List Node} {writes : List Write} {p q : Pass σ}
      (parse : (p.parsed.parse source).1 = .ok document)
      (acts : let p' := sourceIndex file { p with parsed := (p.parsed.parse source).2 }
        let sheet := Sheet.of file source indent p'.1
        Does env depth (file :: stack) (.acts sheet (planSheet sheet document env.options.define))
          writes p'.2 q) :
      Does env (depth + 1) stack (.document file source indent) writes p q
  | done {depth : Nat} {stack : List Path} {sheet : Sheet} {p : Pass σ} :
      Does env depth stack (.acts sheet []) [] p p
  | line {depth : Nat} {stack : List Path} {sheet : Sheet} {line : Text.Line} {rest : List Act}
      {written writes : List Write} {p q : Pass σ}
      (hwritten : written = [.mapped (lineText sheet.indent line) sheet.index line.number])
      (others : Does env depth stack (.acts sheet rest) writes (p.write written) q) :
      Does env depth stack (.acts sheet (.line line :: rest)) (written ++ writes) p q
  | fragment {depth : Nat} {stack : List Path} {sheet : Sheet} {base : String} {text : List Char}
      {opened number : Nat} {rest : List Act} {written writes : List Write} {p q : Pass σ}
      (hwritten : written = fragmentWrites base text opened sheet.index number)
      (others : Does env depth stack (.acts sheet rest) writes (p.write written) q) :
      Does env depth stack (.acts sheet (.fragment base text opened number :: rest))
        (written ++ writes) p q
  | site {depth : Nat} {stack : List Path} {sheet : Sheet} {indent : String} {site : ImportSite}
      {rest : List Act} {written writes : List Write} {p m q : Pass σ}
      (here : Does env depth stack (.exprs sheet.file site.statement indent
        (site.statement.exprs.zip site.names)) written p m)
      (others : Does env depth stack (.acts sheet rest) writes m q) :
      Does env depth stack (.acts sheet (.site indent site :: rest)) (written ++ writes) p q
  | noExpr {depth : Nat} {stack : List Path} {importer : Path} {statement : Import}
      {indent : String} {p : Pass σ} :
      Does env depth stack (.exprs importer statement indent []) [] p p
  | url {depth : Nat} {stack : List Path} {importer : Path} {statement : Import} {indent : String}
      {expr : Expr} {name : Option String} {target : String} {rest : List (Expr × Option String)}
      {written writes : List Write} {p q : Pass σ} (hurl : urlTarget? expr = some target)
      (hwritten : written = [.rule indent (urlRule target)])
      (others : Does env depth stack (.exprs importer statement indent rest) writes
        (p.write written) q) :
      Does env depth stack (.exprs importer statement indent ((expr, name) :: rest))
        (written ++ writes) p q
  | rule {depth : Nat} {stack : List Path} {importer : Path} {statement : Import} {indent : String}
      {expr : Expr} {name : String} {rest : List (Expr × Option String)}
      {written writes : List Write} {p q : Pass σ} (hurl : urlTarget? expr = none)
      (hrule : isRule env.options name = true)
      (hwritten : written = [.rule indent (nameRule name)])
      (others : Does env depth stack (.exprs importer statement indent rest) writes
        (p.write written) q) :
      Does env depth stack (.exprs importer statement indent ((expr, some name) :: rest))
        (written ++ writes) p q
  | located {depth : Nat} {stack : List Path} {importer : Path} {statement : Import}
      {indent : String} {expr : Expr} {name : String} {rest : List (Expr × Option String)}
      {files : List Path} {written writes : List Write} {p m q : Pass σ}
      (hurl : urlTarget? expr = none) (hrule : isRule env.options name = false)
      (hlocate : (env.locate importer name p.search).1 = .ok files)
      (here : Does env depth stack (.files importer statement.kind indent files) written
        { p with search := (env.locate importer name p.search).2 } m)
      (others : Does env depth stack (.exprs importer statement indent rest) writes m q) :
      Does env depth stack (.exprs importer statement indent ((expr, some name) :: rest))
        (written ++ writes) p q
  | noFile {depth : Nat} {stack : List Path} {importer : Path} {kind : ImportKind}
      {indent : String} {p : Pass σ} :
      Does env depth stack (.files importer kind indent []) [] p p
  | skipped {depth : Nat} {stack : List Path} {importer : Path} {kind : ImportKind}
      {indent : String} {file : Path} {rest : List Path} {writes : List Write} {p q : Pass σ}
      (hskipped : IsSkipped kind file p)
      (others : Does env depth stack (.files importer kind indent rest) writes p q) :
      Does env depth stack (.files importer kind indent (file :: rest)) writes p q
  | included {depth : Nat} {stack : List Path} {importer : Path} {kind : ImportKind}
      {indent : String} {file : Path} {text : String} {rest : List Path}
      {written writes : List Write} {p m q : Pass σ} (hnew : ¬ IsSkipped kind file p)
      (hstack : stack.contains file = false) (hread : (env.read file p.search).1 = .ok text)
      (here : Does env depth stack (.document file text indent) written
        { p with included := p.included ++ [file], search := (env.read file p.search).2 } m)
      (others : Does env depth stack (.files importer kind indent rest) writes m q) :
      Does env depth stack (.files importer kind indent (file :: rest)) (written ++ writes) p q

/-! ## The tree behind a pass -/

namespace Step

variable {α β : Type}

/-- Two steps in a row succeed one behind the other. -/
theorem exec_bind_eq_ok {x : Step σ α} {f : α → Step σ β} {p q : Pass σ} {b : β}
    (h : exec (x >>= f) p = (.ok b, q)) :
    ∃ a m, exec x p = (.ok a, m) ∧ exec (f a) m = (.ok b, q) := by
  rw [exec_bind] at h
  rcases hx : exec x p with ⟨halt | a, m⟩
  · rw [hx] at h
    cases h
  · rw [hx] at h
    exact ⟨a, m, rfl, h⟩

end Step

open Step (exec exec_bind_eq_ok)

variable {env : Setting σ} {nested : Inliner σ} {depth : Nat} {stack : List Path}

section

variable (hnested : ∀ file source indent (p q : Pass σ),
  exec (nested stack file source indent) p = (.ok (), q) →
    ∃ writes, Does env depth stack (.document file source indent) writes p q)

include hnested

theorem does_includeFiles (importer : Path) (kind : ImportKind) (indent : String)
    (files : List Path) {p q : Pass σ}
    (h : exec (includeFiles env nested stack importer kind indent files) p = (.ok (), q)) :
    ∃ writes, Does env depth stack (.files importer kind indent files) writes p q := by
  induction files generalizing p with
  | nil =>
    obtain rfl : p = q := (Prod.mk.inj h).2
    exact ⟨[], .noFile⟩
  | cons file rest ih =>
    obtain ⟨⟨⟩, m, hfile, hrest⟩ := exec_bind_eq_ok h
    obtain ⟨writes, hothers⟩ := ih hrest
    rw [exec_includeFile] at hfile
    cases hverdict : verdict stack p.included kind file with
    | skipped =>
      rw [hverdict] at hfile
      obtain rfl : p = m := (Prod.mk.inj hfile).2
      exact ⟨writes, .skipped ((verdict_eq_skipped_iff stack).1 hverdict) hothers⟩
    | loop =>
      rw [hverdict] at hfile
      cases hfile
    | included =>
      obtain ⟨hstack, hnew⟩ := verdict_eq_included_iff.1 hverdict
      rw [hverdict] at hfile
      dsimp only at hfile
      rcases hread : env.read file p.search with ⟨halt | text, s⟩
      · rw [hread] at hfile
        cases hfile
      · rw [hread] at hfile
        obtain ⟨written, hhere⟩ := hnested _ _ _ _ _ hfile
        exact ⟨written ++ writes, .included hnew hstack (congrArg Prod.fst hread)
          (by rw [hread]; exact hhere) hothers⟩

theorem does_importAll (importer : Path) (statement : Import) (indent : String)
    (exprs : List (Expr × Option String)) {p q : Pass σ}
    (h : exec (importAll env nested stack importer statement indent exprs) p = (.ok (), q)) :
    ∃ writes, Does env depth stack (.exprs importer statement indent exprs) writes p q := by
  induction exprs generalizing p with
  | nil =>
    obtain rfl : p = q := (Prod.mk.inj h).2
    exact ⟨[], .noExpr⟩
  | cons e rest ih =>
    obtain ⟨expr, name⟩ := e
    obtain ⟨⟨⟩, m, hone, hrest⟩ := exec_bind_eq_ok h
    obtain ⟨writes, hothers⟩ := ih hrest
    rw [exec_importOne] at hone
    cases hurl : urlTarget? expr with
    | some target =>
      rw [hurl] at hone
      obtain rfl := (Prod.mk.inj hone).2
      exact ⟨_ ++ writes, .url hurl rfl hothers⟩
    | none =>
      rw [hurl] at hone
      cases name with
      | none => cases hone
      | some name =>
        dsimp only at hone
        cases hrule : isRule env.options name with
        | true =>
          rw [if_pos hrule] at hone
          obtain rfl := (Prod.mk.inj hone).2
          exact ⟨_ ++ writes, .rule hurl hrule rfl hothers⟩
        | false =>
          rw [if_neg (by simp [hrule])] at hone
          rcases hlocate : env.locate importer name p.search with ⟨halt | files, s⟩
          · rw [hlocate] at hone
            cases hone
          · rw [hlocate] at hone
            obtain ⟨written, hhere⟩ := does_includeFiles hnested _ _ _ _ hone
            exact ⟨written ++ writes, .located hurl hrule (congrArg Prod.fst hlocate)
              (by rw [hlocate]; exact hhere) hothers⟩

theorem does_performAll (sheet : Sheet) (acts : List Act) {p q : Pass σ}
    (h : exec (performAll env nested stack sheet acts) p = (.ok (), q)) :
    ∃ writes, Does env depth stack (.acts sheet acts) writes p q := by
  induction acts generalizing p with
  | nil =>
    obtain rfl : p = q := (Prod.mk.inj h).2
    exact ⟨[], .done⟩
  | cons act rest ih =>
    obtain ⟨_, m, hact, hrest⟩ := exec_bind_eq_ok h
    obtain ⟨writes, hothers⟩ := ih hrest
    cases act with
    | line line =>
      rw [exec_perform_of_not_site fun _ _ => by simp] at hact
      obtain rfl := (Prod.mk.inj hact).2
      exact ⟨_ ++ writes, .line rfl hothers⟩
    | fragment base text opened number =>
      rw [exec_perform_of_not_site fun _ _ => by simp] at hact
      obtain rfl := (Prod.mk.inj hact).2
      exact ⟨_ ++ writes, .fragment rfl hothers⟩
    | site indent site =>
      obtain ⟨written, hhere⟩ := does_importAll hnested _ _ _ _ hact
      exact ⟨written ++ writes, .site hhere hothers⟩

end

/-- Behind each pass through a document that succeeds there is such a tree. -/
theorem does_of_exec {file : Path} {source indent : String} {p q : Pass σ}
    (h : exec (inline env depth stack file source indent) p = (.ok (), q)) :
    ∃ writes, Does env depth stack (.document file source indent) writes p q := by
  induction depth generalizing stack file source indent p q with
  | zero => cases h
  | succ depth ih =>
    rw [inline, exec_renderSheet] at h
    rcases hparse : p.parsed.parse source with ⟨e | document, parsed⟩
    · rw [hparse] at h
      cases h
    · rw [hparse] at h
      obtain ⟨writes, hacts⟩ := does_performAll (fun _ _ _ _ _ hn => ih hn) _ _ h
      exact ⟨writes, .document (congrArg Prod.fst hparse) (by rw [hparse]; exact hacts)⟩

/-! ## What a pass leaves behind -/

/-- A pass writes its lines behind those that are there, and adds to the sources. -/
theorem Does.grown {task : Task} {writes : List Write} {p q : Pass σ}
    (h : Does env depth stack task writes p q) : Grown writes p q := by
  induction h with
  | @document depth stack file source indent document writes p q parse acts ih =>
    obtain ⟨more, hsources⟩ :=
      sourceIndex_snd file { p with parsed := (p.parsed.parse source).2 }
    rw [hsources] at ih
    have hfirst : Grown [] p { p with
        parsed := (p.parsed.parse source).2, sources := p.sources ++ more } :=
      .of_same rfl rfl (List.prefix_append _ _)
    exact hfirst.trans ih
  | done | noExpr | noFile => exact .of_same rfl rfl (List.prefix_refl _)
  | line _ _ ih | fragment _ _ ih | url _ _ _ ih | rule _ _ _ _ ih =>
    exact (Grown.of_write _ _).trans ih
  | site _ _ ihHere ihOthers => exact ihHere.trans ihOthers
  | @located depth stack importer statement indent expr name rest files written writes p m q hurl
      hrule hlocate here others ihHere ihOthers =>
    have hfirst : Grown [] p { p with search := (env.locate importer name p.search).2 } :=
      .of_same rfl rfl (List.prefix_refl _)
    exact (hfirst.trans ihHere).trans ihOthers
  | skipped _ _ ih => exact ih
  | @included depth stack importer kind indent file text rest written writes p m q hnew hstack
      hread here others ihHere ihOthers =>
    have hfirst : Grown [] p { p with
        included := p.included ++ [file], search := (env.read file p.search).2 } :=
      .of_same rfl rfl (List.prefix_refl _)
    exact (hfirst.trans ihHere).trans ihOthers

theorem Does.valid {task : Task} {writes : List Write} {p q : Pass σ}
    (h : Does env depth stack task writes p q) (hparsed : p.parsed.Valid) : q.parsed.Valid := by
  induction h with
  | @document depth stack file source indent document writes p q parse acts ih =>
    exact ih (valid_entered hparsed file source)
  | done | noExpr | noFile => exact hparsed
  | line _ _ ih | fragment _ _ ih | url _ _ _ ih | rule _ _ _ _ ih | skipped _ _ ih =>
    exact ih hparsed
  | site _ _ ihHere ihOthers | located _ _ _ _ _ ihHere ihOthers
  | included _ _ _ _ _ ihHere ihOthers => exact ihOthers (ihHere hparsed)

/-- The sources of the pass are different files. -/
def Pass.Differ (p : Pass σ) : Prop :=
  p.sources.Pairwise fun a b => (a == b) = false

theorem sourceIndex_differ {file : Path} {p : Pass σ} (h : p.Differ) :
    (sourceIndex file p).2.Differ := by
  unfold sourceIndex
  split
  · exact h
  · next hnew =>
    refine List.pairwise_append.2 ⟨h, List.pairwise_singleton _ _, fun a ha b hb => ?_⟩
    rw [List.mem_singleton.1 hb]
    simpa using List.findIdx?_eq_none_iff.1 hnew a ha

theorem Does.differ {task : Task} {writes : List Write} {p q : Pass σ}
    (h : Does env depth stack task writes p q) (hp : p.Differ) : q.Differ := by
  induction h with
  | document _ _ ih => exact ih (sourceIndex_differ hp)
  | done | noExpr | noFile => exact hp
  | line _ _ ih | fragment _ _ ih | url _ _ _ ih | rule _ _ _ _ ih | skipped _ _ ih =>
    exact ih hp
  | site _ _ ihHere ihOthers | located _ _ _ _ _ ihHere ihOthers
  | included _ _ _ _ _ ihHere ihOthers => exact ihOthers (ihHere hp)

end StyleWeave.Inline
