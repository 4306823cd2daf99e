import StyleWeave.Proofs.Render.Plan

/-!
# How a pass gets to other documents

What the steps do that lead from a document to the ones it imports, each as one equation on the pass
behind it. What becomes of a file that a statement leads to is told by `verdict`, from the documents
being inlined and the files that were included.
-/

namespace StyleWeave.Inline

open Step (exec)

/-- What becomes of a file that a statement leads to. -/
inductive Verdict where
  | skipped
  /-- The file is one of the documents being inlined. -/
  | loop
  | included
  deriving DecidableEq, Repr

/-- A file that was included is skipped by `@require`. Whatever is not skipped must not be among the
documents being inlined. -/
def verdict (stack included : List Path) (kind : ImportKind) (file : Path) : Verdict :=
  if kind = .require && included.contains file then .skipped
  else if stack.contains file then .loop
  else .included

section

variable {included : List Path} {kind : ImportKind} {file : Path}

theorem verdict_eq_skipped_iff (stack : List Path) :
    verdict stack included kind file = .skipped ↔
      kind = .require ∧ included.contains file = true := by
  unfold verdict
  split
  · next hskip => simpa using hskip
  · next hskip =>
    have hnew : ¬ (kind = .require ∧ included.contains file = true) := by simpa using hskip
    split <;> simpa using hnew

theorem verdict_eq_loop_iff {stack : List Path} :
    verdict stack included kind file = .loop ↔
      stack.contains file = true ∧ ¬ (kind = .require ∧ included.contains file = true) := by
  rw [← verdict_eq_skipped_iff stack]
  unfold verdict
  split
  · simp
  · split
    · next hstack => simpa using hstack
    · next hstack => simpa using hstack

theorem verdict_eq_included_iff {stack : List Path} :
    verdict stack included kind file = .included ↔
      stack.contains file = false ∧ ¬ (kind = .require ∧ included.contains file = true) := by
  rw [← verdict_eq_skipped_iff stack]
  unfold verdict
  split
  · simp
  · split
    · next hstack => simpa using hstack
    · next hstack => simpa using hstack

end

/-- The text is that of a document which looks for the files of this name by statements of a
kind. -/
def ImportsAs (options : Options) (source : String) (kind : ImportKind) (name : String) : Prop :=
  ∃ document, StyleWeave.parse source.toList = .ok document ∧
    ∃ site ∈ importSites document options.define, site.statement.kind = kind ∧
      Locates options site name

instance (options : Options) (source : String) (kind : ImportKind) (name : String) :
    Decidable (ImportsAs options source kind name) :=
  match hparse : StyleWeave.parse source.toList with
  | .ok document =>
    decidable_of_iff (∃ site ∈ importSites document options.define,
        site.statement.kind = kind ∧ Locates options site name)
      ⟨fun h => ⟨document, hparse, h⟩, fun ⟨document', hparse', h⟩ => by
        obtain rfl : document = document' := Except.ok.inj (hparse.symm.trans hparse')
        exact h⟩
  | .error _ => isFalse fun ⟨document', hparse', _⟩ => by simp [hparse] at hparse'

/-! ## Failures -/

/-- The failure of an import that leads back to a document being inlined. -/
def importLoop (importer file : Path) : Halt :=
  .failed (.compile ("import loop has been found: " ++ importer.text ++ " imports " ++ file.text))

/-- The failure of a document that cannot be parsed. -/
def malformed (file : Path) (e : ParseError) : Halt :=
  .failed (.compile (file.text ++ ": " ++ e.message))

/-- The failure of an import on line `line` whose path is not known. -/
def notStatic (importer : Path) (line : Nat) : Halt :=
  .failed (.compile (importer.text ++ ":" ++ toString (line + 1) ++
    ": @import path is not statically known"))

/-! ## Steps -/

variable {σ : Type} {env : Setting σ} {nested : Inliner σ} {stack : List Path}

theorem exec_includeFile (importer : Path) (kind : ImportKind) (indent : String) (file : Path)
    (p : Pass σ) :
    exec (includeFile env nested stack importer kind indent file) p =
      match verdict stack p.included kind file with
      | .skipped => (.ok (), p)
      | .loop => (.error (importLoop importer file), p)
      | .included =>
        match env.read file p.search with
        | (.ok text, s) => exec (nested stack file text indent)
            { p with included := p.included ++ [file], search := s }
        | (.error halt, s) =>
          (.error halt, { p with included := p.included ++ [file], search := s }) := by
  unfold includeFile verdict
  rw [Step.exec_bind, Step.exec_get]
  dsimp only
  by_cases hskip : (decide (kind = .require) && p.included.contains file) = true
  · rw [if_pos hskip, if_pos hskip]
    rfl
  · rw [if_neg hskip, if_neg hskip]
    by_cases hloop : stack.contains file = true
    · rw [if_pos hloop, if_pos hloop, Step.exec_bind]
      rfl
    · rw [if_neg hloop, if_neg hloop, Step.exec_bind, Step.exec_modify]
      dsimp only
      unfold readFile
      rw [Step.exec_searching_bind]
      rcases env.read file p.search with ⟨halt | text, s⟩ <;> rfl

theorem exec_includeFile_included (importer : Path) {kind : ImportKind} (indent : String)
    {file : Path} {p : Pass σ} (h : verdict stack p.included kind file = .included) :
    exec (includeFile env nested stack importer kind indent file) p =
      exec (readFile env file >>= fun text => nested stack file text indent)
        { p with included := p.included ++ [file] } := by
  unfold readFile
  rw [exec_includeFile, h, Step.exec_searching_bind]
  dsimp only
  rcases env.read file p.search with ⟨halt | text, s⟩ <;> rfl

theorem exec_includeFiles_single (importer : Path) (kind : ImportKind) (indent : String)
    (file : Path) (p : Pass σ) :
    exec (includeFiles env nested stack importer kind indent [file]) p =
      exec (includeFile env nested stack importer kind indent file) p := by
  unfold includeFiles
  rw [Step.exec_bind]
  rcases exec (includeFile env nested stack importer kind indent file) p with
    ⟨halt | ⟨⟩, q⟩ <;> rfl

theorem exec_importOne (importer : Path) (statement : Import) (indent : String) (expr : Expr)
    (name : Option String) (p : Pass σ) :
    exec (importOne env nested stack importer statement indent expr name) p =
      match urlTarget? expr, name with
      | some target, _ => (.ok (), p.write [.rule indent (urlRule target)])
      | none, none => (.error (notStatic importer statement.line), p)
      | none, some name =>
        if isRule env.options name then (.ok (), p.write [.rule indent (nameRule name)])
        else
          match env.locate importer name p.search with
          | (.ok files, s) =>
            exec (includeFiles env nested stack importer statement.kind indent files)
              { p with search := s }
          | (.error halt, s) => (.error halt, { p with search := s }) := by
  unfold importOne
  cases urlTarget? expr with
  | some target =>
    dsimp only
    rw [append_urlRule, Step.exec_modify, writeRule_eq]
  | none =>
    cases name with
    | none => rfl
    | some name =>
      dsimp only
      by_cases hrule : isRule env.options name = true
      · rw [if_pos hrule, if_pos hrule, append_nameRule, Step.exec_modify, writeRule_eq]
      · rw [if_neg hrule, if_neg hrule]
        unfold locate
        rw [Step.exec_searching_bind]
        rcases env.locate importer name p.search with ⟨halt | files, s⟩ <;> rfl

theorem exec_importOne_located (importer : Path) (statement : Import) (indent : String)
    {expr : Expr} {name : String} (hurl : urlTarget? expr = none)
    (hrule : isRule env.options name = false) (p : Pass σ) :
    exec (importOne env nested stack importer statement indent expr (some name)) p =
      exec (locate env importer name >>=
        includeFiles env nested stack importer statement.kind indent) p := by
  unfold locate
  rw [exec_importOne, hurl, Step.exec_searching_bind]
  dsimp only
  rw [if_neg (by simp [hrule])]
  rcases env.locate importer name p.search with ⟨halt | files, s⟩ <;> rfl

theorem exec_importAll_single (importer : Path) (statement : Import) (indent : String)
    (expr : Expr) (name : Option String) (p : Pass σ) :
    exec (importAll env nested stack importer statement indent [(expr, name)]) p =
      exec (importOne env nested stack importer statement indent expr name) p := by
  unfold importAll
  rw [Step.exec_bind]
  rcases exec (importOne env nested stack importer statement indent expr name) p with
    ⟨halt | ⟨⟩, q⟩ <;> rfl

/-- The pass through a document is what is planned for it, once it is parsed and has its number
among the sources. -/
theorem exec_renderSheet (file : Path) (source indent : String) (p : Pass σ) :
    exec (renderSheet env nested stack file source indent) p =
      match p.parsed.parse source with
      | (.error e, parsed) => (.error (malformed file e), { p with parsed })
      | (.ok document, parsed) =>
        let entered := sourceIndex file { p with parsed }
        let sheet := Sheet.of file source indent entered.1
        exec (performAll env nested (file :: stack) sheet
          (planSheet sheet document env.options.define)) entered.2 := by
  unfold renderSheet
  rw [Step.exec_bind, Step.exec_parseSheet]
  rcases p.parsed.parse source with ⟨e | document, parsed⟩
  · rfl
  · dsimp only
    rw [Step.exec_bind, Step.exec_modifyGet]
    exact exec_renderLines _ _ _ _

end StyleWeave.Inline
