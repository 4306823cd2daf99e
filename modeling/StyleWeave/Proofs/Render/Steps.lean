import StyleWeave.Render.Inline

/-!
# Steps of a pass

What each kind of step makes of a pass (`Step.exec`), what the kept documents of a pass are worth
(`ParseCache.Valid`), and which imports a document looks for (`Imports`).
-/

namespace StyleWeave.Inline

/-! ## Runs of steps -/

namespace Step

variable {σ α β : Type}

/-- The result of a step and the pass behind it. -/
def exec (x : Step σ α) (p : Pass σ) : Except Halt α × Pass σ :=
  x.run.run p

@[simp] theorem exec_pure (a : α) (p : Pass σ) : exec (pure a) p = (.ok a, p) := rfl

@[simp] theorem exec_throw (h : Halt) (p : Pass σ) :
    exec (throw h : Step σ α) p = (.error h, p) := rfl

@[simp] theorem exec_get (p : Pass σ) : exec get p = (.ok p, p) := rfl

@[simp] theorem exec_set (q p : Pass σ) : exec (set q) p = (.ok (), q) := rfl

@[simp] theorem exec_modify (f : Pass σ → Pass σ) (p : Pass σ) :
    exec (modify f) p = (.ok (), f p) := rfl

@[simp] theorem exec_modifyGet (f : Pass σ → α × Pass σ) (p : Pass σ) :
    exec (modifyGet f) p = (.ok (f p).1, (f p).2) := rfl

theorem exec_bind (x : Step σ α) (f : α → Step σ β) (p : Pass σ) :
    exec (x >>= f) p = match exec x p with
      | (.ok a, q) => exec (f a) q
      | (.error h, q) => (.error h, q) := by
  show (ExceptT.bindCont f (exec x p).1).run (exec x p).2 = _
  rcases exec x p with ⟨h | a, q⟩ <;> rfl

theorem exec_searching (act : σ → Except Halt α × σ) (p : Pass σ) :
    exec (searching act) p = ((act p.search).1, { p with search := (act p.search).2 }) := by
  unfold searching
  rw [exec_bind, exec_get]
  dsimp only
  rcases act p.search with ⟨h | a, s⟩ <;> rfl

theorem exec_searching_bind (act : σ → Except Halt α × σ) (f : α → Step σ β) (p : Pass σ) :
    exec (searching act >>= f) p = match act p.search with
      | (.ok a, s) => exec (f a) { p with search := s }
      | (.error h, s) => (.error h, { p with search := s }) := by
  rw [exec_bind, exec_searching]
  rcases act p.search with ⟨h | a, s⟩ <;> rfl

theorem exec_parseSheet (file : Path) (source : String) (p : Pass σ) :
    exec (parseSheet file source) p =
      (match (p.parsed.parse source).1 with
        | .ok document => .ok document
        | .error e => .error (.failed (.compile (file.text ++ ": " ++ e.message))),
      { p with parsed := (p.parsed.parse source).2 }) := by
  unfold parseSheet
  rw [exec_bind, exec_get]
  dsimp only
  rcases p.parsed.parse source with ⟨e | document, parsed⟩ <;> rfl

end Step

/-! ## Parsed documents -/

namespace ParseCache

/-- What is kept of a text is what parsing it gives. -/
def Valid (c : ParseCache) : Prop :=
  ∀ source document, c.documents.lookup source = some document →
    StyleWeave.parse source.toList = .ok document

theorem valid_empty : Valid {} := by
  intro source document h
  simp at h

theorem Valid.parse_eq {c : ParseCache} (h : c.Valid) (source : String) :
    (c.parse source).1 = StyleWeave.parse source.toList := by
  unfold parse
  cases hc : c.documents.lookup source with
  | some document => exact (h source document hc).symm
  | none => cases hp : StyleWeave.parse source.toList <;> rfl

theorem Valid.parse {c : ParseCache} (h : c.Valid) (source : String) :
    (c.parse source).2.Valid := by
  unfold ParseCache.parse
  cases hc : c.documents.lookup source with
  | some document => exact h
  | none =>
    cases hp : StyleWeave.parse source.toList with
    | error e => exact h
    | ok document =>
      intro source' document' h'
      rw [List.lookup_append] at h'
      cases hl : c.documents.lookup source' with
      | some kept =>
        rw [hl] at h'
        exact h source' document' (by simpa [hl] using h')
      | none =>
        rw [hl, Option.none_or, List.lookup_cons] at h'
        split at h'
        · next heq => rw [eq_of_beq heq, hp, Option.some.inj h']
        · simp at h'

end ParseCache

/-! ## Which imports are looked for -/

/-- The statement looks for the files of this name. -/
def Locates (options : Options) (site : ImportSite) (name : String) : Prop :=
  ∃ expr, (expr, some name) ∈ site.statement.exprs.zip site.names ∧ urlTarget? expr = none ∧
    isRule options name = false

instance (options : Options) (site : ImportSite) (name : String) :
    Decidable (Locates options site name) :=
  decidable_of_iff (∃ e ∈ site.statement.exprs.zip site.names, e.2 = some name ∧
      urlTarget? e.1 = none ∧ isRule options name = false)
    ⟨fun ⟨e, he, hname, hurl⟩ => ⟨e.1, hname ▸ he, hurl⟩,
      fun ⟨expr, he, hurl⟩ => ⟨(expr, some name), he, rfl, hurl⟩⟩

/-- The text is that of a document which looks for the files of this name. -/
def Imports (options : Options) (source name : String) : Prop :=
  ∃ document, StyleWeave.parse source.toList = .ok document ∧
    ∃ site ∈ importSites document options.define, Locates options site name

instance (options : Options) (source name : String) : Decidable (Imports options source name) :=
  match hparse : StyleWeave.parse source.toList with
  | .ok document =>
    decidable_of_iff (∃ site ∈ importSites document options.define, Locates options site name)
      ⟨fun h => ⟨document, hparse, h⟩, fun ⟨document', hparse', h⟩ => by
        obtain rfl : document = document' := Except.ok.inj (hparse.symm.trans hparse')
        exact h⟩
  | .error _ => isFalse fun ⟨document', hparse', _⟩ => by simp [hparse] at hparse'

/-- The whole pass that a render of a document makes. -/
def passThrough {σ : Type} (env : Setting σ) (depth : Nat) (file : Path) (source : String) (s : σ)
    (parsed : ParseCache) : Except Halt Unit × Pass σ :=
  Step.exec (inline env depth [] file source "") { search := s, parsed }

/-! ## Outcomes of passes -/

section

variable {σ : Type} {options : Options} {file : Path} {p : Pass σ} {result : Except Halt Unit}

theorem outcome_eq_rendered_iff {rendered : Rendered} :
    outcome options file p result = some (.ok (.rendered rendered)) ↔
      result = .ok () ∧ rendered = finish options file p := by
  rcases result with (pending | failure | _) | ⟨⟩ <;> simp [outcome, eq_comm]

theorem outcome_eq_needsResolution_iff {pending : Pending} :
    outcome options file p result = some (.ok (.needsResolution pending)) ↔
      result = .error (.pending pending) := by
  rcases result with (pending | failure | _) | ⟨⟩ <;> simp [outcome]

theorem outcome_eq_error_iff {failure : Failure} :
    outcome options file p result = some (.error failure) ↔ result = .error (.failed failure) := by
  rcases result with (pending | failure' | _) | ⟨⟩ <;> simp [outcome]

theorem outcome_congr {τ : Type} {options' : Options} {q : Pass τ} {result' : Except Halt Unit}
    (hresult : result = result') (hfinish : finish options file p = finish options' file q) :
    outcome options file p result = outcome options' file q result' := by
  subst hresult
  rcases result with (pending | failure | _) | ⟨⟩ <;> simp [outcome, hfinish]

end

theorem render_eq (depth : Nat) (parsed : ParseCache) (file : Path) (source : String)
    (options : Options) (locator : Locator PathSet) (found : PathSet) :
    (renderer depth).render parsed file source options locator found =
      let pass := passThrough (.ofLocator options locator) depth file source found parsed
      (outcome options file pass.2 pass.1).map fun result =>
        ⟨result, pass.2.search, pass.2.parsed⟩ := by
  show (outcome options file _ _).bind (fun result => some _) = _
  rw [Option.map_eq_bind]
  rfl

end StyleWeave.Inline
