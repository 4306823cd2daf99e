import StyleWeave.Host.Memory
import StyleWeave.Proofs.Host.Constant
import StyleWeave.Proofs.Path.Join
import StyleWeave.Proofs.Render.Lookup

/-!
# What a host in memory answers

A host in memory answers every question in the same way, and equal references alike. So it
designates one path for a reference, or none: the first that it resolves a candidate to. A cache of
its answers is coherent: each reference in it leads to the path that the host designates for it.
-/

namespace StyleWeave.Memory

variable {m : Memory} {dialect : Dialect}

/-- The path that the host resolves the first candidate to of those that it resolves. -/
def designated? (m : Memory) (dialect : Dialect) (key : Reference) : Option Path :=
  (dialect.candidates key.request).findSome? fun request =>
    (m.resolve ⟨key.context, request⟩).toOption

/-- The first of some requests from one context that the host resolves, and its path. -/
def granted? (m : Memory) (context : Path) (requests : List String) : Option (String × Path) :=
  requests.findSome? fun request =>
    (m.resolve ⟨context, request⟩).toOption.map fun target => (request, target)

theorem designated?_eq_granted? (m : Memory) (dialect : Dialect) (key : Reference) :
    m.designated? dialect key =
      (m.granted? key.context (dialect.candidates key.request)).map Prod.snd := by
  unfold designated? granted?
  rw [List.map_findSome?]
  congr 1
  funext request
  rw [Function.comp_apply]
  cases (m.resolve ⟨key.context, request⟩).toOption <;> rfl

/-! ## Equal references -/

theorem candidates_congr (m : Memory) {a b : Reference} (h : a == b) :
    m.candidates a = m.candidates b := by
  obtain ⟨hc, hr⟩ := Reference.beq_iff.1 h
  unfold Memory.candidates
  dsimp only
  rw [hr, Path.normalize_congr (Path.join_congr hc ⟨b.request⟩)]

theorem resolve_congr (m : Memory) {a b : Reference} (h : a == b) :
    (m.resolve a).toOption = (m.resolve b).toOption := by
  unfold resolve
  rw [lookup_congr h, m.candidates_congr h]
  cases m.routes.lookup b with
  | some target => rfl
  | none =>
    cases (m.candidates b).find? fun p => (m.files.lookup p).isSome with
    | some p => rfl
    | none => rfl

theorem granted?_congr (m : Memory) {context context' : Path}
    (h : context.components = context'.components) (requests : List String) :
    m.granted? context requests = m.granted? context' requests := by
  unfold granted?
  congr 1
  funext request
  rw [m.resolve_congr (a := ⟨context, request⟩) (b := ⟨context', request⟩)
    (Reference.beq_iff.2 ⟨h, rfl⟩)]

theorem designated?_congr (m : Memory) (dialect : Dialect) {a b : Reference} (h : a == b) :
    m.designated? dialect a = m.designated? dialect b := by
  obtain ⟨hc, hr⟩ := Reference.beq_iff.1 h
  rw [designated?_eq_granted?, designated?_eq_granted?, hr, m.granted?_congr hc]

/-- A host in memory keeps to its answers. -/
theorem resolvesAlike (m : Memory) : m.host.ResolvesAlike := by
  intro log log' a b hab
  show (m.resolve a).toOption.map _ = (m.resolve b).toOption.map _
  rw [m.resolve_congr hab]

theorem readsAlike (m : Memory) : m.host.ReadsAlike := by
  intro log log' p q hpq
  show (m.read p).toOption = (m.read q).toOption
  have htext : m.text? p = m.text? q := by
    unfold text?
    rw [Path.normalize_congr (Path.beq_iff.1 hpq)]
  unfold read
  rw [htext]
  cases m.text? q <;> rfl

/-! ## Asking in turn -/

/-- What the host in memory grants is the first of the requests that it resolves. -/
theorem granted?_of_grants {context : Path} {requests : List String} {log log' : Log}
    {request : String} {target : Path}
    (h : m.host.Grants context requests log request target log') :
    m.granted? context requests = some (request, target) := by
  induction h with
  | here first =>
    have hr : m.resolve ⟨context, _⟩ = .ok _ := congrArg Prod.fst first
    simp [granted?, hr, Except.toOption]
  | there first _ ih =>
    have hr : m.resolve ⟨context, _⟩ = .error _ := congrArg Prod.fst first
    simpa [granted?, hr, Except.toOption] using ih

/-- If the host in memory is asked, it grants the first of the requests that it resolves. -/
theorem exists_grants {context : Path} {requests : List String} {request : String} {target : Path}
    (h : m.granted? context requests = some (request, target)) (log : Log) :
    ∃ log', m.host.Grants context requests log request target log' := by
  induction requests generalizing log with
  | nil => simp [granted?] at h
  | cons first rest ih =>
    unfold granted? at h
    rw [List.findSome?_cons] at h
    cases hr : m.resolve ⟨context, first⟩ with
    | ok found =>
      rw [hr] at h
      obtain ⟨rfl, rfl⟩ := Prod.mk.inj (Option.some.inj h)
      exact ⟨_, .here (Prod.ext hr rfl)⟩
    | error failure =>
      rw [hr] at h
      obtain ⟨log', hgrants⟩ := ih h (m.host.resolve log ⟨context, first⟩).2
      exact ⟨log', .there (Prod.ext hr rfl) hgrants⟩

/-- If the host in memory refuses all requests, it resolves none of them, and its failures say
so. -/
theorem granted?_of_refuses {context : Path} {requests : List String} {log log' : Log}
    {failures : List Failure} (h : m.host.Refuses context requests log failures log') :
    m.granted? context requests = none ∧
      failures = requests.map fun request => cannotResolve ⟨context, request⟩ := by
  induction h with
  | nil => exact ⟨rfl, rfl⟩
  | cons first _ ih =>
    have hr : m.resolve ⟨context, _⟩ = .error _ := congrArg Prod.fst first
    obtain ⟨hnone, hfailures⟩ := ih
    constructor
    · simpa [granted?, hr, Except.toOption] using hnone
    · rw [List.map_cons, hfailures]
      congr 1
      unfold resolve at hr
      split at hr
      · cases hr
      · split at hr
        · cases hr
        · exact (Except.error.inj hr).symm

theorem resolve_of_granted? {context : Path} {requests : List String} {request : String}
    {target : Path} (h : m.granted? context requests = some (request, target)) :
    request ∈ requests ∧ (m.resolve ⟨context, request⟩).toOption = some target := by
  obtain ⟨request', hmem, hsome⟩ := List.exists_of_findSome?_eq_some h
  obtain ⟨target', htarget, heq⟩ := Option.map_eq_some_iff.1 hsome
  obtain ⟨rfl, rfl⟩ := Prod.mk.inj heq
  exact ⟨hmem, htarget⟩

theorem granted?_cons_of_resolve {context : Path} {request : String} {rest : List String}
    {target : Path} (h : (m.resolve ⟨context, request⟩).toOption = some target) :
    m.granted? context (request :: rest) = some (request, target) := by
  rw [granted?, List.findSome?_cons, h]
  rfl

/-- In a closed dialect, the path of a reference is also that of the candidate which the host has
granted for it. -/
theorem designated?_of_granted? (hd : dialect.Closed) {context : Path} {request candidate : String}
    {target : Path}
    (h : m.granted? context (dialect.candidates request) = some (candidate, target)) :
    m.designated? dialect ⟨context, candidate⟩ = some target := by
  obtain ⟨hmem, hr⟩ := resolve_of_granted? h
  unfold designated?
  rw [hd.candidates hmem]
  simp [hr]

/-- In a closed dialect, the path of a request with the extension is that of the request. -/
theorem designated?_of_withExtension (hd : dialect.Closed) {context target : Path}
    {request : String} (hr : dialect.isLiteralRequest request = false)
    (h : m.designated? dialect ⟨context, dialect.withExtension request⟩ = some target) :
    m.designated? dialect ⟨context, request⟩ = some target := by
  unfold designated? at h ⊢
  rw [Dialect.candidates, if_pos (hd request)] at h
  rw [Dialect.candidates, if_neg (by simp [hr])]
  dsimp only at h ⊢
  rw [List.findSome?_cons] at h ⊢
  cases hfound : (m.resolve ⟨context, dialect.withExtension request⟩).toOption with
  | some found => rwa [hfound] at h
  | none =>
    rw [hfound] at h
    simp at h

/-- In a closed dialect, the path of an import's path is that of its name, if the name is complete
exactly if it is that of a document. -/
theorem designated?_of_fileReference {options : Options} (hd : options.dialect.Closed)
    {importer target : Path} {name : String} (hhost : options.dialect.isHostReference name = true)
    (hregular : options.dialect.isDialectFile ⟨name⟩ =
      options.dialect.isLiteralRequest (options.requestFor name))
    (h : m.designated? options.dialect (options.fileReference importer name) = some target) :
    m.designated? options.dialect (options.reference importer name) = some target := by
  by_cases hdialect : options.dialect.isDialectFile ⟨name⟩ = true
  · have hsame : options.fileReference importer name = options.reference importer name :=
      options.fileReference_of_dialectFile hdialect
    rw [hsame] at h
    exact h
  · have hshort : options.dialect.isDialectFile ⟨name⟩ = false := by simpa using hdialect
    have hliteral : options.dialect.isLiteralRequest (options.requestFor name) = false :=
      hregular.symm.trans hshort
    have hlonger : options.fileReference importer name = ⟨options.importContext importer,
        options.dialect.withExtension (options.requestFor name)⟩ :=
      options.fileReference_of_not_dialectFile hhost hshort
    rw [hlonger] at h
    exact designated?_of_withExtension hd hliteral h

/-- What is looked up with nothing cached. -/
def lookup (m : Memory) (options : Options) : Lookup :=
  ⟨m.tree, {}, options⟩

/-! ## Caches -/

/-- Each reference in the cache leads to the path that the host designates for it. -/
def Coherent (m : Memory) (dialect : Dialect) (cache : Cache) : Prop :=
  ∀ key target, cache.find? key = some target → m.designated? dialect key = some target

theorem coherent_empty (m : Memory) (dialect : Dialect) : m.Coherent dialect {} := by
  intro key target h
  simp [Cache.find?] at h

theorem Coherent.growth (hd : dialect.Closed) {c c' : Cache} (hc : m.Coherent dialect c)
    (h : Cache.Growth m.host dialect c c') : m.Coherent dialect c' := by
  refine h.forall_find? hc fun key log log' request target granted k hk => ?_
  have hg := granted?_of_grants granted
  rcases hk with hk | hk
  · rw [m.designated?_congr dialect hk, designated?_eq_granted?, hg]
    rfl
  · rw [m.designated?_congr dialect hk, designated?_of_granted? hd hg]

/-- The host grants each reference in the cache, and the candidate that it grants is cached too. -/
def Grounded (m : Memory) (dialect : Dialect) (cache : Cache) : Prop :=
  ∀ key, cache.contains key = true → ∃ request target,
    m.granted? key.context (dialect.candidates key.request) = some (request, target) ∧
      cache.contains ⟨key.context, request⟩ = true

theorem Grounded.growth (hd : dialect.Closed) {c c' : Cache} (hc : m.Grounded dialect c)
    (h : Cache.Growth m.host dialect c c') : m.Grounded dialect c' :=
  Host.Grounded.growth (s := {}) m.resolvesAlike hd hc h

theorem grounded_empty (m : Memory) (dialect : Dialect) : m.Grounded dialect {} := by
  intro key h
  simp [Cache.contains, Cache.find?] at h

end StyleWeave.Memory
