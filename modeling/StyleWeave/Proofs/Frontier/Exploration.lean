import StyleWeave.Proofs.Frontier.Coverage
import StyleWeave.Proofs.Host.Constant
import StyleWeave.Proofs.Path.Parent

/-!
# Exploring an import graph

A host that keeps to its answers spans an import graph from a document: the imports that a scan
finds in a document are references, and a reference leads to the document that the host designates
for it. `Explored` says that nothing of this graph gets lost on the way. Each import of a document
whose turn has come is queued, cached or refused by the host, and each document that a cached
reference leads to waits or was visited. All calls on a frontier keep it, and when nothing waits
any more, all imports of the visited documents are cached or refused (`Explored.settled`).
-/

namespace StyleWeave

variable {σ : Type}

/-- Equal paths have the same imports, except for the spelling of their context. -/
theorem mem_scanImports_congr {p q : Path} (h : p == q) {source : String} {tables : List Table}
    {dialect : Dialect} {i : FoundImport} (hi : i ∈ scanImports p source tables dialect) :
    i.context = p.directory ∧
      FoundImport.mk q.directory i.name i.kind ∈ scanImports q source tables dialect := by
  unfold scanImports at hi ⊢
  rw [dialect.isDialectFile_congr h] at hi
  by_cases hfile : (!dialect.isDialectFile q) = true
  · rw [if_pos hfile] at hi
    simp at hi
  · rw [if_neg hfile] at hi ⊢
    cases hparse : parse source.toList with
    | error e => simp [hparse] at hi
    | ok document =>
      rw [hparse] at hi
      obtain ⟨found, hfound, rfl⟩ := List.mem_map.1 hi
      exact ⟨rfl, List.mem_map.2 ⟨found, hfound, rfl⟩⟩

/-! ## Import graphs -/

/-- The import graph that a host spans from a document, by what it answers in some state. -/
structure ImportGraph (σ : Type) where
  host : Host σ
  state : σ
  options : Options
  /-- The document at which an exploration starts, with its text if that is given. -/
  root : Visit

namespace ImportGraph

variable (g : ImportGraph σ) {file file' : Path} {key key' : Reference}

/-- The text of a document: what is given for the root, and what the host reads otherwise. -/
def text? (file : Path) : Option String :=
  (if file == g.root.file then g.root.text else none).or (g.host.read g.state file).1.toOption

/-- A scan of the document finds an import that makes the reference. -/
def Mentions (file : Path) (key : Reference) : Prop :=
  ∃ text, g.text? file = some text ∧
    ∃ i ∈ scanImports file text g.options.scanTables g.options.dialect,
      key = ⟨file.directory, g.options.requestFor i.name⟩

/-- The first candidate of a reference that the host resolves, and its path. -/
def grant? (key : Reference) : Option (String × Path) :=
  g.host.granted? g.state key.context (g.options.dialect.candidates key.request)

/-- The host answers the same about equal paths, whenever it is asked. -/
structure Constant : Prop where
  resolves : g.host.ResolvesAlike
  reads : g.host.ReadsAlike

variable {g}

theorem Constant.text?_congr (hg : g.Constant) (h : file == file') :
    g.text? file = g.text? file' := by
  unfold text?
  rw [BEq.congr_left h, hg.reads g.state g.state file file' h]

theorem Constant.mentions_congr (hg : g.Constant) (h : file == file')
    (hm : g.Mentions file key) : ∃ key', g.Mentions file' key' ∧ key == key' := by
  obtain ⟨text, htext, i, hi, rfl⟩ := hm
  rw [hg.text?_congr h] at htext
  obtain ⟨-, hi'⟩ := mem_scanImports_congr h hi
  refine ⟨⟨file'.directory, g.options.requestFor i.name⟩, ⟨text, htext, _, hi', rfl⟩, ?_⟩
  exact Reference.beq_iff.2 ⟨Path.beq_iff.1 (Path.directory_congr h), rfl⟩

theorem Constant.grant?_eq_none (hg : g.Constant) (h : key == key') (hnone : g.grant? key = none) :
    g.grant? key' = none := by
  obtain ⟨hcontext, hrequest⟩ := Reference.beq_iff.1 h
  unfold grant? at hnone ⊢
  rw [← hrequest]
  exact hg.resolves.granted?_eq_none (Path.beq_iff.2 hcontext) hnone g.state

end ImportGraph

namespace Frontier

variable {host : Host σ} {f f' f'' : Frontier} {s s' : σ} {file : Path} {key key' : Reference}

/-! ## Documents that are known -/

/-- The documents that were visited or wait. -/
def documents (f : Frontier) : List Path :=
  f.visited ++ f.visits.map Visit.file

theorem wantsVisit_eq (f : Frontier) (file : Path) :
    f.wantsVisit file = (f.options.prefetch && f.options.dialect.isDialectFile file &&
      !f.documents.contains file) := by
  have hany : (f.visits.any fun v => v.file == file) =
      (f.visits.map Visit.file).contains file := by
    rw [List.contains_eq_any_beq, List.any_map]
    congr 1
    funext v
    exact Path.beq_comm v.file file
  have hcontains : f.documents.contains file =
      (f.visited.contains file || (f.visits.map Visit.file).contains file) := by
    rw [documents, List.contains_eq_any_beq, List.any_append, ← List.contains_eq_any_beq,
      ← List.contains_eq_any_beq]
  rw [hcontains, Bool.not_or, ← Bool.and_assoc, wantsVisit, isVisited, hany]

theorem contains_congr {file file' : Path} (h : file == file') (files : List Path) :
    files.contains file = files.contains file' := by
  rw [List.contains_eq_any_beq, List.contains_eq_any_beq]
  congr 1
  funext other
  exact BEq.congr_left h

theorem wantsVisit_congr (f : Frontier) {file file' : Path} (h : file == file') :
    f.wantsVisit file = f.wantsVisit file' := by
  rw [wantsVisit_eq, wantsVisit_eq, f.options.dialect.isDialectFile_congr h,
    contains_congr h f.documents]

theorem isVisited_congr (f : Frontier) {file file' : Path} (h : file == file') :
    f.isVisited file = f.isVisited file' :=
  contains_congr h f.visited

theorem isDialectFile_of_wantsVisit (h : f.wantsVisit file = true) :
    f.options.dialect.isDialectFile file = true := by
  rw [wantsVisit_eq, Bool.and_eq_true, Bool.and_eq_true] at h
  exact h.1.2

theorem documents_contains_iff {file : Path} :
    f.documents.contains file = true ↔
      f.isVisited file = true ∨ ∃ v ∈ f.visits, file == v.file := by
  rw [documents, isVisited, List.contains_eq_any_beq, List.any_append, Bool.or_eq_true,
    ← List.contains_eq_any_beq, List.any_map, List.any_eq_true]
  rfl

/-- `f'` has the options of `f`, and all documents that were visited or wait in `f`. -/
structure Onward (f f' : Frontier) : Prop where
  options : f'.options = f.options
  documents : ∀ file, f.documents.contains file = true → f'.documents.contains file = true

theorem Onward.refl (f : Frontier) : Onward f f :=
  ⟨rfl, fun _ hfile => hfile⟩

theorem Onward.trans (h : Onward f f') (h' : Onward f' f'') : Onward f f'' :=
  ⟨h'.options.trans h.options, fun file hfile => h'.documents file (h.documents file hfile)⟩

theorem Onward.wantsVisit (h : Onward f f') (hf : f.wantsVisit file = false) :
    f'.wantsVisit file = false := by
  rw [wantsVisit_eq] at hf ⊢
  rw [h.options]
  by_cases hknown : f.documents.contains file = true
  · rw [h.documents file hknown, Bool.not_true, Bool.and_false]
  · have hfile : (f.options.prefetch && f.options.dialect.isDialectFile file) = false := by
      simpa [hknown] using hf
    rw [hfile, Bool.false_and]

theorem onward_enqueueVisit (f : Frontier) (file : Path) (text : Option String) :
    Onward f (f.enqueueVisit file text) := by
  refine ⟨enqueueVisit_options f file text, fun other hother => ?_⟩
  rw [documents_contains_iff] at hother ⊢
  unfold isVisited at hother ⊢
  rw [enqueueVisit_visited]
  refine hother.imp_right ?_
  rintro ⟨v, hv, heq⟩
  refine ⟨v, ?_, heq⟩
  unfold enqueueVisit
  split
  · exact List.mem_append_left _ hv
  · exact hv

theorem wantsVisit_enqueueVisit (f : Frontier) (file : Path) (text : Option String) :
    (f.enqueueVisit file text).wantsVisit file = false := by
  by_cases hwants : f.wantsVisit file = true
  · rw [wantsVisit_eq]
    have hknown : (f.enqueueVisit file text).documents.contains file = true :=
      List.contains_iff_exists_mem_beq.2
        ⟨file, by simp [documents, enqueueVisit, hwants], BEq.refl _⟩
    simp [hknown]
  · have hrest : f.wantsVisit file = false := by simpa using hwants
    exact (onward_enqueueVisit f file text).wantsVisit hrest

theorem mem_visits_enqueueVisit {v : Visit} {text : Option String}
    (hv : v ∈ (f.enqueueVisit file text).visits) :
    v ∈ f.visits ∨ v = ⟨file, text⟩ ∧ f.wantsVisit file = true := by
  unfold enqueueVisit at hv
  split at hv
  · next hwants =>
    rcases List.mem_append.1 hv with hv | hv
    · exact Or.inl hv
    · exact Or.inr ⟨List.mem_singleton.1 hv, hwants⟩
  · exact Or.inl hv

theorem onward_addDependencies (f : Frontier) (files : List Path) :
    Onward f (f.addDependencies files) := by
  induction files generalizing f with
  | nil => exact .refl f
  | cons file rest ih =>
    have hfirst := onward_enqueueVisit f file none
    have hdependency : Onward f (f.addDependency file) := ⟨hfirst.options, hfirst.documents⟩
    exact hdependency.trans (ih (f.addDependency file))

theorem wantsVisit_addDependencies {files : List Path} (hfile : file ∈ files) (f : Frontier) :
    (f.addDependencies files).wantsVisit file = false := by
  induction files generalizing f with
  | nil => simp at hfile
  | cons first rest ih =>
    rcases List.mem_cons.1 hfile with rfl | hfile
    · have hqueued := wantsVisit_enqueueVisit f file none
      exact (onward_addDependencies (f.addDependency file) rest).wantsVisit hqueued
    · exact ih hfile (f.addDependency first)

section Record

variable (f : Frontier) (key : Reference) (request : String) (target : Path)

/-- What a resolution records, before the document that it leads to is queued. -/
def recorded (f : Frontier) (key : Reference) (request : String) (target : Path) : Frontier :=
  { f with
    cache := f.cache.learn key request target
    ledger.resolved := f.ledger.resolved + 1
    dependencies := f.dependencies.insert target }

theorem record_eq : f.record key request target =
    (f.recorded key request target).enqueueVisit target none :=
  rfl

theorem onward_record : Onward f (f.record key request target) := by
  have honward := onward_enqueueVisit (f.recorded key request target) target none
  exact ⟨honward.options, honward.documents⟩

theorem wantsVisit_record : (f.record key request target).wantsVisit target = false :=
  wantsVisit_enqueueVisit (f.recorded key request target) target none

theorem record_visited : (f.record key request target).visited = f.visited :=
  enqueueVisit_visited (f.recorded key request target) target none

variable {f key request target}

theorem mem_visits_record {v : Visit} (hv : v ∈ (f.record key request target).visits) :
    v ∈ f.visits ∨ v = ⟨target, none⟩ ∧ f.wantsVisit target = true := by
  rw [record_eq] at hv
  have hnew := mem_visits_enqueueVisit hv
  exact hnew

end Record

theorem Resolution.onward {rest : List Query} {speculative : Bool}
    {result : Except Failure (Option Path)}
    (h : Resolution host key speculative { f with queries := rest } s result f' s') :
    Onward f f' := by
  cases h with
  | cached => exact ⟨rfl, fun _ hfile => hfile⟩
  | dropped => exact ⟨rfl, fun _ hfile => hfile⟩
  | refused => exact ⟨rfl, fun _ hfile => hfile⟩
  | @granted _ request target ledger =>
    have hrecord := onward_record { f with queries := rest, ledger } key request target
    exact ⟨hrecord.options, hrecord.documents⟩

/-! ## References that are noticed -/

theorem Noticed.congr (h : f.Noticed key) (hkey : key == key') : f.Noticed key' := by
  rcases h with hcached | ⟨q, hq, hqkey⟩
  · exact Or.inl ((f.cache.contains_congr hkey).symm.trans hcached)
  · exact Or.inr ⟨q, hq, BEq.trans hqkey hkey⟩

/-! ## Scans of the waiting documents -/

/-- All documents that wait are visited, and those whose turn had not come before are scanned. -/
theorem takeVisits_spec (visits : List Visit) (f : Frontier) :
    (takeVisits visits f).2 =
        { f with visits := [], visited := f.visited ++ (takeVisits visits f).1.map Visit.file } ∧
      (takeVisits visits f).1 ⊆ visits ∧
      ∀ v ∈ visits, (takeVisits visits f).2.isVisited v.file = true := by
  induction visits generalizing f with
  | nil => simp [takeVisits]
  | cons v rest ih =>
    by_cases hvisited : f.isVisited v.file = true
    · obtain ⟨heq, hsub, hall⟩ := ih f
      rw [takeVisits, if_pos hvisited]
      refine ⟨heq, List.Subset.trans hsub (List.subset_cons_self v rest), fun w hw => ?_⟩
      rcases List.mem_cons.1 hw with rfl | hw
      · rw [heq]
        unfold isVisited at hvisited ⊢
        rw [List.contains_eq_any_beq, List.any_append, ← List.contains_eq_any_beq, hvisited,
          Bool.true_or]
      · exact hall w hw
    · obtain ⟨heq, hsub, hall⟩ := ih { f with visited := f.visited ++ [v.file] }
      rw [takeVisits, if_neg hvisited]
      dsimp only
      refine ⟨by rw [heq]; simp, List.cons_subset_cons v hsub, fun w hw => ?_⟩
      rcases List.mem_cons.1 hw with rfl | hw
      · rw [heq]
        exact List.contains_iff_exists_mem_beq.2 ⟨w.file, by simp, BEq.refl _⟩
      · exact hall w hw

/-- What a host that keeps to its answers reads for the documents of a batch. -/
theorem scanBatch_eq (hhost : host.ReadsAlike) (s₀ : σ) (options : Options) (batch : List Visit)
    (s : σ) :
    (scanBatch host options batch s).1 = batch.map fun v =>
      (v.file, (v.text.or (host.read s₀ v.file).1.toOption).map
        (scanImports v.file · options.scanTables options.dialect)) := by
  induction batch generalizing s with
  | nil => rfl
  | cons v rest ih =>
    unfold scanBatch
    rw [List.map_cons]
    dsimp only
    rw [ih]
    congr 2
    unfold Host.scanFile
    cases v.text with
    | some text => rfl
    | none =>
      rw [Option.none_or, ← hhost s s₀ v.file v.file (BEq.refl _)]
      rcases host.read s v.file with ⟨failure | text, s₁⟩ <;> rfl

/-- What the scans find is taken over once all documents that wait are visited. -/
theorem flushVisits_eq (host : Host σ) (f : Frontier) (s : σ) :
    (flushVisits host f s).1 =
      (scanBatch host f.options (takeVisits f.visits f).1 s).1.foldl takeScan { f with
        visits := [], visited := f.visited ++ (takeVisits f.visits f).1.map Visit.file } := by
  show (scanBatch host (takeVisits f.visits f).2.options (takeVisits f.visits f).1 s).1.foldl
    takeScan (takeVisits f.visits f).2 = _
  rw [(takeVisits_spec f.visits f).1]

theorem flushVisits_visited (host : Host σ) (f : Frontier) (s : σ) :
    (flushVisits host f s).1.visited =
      f.visited ++ (takeVisits f.visits f).1.map Visit.file := by
  rw [flushVisits_eq]
  exact (noted_foldl_takeScan _ _).visited

/-- The documents that were visited or wait have been visited after a scan. -/
theorem isVisited_flushVisits (host : Host σ) (hfile : f.documents.contains file = true) (s : σ) :
    (flushVisits host f s).1.isVisited file = true := by
  have hvisited := flushVisits_visited host f s
  obtain ⟨hspec, -, hall⟩ := takeVisits_spec f.visits f
  rw [documents_contains_iff] at hfile
  unfold isVisited
  rw [hvisited]
  rcases hfile with hfile | ⟨v, hv, heq⟩
  · obtain ⟨other, hother, heq⟩ := List.contains_iff_exists_mem_beq.1 hfile
    exact List.contains_iff_exists_mem_beq.2 ⟨other, List.mem_append_left _ hother, heq⟩
  · have hturn := hall v hv
    rw [hspec] at hturn
    obtain ⟨other, hother, heq'⟩ := List.contains_iff_exists_mem_beq.1 hturn
    exact List.contains_iff_exists_mem_beq.2 ⟨other, hother, BEq.trans heq heq'⟩

theorem onward_flushVisits (host : Host σ) (f : Frontier) (s : σ) :
    Onward f (flushVisits host f s).1 := by
  refine ⟨(flushVisits_spec host f s).options, fun file hfile => ?_⟩
  exact documents_contains_iff.2 (Or.inl (isVisited_flushVisits host hfile s))

/-- A drain loses no document, whether it fails or not. -/
theorem Drains.onward {result : Except Failure Unit} (h : Drains host f s result f' s') :
    Onward f f' := by
  refine h.keeps (P := fun f' => Onward f f') ?_ ?_ (.refl f)
  · exact fun s hf => hf.trans (onward_flushVisits host _ s)
  · exact fun hf _ hr => hf.trans hr.onward

theorem Resolution.visited {rest : List Query} {speculative : Bool}
    {result : Except Failure (Option Path)}
    (h : Resolution host key speculative { f with queries := rest } s result f' s') :
    f'.visited = f.visited := by
  cases h with
  | cached => rfl
  | dropped => rfl
  | refused => rfl
  | granted => exact record_visited ..

/-- Once a drain has answered, the documents that were visited or waited have been visited. -/
theorem Drains.isVisited {result : Except Failure Unit} (h : Drains host f s result f' s')
    (hfile : f.documents.contains file = true) : f'.isVisited file = true := by
  have hlayer : ∀ {f f₁ f₂ : Frontier} {s s₁ s₂ : σ} {result : Except Failure Unit},
      f.documents.contains file = true → flushVisits host f s = (f₁, s₁) →
      resolveQueue host f₁.queries f₁ s₁ = (result, f₂, s₂) → f₂.isVisited file = true := by
    intro f f₁ f₂ s s₁ s₂ result hfile scanned resolved
    have h₁ := isVisited_flushVisits host hfile s
    rw [scanned] at h₁
    have h₂ : (resolveQueue host f₁.queries f₁ s₁).2.1.isVisited file = true := by
      refine resolveQueue_keeps (P := fun f _ => f.isVisited file = true) ?_ h₁ rfl
      intro f f' s s' q rest result hf _ heq
      rw [Frontier.isVisited, (resolution_of_resolve heq).visited]
      exact hf
    rwa [resolved] at h₂
  induction h with
  | idle idle =>
    rcases documents_contains_iff.1 hfile with hvisited | ⟨v, hv, -⟩
    · exact hvisited
    · simp only [hasPending, Bool.or_eq_false_iff, Bool.not_eq_false', List.isEmpty_iff] at idle
      rw [idle.1] at hv
      cases hv
  | failed _ scanned resolved => exact hlayer hfile scanned resolved
  | layer _ scanned resolved _ ih =>
    exact ih (documents_contains_iff.2 (Or.inl (hlayer hfile scanned resolved)))

/-! ## Explored -/

/-- Nothing of the import graph that was met so far is lost: the root is known, the documents that
wait are read as the graph says, each reference that a visited document makes is queued or cached
or refused by the host, and each document that a cached reference leads to is known. All documents
are of the dialect. -/
structure Explored (g : ImportGraph σ) (f : Frontier) : Prop where
  options : f.options = g.options
  dialect : ∀ file ∈ f.documents, g.options.dialect.isDialectFile file = true
  root : f.wantsVisit g.root.file = false
  texts : ∀ v ∈ f.visits, v.text.or (g.host.read g.state v.file).1.toOption = g.text? v.file
  mentioned : ∀ file key, f.isVisited file = true → g.Mentions file key →
    f.Noticed key ∨ g.grant? key = none
  leads : ∀ key target, f.cache.find? key = some target → f.wantsVisit target = false

variable {g : ImportGraph σ}

/-- What keeps the frontier explored: documents that were not known may come to wait, references
stay noticed or are refused, and all that cached references lead to is known. -/
theorem Explored.onward (h : Explored g f) (ho : Onward f f') (hvisited : f'.visited = f.visited)
    (hvisits : ∀ v ∈ f'.visits, v ∈ f.visits ∨
      ∃ file, v = ⟨file, none⟩ ∧ f.wantsVisit file = true)
    (hnoticed : ∀ key, f.Noticed key → f'.Noticed key ∨ g.grant? key = none)
    (hleads : ∀ key target, f'.cache.find? key = some target → f'.wantsVisit target = false) :
    Explored g f' := by
  refine ⟨ho.options.trans h.options, ?_, ho.wantsVisit h.root, ?_, ?_, hleads⟩
  · intro file hfile
    rw [documents, hvisited] at hfile
    rcases List.mem_append.1 hfile with hfile | hfile
    · exact h.dialect file (List.mem_append_left _ hfile)
    · obtain ⟨v, hv, rfl⟩ := List.mem_map.1 hfile
      rcases hvisits v hv with hv | ⟨file, rfl, hwants⟩
      · exact h.dialect v.file (List.mem_append_right _ (List.mem_map_of_mem hv))
      · rw [← h.options]
        exact isDialectFile_of_wantsVisit hwants
  · intro v hv
    rcases hvisits v hv with hv | ⟨file, rfl, hwants⟩
    · exact h.texts v hv
    · have hroot : (file == g.root.file) = false := by
        refine Bool.eq_false_iff.2 fun heq => ?_
        rw [f.wantsVisit_congr heq, h.root] at hwants
        simp at hwants
      simp [ImportGraph.text?, hroot]
  · intro file key hfile hmentions
    rw [isVisited, hvisited] at hfile
    rcases h.mentioned file key hfile hmentions with hkey | hnone
    · exact hnoticed key hkey
    · exact Or.inr hnone

theorem Explored.enqueueVisit (h : Explored g f) (file : Path) :
    Explored g (f.enqueueVisit file none) := by
  have honward := onward_enqueueVisit f file none
  refine h.onward honward (enqueueVisit_visited f file none) ?_ ?_ ?_
  · exact fun v hv => (mem_visits_enqueueVisit hv).imp_right fun hnew => ⟨file, hnew⟩
  · intro key hkey
    unfold Noticed at hkey ⊢
    rw [enqueueVisit_cache, enqueueVisit_queries]
    exact Or.inl hkey
  · intro key target hfound
    rw [enqueueVisit_cache] at hfound
    exact honward.wantsVisit (h.leads key target hfound)

/-- Changes of the queue and of what is only counted keep the frontier explored, if each reference
that leaves the queue is refused. -/
theorem Explored.of_noticed (h : Explored g f) {queries : List Query} {dependencies : PathSet}
    {ledger : Ledger}
    (hnoticed : ∀ key, f.Noticed key →
      ({ f with queries, dependencies, ledger } : Frontier).Noticed key ∨ g.grant? key = none) :
    Explored g { f with queries, dependencies, ledger } :=
  h.onward ⟨rfl, fun _ hfile => hfile⟩ rfl (fun _ hv => Or.inl hv) hnoticed h.leads

theorem Explored.addDependencies (h : Explored g f) (files : List Path) :
    Explored g (f.addDependencies files) := by
  induction files generalizing f with
  | nil => exact h
  | cons file rest ih =>
    exact ih ((h.enqueueVisit file).of_noticed fun _ hkey => Or.inl hkey)

/-- A scan of the waiting documents notices all their imports. -/
theorem Explored.flushVisits (hg : g.Constant) (h : Explored g f) (s : σ) :
    Explored g (flushVisits g.host f s).1 := by
  have honward := onward_flushVisits g.host f s
  have hnoted := flushVisits_spec g.host f s
  have hbatch := (takeVisits_spec f.visits f).2.1
  refine ⟨honward.options.trans h.options, ?_, honward.wantsVisit h.root, ?_, ?_, ?_⟩
  · intro file hfile
    have hvisits : (Frontier.flushVisits g.host f s).1.visits = [] := hnoted.visits
    rw [documents, hvisits, flushVisits_visited, List.map_nil, List.append_nil] at hfile
    refine h.dialect file ?_
    rcases List.mem_append.1 hfile with hfile | hfile
    · exact List.mem_append_left _ hfile
    · exact List.mem_append_right _ (List.map_subset Visit.file hbatch hfile)
  · rw [hnoted.visits]
    simp
  · intro file key hfile hmentions
    rw [isVisited, flushVisits_visited] at hfile
    obtain ⟨other, hother, heq⟩ := List.contains_iff_exists_mem_beq.1 hfile
    rcases List.mem_append.1 hother with hother | hother
    · have hvisited : f.isVisited file = true :=
        List.contains_iff_exists_mem_beq.2 ⟨other, hother, heq⟩
      exact (h.mentioned file key hvisited hmentions).imp_left hnoted.noticed
    · -- The turn of the document has come in this scan.
      obtain ⟨v, hv, rfl⟩ := List.mem_map.1 hother
      obtain ⟨key', ⟨text, htext, i, hi, rfl⟩, hkey⟩ := hg.mentions_congr heq hmentions
      have hread := h.texts v (hbatch hv)
      rw [htext] at hread
      have hscan : (v.file,
          some (scanImports v.file text f.options.scanTables f.options.dialect)) ∈
          (scanBatch g.host f.options (takeVisits f.visits f).1 s).1 := by
        rw [scanBatch_eq hg.reads g.state]
        exact List.mem_map.2 ⟨v, hv, by rw [hread]; rfl⟩
      rw [h.options] at hscan
      have hnoticed := noticed_foldl_takeScan hscan hi { f with
        visits := [], visited := f.visited ++ (takeVisits f.visits f).1.map Visit.file }
      rw [← h.options, ← flushVisits_eq] at hnoticed
      rw [(mem_scanImports_congr (BEq.refl v.file) hi).1, h.options] at hnoticed
      exact Or.inl (hnoticed.congr (BEq.symm hkey))
  · intro key target hfound
    rw [hnoted.cache] at hfound
    exact honward.wantsVisit (h.leads key target hfound)

/-- The reference at the head of the queue is cached or refused when it leaves the queue. -/
theorem Explored.resolution (hg : g.Constant) (h : Explored g f) {q : Query} {rest : List Query}
    {result : Except Failure (Option Path)} (hq : f.queries = q :: rest)
    (hr : Resolution g.host q.key q.speculative { f with queries := rest } s result f' s') :
    Explored g f' := by
  have honward := hr.onward
  have hleft : ∀ key, f.Noticed key →
      ({ f with queries := rest } : Frontier).Noticed key ∨ q.key == key := by
    intro key hkey
    rcases hkey with hcached | ⟨q', hq', hkey⟩
    · exact Or.inl (Or.inl hcached)
    · rw [hq] at hq'
      rcases List.mem_cons.1 hq' with rfl | hq'
      · exact Or.inr hkey
      · exact Or.inl (Or.inr ⟨q', hq', hkey⟩)
  have hrefused : ∀ {failures : List Failure} {s' : σ}, g.host.Refuses q.key.context
      (f.options.dialect.candidates q.key.request) s failures s' → ∀ key, f.Noticed key →
      ({ f with queries := rest } : Frontier).Noticed key ∨ g.grant? key = none := by
    intro failures s' hrefuses key hkey
    rw [h.options] at hrefuses
    refine (hleft key hkey).imp_right fun heq => ?_
    exact hg.grant?_eq_none heq (hrefuses.granted? hg.resolves g.state)
  cases hr with
  | cached hit =>
    have hcached : ({ f with queries := rest } : Frontier).Noticed q.key :=
      Or.inl (Cache.contains_iff.2 ⟨_, hit⟩)
    refine h.of_noticed fun key hkey => Or.inl ?_
    rcases hleft key hkey with hkey | heq
    · exact hkey
    · exact hcached.congr heq
  | dropped _ _ refuses => exact h.of_noticed (hrefused refuses)
  | refused _ _ refuses => exact h.of_noticed (hrefused refuses)
  | @granted _ request target ledger fresh grants =>
    refine h.onward honward (record_visited _ _ _ _) ?_ ?_ ?_
    · exact fun v hv => (mem_visits_record hv).imp_right fun hnew => ⟨target, hnew⟩
    · intro key hkey
      refine Or.inl ?_
      unfold Noticed
      rw [record_cache, record_queries, Cache.contains_learn]
      rcases hleft key hkey with (hcached | hqueued) | heq
      · exact Or.inl (by simp [show f.cache.contains key = true from hcached])
      · exact Or.inr hqueued
      · exact Or.inl (by simp [BEq.symm heq])
    · have hknown := wantsVisit_record { f with queries := rest, ledger } q.key request target
      rw [record_cache]
      refine Cache.forall_find?_store (Cache.forall_find?_store ?_ fun _ _ => hknown)
        fun _ _ => hknown
      exact fun key target' hfound => honward.wantsVisit (h.leads key target' hfound)

theorem Explored.drain (hg : g.Constant) (h : Explored g f) {layers : Nat}
    {result : Except Failure Unit}
    (hd : Frontier.drain g.host layers f s = some (result, f', s')) : Explored g f' :=
  (drains_of_drain hd).keeps (fun s hf => hf.flushVisits hg s)
    (fun hf hq hr => hf.resolution hg hq hr) h

/-- When nothing waits any more, each import of a visited document is cached or refused by the
host. -/
theorem Explored.settled (h : Explored g f) (hidle : f.hasPending = false)
    (hfile : f.isVisited file = true) (hkey : g.Mentions file key) :
    f.cache.contains key = true ∨ g.grant? key = none := by
  rcases h.mentioned file key hfile hkey with (hcached | ⟨q, hq, -⟩) | hnone
  · exact Or.inl hcached
  · rw [(hasPending_eq_false.1 hidle).2] at hq
    simp at hq
  · exact Or.inr hnone

end Frontier

end StyleWeave
