import StyleWeave.Proofs.Frontier.Exploration
import StyleWeave.Proofs.Host.Memory

/-!
# A drain explores the reachable documents

From a document that is queued first, a drain visits the documents that the import graph leads to,
and caches what their imports resolve to. It visits all of them (`Explored`), and none without
cause: `Traced` says that each document it meets is reachable, and that each reference it queues or
caches is made by a reachable document. So the visited documents are exactly the reachable ones
(`drain_explores_graph`).
-/

namespace StyleWeave

variable {σ : Type}

namespace ImportGraph

variable (g : ImportGraph σ)

/-- An import of the first document is granted with a path equal to the second, which is a document
of the dialect. -/
def Edge (file target : Path) : Prop :=
  g.options.dialect.isDialectFile target = true ∧ ∃ key request found, g.Mentions file key ∧
    g.grant? key = some (request, found) ∧ found == target

/-- The documents that edges lead to from the root. -/
inductive Reachable : Path → Prop where
  | root {file : Path} (same : file == g.root.file) : Reachable file
  | step {file target : Path} (before : Reachable file) (edge : g.Edge file target) :
      Reachable target

/-- The reference leads to the path because a document mentions it, or mentions a reference of
which it is the candidate that is granted. -/
def Explains (file : Path) (key : Reference) (target : Path) : Prop :=
  ∃ mentioned request found, g.Mentions file mentioned ∧
    g.grant? mentioned = some (request, found) ∧ found == target ∧
    (key == mentioned ∨ key == ⟨mentioned.context, request⟩)

variable {g} {file file' : Path}

theorem Reachable.congr (h : g.Reachable file) (heq : file == file') : g.Reachable file' := by
  cases h with
  | root same => exact .root (BEq.trans (BEq.symm heq) same)
  | step before edge =>
    obtain ⟨hdialect, key, request, found, hmentions, hgrant, hfound⟩ := edge
    rw [g.options.dialect.isDialectFile_congr heq] at hdialect
    exact before.step ⟨hdialect, key, request, found, hmentions, hgrant, BEq.trans hfound heq⟩

end ImportGraph

namespace Frontier

variable {g : ImportGraph σ} {f f' : Frontier} {s s' : σ}

/-! ## What scans queue -/

theorem mem_queries_enqueueImports {imports : List FoundImport} {q : Query}
    (hq : q ∈ (f.enqueueImports imports).queries) :
    q ∈ f.queries ∨ ∃ i ∈ imports, q.key = ⟨i.context, f.options.requestFor i.name⟩ := by
  induction imports generalizing f with
  | nil => exact Or.inl hq
  | cons first rest ih =>
    have hnoted := noted_enqueueQuery f ⟨first.context, f.options.requestFor first.name⟩
    rcases ih hq with hq | ⟨i, hi, hkey⟩
    · dsimp only at hq
      rcases enqueueQuery_speculative f ⟨first.context, f.options.requestFor first.name⟩ with
        heq | heq
      · rw [heq] at hq
        exact Or.inl hq
      · rw [heq] at hq
        rcases List.mem_append.1 hq with hq | hq
        · exact Or.inl hq
        · exact Or.inr ⟨first, List.mem_cons_self, by rw [List.mem_singleton.1 hq]⟩
    · rw [hnoted.options] at hkey
      exact Or.inr ⟨i, List.mem_cons_of_mem _ hi, hkey⟩

theorem mem_queries_foldl_takeScan {scans : List (Path × Option (List FoundImport))} {q : Query}
    (hq : q ∈ (scans.foldl takeScan f).queries) :
    q ∈ f.queries ∨ ∃ file imports, (file, some imports) ∈ scans ∧
      ∃ i ∈ imports, q.key = ⟨i.context, f.options.requestFor i.name⟩ := by
  induction scans generalizing f with
  | nil => exact Or.inl hq
  | cons first rest ih =>
    rcases ih hq with hq | ⟨file, imports, hscan, i, hi, hkey⟩
    · obtain ⟨file, imports⟩ := first
      cases imports with
      | none => exact Or.inl hq
      | some imports =>
        rcases mem_queries_enqueueImports hq with hq | ⟨i, hi, hkey⟩
        · exact Or.inl hq
        · exact Or.inr ⟨file, imports, List.mem_cons_self, i, hi, hkey⟩
    · rw [(noted_takeScan f first).options] at hkey
      exact Or.inr ⟨file, imports, List.mem_cons_of_mem _ hscan, i, hi, hkey⟩

/-! ## Traced -/

/-- Nothing is met without cause: the documents that wait or were visited are reachable, and a
reachable document makes each reference that is queued or explains that it is cached. -/
structure Traced (g : ImportGraph σ) (f : Frontier) : Prop where
  visits : ∀ v ∈ f.visits, g.Reachable v.file
  visited : ∀ file ∈ f.visited, g.Reachable file
  queries : ∀ q ∈ f.queries, ∃ file, g.Reachable file ∧ g.Mentions file q.key
  cached : ∀ key target, f.cache.find? key = some target →
    ∃ file, g.Reachable file ∧ g.Explains file key target

theorem Traced.flushVisits (hg : g.Constant) (he : Explored g f) (h : Traced g f) (s : σ) :
    Traced g (flushVisits g.host f s).1 := by
  have hnoted := flushVisits_spec g.host f s
  have hbatch := (takeVisits_spec f.visits f).2.1
  refine ⟨?_, ?_, ?_, ?_⟩
  · rw [hnoted.visits]
    simp
  · intro file hfile
    rw [flushVisits_visited] at hfile
    rcases List.mem_append.1 hfile with hfile | hfile
    · exact h.visited file hfile
    · obtain ⟨v, hv, rfl⟩ := List.mem_map.1 hfile
      exact h.visits v (hbatch hv)
  · intro q hq
    rw [flushVisits_eq] at hq
    rcases mem_queries_foldl_takeScan hq with hq | ⟨file, imports, hscan, i, hi, hkey⟩
    · exact h.queries q hq
    · rw [scanBatch_eq hg.reads g.state] at hscan
      obtain ⟨v, hv, hpair⟩ := List.mem_map.1 hscan
      obtain ⟨rfl, himports⟩ := Prod.mk.inj hpair
      obtain ⟨text, htext, rfl⟩ := Option.map_eq_some_iff.1 himports
      rw [he.texts v (hbatch hv)] at htext
      dsimp only at hi hkey
      rw [he.options] at hi hkey
      rw [(mem_scanImports_congr (BEq.refl v.file) hi).1] at hkey
      exact ⟨v.file, h.visits v (hbatch hv), text, htext, i, hi, hkey⟩
  · rw [hnoted.cache]
    exact h.cached

/-- A resolution leads along an edge from the document that makes the reference. -/
theorem Traced.resolution (hg : g.Constant) (he : Explored g f) (h : Traced g f) {q : Query}
    {rest : List Query} {result : Except Failure (Option Path)} (hq : f.queries = q :: rest)
    (hr : Resolution g.host q.key q.speculative { f with queries := rest } s result f' s') :
    Traced g f' := by
  have hrest : ∀ q' ∈ rest, ∃ file, g.Reachable file ∧ g.Mentions file q'.key := fun q' hq' =>
    h.queries q' (by rw [hq]; exact List.mem_cons_of_mem _ hq')
  cases hr with
  | cached => exact ⟨h.visits, h.visited, hrest, h.cached⟩
  | dropped => exact ⟨h.visits, h.visited, hrest, h.cached⟩
  | refused => exact ⟨h.visits, h.visited, hrest, h.cached⟩
  | @granted _ request target ledger fresh grants =>
    obtain ⟨file, hfile, hmentions⟩ := h.queries q (by rw [hq]; exact List.mem_cons_self)
    rw [he.options] at grants
    obtain ⟨found, hgrant, hfound⟩ := grants.granted? hg.resolves g.state
    refine ⟨?_, ?_, ?_, ?_⟩
    · intro v hv
      rcases mem_visits_record hv with hv | ⟨rfl, hwants⟩
      · exact h.visits v hv
      · have hdialect : g.options.dialect.isDialectFile target = true := by
          rw [← he.options]
          exact isDialectFile_of_wantsVisit hwants
        exact hfile.step ⟨hdialect, q.key, request, found, hmentions, hgrant, hfound⟩
    · rw [record_visited]
      exact h.visited
    · rw [record_queries]
      exact hrest
    · rw [record_cache]
      refine Cache.forall_find?_store (Cache.forall_find?_store h.cached ?_) ?_
      · intro key hkey
        exact ⟨file, hfile, q.key, request, found, hmentions, hgrant, hfound, Or.inl hkey⟩
      · intro key hkey
        exact ⟨file, hfile, q.key, request, found, hmentions, hgrant, hfound, Or.inr hkey⟩

theorem Traced.drain (hg : g.Constant) (he : Explored g f) (h : Traced g f) {layers : Nat}
    {result : Except Failure Unit}
    (hd : Frontier.drain g.host layers f s = some (result, f', s')) : Traced g f' := by
  have hboth : Explored g f' ∧ Traced g f' := by
    refine (drains_of_drain hd).keeps (P := fun f => Explored g f ∧ Traced g f) ?_ ?_ ⟨he, h⟩
    · exact fun s hf => ⟨hf.1.flushVisits hg s, hf.2.flushVisits hg hf.1 s⟩
    · exact fun hf hq hr => ⟨hf.1.resolution hg hq hr, hf.2.resolution hg hf.1 hq hr⟩
  exact hboth.2

/-! ## The whole graph -/

theorem explored_start (g : ImportGraph σ) :
    Explored g (({ options := g.options } : Frontier).enqueueVisit g.root.file g.root.text) := by
  refine ⟨enqueueVisit_options _ _ _, ?_, wantsVisit_enqueueVisit _ _ _, ?_, ?_, ?_⟩
  · intro file hfile
    rw [documents, enqueueVisit_visited] at hfile
    obtain ⟨v, hv, rfl⟩ := List.mem_map.1 (by simpa using hfile)
    rcases mem_visits_enqueueVisit hv with hv | ⟨rfl, hwants⟩
    · simp at hv
    · exact isDialectFile_of_wantsVisit hwants
  · intro v hv
    rcases mem_visits_enqueueVisit hv with hv | ⟨rfl, -⟩
    · simp at hv
    · simp [ImportGraph.text?]
  · intro file key hfile
    rw [isVisited, enqueueVisit_visited] at hfile
    simp at hfile
  · intro key target hfound
    rw [enqueueVisit_cache] at hfound
    simp [Cache.find?] at hfound

theorem traced_start (g : ImportGraph σ) :
    Traced g (({ options := g.options } : Frontier).enqueueVisit g.root.file g.root.text) := by
  refine ⟨?_, ?_, ?_, ?_⟩
  · intro v hv
    rcases mem_visits_enqueueVisit hv with hv | ⟨rfl, -⟩
    · simp at hv
    · exact .root (BEq.refl _)
  · rw [enqueueVisit_visited]
    simp
  · rw [enqueueVisit_queries]
    simp
  · intro key target hfound
    rw [enqueueVisit_cache] at hfound
    simp [Cache.find?] at hfound

/-- When no document waits, one of the dialect that is not wanted was visited. -/
theorem isVisited_of_not_wanted {file : Path} (hvisits : f.visits = [])
    (hprefetch : f.options.prefetch = true)
    (hfile : f.options.dialect.isDialectFile file = true) (h : f.wantsVisit file = false) :
    f.isVisited file = true := by
  unfold wantsVisit at h
  rw [hvisits, hprefetch, hfile] at h
  simpa using h

/-- When nothing waits, the references that a visited document makes and the host grants are
cached. -/
theorem Explored.contains {file : Path} {key : Reference} {grant : String × Path}
    (h : Explored g f) (hidle : f.hasPending = false) (hfile : f.isVisited file = true)
    (hkey : g.Mentions file key) (hgrant : g.grant? key = some grant) :
    f.cache.contains key = true := by
  rcases h.settled hidle hfile hkey with hcached | hnone
  · exact hcached
  · simp [hgrant] at hnone

/-- When nothing waits, all documents that the root leads to were visited. -/
theorem Explored.reaches (h : Explored g f) (hg : g.Constant) (hidle : f.hasPending = false)
    (hprefetch : g.options.prefetch = true)
    (hroot : g.options.dialect.isDialectFile g.root.file = true)
    (hcoherent : g.host.Coherent g.options.dialect f.cache) {file : Path}
    (hfile : g.Reachable file) : f.isVisited file = true := by
  have hvisited : ∀ file, g.options.dialect.isDialectFile file = true →
      f.wantsVisit file = false → f.isVisited file = true := by
    intro file hfile hknown
    rw [← h.options] at hfile hprefetch
    exact isVisited_of_not_wanted (hasPending_eq_false.1 hidle).1 hprefetch hfile hknown
  induction hfile with
  | @root file same =>
    refine hvisited file ?_ ?_
    · rw [g.options.dialect.isDialectFile_congr same]
      exact hroot
    · rw [f.wantsVisit_congr same]
      exact h.root
  | @step file target before edge ih =>
    -- What the edge resolves is cached by now, and a document that is cached is known.
    obtain ⟨hdialect, key, request, found, hmentions, hgrant, hfound⟩ := edge
    obtain ⟨cached, hfind⟩ := Cache.contains_iff.1 (h.contains hidle ih hmentions hgrant)
    have heq : cached == target :=
      (hcoherent key cached hfind).unique hg.resolves
        (hg.resolves.designates hgrant hfound (BEq.refl key)) (BEq.refl key) g.state
    refine hvisited target hdialect ?_
    rw [← f.wantsVisit_congr heq]
    exact h.leads key cached hfind

/-- When nothing waits, the cache knows what the imports of visited documents lead to, both under
their own requests and under the candidates that were granted. -/
theorem Explored.explained (h : Explored g f) (hg : g.Constant) (hidle : f.hasPending = false)
    (hclosed : g.options.dialect.Closed) (hcoherent : g.host.Coherent g.options.dialect f.cache)
    (hgrounded : g.host.Grounded g.state g.options.dialect f.cache) {file target : Path}
    {key : Reference} (hfile : f.isVisited file = true) (hexplains : g.Explains file key target) :
    ∃ found, f.cache.find? key = some found ∧ found == target := by
  obtain ⟨mentioned, request, granted, hmentions, hgrant, hgranted, hkey⟩ := hexplains
  have hmentioned := h.contains hidle hfile hmentions hgrant
  obtain ⟨request', target', hgrant', hcandidate⟩ := hgrounded mentioned hmentioned
  obtain ⟨rfl, rfl⟩ := Prod.mk.inj (Option.some.inj (hgrant'.symm.trans hgrant))
  have hfound : f.cache.contains key = true ∧
      g.host.Designates g.options.dialect key target := by
    rcases hkey with hkey | hkey
    · exact ⟨(f.cache.contains_congr hkey).trans hmentioned,
        hg.resolves.designates hgrant hgranted hkey⟩
    · exact ⟨(f.cache.contains_congr hkey).trans hcandidate,
        hg.resolves.candidate_designates hclosed hgrant hgranted hkey⟩
  obtain ⟨found, hfind⟩ := Cache.contains_iff.1 hfound.1
  exact ⟨found, hfind, (hcoherent key found hfind).unique hg.resolves hfound.2 (BEq.refl key)
    g.state⟩

/-- A drain that starts with one document ends with nothing waiting. It has visited exactly the
documents that the import graph reaches from that one, and its cache holds exactly what the imports
of these lead to, for each import under its own request and under the candidate that was granted. -/
theorem drain_explores_graph (hg : g.Constant) (hplain : g.options.dialect.PlainExtension)
    (hwants : ({ options := g.options } : Frontier).wantsVisit g.root.file = true) {layers : Nat}
    {result : Except Failure Unit}
    (hd : Frontier.drain g.host layers
      (({ options := g.options } : Frontier).enqueueVisit g.root.file g.root.text) s =
        some (result, f', s')) :
    result = .ok () ∧ f'.visits = [] ∧ f'.queries = [] ∧
    (∀ file, f'.isVisited file = true ↔ g.Reachable file) ∧
    ∀ key target, (∃ found, f'.cache.find? key = some found ∧ found == target) ↔
      ∃ file, f'.isVisited file = true ∧ g.Explains file key target := by
  have hexplored := (explored_start g).drain hg hd
  have htraced := (traced_start g).drain hg (explored_start g) hd
  obtain ⟨hresult, hidle, hextends⟩ := drain_of_guesses (by simp [Guessing]) hd
  obtain ⟨hvisits, hqueries⟩ := hasPending_eq_false.1 hidle
  have hgrowth : Cache.Growth g.host g.options.dialect {} f'.cache := by
    simpa using hextends.cache
  have hcoherent := (g.host.coherent_empty g.options.dialect).growth hg.resolves hplain.closed
    hgrowth
  have hgrounded := (g.host.grounded_empty g.state g.options.dialect).growth hg.resolves
    hplain.closed hgrowth
  rw [wantsVisit_eq, Bool.and_eq_true, Bool.and_eq_true] at hwants
  have hreachable : ∀ file, f'.isVisited file = true ↔ g.Reachable file := by
    intro file
    constructor
    · intro hfile
      obtain ⟨other, hother, heq⟩ := List.contains_iff_exists_mem_beq.1 hfile
      exact (htraced.visited other hother).congr (BEq.symm heq)
    · exact hexplored.reaches hg hidle hwants.1.1 hwants.1.2 hcoherent
  refine ⟨hresult, hvisits, hqueries, hreachable, fun key target => ⟨?_, ?_⟩⟩
  · rintro ⟨found, hfind, heq⟩
    obtain ⟨file, hfile, mentioned, request, granted, hmentions, hgrant, hgranted, hkey⟩ :=
      htraced.cached key found hfind
    exact ⟨file, (hreachable file).2 hfile, mentioned, request, granted, hmentions, hgrant,
      BEq.trans hgranted heq, hkey⟩
  · rintro ⟨file, hfile, hexplains⟩
    exact hexplored.explained hg hidle hplain.closed hcoherent hgrounded hfile hexplains

/-- Two documents that import each other. -/
def twoDocuments : Memory where
  files := [(⟨"/app/a.styl"⟩, "@import 'b'\n"), (⟨"/app/b.styl"⟩, "@import 'a.styl'\n")]

/-- The import graph of a document that imports one of them. -/
def twoDocumentsGraph : ImportGraph Memory.Log where
  host := twoDocuments.host
  state := {}
  options := {}
  root := ⟨⟨"/app/main.styl"⟩, some "@import 'a'\n"⟩

theorem drain_explores_graph_twoDocuments :
    ∃ f' s', Frontier.drain twoDocuments.host 4 (({ options := {} } : Frontier).enqueueVisit
        ⟨"/app/main.styl"⟩ (some "@import 'a'\n")) {} = some (.ok (), f', s') ∧
      f'.visits = [] ∧ f'.queries = [] ∧ f'.cache.size = 4 ∧
      twoDocumentsGraph.Reachable ⟨"/app/b.styl"⟩ ∧
      ∀ file, f'.isVisited file = true ↔ twoDocumentsGraph.Reachable file := by
  have hplain : (({} : Options).dialect).PlainExtension := by decide +kernel
  have hwants : ({ options := {} } : Frontier).wantsVisit ⟨"/app/main.styl"⟩ = true := by
    decide +kernel
  have hdrain : (Frontier.drain twoDocuments.host 4 (({ options := {} } : Frontier).enqueueVisit
      ⟨"/app/main.styl"⟩ (some "@import 'a'\n")) {}).map
        (fun answer => (answer.2.1.isVisited ⟨"/app/b.styl"⟩, answer.2.1.cache.size)) =
      some (true, 4) := by
    decide +kernel
  obtain ⟨⟨result, f', s'⟩, hanswer, hsome⟩ := Option.map_eq_some_iff.1 hdrain
  obtain ⟨hvisited, hsize⟩ := Prod.mk.inj hsome
  obtain ⟨rfl, hvisits, hqueries, hreachable, -⟩ :=
    drain_explores_graph (g := twoDocumentsGraph) ⟨twoDocuments.resolvesAlike,
      twoDocuments.readsAlike⟩ hplain hwants hanswer
  exact ⟨f', s', hanswer, hvisits, hqueries, hsize, (hreachable _).1 hvisited, hreachable⟩

end Frontier

end StyleWeave
