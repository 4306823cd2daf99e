import StyleWeave.Proofs.Frontier.Drain
import StyleWeave.Proofs.Render.Lookup
import StyleWeave.Proofs.Render.Simulation

/-!
# Scanning ahead misses nothing

Without import variables a scan finds every name that a render looks for. What it finds is queued,
unless it is cached, and each queued reference is cached by the end of the drain or refused by the
host. So once a drain has scanned a document, each of its imports that the host can resolve is
cached.
-/

namespace StyleWeave

/-! ## Scans -/

theorem Scan.mem_fresh {name : String} {kind : ImportKind} {seen : List String}
    {found : List (String × ImportKind)} (hfound : (name, kind) ∈ found)
    (hname : Reference.isUnresolvable name = false) (hseen : name ∉ seen) :
    ∃ kind, (name, kind) ∈ Scan.fresh seen found := by
  induction found generalizing seen with
  | nil => simp at hfound
  | cons first rest ih =>
    obtain ⟨name', kind'⟩ := first
    unfold Scan.fresh
    by_cases heq : name = name'
    · subst heq
      rw [if_neg (by simp [hname, hseen])]
      exact ⟨kind', List.mem_cons_self⟩
    · have hrest : (name, kind) ∈ rest := by simpa [heq] using hfound
      split
      · exact ih hrest hseen
      · have hseen' : name ∉ name' :: seen := by simp [heq, hseen]
        obtain ⟨kind, hmem⟩ := ih hrest hseen'
        exact ⟨kind, List.mem_cons_of_mem _ hmem⟩

/-- Without import variables, a scan finds each name that a render of the document looks for. -/
theorem mem_scanImports {options : Options} {file : Path} {source name : String}
    (hfile : options.dialect.isDialectFile file = true) (hvariables : options.importVariables = [])
    (himports : Inline.Imports options source name) :
    ∃ kind, FoundImport.mk file.directory name kind ∈
      scanImports file source options.scanTables options.dialect := by
  obtain ⟨document, hparse, site, hsite, expr, hexpr, -, hrule⟩ := himports
  have htables : options.scanTables = [options.define] := by
    simp [Options.scanTables, hvariables]
  have hname : Reference.isUnresolvable name = false := by
    unfold Inline.isRule at hrule
    exact (Bool.or_eq_false_iff.1 hrule).2
  have hnames : (name, site.statement.kind) ∈ Scan.names document options.define := by
    refine List.mem_flatMap.2 ⟨site, hsite, List.mem_filterMap.2 ⟨some name, ?_, rfl⟩⟩
    exact (List.of_mem_zip hexpr).2
  obtain ⟨kind, hfresh⟩ := Scan.mem_fresh hnames hname List.not_mem_nil
  refine ⟨kind, ?_⟩
  unfold scanImports
  rw [hparse, htables, if_neg (by simp [hfile])]
  refine List.mem_map.2 ⟨(name, kind), ?_, rfl⟩
  simpa using hfresh

namespace Frontier

variable {σ : Type} {host : Host σ} {f f' : Frontier} {s s' : σ} {key : Reference}

/-! ## What is found is queued -/

/-- The reference is cached or queued. -/
def Noticed (f : Frontier) (key : Reference) : Prop :=
  f.cache.contains key = true ∨ ∃ q ∈ f.queries, q.key == key

theorem Noted.noticed (h : Noted f f') (hf : f.Noticed key) : f'.Noticed key := by
  obtain ⟨guesses, hqueries, -⟩ := h.queries
  rcases hf with hcached | ⟨q, hq, hkey⟩
  · exact Or.inl (h.cache ▸ hcached)
  · exact Or.inr ⟨q, by rw [hqueries]; exact List.mem_append_left _ hq, hkey⟩

theorem noticed_enqueueQuery (f : Frontier) (key : Reference) :
    (f.enqueueQuery key true).Noticed key := by
  unfold enqueueQuery
  split
  · next hcached => exact Or.inl hcached
  · next hcached =>
    split
    · exact Or.inr ⟨⟨key, true⟩, by simp, BEq.refl _⟩
    · next hwants =>
      have hqueued : (f.queries.any fun q => q.key == key) = true := by
        simpa [wantsQuery, hcached] using hwants
      obtain ⟨q, hq, hkey⟩ := List.any_eq_true.1 hqueued
      exact Or.inr ⟨q, hq, hkey⟩

theorem noticed_enqueueImports {i : FoundImport} {imports : List FoundImport} (hi : i ∈ imports)
    (f : Frontier) :
    (f.enqueueImports imports).Noticed ⟨i.context, f.options.requestFor i.name⟩ := by
  induction imports generalizing f with
  | nil => simp at hi
  | cons first rest ih =>
    have hfirst := noted_enqueueQuery f ⟨first.context, f.options.requestFor first.name⟩
    rcases List.mem_cons.1 hi with rfl | hi
    · exact (noted_enqueueImports _ rest).noticed (noticed_enqueueQuery f _)
    · have hrest := ih hi (f.enqueueQuery ⟨first.context, f.options.requestFor first.name⟩ true)
      rw [hfirst.options] at hrest
      exact hrest

theorem noticed_foldl_takeScan {file : Path} {imports : List FoundImport}
    {scans : List (Path × Option (List FoundImport))} (hscan : (file, some imports) ∈ scans)
    {i : FoundImport} (hi : i ∈ imports) (f : Frontier) :
    (scans.foldl takeScan f).Noticed ⟨i.context, f.options.requestFor i.name⟩ := by
  induction scans generalizing f with
  | nil => simp at hscan
  | cons first rest ih =>
    rw [List.foldl_cons]
    rcases List.mem_cons.1 hscan with rfl | hscan
    · refine (noted_foldl_takeScan rest _).noticed ?_
      exact noticed_enqueueImports hi { f with
        ledger.scans := f.ledger.scans + 1, dependencies := f.dependencies.insert file }
    · have hrest := ih hscan (f.takeScan first)
      rw [(noted_takeScan f first).options] at hrest
      exact hrest

theorem mem_scanBatch {v : Visit} {batch : List Visit} (hv : v ∈ batch) {text : String}
    (htext : v.text = some text) (host : Host σ) (options : Options) (s : σ) :
    (v.file, some (scanImports v.file text options.scanTables options.dialect)) ∈
      (scanBatch host options batch s).1 := by
  induction batch generalizing s with
  | nil => simp at hv
  | cons first rest ih =>
    unfold scanBatch
    rcases List.mem_cons.1 hv with rfl | hv
    · rw [htext]
      exact List.mem_cons_self
    · exact List.mem_cons_of_mem _ (ih hv _)

/-- Scanning a document whose text is known notices all its imports. -/
theorem noticed_flushVisits {v : Visit} (hv : v ∈ (takeVisits f.visits f).1) {text : String}
    (htext : v.text = some text) {i : FoundImport}
    (hi : i ∈ scanImports v.file text f.options.scanTables f.options.dialect) (host : Host σ)
    (s : σ) :
    (flushVisits host f s).1.Noticed ⟨i.context, f.options.requestFor i.name⟩ := by
  obtain ⟨visited, htaken⟩ := takeVisits_eq f.visits f
  have hoptions : (takeVisits f.visits f).2.options = f.options := by rw [htaken]
  have hscan := mem_scanBatch hv htext host (takeVisits f.visits f).2.options s
  rw [hoptions] at hscan
  have hnoticed := noticed_foldl_takeScan hscan hi (takeVisits f.visits f).2
  rw [hoptions] at hnoticed
  unfold flushVisits
  dsimp only
  rw [hoptions]
  exact hnoticed

/-! ## What is queued is answered -/

/-- The reference is cached, or the host has refused all candidates of an equal one. -/
def Answered (host : Host σ) (f : Frontier) (key : Reference) : Prop :=
  f.cache.contains key = true ∨ ∃ k s failures s', k == key ∧
    Host.Refuses host k.context (f.options.dialect.candidates k.request) s failures s'

theorem Extends.answered (h : Extends host f f') (hf : Answered host f key) :
    Answered host f' key := by
  rcases hf with hcached | hrefused
  · exact Or.inl (h.cache.contains hcached)
  · unfold Answered
    rw [h.options]
    exact Or.inr hrefused

theorem Resolution.answered {speculative : Bool} {found : Option Path}
    (h : Resolution host key speculative f s (.ok found) f' s') : Answered host f' key := by
  cases h with
  | cached hit => exact Or.inl (Cache.contains_iff.2 ⟨_, hit⟩)
  | granted => exact Or.inl (by simp)
  | dropped guess fresh refuses => exact Or.inr ⟨key, _, _, _, BEq.refl _, refuses⟩

theorem resolveQueue_answered {q : Query} {queries : List Query} (hq : q ∈ queries)
    (hguesses : ∀ q ∈ queries, q.speculative = true) (host : Host σ) (f : Frontier) (s : σ) :
    Answered host (resolveQueue host queries f s).2.1 q.key := by
  induction queries generalizing f s with
  | nil => simp at hq
  | cons first rest ih =>
    obtain ⟨found, f₁, s₁, h, heq⟩ :=
      resolveQueue_cons_of_guess (hguesses first List.mem_cons_self) host rest f s
    have hrest : ∀ q ∈ rest, q.speculative = true := fun q hm =>
      hguesses q (List.mem_cons_of_mem _ hm)
    rw [heq]
    rcases List.mem_cons.1 hq with rfl | hq
    · exact (resolveQueue_of_guesses rest hrest host f₁ s₁).2.2.answered h.answered
    · exact ih hq hrest f₁ s₁

/-- A drain of guesses answers all imports of a document whose text is known and whose turn to be
scanned has come. -/
theorem drain_answered {layers : Nat} {result : Except Failure Unit} (hf : f.Guessing)
    (h : drain host layers f s = some (result, f', s')) {v : Visit}
    (hv : v ∈ (takeVisits f.visits f).1) {text : String} (htext : v.text = some text)
    {i : FoundImport} (hi : i ∈ scanImports v.file text f.options.scanTables f.options.dialect) :
    Answered host f' ⟨i.context, f.options.requestFor i.name⟩ := by
  have hnoticed := noticed_flushVisits hv htext hi host s
  have hguesses : (flushVisits host f s).1.Guessing := flushVisits_guessing hf
  cases drains_of_drain h with
  | idle idle =>
    rw [(hasPending_eq_false.1 idle).1] at hv
    simp [takeVisits] at hv
  | @failed _ f₁ _ _ s₁ _ _ _ scanned resolved =>
    rw [scanned] at hguesses
    have hok := (resolveQueue_of_guesses f₁.queries hguesses host f₁ s₁).1
    simp [resolved] at hok
  | @layer _ f₁ f₂ _ _ s₁ _ _ _ _ scanned resolved others =>
    rw [scanned] at hnoticed hguesses
    obtain ⟨-, hempty, hextends⟩ := resolveQueue_of_guesses f₁.queries hguesses host f₁ s₁
    have hanswered : Answered host (resolveQueue host f₁.queries f₁ s₁).2.1
        ⟨i.context, f.options.requestFor i.name⟩ := by
      rcases hnoticed with hcached | ⟨q, hq, hkey⟩
      · exact hextends.answered (Or.inl hcached)
      · rcases resolveQueue_answered hq hguesses host f₁ s₁ with
          hcached | ⟨k, _, _, _, hk, hrefuses⟩
        · exact Or.inl ((Cache.contains_congr _ hkey).symm.trans hcached)
        · exact Or.inr ⟨k, _, _, _, BEq.trans hk hkey, hrefuses⟩
    rw [resolved] at hempty hanswered
    dsimp only at hempty hanswered
    obtain ⟨-, -, hrest⟩ := others.of_guesses (by simp [Guessing, hempty])
    exact hrest.answered hanswered

end Frontier

end StyleWeave
