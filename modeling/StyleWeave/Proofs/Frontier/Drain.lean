import StyleWeave.Proofs.Frontier.Resolve

/-!
# Draining the frontier

Scans only ever add speculative references, and only a required one can make a drain fail. So what
a drain can do depends on the references that are queued when it starts:

- if all of them are speculative, the drain never fails (`drain_of_guesses`);
- if one required reference is in front of them, the drain fails exactly if the host refuses that
  reference, and leaves it cached otherwise (`drain_of_required`).

Either way the options stay, the cache grows, and no required reference stays queued.
-/

namespace StyleWeave.Frontier

variable {σ : Type} {host : Host σ} {f f' f'' : Frontier} {s s' : σ}

/-- All queued references are speculative. -/
def Guessing (f : Frontier) : Prop :=
  ∀ q ∈ f.queries, q.speculative = true

theorem hasPending_eq_false : f.hasPending = false ↔ f.visits = [] ∧ f.queries = [] := by
  simp [hasPending]

/-! ## Scanning -/

/-- `f'` is `f` with more speculative references behind its queue, and what scans count. -/
structure Noted (f f' : Frontier) : Prop where
  options : f'.options = f.options
  cache : f'.cache = f.cache
  visits : f'.visits = f.visits
  visited : f'.visited = f.visited
  queries : ∃ guesses : List Query,
    f'.queries = f.queries ++ guesses ∧ ∀ q ∈ guesses, q.speculative = true

theorem Noted.refl (f : Frontier) : Noted f f :=
  ⟨rfl, rfl, rfl, rfl, [], by simp, by simp⟩

theorem Noted.trans (h : Noted f f') (h' : Noted f' f'') : Noted f f'' := by
  obtain ⟨guesses, hq, hg⟩ := h.queries
  obtain ⟨guesses', hq', hg'⟩ := h'.queries
  refine ⟨h'.options.trans h.options, h'.cache.trans h.cache, h'.visits.trans h.visits,
    h'.visited.trans h.visited, guesses ++ guesses', by rw [hq', hq, List.append_assoc], ?_⟩
  intro q hm
  rcases List.mem_append.1 hm with hm | hm
  · exact hg q hm
  · exact hg' q hm

theorem noted_enqueueQuery (f : Frontier) (key : Reference) :
    Noted f (f.enqueueQuery key true) := by
  rcases enqueueQuery_speculative f key with h | h
  · rw [h]; exact Noted.refl f
  · rw [h]; exact ⟨rfl, rfl, rfl, rfl, [⟨key, true⟩], rfl, by simp⟩

theorem noted_enqueueImports (f : Frontier) (imports : List FoundImport) :
    Noted f (f.enqueueImports imports) := by
  induction imports generalizing f with
  | nil => exact Noted.refl f
  | cons i rest ih => exact (noted_enqueueQuery f _).trans (ih _)

theorem noted_takeScan (f : Frontier) (scan : Path × Option (List FoundImport)) :
    Noted f (f.takeScan scan) := by
  obtain ⟨file, imports⟩ := scan
  cases imports with
  | none => exact Noted.refl f
  | some imports =>
    have h := noted_enqueueImports { f with
      ledger.scans := f.ledger.scans + 1, dependencies := f.dependencies.insert file } imports
    exact ⟨h.options, h.cache, h.visits, h.visited, h.queries⟩

theorem noted_foldl_takeScan (scans : List (Path × Option (List FoundImport))) (f : Frontier) :
    Noted f (scans.foldl takeScan f) := by
  induction scans generalizing f with
  | nil => exact Noted.refl f
  | cons scan rest ih => exact (noted_takeScan f scan).trans (ih _)

theorem takeVisits_eq (visits : List Visit) (f : Frontier) :
    ∃ visited, (takeVisits visits f).2 = { f with visits := [], visited } := by
  induction visits generalizing f with
  | nil => exact ⟨f.visited, rfl⟩
  | cons v rest ih =>
    unfold takeVisits
    split
    · exact ih f
    · exact ih { f with visited := f.visited ++ [v.file] }

/-- Scanning all queued documents keeps the options and the cache, and adds speculative references
behind the queued ones. -/
theorem flushVisits_spec (host : Host σ) (f : Frontier) (s : σ) :
    Noted { f with visits := [], visited := (flushVisits host f s).1.visited }
      (flushVisits host f s).1 := by
  obtain ⟨visited, h⟩ := takeVisits_eq f.visits f
  unfold flushVisits
  generalize takeVisits f.visits f = taken at h ⊢
  obtain ⟨batch, f₁⟩ := taken
  dsimp only at h ⊢
  subst h
  generalize scanBatch host _ batch s = scanned
  obtain ⟨scans, s₁⟩ := scanned
  dsimp only
  have hn := noted_foldl_takeScan scans { f with visits := [], visited }
  exact ⟨hn.options, hn.cache, hn.visits, rfl, hn.queries⟩

theorem reads_scanBatch (host : Host σ) (options : Options) (batch : List Visit) (s : σ) :
    host.Reads s (scanBatch host options batch s).2 := by
  induction batch generalizing s with
  | nil => exact .refl
  | cons v rest ih =>
    unfold scanBatch Host.scanFile
    cases v.text with
    | some text => exact ih s
    | none => exact .read v.file (ih (host.read s v.file).2)

theorem reads_flushVisits (host : Host σ) (f : Frontier) (s : σ) :
    host.Reads s (flushVisits host f s).2 := by
  unfold flushVisits
  exact reads_scanBatch host _ _ s

theorem flushVisits_guessing (hf : f.Guessing) : (flushVisits host f s).1.Guessing := by
  obtain ⟨guesses, hq, hg⟩ := (flushVisits_spec host f s).queries
  intro q hm
  rw [hq] at hm
  rcases List.mem_append.1 hm with hm | hm
  · exact hf q hm
  · exact hg q hm

/-! ## Resolving queues -/

/-- `f'` has the options of `f`, and a cache grown from that of `f`. -/
structure Extends (host : Host σ) (f f' : Frontier) : Prop where
  options : f'.options = f.options
  cache : Cache.Growth host f.options.dialect f.cache f'.cache

theorem Extends.trans (h : Extends host f f') (h' : Extends host f' f'') : Extends host f f'' :=
  ⟨h'.options.trans h.options, h.cache.trans (h.options ▸ h'.cache)⟩

theorem Extends.flushVisits (host : Host σ) (f : Frontier) (s : σ) :
    Extends host f (flushVisits host f s).1 := by
  have h := flushVisits_spec host f s
  refine ⟨h.options, ?_⟩
  rw [h.cache]
  exact .refl

theorem Resolution.extends {key : Reference} {speculative : Bool}
    {result : Except Failure (Option Path)} (h : Resolution host key speculative f s result f' s') :
    Extends host f f' ∧ f'.queries = f.queries := by
  cases h with
  | cached => exact ⟨⟨rfl, .refl⟩, rfl⟩
  | granted fresh grants =>
    refine ⟨⟨by simp, ?_⟩, by simp⟩
    rw [record_cache]
    exact Cache.Growth.refl.learn fresh grants
  | dropped => exact ⟨⟨rfl, .refl⟩, rfl⟩
  | refused => exact ⟨⟨rfl, .refl⟩, rfl⟩

theorem Resolution.contains {key : Reference} {speculative : Bool} {found : Option Path}
    (h : Resolution host key speculative f s (.ok found) f' s') (hr : speculative = false) :
    f'.cache.contains key = true := by
  cases h with
  | cached hit => exact Cache.contains_iff.2 ⟨_, hit⟩
  | granted => simp
  | dropped guess => simp [hr] at guess

/-- The first reference of a queue is resolved, and then the others, unless that has failed. -/
theorem resolveQueue_cons (host : Host σ) (q : Query) (rest : List Query) (f : Frontier) (s : σ) :
    ∃ result f₁ s₁, Resolution host q.key q.speculative { f with queries := rest } s result f₁ s₁ ∧
      resolveQueue host (q :: rest) f s =
        match result with
        | .ok _ => resolveQueue host rest f₁ s₁
        | .error failure => (.error failure, f₁, s₁) := by
  have h := resolve_resolution host q.key q.speculative { f with queries := rest } s
  refine ⟨_, _, _, h, ?_⟩
  rw [resolveQueue]
  rcases resolve host q.key q.speculative { f with queries := rest } s with
    ⟨failure | found, f₁, s₁⟩ <;> rfl

/-- A speculative reference in front of a queue never fails. -/
theorem resolveQueue_cons_of_guess {q : Query} (hq : q.speculative = true) (host : Host σ)
    (rest : List Query) (f : Frontier) (s : σ) :
    ∃ found f₁ s₁, Resolution host q.key true { f with queries := rest } s (.ok found) f₁ s₁ ∧
      resolveQueue host (q :: rest) f s = resolveQueue host rest f₁ s₁ := by
  obtain ⟨result, f₁, s₁, h, heq⟩ := resolveQueue_cons host q rest f s
  rw [hq] at h
  cases result with
  | error failure =>
    cases h with
    | refused required => simp at required
  | ok found => exact ⟨found, f₁, s₁, h, heq⟩

/-- Resolving speculative references never fails. -/
theorem resolveQueue_of_guesses (queries : List Query)
    (hq : ∀ q ∈ queries, q.speculative = true) (host : Host σ) (f : Frontier) (s : σ) :
    (resolveQueue host queries f s).1 = .ok () ∧
      (resolveQueue host queries f s).2.1.queries = [] ∧
      Extends host f (resolveQueue host queries f s).2.1 := by
  induction queries generalizing f s with
  | nil => exact ⟨rfl, rfl, rfl, .refl⟩
  | cons q rest ih =>
    obtain ⟨found, f₁, s₁, h, heq⟩ :=
      resolveQueue_cons_of_guess (hq q List.mem_cons_self) host rest f s
    have he : Extends host f f₁ := ⟨h.extends.1.options, h.extends.1.cache⟩
    obtain ⟨h₁, h₂, h₃⟩ := ih (fun q' hm => hq q' (List.mem_cons_of_mem _ hm)) f₁ s₁
    rw [heq]
    exact ⟨h₁, h₂, he.trans h₃⟩

/-- Resolving a required reference with speculative ones behind it fails only if the host refuses
it. Those behind it then stay queued. -/
theorem resolveQueue_of_required {guesses : List Query}
    (hg : ∀ q ∈ guesses, q.speculative = true) (host : Host σ) (key : Reference) (f : Frontier)
    (s : σ) :
    let answer := resolveQueue host (⟨key, false⟩ :: guesses) f s
    Extends host f answer.2.1 ∧
      ((answer.1 = .ok () ∧ answer.2.1.queries = [] ∧ answer.2.1.cache.contains key = true) ∨
        ∃ failures, answer.1 = .error (unresolved key failures) ∧ answer.2.1.queries = guesses ∧
          host.Refuses key.context (f.options.dialect.candidates key.request) s failures
            answer.2.2) := by
  intro answer
  obtain ⟨result, f₁, s₁, h, heq⟩ := resolveQueue_cons host ⟨key, false⟩ guesses f s
  have he : Extends host f f₁ := ⟨h.extends.1.options, h.extends.1.cache⟩
  have ha : answer = _ := heq
  cases result with
  | error failure =>
    rw [ha]
    refine ⟨he, Or.inr ?_⟩
    cases h with
    | refused _ _ refuses => exact ⟨_, rfl, rfl, refuses⟩
  | ok found =>
    rw [ha]
    obtain ⟨h₁, h₂, h₃⟩ := resolveQueue_of_guesses guesses hg host f₁ s₁
    exact ⟨he.trans h₃, Or.inl ⟨h₁, h₂, h₃.cache.contains (h.contains rfl)⟩⟩

/-! ## Drains -/

theorem drain_of_idle (hf : f.hasPending = false) (layers : Nat) (s : σ) :
    drain host layers f s = some (.ok (), f, s) := by
  unfold drain
  simp [hf]

theorem drain_succ (hf : f.hasPending = true) (layers : Nat) (s : σ) :
    drain host (layers + 1) f s =
      match flushQueries host (flushVisits host f s).1 (flushVisits host f s).2 with
      | (.error failure, f, s) => some (.error failure, f, s)
      | (.ok _, f, s) => drain host layers f s := by
  have hpending : ¬ (!f.hasPending) = true := by simp [hf]
  exact (drain.eq_def host (layers + 1) f s).trans (if_neg hpending)

theorem drain_zero (hf : f.hasPending = true) (s : σ) : drain host 0 f s = none := by
  rw [drain.eq_def]
  simp [hf]

/-- A drain as a relation: as long as something waits, all documents are scanned and then all
references resolved, unless one of these fails. -/
inductive Drains (host : Host σ) :
    Frontier → σ → Except Failure Unit → Frontier → σ → Prop where
  | idle {f : Frontier} {s : σ} (idle : f.hasPending = false) : Drains host f s (.ok ()) f s
  | failed {f f₁ f₂ : Frontier} {s s₁ s₂ : σ} {failure : Failure} (pending : f.hasPending = true)
      (scanned : flushVisits host f s = (f₁, s₁))
      (resolved : resolveQueue host f₁.queries f₁ s₁ = (.error failure, f₂, s₂)) :
      Drains host f s (.error failure) f₂ s₂
  | layer {f f₁ f₂ f₃ : Frontier} {s s₁ s₂ s₃ : σ} {result : Except Failure Unit}
      (pending : f.hasPending = true) (scanned : flushVisits host f s = (f₁, s₁))
      (resolved : resolveQueue host f₁.queries f₁ s₁ = (.ok (), f₂, s₂))
      (others : Drains host f₂ s₂ result f₃ s₃) : Drains host f s result f₃ s₃

theorem drains_of_drain {layers : Nat} {result : Except Failure Unit}
    (h : drain host layers f s = some (result, f', s')) : Drains host f s result f' s' := by
  induction layers generalizing f s with
  | zero =>
    by_cases hp : f.hasPending = true
    · simp [drain_zero hp] at h
    · have hidle : f.hasPending = false := by simpa using hp
      rw [drain_of_idle hidle] at h
      obtain ⟨rfl, rfl, rfl⟩ := by simpa using h
      exact .idle hidle
  | succ layers ih =>
    by_cases hp : f.hasPending = true
    · rw [drain_succ hp] at h
      rcases hscan : flushVisits host f s with ⟨f₁, s₁⟩
      rw [hscan, flushQueries] at h
      rcases hresolve : resolveQueue host f₁.queries f₁ s₁ with ⟨failure | done, f₂, s₂⟩
      · rw [hresolve] at h
        obtain ⟨rfl, rfl, rfl⟩ := by simpa using h
        exact .failed hp hscan hresolve
      · rw [hresolve] at h
        exact .layer hp hscan hresolve (ih h)
    · have hidle : f.hasPending = false := by simpa using hp
      rw [drain_of_idle hidle] at h
      obtain ⟨rfl, rfl, rfl⟩ := by simpa using h
      exact .idle hidle

theorem Drains.of_guesses {result : Except Failure Unit} (h : Drains host f s result f' s')
    (hf : f.Guessing) : result = .ok () ∧ f'.hasPending = false ∧ Extends host f f' := by
  induction h with
  | idle idle => exact ⟨rfl, idle, rfl, .refl⟩
  | @failed f f₁ f₂ s s₁ s₂ failure _ scanned resolved =>
    exfalso
    have hg : f₁.Guessing := by
      have hguessing : (flushVisits host f s).1.Guessing := flushVisits_guessing hf
      rwa [scanned] at hguessing
    have hok := (resolveQueue_of_guesses f₁.queries hg host f₁ s₁).1
    simp [resolved] at hok
  | @layer f f₁ f₂ f₃ s s₁ s₂ s₃ result _ scanned resolved _ ih =>
    have hg : f₁.Guessing := by
      have hguessing : (flushVisits host f s).1.Guessing := flushVisits_guessing hf
      rwa [scanned] at hguessing
    have hv : Extends host f f₁ := by simpa [scanned] using Extends.flushVisits host f s
    obtain ⟨-, hempty, he⟩ := resolveQueue_of_guesses f₁.queries hg host f₁ s₁
    rw [resolved] at hempty he
    dsimp only at hempty he
    obtain ⟨hr, hi, he'⟩ := ih (by simp [Guessing, hempty])
    exact ⟨hr, hi, (hv.trans he).trans he'⟩

/-- A drain of speculative references never fails, and leaves nothing waiting. -/
theorem drain_of_guesses {layers : Nat} {result : Except Failure Unit} (hf : f.Guessing)
    (h : drain host layers f s = some (result, f', s')) :
    result = .ok () ∧ f'.hasPending = false ∧ Extends host f f' :=
  (drains_of_drain h).of_guesses hf

/-- A drain of one required reference either leaves it cached and nothing waiting, or fails because
the host refuses it. All that the host is asked before that is to read the waiting documents. -/
theorem drain_of_required {layers : Nat} {result : Except Failure Unit} {key : Reference}
    (hq : f.queries = [⟨key, false⟩])
    (h : drain host layers f s = some (result, f', s')) :
    Extends host f f' ∧ f'.Guessing ∧
      ((result = .ok () ∧ f'.hasPending = false ∧ f'.cache.contains key = true) ∨
        ∃ failures s₁, result = .error (unresolved key failures) ∧ host.Reads s s₁ ∧
          host.Refuses key.context (f.options.dialect.candidates key.request) s₁ failures s') := by
  have hn := flushVisits_spec host f s
  have hv : Extends host f (flushVisits host f s).1 := .flushVisits host f s
  have hreads : host.Reads s (flushVisits host f s).2 := reads_flushVisits host f s
  obtain ⟨guesses, hq₁, hg⟩ := hn.queries
  have hq' : (flushVisits host f s).1.queries = ⟨key, false⟩ :: guesses := by simpa [hq] using hq₁
  have hr := resolveQueue_of_required hg host key (flushVisits host f s).1 (flushVisits host f s).2
  rw [← hq', hv.options] at hr
  cases drains_of_drain h with
  | idle idle => simp [hasPending, hq] at idle
  | failed _ scanned resolved =>
    rw [scanned] at hr hv hreads
    rw [resolved] at hr
    dsimp only at hr hv hreads
    obtain ⟨he, ⟨hok, -⟩ | ⟨failures, hfail, hleft, refuses⟩⟩ := hr
    · cases hok
    · refine ⟨hv.trans he, ?_, Or.inr ⟨failures, _, hfail, hreads, refuses⟩⟩
      simpa [Guessing, hleft] using hg
  | layer _ scanned resolved others =>
    rw [scanned] at hr hv hreads
    rw [resolved] at hr
    dsimp only at hr hv hreads
    obtain ⟨he, ⟨-, hempty, hcached⟩ | ⟨failures, hfail, -⟩⟩ := hr
    · obtain ⟨hres, hidle, he'⟩ := others.of_guesses (by simp [Guessing, hempty])
      refine ⟨(hv.trans he).trans he', ?_, Or.inl ⟨hres, hidle, he'.cache.contains hcached⟩⟩
      simp [Guessing, (hasPending_eq_false.1 hidle).2]
    · cases hfail

/-- A drain that succeeds has been granted the required reference, if that was not cached. -/
theorem granted_of_drain {layers : Nat} {key : Reference} (hq : f.queries = [⟨key, false⟩])
    (hfresh : f.cache.find? key = none)
    (h : drain host layers f s = some (.ok (), f', s')) :
    ∃ s₁ s₂ request target, host.Reads s s₁ ∧
      host.Grants key.context (f.options.dialect.candidates key.request) s₁ request target s₂ := by
  have hn := flushVisits_spec host f s
  have hreads : host.Reads s (flushVisits host f s).2 := reads_flushVisits host f s
  obtain ⟨guesses, hqueries, -⟩ := hn.queries
  cases drains_of_drain h with
  | idle idle => simp [hasPending, hq] at idle
  | @layer _ f₁ _ _ _ s₁ _ _ _ _ scanned resolved _ =>
    rw [scanned] at hn hreads hqueries
    have hfirst : f₁.queries = ⟨key, false⟩ :: guesses := by simpa [hq] using hqueries
    obtain ⟨result, f₂, s₂, hres, heq⟩ := resolveQueue_cons host ⟨key, false⟩ guesses f₁ s₁
    rw [hfirst, heq] at resolved
    cases hres with
    | cached hit =>
      have hsame : f₁.cache = f.cache := hn.cache
      simp [hsame, hfresh] at hit
    | dropped guess => simp at guess
    | refused => simp at resolved
    | granted _ grants =>
      have hoptions : f₁.options = f.options := hn.options
      exact ⟨s₁, s₂, _, _, hreads, hoptions ▸ grants⟩

/-! ## Invariants -/

/-- What resolving the first queued reference keeps, the resolution of the queue keeps. -/
theorem resolveQueue_keeps {P : Frontier → σ → Prop}
    (hresolve : ∀ {f f' : Frontier} {s s' : σ} {q : Query} {rest : List Query}
      {result : Except Failure (Option Path)}, P f s → f.queries = q :: rest →
      resolve host q.key q.speculative { f with queries := rest } s = (result, f', s') → P f' s')
    {queries : List Query} (hf : P f s) (hq : f.queries = queries) :
    P (resolveQueue host queries f s).2.1 (resolveQueue host queries f s).2.2 := by
  induction queries generalizing f s with
  | nil =>
    have hsame : { f with queries := [] } = f := by rw [← hq]
    unfold resolveQueue
    rwa [hsame]
  | cons q rest ih =>
    rcases hr : resolve host q.key q.speculative { f with queries := rest } s with
      ⟨failure | found, f₁, s₁⟩
    · rw [resolveQueue, hr]
      exact hresolve hf hq hr
    · rw [resolveQueue, hr]
      exact ih (hresolve hf hq hr) (resolution_of_resolve hr).extends.2

/-- What every scan of the waiting documents and every call for the first queued reference keep of
the frontier and the host, a drain keeps, whether it fails or not. -/
theorem Drains.preserves {P : Frontier → σ → Prop}
    (hscan : ∀ {f : Frontier} {s : σ}, P f s → P (flushVisits host f s).1 (flushVisits host f s).2)
    (hresolve : ∀ {f f' : Frontier} {s s' : σ} {q : Query} {rest : List Query}
      {result : Except Failure (Option Path)}, P f s → f.queries = q :: rest →
      resolve host q.key q.speculative { f with queries := rest } s = (result, f', s') → P f' s')
    {result : Except Failure Unit} (h : Drains host f s result f' s') (hf : P f s) : P f' s' := by
  have hlayer : ∀ {f f₁ f₂ : Frontier} {s s₁ s₂ : σ} {result : Except Failure Unit}, P f s →
      flushVisits host f s = (f₁, s₁) →
      resolveQueue host f₁.queries f₁ s₁ = (result, f₂, s₂) → P f₂ s₂ := by
    intro f f₁ f₂ s s₁ s₂ result hf scanned resolved
    have h₁ := hscan hf
    rw [scanned] at h₁
    have h₂ := resolveQueue_keeps hresolve h₁ rfl
    rwa [resolved] at h₂
  induction h with
  | idle => exact hf
  | failed _ scanned resolved => exact hlayer hf scanned resolved
  | layer _ scanned resolved _ ih => exact ih (hlayer hf scanned resolved)

/-- What every scan of the waiting documents and every resolution of the first queued reference
keep of the frontier and the host, a drain keeps. -/
theorem Drains.carries {P : Frontier → σ → Prop}
    (hscan : ∀ {f : Frontier} {s : σ}, P f s → P (flushVisits host f s).1 (flushVisits host f s).2)
    (hresolve : ∀ {f f' : Frontier} {s s' : σ} {q : Query} {rest : List Query}
      {result : Except Failure (Option Path)}, P f s → f.queries = q :: rest →
      Resolution host q.key q.speculative { f with queries := rest } s result f' s' → P f' s')
    {result : Except Failure Unit} (h : Drains host f s result f' s') (hf : P f s) : P f' s' :=
  h.preserves hscan (fun hf hq heq => hresolve hf hq (resolution_of_resolve heq)) hf

/-- What they keep of the frontier, whatever the host does, a drain keeps. -/
theorem Drains.keeps {P : Frontier → Prop}
    (hscan : ∀ {f : Frontier} (s : σ), P f → P (flushVisits host f s).1)
    (hresolve : ∀ {f f' : Frontier} {s s' : σ} {q : Query} {rest : List Query}
      {result : Except Failure (Option Path)}, P f → f.queries = q :: rest →
      Resolution host q.key q.speculative { f with queries := rest } s result f' s' → P f')
    {result : Except Failure Unit} (h : Drains host f s result f' s') (hf : P f) : P f' :=
  h.carries (P := fun f _ => P f) (fun {_ s} => hscan s) hresolve hf

/-- A drain keeps the options, and the cache grows, even if the drain fails. -/
theorem Drains.extends {result : Except Failure Unit} (h : Drains host f s result f' s') :
    Extends host f f' := by
  refine h.keeps (P := fun f' => Extends host f f') ?_ ?_ ⟨rfl, .refl⟩
  · intro f₁ s₁ h₁
    exact h₁.trans (.flushVisits host f₁ s₁)
  · intro f₁ f₂ s₁ s₂ q rest result h₁ _ hresolution
    have h₂ := hresolution.extends.1
    exact h₁.trans ⟨h₂.options, h₂.cache⟩

/-! ## Without scanning ahead -/

/-- No document waits, and none ever will. -/
def Still (f : Frontier) : Prop :=
  f.options.prefetch = false ∧ f.visits = []

theorem Still.enqueueVisit (h : f.Still) (file : Path) (text : Option String) :
    f.enqueueVisit file text = f := by
  unfold Frontier.enqueueVisit wantsVisit
  rw [h.1]
  rfl

theorem Still.addDependencies (h : f.Still) (files : List Path) :
    (f.addDependencies files).Still := by
  induction files generalizing f with
  | nil => exact h
  | cons file files ih =>
    refine ih (f := f.addDependency file) ?_
    unfold addDependency
    rw [h.enqueueVisit]
    exact h

theorem Still.flushVisits (h : f.Still) (s : σ) : flushVisits host f s = (f, s) := by
  obtain ⟨options, cache, visits, visited, queries, dependencies, ledger⟩ := f
  obtain rfl : visits = [] := h.2
  rfl

/-- Without scanning ahead, a drain of one required reference does nothing but resolve it. -/
theorem Still.drain {layers : Nat} {key : Reference} (h : f.Still)
    (hq : f.queries = [⟨key, false⟩]) (hfresh : f.cache.find? key = none)
    (hd : drain host layers f s = some (.ok (), f', s')) :
    ∃ request target, host.Grants key.context (f.options.dialect.candidates key.request) s request
        target s' ∧ f'.cache = f.cache.learn key request target := by
  cases drains_of_drain hd with
  | idle idle => simp [hasPending, hq] at idle
  | layer _ scanned resolved others =>
    rw [h.flushVisits] at scanned
    obtain ⟨rfl, rfl⟩ := Prod.mk.inj scanned
    obtain ⟨result, f₁, s₁, hres, heq⟩ := resolveQueue_cons host ⟨key, false⟩ [] f s
    rw [hq, heq] at resolved
    cases hres with
    | cached hit => simp [hfresh] at hit
    | dropped guess => simp at guess
    | refused => simp at resolved
    | @granted _ request target ledger _ grants =>
      simp only [resolveQueue] at resolved
      obtain ⟨rfl, rfl⟩ := Prod.mk.inj (Prod.mk.inj resolved).2
      -- Nothing waits now, so the drain is over.
      have hvisits : (Frontier.record { f with queries := [], ledger } key request target).visits =
          [] := by
        simp [record, Frontier.enqueueVisit, wantsVisit, h.1, h.2]
      cases others with
      | idle => exact ⟨request, target, grants, record_cache _ key request target⟩
      | layer pending => simp [hasPending, hvisits] at pending

end StyleWeave.Frontier
