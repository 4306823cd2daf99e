import StyleWeave.Proofs.Frontier.Exploration
import StyleWeave.Proofs.Frontier.Layers
import StyleWeave.Proofs.Frontier.View

/-!
# The ledger adds up

A frontier keeps a ledger of its work, and the three places that queue documents keep them apart.
`Host.metered` records what the host is really asked, and `Balanced` says how the ledger, the cache
and the visited documents agree with that record: each document is read at most once, and every
visited document was scanned or could not be read. All calls to a frontier keep the balance, drains
that fail midway included (`ledger_adds_up`).
-/

namespace StyleWeave

variable {σ : Type}

/-- What a host was asked. -/
structure Meter where
  /-- The references that it was to resolve, in order. -/
  asked : List Reference := []
  /-- The files that it was to read, in order, and whether it could. -/
  reads : List (Path × Bool) := []

/-- How many files could not be read. -/
def Meter.failed (m : Meter) : Nat :=
  m.reads.countP fun read => !read.2

/-- The host with a record of what it is asked. -/
def Host.metered (host : Host σ) : Host (σ × Meter) where
  resolve t key :=
    let (result, s) := host.resolve t.1 key
    (result, s, { t.2 with asked := t.2.asked ++ [key] })
  read t file :=
    let (result, s) := host.read t.1 file
    (result, s, { t.2 with reads := t.2.reads ++ [(file, result.isOk)] })
  depend t file := (host.depend t.1 file, t.2)

theorem Host.metered_shows (host : Host σ) : Host.Shows Prod.fst host.metered host where
  resolve _ _ := rfl
  read _ _ := rfl
  depend _ _ := rfl

namespace Cache

theorem size_store (c : Cache) (key : Reference) (target : Path) :
    (c.store key target).size = c.size + if c.contains key then 0 else 1 := by
  have hentries : ∀ entries : List (Reference × Path),
      (storeInto key target entries).length =
        entries.length + if (entries.lookup key).isSome then 0 else 1 := by
    intro entries
    induction entries with
    | nil => rfl
    | cons entry rest ih =>
      obtain ⟨k, p⟩ := entry
      unfold storeInto
      by_cases hk : key == k
      · rw [if_pos hk, List.lookup_cons, hk]
        rfl
      · rw [if_neg hk, List.lookup_cons, Bool.eq_false_iff.2 hk, List.length_cons, ih,
          List.length_cons]
        dsimp only
        omega
  exact hentries c.entries

/-- A reference that was not cached makes one or two entries. -/
theorem size_learn {c : Cache} {key : Reference} (fresh : c.find? key = none) (request : String)
    (target : Path) :
    c.size + 1 ≤ (c.learn key request target).size ∧
      (c.learn key request target).size ≤ c.size + 2 := by
  have hfirst : (c.store key target).size = c.size + 1 := by
    rw [size_store, contains_eq_false.2 fresh]
    rfl
  have hsecond := (c.store key target).size_store ⟨key.context, request⟩ target
  unfold learn
  rw [hsecond, hfirst]
  split <;> omega

end Cache

namespace Frontier

variable {host : Host σ} {f f' : Frontier} {s s' : σ} {t t' : σ × Meter} {m m' : Meter}

/-! ## Entries in the ledger -/

theorem ask_ledger (host : Host σ) (context : Path) (requests : List String) (f : Frontier)
    (s : σ) :
    (ask host context requests f s).2.1.ledger =
      { f.ledger with
        hostResolveCalls :=
          f.ledger.hostResolveCalls + (host.asked context requests s).length } := by
  induction requests generalizing f s with
  | nil => rfl
  | cons request rest ih =>
    rcases hr : host.resolve s ⟨context, request⟩ with ⟨failure | target, s₁⟩
    · have hrest := ih { f with ledger.hostResolveCalls := f.ledger.hostResolveCalls + 1 } s₁
      simp only [ask, Host.asked, hr]
      generalize ask host context rest _ s₁ = answer at hrest ⊢
      obtain ⟨reasons | found, f₁, s₂⟩ := answer <;>
        simpa [Nat.add_assoc, Nat.add_comm 1] using hrest
    · simp only [ask, Host.asked, hr]
      rfl

/-- One if a reference that was not cached has been resolved. -/
def newlyResolved (cached : Bool) : Except Failure (Option Path) → Nat
  | .ok (some _) => if cached then 0 else 1
  | _ => 0

/-- One if a reference has been dropped. -/
def newlyDropped : Except Failure (Option Path) → Nat
  | .ok none => 1
  | _ => 0

/-- What a resolution enters in the ledger: each question to the host, and whether the reference was
resolved or dropped. -/
theorem resolve_ledger {key : Reference} {speculative : Bool}
    {result : Except Failure (Option Path)}
    (h : resolve host key speculative f s = (result, f', s')) :
    f'.ledger =
      { f.ledger with
        hostResolveCalls := f.ledger.hostResolveCalls + (inquiries host key f s).length
        resolved := f.ledger.resolved + newlyResolved (f.cache.contains key) result
        dropped := f.ledger.dropped + newlyDropped result } := by
  unfold resolve at h
  unfold inquiries Cache.contains newlyResolved newlyDropped
  cases hc : f.cache.find? key with
  | some target =>
    rw [hc] at h
    cases h
    simp
  | none =>
    rw [hc] at h
    have hledger := ask_ledger host key.context (f.options.dialect.candidates key.request) f s
    dsimp only at h
    generalize ask host key.context (f.options.dialect.candidates key.request) f s = answer
      at h hledger
    obtain ⟨reasons | ⟨request, target⟩, f₁, s₁⟩ := answer <;> dsimp only at hledger
    · cases speculative with
      | true =>
        cases h
        simp [hledger]
      | false =>
        cases h
        simp [hledger]
    · cases h
      have hrecord : (f₁.record key request target).ledger =
          { f₁.ledger with resolved := f₁.ledger.resolved + 1 } := by
        unfold record enqueueVisit
        dsimp only
        split <;> rfl
      simp [hrecord, hledger]

theorem enqueueVisit_ledger (f : Frontier) (file : Path) (text : Option String) :
    (f.enqueueVisit file text).ledger = f.ledger := by
  unfold enqueueVisit
  split <;> rfl

theorem enqueueImports_ledger (f : Frontier) (imports : List FoundImport) :
    (f.enqueueImports imports).ledger = f.ledger := by
  induction imports generalizing f with
  | nil => rfl
  | cons i rest ih =>
    obtain ⟨queries, heq, -⟩ := f.enqueueQuery_spec ⟨i.context, f.options.requestFor i.name⟩ true
    have hrest := ih { f with queries }
    rw [← heq] at hrest
    exact hrest.trans (by rw [heq])

/-- Each document that could be scanned is entered once. -/
theorem foldl_takeScan_ledger (scans : List (Path × Option (List FoundImport))) (f : Frontier) :
    (scans.foldl takeScan f).ledger =
      { f.ledger with scans := f.ledger.scans + scans.countP fun scan => scan.2.isSome } := by
  induction scans generalizing f with
  | nil => rfl
  | cons scan rest ih =>
    obtain ⟨file, imports⟩ := scan
    rw [List.foldl_cons, ih]
    cases imports with
    | none => simp [takeScan]
    | some imports => simp [takeScan, enqueueImports_ledger, Nat.add_assoc, Nat.add_comm 1]

/-! ## The host's record -/

theorem ask_metered (host : Host σ) (context : Path) (requests : List String) (f : Frontier)
    (t : σ × Meter) :
    (ask host.metered context requests f t).2.2.2 =
      { t.2 with
        asked := t.2.asked ++ (host.metered.asked context requests t).map (⟨context, ·⟩) } := by
  induction requests generalizing f t with
  | nil => simp [ask, Host.asked]
  | cons request rest ih =>
    have hmeter : (host.metered.resolve t ⟨context, request⟩).2.2 =
        { t.2 with asked := t.2.asked ++ [⟨context, request⟩] } := rfl
    rcases hr : host.metered.resolve t ⟨context, request⟩ with ⟨failure | target, t₁⟩
    · rw [hr] at hmeter
      dsimp only at hmeter
      have hrest := ih { f with ledger.hostResolveCalls := f.ledger.hostResolveCalls + 1 } t₁
      simp only [ask, Host.asked, hr]
      generalize ask host.metered context rest _ t₁ = answer at hrest ⊢
      obtain ⟨reasons | found, f₁, t₂⟩ := answer <;> simpa [hmeter] using hrest
    · rw [hr] at hmeter
      simpa [ask, Host.asked, hr] using hmeter

theorem resolve_metered {key : Reference} {speculative : Bool}
    {result : Except Failure (Option Path)}
    (h : resolve host.metered key speculative f t = (result, f', t')) :
    t'.2 = { t.2 with
      asked := t.2.asked ++ (inquiries host.metered key f t).map Inquiry.key } := by
  unfold resolve at h
  unfold inquiries Cache.contains
  cases hc : f.cache.find? key with
  | some target =>
    rw [hc] at h
    cases h
    simp
  | none =>
    rw [hc] at h
    have hmeter := ask_metered host key.context (f.options.dialect.candidates key.request) f t
    have hkeys : Inquiry.key ∘ (⟨f.cache, key, ·⟩ : String → Inquiry) =
        fun request => ⟨key.context, request⟩ := rfl
    dsimp only at h
    generalize ask host.metered key.context (f.options.dialect.candidates key.request) f t = answer
      at h hmeter
    obtain ⟨reasons | ⟨request, target⟩, f₁, t₁⟩ := answer <;> dsimp only at hmeter
    · cases speculative <;> cases h <;> simp [hmeter, hkeys]
    · cases h
      simp [hmeter, hkeys]

/-- The files of a batch without a text are read, in order, and each of its documents is scanned or
could not be read. -/
theorem scanBatch_metered (host : Host σ) (options : Options) (batch : List Visit)
    (t : σ × Meter) :
    ∃ reads : List (Path × Bool),
      (scanBatch host.metered options batch t).2.2 = { t.2 with reads := t.2.reads ++ reads } ∧
      reads.map Prod.fst = (batch.filter fun v => v.text.isNone).map Visit.file ∧
      ((scanBatch host.metered options batch t).1.countP fun scan => scan.2.isSome) +
        (reads.countP fun read => !read.2) = batch.length := by
  induction batch generalizing t with
  | nil => exact ⟨[], by simp [scanBatch], rfl, rfl⟩
  | cons v rest ih =>
    unfold scanBatch Host.scanFile
    cases htext : v.text with
    | some text =>
      obtain ⟨reads, hreads, hfiles, hcount⟩ := ih t
      refine ⟨reads, hreads, by simpa [htext] using hfiles, ?_⟩
      dsimp only
      rw [List.countP_cons, List.length_cons, ← hcount]
      simp only [Except.toOption, Option.isSome_some, if_true]
      omega
    | none =>
      have hmeter : (host.metered.read t v.file).2.2 =
          { t.2 with reads := t.2.reads ++ [(v.file, (host.metered.read t v.file).1.isOk)] } := rfl
      rcases hread : host.metered.read t v.file with ⟨result, t₁⟩
      rw [hread] at hmeter
      dsimp only at hmeter
      obtain ⟨reads, hreads, hfiles, hcount⟩ := ih t₁
      refine ⟨(v.file, result.isOk) :: reads, ?_, by simpa [htext] using hfiles, ?_⟩
      · dsimp only
        rw [hreads, hmeter]
        simp
      · dsimp only
        rw [List.countP_cons, List.countP_cons, List.length_cons, ← hcount]
        cases result <;> simp [Except.map, Except.toOption, Except.isOk, Except.toBool] <;> omega

/-! ## The balance -/

/-- The frontier, its ledger and the record of what the host was asked agree. -/
structure Balanced (f : Frontier) (m : Meter) : Prop where
  /-- No document waits twice, or waits and was visited. -/
  differ : f.documents.Pairwise fun a b => (a == b) = false
  /-- No file was read twice. -/
  once : m.reads.Pairwise fun r r' => (r.1 == r'.1) = false
  visited : ∀ r ∈ m.reads, f.isVisited r.1 = true
  scans : f.ledger.scans + m.failed = f.visited.length
  asked : f.ledger.hostResolveCalls = m.asked.length
  resolved_le : f.ledger.resolved ≤ f.cache.size
  size_le : f.cache.size ≤ 2 * f.ledger.resolved

theorem balanced_empty (options : Options) : Balanced { options } {} where
  differ := List.Pairwise.nil
  once := List.Pairwise.nil
  visited r hr := by cases hr
  scans := rfl
  asked := rfl
  resolved_le := Nat.le_refl 0
  size_le := Nat.le_refl 0

theorem differ_enqueueVisit (h : f.documents.Pairwise fun a b => (a == b) = false) (file : Path)
    (text : Option String) :
    (f.enqueueVisit file text).documents.Pairwise fun a b => (a == b) = false := by
  unfold enqueueVisit
  split
  · next hwants =>
    unfold documents
    rw [List.map_append, ← List.append_assoc, List.pairwise_append]
    refine ⟨h, List.pairwise_singleton _ _, fun a ha b hb => ?_⟩
    rw [show b = file from List.mem_singleton.1 hb]
    exact differs_of_wantsVisit hwants a ha
  · exact h

theorem Balanced.enqueueVisit (h : Balanced f m) (file : Path) (text : Option String) :
    Balanced (f.enqueueVisit file text) m where
  differ := differ_enqueueVisit h.differ file text
  once := h.once
  visited r hr := by
    unfold isVisited
    rw [enqueueVisit_visited]
    exact h.visited r hr
  scans := by
    rw [enqueueVisit_ledger, enqueueVisit_visited]
    exact h.scans
  asked := by
    rw [enqueueVisit_ledger]
    exact h.asked
  resolved_le := by
    rw [enqueueVisit_ledger, enqueueVisit_cache]
    exact h.resolved_le
  size_le := by
    rw [enqueueVisit_ledger, enqueueVisit_cache]
    exact h.size_le

/-- Neither the queue of references nor the dependencies count. -/
theorem Balanced.congr (h : Balanced f m) {queries : List Query} {dependencies : PathSet} :
    Balanced { f with queries, dependencies } m :=
  ⟨h.differ, h.once, h.visited, h.scans, h.asked, h.resolved_le, h.size_le⟩

theorem Balanced.resolve (h : Balanced f t.2) {key : Reference} {speculative : Bool}
    {result : Except Failure (Option Path)}
    (hr : Frontier.resolve host.metered key speculative f t = (result, f', t')) :
    Balanced f' t'.2 := by
  have hledger := resolve_ledger hr
  have hasked := h.asked
  rw [resolve_metered hr]
  cases resolution_of_resolve hr with
  | @cached target hit =>
    have hnothing : inquiries host.metered key f t = [] := by
      simp [inquiries, Cache.contains, hit]
    rw [hnothing, List.map_nil, List.append_nil]
    exact h
  | @granted _ request target ledger fresh grants =>
    have hcontains : f.cache.contains key = false := Cache.contains_eq_false.2 fresh
    obtain ⟨hmore, hless⟩ := Cache.size_learn fresh request target
    have hresolved := h.resolved_le
    have hsize := h.size_le
    -- Only the ledger and the cache differ from those of the balance before.
    have hentered : Balanced (Frontier.recorded { f with ledger } key request target)
        { t.2 with asked := t.2.asked ++ (inquiries host.metered key f t).map Inquiry.key } := by
      have hsame : (Frontier.recorded { f with ledger } key request target).ledger =
          (Frontier.record { f with ledger } key request target).ledger :=
        (enqueueVisit_ledger _ target none).symm
      rw [hledger, hcontains] at hsame
      have hone : newlyResolved false (.ok (some target)) = 1 := rfl
      rw [hone] at hsame
      refine ⟨h.differ, h.once, h.visited, ?_, ?_, ?_, ?_⟩
      · rw [hsame]
        exact h.scans
      · rw [hsame]
        simp [hasked]
      · rw [hsame]
        show f.ledger.resolved + 1 ≤ (f.cache.learn key request target).size
        omega
      · rw [hsame]
        show (f.cache.learn key request target).size ≤ 2 * (f.ledger.resolved + 1)
        omega
    exact hentered.enqueueVisit target none
  | dropped guess fresh refuses =>
    refine ⟨h.differ, h.once, h.visited, ?_, ?_, ?_, ?_⟩ <;> rw [hledger]
    · exact h.scans
    · simp [hasked]
    · exact h.resolved_le
    · exact h.size_le
  | refused required fresh refuses =>
    refine ⟨h.differ, h.once, h.visited, ?_, ?_, ?_, ?_⟩ <;> rw [hledger]
    · exact h.scans
    · simp [hasked]
    · exact h.resolved_le
    · exact h.size_le

theorem Balanced.flushVisits (h : Balanced f t.2) :
    Balanced (Frontier.flushVisits host.metered f t).1
      (Frontier.flushVisits host.metered f t).2.2 := by
  unfold Frontier.flushVisits
  rw [takeVisits_of_differ h.differ]
  dsimp only
  obtain ⟨reads, hreads, hfiles, hcount⟩ := scanBatch_metered host f.options f.visits t
  have hledger := foldl_takeScan_ledger (scanBatch host.metered f.options f.visits t).1
    { f with visits := [], visited := f.visited ++ f.visits.map Visit.file }
  have hnoted := noted_foldl_takeScan (scanBatch host.metered f.options f.visits t).1
    { f with visits := [], visited := f.visited ++ f.visits.map Visit.file }
  generalize (scanBatch host.metered f.options f.visits t).1.foldl takeScan
    { f with visits := [], visited := f.visited ++ f.visits.map Visit.file } = behind
    at hledger hnoted ⊢
  dsimp only at hledger
  have hvisited : behind.visited = f.visited ++ f.visits.map Visit.file := hnoted.visited
  have hvisits : behind.visits = [] := hnoted.visits
  have hcache : behind.cache = f.cache := hnoted.cache
  have hsub : reads.map Prod.fst ⊆ f.visits.map Visit.file := by
    rw [hfiles]
    exact List.map_subset _ (List.filter_subset_self _)
  rw [hreads]
  refine ⟨?_, ?_, ?_, ?_, ?_, ?_, ?_⟩
  · unfold documents
    rw [hvisited, hvisits]
    simpa [documents] using h.differ
  · refine List.pairwise_append.2 ⟨h.once, ?_, fun r hr r' hr' => ?_⟩
    · -- The files read now waited, and no two that waited are equal.
      have hwaiting : (reads.map Prod.fst).Pairwise fun a b => (a == b) = false := by
        rw [hfiles]
        exact (List.pairwise_append.1 h.differ).2.1.sublist (List.filter_sublist.map _)
      exact List.pairwise_map.1 hwaiting
    · obtain ⟨file, hfile, heq⟩ := List.contains_iff_exists_mem_beq.1 (h.visited r hr)
      have hother := (List.pairwise_append.1 h.differ).2.2 file hfile r'.1
        (hsub (List.mem_map_of_mem hr'))
      rw [BEq.congr_left heq]
      exact hother
  · intro r hr
    unfold isVisited
    rw [hvisited, List.contains_iff_exists_mem_beq]
    rcases List.mem_append.1 hr with hr | hr
    · obtain ⟨file, hfile, heq⟩ := List.contains_iff_exists_mem_beq.1 (h.visited r hr)
      exact ⟨file, List.mem_append_left _ hfile, heq⟩
    · exact ⟨r.1, List.mem_append_right _ (hsub (List.mem_map_of_mem hr)), BEq.refl _⟩
  · have hscans := h.scans
    unfold Meter.failed at hscans ⊢
    rw [hledger, hvisited, List.countP_append, List.length_append, List.length_map, ← hcount]
    dsimp only
    omega
  · rw [hledger]
    exact h.asked
  · rw [hledger, hcache]
    exact h.resolved_le
  · rw [hledger, hcache]
    exact h.size_le

/-! ## Documents given with their texts -/

/-- The document waits with its text or was visited, and the host was never asked to read it. -/
structure Spared (file : Path) (f : Frontier) (m : Meter) : Prop where
  known : f.documents.contains file = true
  given : ∀ v ∈ f.visits, (v.file == file) = true → v.text.isSome = true
  unread : ∀ r ∈ m.reads, (r.1 == file) = false

variable {file : Path}

theorem Balanced.spared (h : Balanced f m) (hwants : f.wantsVisit file = true) (text : String) :
    Spared file (f.enqueueVisit file (some text)) m where
  known := by
    rw [documents_contains_iff, Frontier.enqueueVisit, if_pos hwants]
    exact Or.inr ⟨_, List.mem_append_right _ (List.mem_singleton_self _), BEq.refl _⟩
  given v hv hfile := by
    rcases mem_visits_enqueueVisit hv with hv | ⟨rfl, -⟩
    · have hdiffer := differs_of_wantsVisit hwants v.file
        (List.mem_append_right _ (List.mem_map_of_mem hv))
      rw [hfile] at hdiffer
      cases hdiffer
    · rfl
  unread r hr := by
    obtain ⟨other, hother, heq⟩ := List.contains_iff_exists_mem_beq.1 (h.visited r hr)
    have hdiffer := differs_of_wantsVisit hwants other (List.mem_append_left _ hother)
    rw [BEq.congr_left heq]
    exact hdiffer

theorem Spared.enqueueVisit (h : Spared file f m) (other : Path) (text : Option String) :
    Spared file (f.enqueueVisit other text) m where
  known := (onward_enqueueVisit f other text).documents file h.known
  given v hv hfile := by
    rcases mem_visits_enqueueVisit hv with hv | ⟨rfl, hwants⟩
    · exact h.given v hv hfile
    · rw [f.wantsVisit_congr hfile, wantsVisit_eq, h.known] at hwants
      simp at hwants
  unread := h.unread

theorem Spared.congr (h : Spared file f m) (hvisited : f'.visited = f.visited)
    (hvisits : f'.visits = f.visits) (hreads : m'.reads = m.reads) : Spared file f' m' where
  known := by
    unfold documents
    rw [hvisited, hvisits]
    exact h.known
  given := by
    rw [hvisits]
    exact h.given
  unread := by
    rw [hreads]
    exact h.unread

theorem Spared.resolve (h : Spared file f t.2) {key : Reference} {speculative : Bool}
    {result : Except Failure (Option Path)}
    (hr : Frontier.resolve host.metered key speculative f t = (result, f', t')) :
    Spared file f' t'.2 := by
  have hreads : t'.2.reads = t.2.reads := by rw [resolve_metered hr]
  cases resolution_of_resolve hr with
  | cached hit => exact h
  | @granted _ request target ledger fresh grants =>
    have hrecorded : Spared file (Frontier.recorded { f with ledger } key request target) t'.2 :=
      h.congr rfl rfl hreads
    exact hrecorded.enqueueVisit target none
  | dropped => exact h.congr rfl rfl hreads
  | refused => exact h.congr rfl rfl hreads

theorem Spared.flushVisits (hb : Balanced f t.2) (h : Spared file f t.2) :
    Spared file (Frontier.flushVisits host.metered f t).1
      (Frontier.flushVisits host.metered f t).2.2 := by
  obtain ⟨reads, hreads, hfiles, -⟩ := scanBatch_metered host f.options f.visits t
  have hmeter : (Frontier.flushVisits host.metered f t).2.2 =
      { t.2 with reads := t.2.reads ++ reads } := by
    unfold Frontier.flushVisits
    rw [takeVisits_of_differ hb.differ]
    exact hreads
  refine ⟨(onward_flushVisits host.metered f t).documents file h.known, ?_, ?_⟩
  · intro v hv
    rw [(flushVisits_spec host.metered f t).visits] at hv
    cases hv
  · rw [hmeter]
    intro r hr
    rcases List.mem_append.1 hr with hr | hr
    · exact h.unread r hr
    · have hread : r.1 ∈ (f.visits.filter fun v => v.text.isNone).map Visit.file := by
        rw [← hfiles]
        exact List.mem_map_of_mem hr
      obtain ⟨v, hv, hfile⟩ := List.mem_map.1 hread
      obtain ⟨hv, hnone⟩ := List.mem_filter.1 hv
      rw [← hfile]
      by_contra hsame
      have hsome := h.given v hv (by simpa using hsame)
      rw [Option.isNone_iff_eq_none.1 hnone] at hsome
      cases hsome

/-! ## Calls -/

/-- What the steps keep that the calls to a frontier are made of. -/
structure Invariant (host : Host σ) (P : Frontier → σ → Prop) : Prop where
  visit {f : Frontier} {s : σ} (file : Path) (text : Option String) (h : P f s) :
    P (f.enqueueVisit file text) s
  /-- The queue of references and the dependencies do not matter. -/
  congr {f : Frontier} {s : σ} (queries : List Query) (dependencies : PathSet) (h : P f s) :
    P { f with queries, dependencies } s
  resolve {f f' : Frontier} {s s' : σ} {key : Reference} {speculative : Bool}
    {result : Except Failure (Option Path)} (h : P f s)
    (hr : Frontier.resolve host key speculative f s = (result, f', s')) : P f' s'
  scan {f : Frontier} {s : σ} (h : P f s) : P (flushVisits host f s).1 (flushVisits host f s).2

section

variable {P : Frontier → σ → Prop}

theorem Invariant.addDependencies (hinv : Invariant host P) (h : P f s) (files : List Path) :
    P (f.addDependencies files) s := by
  induction files generalizing f with
  | nil => exact h
  | cons file rest ih =>
    exact ih (f := f.addDependency file) (hinv.congr _ _ (hinv.visit file none h))

theorem Invariant.call (hinv : Invariant host P) (h : P f s) {call : Call}
    (hrun : call.run host f s = some (f', s')) : P f' s' := by
  cases call with
  | enqueueVisit file text =>
    cases hrun
    exact hinv.visit file text h
  | enqueueQuery key speculative =>
    cases hrun
    obtain ⟨queries, heq, -⟩ := f.enqueueQuery_spec key speculative
    rw [heq]
    exact hinv.congr queries f.dependencies h
  | addDependencies files =>
    cases hrun
    exact hinv.addDependencies h files
  | resolve key speculative =>
    rcases hr : Frontier.resolve host key speculative f s with ⟨result, f₁, s₁⟩
    rw [Call.run, hr] at hrun
    cases hrun
    exact hinv.resolve h hr
  | drain layers =>
    obtain ⟨⟨result, f₁, s₁⟩, hd, heq⟩ := Option.map_eq_some_iff.1 hrun
    cases heq
    refine (drains_of_drain hd).preserves hinv.scan ?_ h
    intro f f' s s' q rest result hf _ hr
    exact hinv.resolve (hinv.congr rest f.dependencies hf) hr

theorem Invariant.runAll (hinv : Invariant host P) {calls : List Call} (h : P f s)
    (hrun : runAll host calls f s = some (f', s')) : P f' s' := by
  induction calls generalizing f s with
  | nil =>
    cases hrun
    exact h
  | cons call rest ih =>
    obtain ⟨⟨f₁, s₁⟩, hfirst, hrest⟩ := Option.bind_eq_some_iff.1 hrun
    exact ih (hinv.call h hfirst) hrest

end

theorem balanced_invariant (host : Host σ) :
    Invariant host.metered fun f t => Balanced f t.2 where
  visit file text h := h.enqueueVisit file text
  congr _ _ h := h.congr
  resolve h hr := h.resolve hr
  scan h := h.flushVisits

theorem spared_invariant (host : Host σ) (file : Path) :
    Invariant host.metered fun f t => Balanced f t.2 ∧ Spared file f t.2 where
  visit other text h := ⟨h.1.enqueueVisit other text, h.2.enqueueVisit other text⟩
  congr _ _ h := ⟨h.1.congr, h.2.congr rfl rfl rfl⟩
  resolve h hr := ⟨h.1.resolve hr, h.2.resolve hr⟩
  scan h := ⟨h.1.flushVisits, h.2.flushVisits h.1⟩

/-- Without scanning ahead no document is queued, and none visited. -/
structure Unvisited (f : Frontier) : Prop where
  still : f.Still
  visited : f.visited = []

theorem unvisited_invariant (host : Host σ) : Invariant host fun f _ => f.Unvisited where
  visit file text h := by
    rw [h.still.enqueueVisit]
    exact h
  congr _ _ h := ⟨h.still, h.visited⟩
  resolve {f f' s s' key speculative result} h hr := by
    cases resolution_of_resolve hr with
    | cached => exact h
    | @granted _ request target ledger =>
      have hstill : (Frontier.recorded { f with ledger } key request target).Still := h.still
      rw [record_eq, hstill.enqueueVisit]
      exact ⟨hstill, h.visited⟩
    | dropped | refused => exact ⟨h.still, h.visited⟩
  scan h := by
    rw [h.still.flushVisits]
    exact h

theorem runAll_append (host : Host σ) (calls calls' : List Call) (f : Frontier) (s : σ) :
    runAll host (calls ++ calls') f s =
      (runAll host calls f s).bind fun behind => runAll host calls' behind.1 behind.2 := by
  induction calls generalizing f s with
  | nil => rfl
  | cons call rest ih =>
    show ((call.run host f s).bind fun behind => runAll host (rest ++ calls') behind.1 behind.2) =
      ((call.run host f s).bind fun behind => runAll host rest behind.1 behind.2).bind _
    cases call.run host f s with
    | none => rfl
    | some behind => exact ih behind.1 behind.2

/-- After any calls to an empty frontier, no two of the documents that wait or were visited are
equal; no file was read twice, and none that was queued with its text; the scans and the failed
readings are as many as the visited documents; the host was asked for as many references as the
ledger says; each resolution has left one or two references in the cache; and without scanning ahead
nothing was visited, read or scanned. -/
theorem ledger_adds_up (host : Host σ) (options : Options) (calls : List Call) (s : σ)
    (h : runAll host calls { options } s = some (f, s')) :
    ∃ m : Meter, runAll host.metered calls { options } (s, {}) = some (f, s', m) ∧
      ((f.visited ++ f.visits.map Visit.file).Pairwise fun a b => (a == b) = false) ∧
      (m.reads.Pairwise fun r r' => (r.1 == r'.1) = false) ∧
      (∀ before file text behind f₁ s₁, calls = before ++ .enqueueVisit file (some text) :: behind →
        runAll host before { options } s = some (f₁, s₁) → f₁.wantsVisit file = true →
        ∀ r ∈ m.reads, (r.1 == file) = false) ∧
      f.ledger.scans + m.failed = f.visited.length ∧
      f.ledger.hostResolveCalls = m.asked.length ∧
      f.ledger.resolved ≤ f.cache.size ∧ f.cache.size ≤ 2 * f.ledger.resolved ∧
      (options.prefetch = false →
        f.visits = [] ∧ f.visited = [] ∧ m.reads = [] ∧ f.ledger.scans = 0) := by
  have hmetered : ∀ {calls : List Call} {f : Frontier} {s' : σ},
      runAll host calls { options } s = some (f, s') →
      ∃ m, runAll host.metered calls { options } (s, {}) = some (f, s', m) := by
    intro calls f s' h
    rw [runAll_shows host.metered_shows calls { options } (s, {})] at h
    obtain ⟨⟨f₁, s₁, m⟩, hrun, heq⟩ := Option.map_eq_some_iff.1 h
    cases heq
    exact ⟨m, hrun⟩
  obtain ⟨m, hm⟩ := hmetered h
  have hb : Balanced f m :=
    (balanced_invariant host).runAll (balanced_empty options) hm
  refine ⟨m, hm, hb.differ, hb.once, ?_, hb.scans, hb.asked, hb.resolved_le, hb.size_le,
    fun hoff => ?_⟩
  · rintro before file text behind f₁ s₁ rfl hbefore hwants
    obtain ⟨m₁, hm₁⟩ := hmetered hbefore
    have hb₁ : Balanced f₁ m₁ :=
      (balanced_invariant host).runAll (balanced_empty options) hm₁
    rw [runAll_append, hm₁] at hm
    have hbehind : runAll host.metered behind (f₁.enqueueVisit file (some text)) (s₁, m₁) =
        some (f, s', m) := hm
    have hboth := (spared_invariant host file).runAll
      ⟨hb₁.enqueueVisit file (some text), hb₁.spared hwants text⟩ hbehind
    exact hboth.2.unread
  · have hunvisited : f.Unvisited :=
      (unvisited_invariant host).runAll ⟨⟨hoff, rfl⟩, rfl⟩ h
    have hscans := hb.scans
    rw [hunvisited.visited] at hscans
    have hnone : m.reads = [] := by
      refine List.eq_nil_iff_forall_not_mem.2 fun r hr => ?_
      have hvisited := hb.visited r hr
      rw [isVisited, hunvisited.visited] at hvisited
      cases hvisited
    exact ⟨hunvisited.still.2, hunvisited.visited, hnone, (Nat.add_eq_zero_iff.1 hscans).1⟩

/-- A stylesheet that another one imports. -/
def importedSheet : Memory where
  files := [(⟨"/s/b.styl"⟩, "a\n")]

/-- An importing document is queued with its text, and one that is not there without. -/
def visitsAndDrain : List Call :=
  [.enqueueVisit ⟨"/s/a.styl"⟩ (some "@import 'b'\n"), .enqueueVisit ⟨"/s/ghost.styl"⟩ none,
    .drain 3]

theorem ledger_adds_up_importedSheet :
    ∃ f s m, runAll importedSheet.host visitsAndDrain { options := {} } {} = some (f, s) ∧
      runAll importedSheet.host.metered visitsAndDrain { options := {} } ({}, {}) =
        some (f, s, m) ∧
      f.visited.length = 3 ∧ f.ledger.scans + m.failed = 3 ∧
      ∀ r ∈ m.reads, (r.1 == (⟨"/s/a.styl"⟩ : Path)) = false := by
  have hrun : ((runAll importedSheet.host visitsAndDrain { options := {} } {}).map
      fun behind => behind.1.visited.length) = some 3 := by decide +kernel
  obtain ⟨⟨f, s⟩, hbehind, hlength⟩ := Option.map_eq_some_iff.1 hrun
  obtain ⟨m, hm, -, -, hgiven, hscans, -⟩ :=
    ledger_adds_up importedSheet.host {} visitsAndDrain {} hbehind
  refine ⟨f, s, m, hbehind, hm, hlength, hscans.trans hlength, ?_⟩
  exact hgiven [] _ _ _ _ _ rfl rfl (by decide +kernel)

end Frontier

end StyleWeave
