import StyleWeave.Proofs.Frontier.Ledger

/-!
# A drain loses no reference

A failure ends a drain in the middle of its queue. What becomes of the references that waited then?
Those in front of the one that failed were served: they are cached, or were speculative and are
counted as dropped. Those behind it wait as before. So nothing is lost, and draining again until a
drain succeeds serves all that waited at first, except for the required references that the host
refused meanwhile (`drain_conserves`).
-/

namespace StyleWeave.Frontier

variable {σ : Type} {host : Host σ} {f f' f'' : Frontier} {s s' : σ} {c c' : Cache}
variable {queries front behind dropped dropped' : List Query} {refused refused' : List Reference}

/-- What became of each reference of a queue: it is cached, or it was required and is one of those
refused, or it was speculative and is one of those dropped. -/
inductive Served (c : Cache) : List Query → List Reference → List Query → Prop where
  | nil : Served c [] [] []
  | cached {q : Query} {rest : List Query} {refused : List Reference} {dropped : List Query}
      (hit : c.contains q.key = true) (others : Served c rest refused dropped) :
      Served c (q :: rest) refused dropped
  | refused {q : Query} {rest : List Query} {refused : List Reference} {dropped : List Query}
      (required : q.speculative = false) (others : Served c rest refused dropped) :
      Served c (q :: rest) (q.key :: refused) dropped
  | dropped {q : Query} {rest : List Query} {refused : List Reference} {dropped : List Query}
      (guess : q.speculative = true) (others : Served c rest refused dropped) :
      Served c (q :: rest) refused (q :: dropped)

/-- What was served stays so as long as the cache grows. -/
theorem Served.mono (h : Served c queries refused dropped)
    (hcache : ∀ key, c.contains key = true → c'.contains key = true) :
    Served c' queries refused dropped := by
  induction h with
  | nil => exact .nil
  | cached hit _ ih => exact .cached (hcache _ hit) ih
  | refused required _ ih => exact .refused required ih
  | dropped guess _ ih => exact .dropped guess ih

theorem Served.append (h : Served c front refused dropped)
    (h' : Served c behind refused' dropped') :
    Served c (front ++ behind) (refused ++ refused') (dropped ++ dropped') := by
  induction h with
  | nil => exact h'
  | cached hit _ ih => exact .cached hit ih
  | refused required _ ih => exact .refused required ih
  | dropped guess _ ih => exact .dropped guess ih

theorem Served.split (h : Served c (front ++ behind) refused dropped) :
    ∃ refused₁ refused₂ dropped₁ dropped₂, refused = refused₁ ++ refused₂ ∧
      dropped = dropped₁ ++ dropped₂ ∧ Served c front refused₁ dropped₁ ∧
      Served c behind refused₂ dropped₂ := by
  induction front generalizing refused dropped with
  | nil => exact ⟨[], refused, [], dropped, rfl, rfl, .nil, h⟩
  | cons q rest ih =>
    cases h with
    | cached hit others =>
      obtain ⟨r₁, r₂, d₁, d₂, rfl, rfl, hfront, hbehind⟩ := ih others
      exact ⟨r₁, r₂, d₁, d₂, rfl, rfl, .cached hit hfront, hbehind⟩
    | refused required others =>
      obtain ⟨r₁, r₂, d₁, d₂, rfl, rfl, hfront, hbehind⟩ := ih others
      exact ⟨q.key :: r₁, r₂, d₁, d₂, rfl, rfl, .refused required hfront, hbehind⟩
    | dropped guess others =>
      obtain ⟨r₁, r₂, d₁, d₂, rfl, rfl, hfront, hbehind⟩ := ih others
      exact ⟨r₁, r₂, q :: d₁, d₂, rfl, rfl, .dropped guess hfront, hbehind⟩

/-- Only required references are refused. -/
theorem Served.of_guesses (h : Served c queries refused dropped)
    (hg : ∀ q ∈ queries, q.speculative = true) : refused = [] := by
  induction h with
  | nil => rfl
  | cached _ _ ih => exact ih fun q hq => hg q (List.mem_cons_of_mem _ hq)
  | dropped _ _ ih => exact ih fun q hq => hg q (List.mem_cons_of_mem _ hq)
  | refused required _ _ =>
    rw [hg _ List.mem_cons_self] at required
    cases required

/-- A required reference that waited is cached or was refused. -/
theorem Served.required (h : Served c queries refused dropped) {q : Query} (hq : q ∈ queries)
    (hr : q.speculative = false) : c.contains q.key = true ∨ q.key ∈ refused := by
  induction h with
  | nil => cases hq
  | cached hit _ ih =>
    rcases List.mem_cons.1 hq with rfl | hq
    · exact Or.inl hit
    · exact ih hq
  | refused _ _ ih =>
    rcases List.mem_cons.1 hq with rfl | hq
    · exact Or.inr List.mem_cons_self
    · exact (ih hq).imp_right (List.mem_cons_of_mem _)
  | dropped guess _ ih =>
    rcases List.mem_cons.1 hq with rfl | hq
    · rw [guess] at hr
      cases hr
    · exact ih hq

/-! ## Queues -/

/-- Resolving one queued reference serves it, or the host refuses it although it is required. -/
theorem serves_of_resolve {q : Query} {result : Except Failure (Option Path)}
    (h : resolve host q.key q.speculative f s = (result, f', s')) :
    (∃ found dropped, result = .ok found ∧ Served f'.cache [q] [] dropped ∧
      f'.ledger.dropped = f.ledger.dropped + dropped.length) ∨
    (∃ failures, result = .error (unresolved q.key failures) ∧ q.speculative = false ∧
      f'.cache.contains q.key = false ∧ f'.ledger.dropped = f.ledger.dropped) := by
  have hledger : f'.ledger.dropped = f.ledger.dropped + newlyDropped result := by
    rw [resolve_ledger h]
  cases resolution_of_resolve h with
  | @cached target hit =>
    have hcached : f.cache.contains q.key = true := Cache.contains_iff.2 ⟨target, hit⟩
    exact Or.inl ⟨_, [], rfl, .cached hcached .nil, rfl⟩
  | @granted _ request target ledger fresh grants =>
    have hcached : (Frontier.record { f with ledger } q.key request target).cache.contains q.key =
        true := by simp
    exact Or.inl ⟨_, [], rfl, .cached hcached .nil, hledger⟩
  | dropped guess => exact Or.inl ⟨_, [q], rfl, .dropped guess .nil, hledger⟩
  | refused required fresh =>
    exact Or.inr ⟨_, rfl, required, Cache.contains_eq_false.2 fresh, hledger⟩

theorem extends_of_resolveQueue {result : Except Failure Unit} (hq : f.queries = queries)
    (h : resolveQueue host queries f s = (result, f', s')) : Extends host f f' := by
  have hkept := resolveQueue_keeps (P := fun f₁ _ => Extends host f f₁) (s := s)
    (fun he _ hr => he.trans ⟨(resolution_of_resolve hr).extends.1.options,
      (resolution_of_resolve hr).extends.1.cache⟩) ⟨rfl, .refl⟩ hq
  rwa [h] at hkept

/-- A queue is served from its front: all of it, or up to a required reference that the host
refuses. What is behind that one stays in the queue. -/
theorem resolveQueue_serves {result : Except Failure Unit}
    (h : resolveQueue host queries f s = (result, f', s')) :
    ∃ served dropped, Served f'.cache served [] dropped ∧
      f'.ledger.dropped = f.ledger.dropped + dropped.length ∧
      ((result = .ok () ∧ served = queries ∧ f'.queries = []) ∨
        ∃ key failures, result = .error (unresolved key failures) ∧
          queries = served ++ ⟨key, false⟩ :: f'.queries ∧ f'.cache.contains key = false) := by
  induction queries generalizing f s with
  | nil =>
    cases h
    exact ⟨[], [], .nil, rfl, Or.inl ⟨rfl, rfl, rfl⟩⟩
  | cons q rest ih =>
    rcases hr : resolve host q.key q.speculative { f with queries := rest } s with
      ⟨answer, f₁, s₁⟩
    have hqueue : f₁.queries = rest := (resolution_of_resolve hr).extends.2
    rw [resolveQueue, hr] at h
    rcases serves_of_resolve hr with ⟨found, dropped, rfl, hserved, hcount⟩ |
      ⟨failures, rfl, hrequired, hfresh, hcount⟩
    · obtain ⟨served, dropped', hserved', hcount', hend⟩ := ih h
      have hgrowth : Extends host f₁ f' := extends_of_resolveQueue hqueue h
      refine ⟨q :: served, dropped ++ dropped',
        (hserved.mono fun _ => hgrowth.cache.contains).append hserved', ?_, ?_⟩
      · rw [hcount', hcount, List.length_append, Nat.add_assoc]
      · rcases hend with ⟨hok, rfl, hempty⟩ | ⟨key, failures, herror, hsplit, hfresh⟩
        · exact Or.inl ⟨hok, rfl, hempty⟩
        · exact Or.inr ⟨key, failures, herror, by rw [hsplit, List.cons_append], hfresh⟩
    · cases h
      have hq : q = ⟨q.key, false⟩ := by rw [← hrequired]
      refine ⟨[], [], .nil, hcount, Or.inr ⟨q.key, failures, rfl, ?_, hfresh⟩⟩
      rw [hqueue, List.nil_append, ← hq]

/-! ## Scans -/

/-- The reference waits. -/
def isQueued (f : Frontier) (key : Reference) : Bool :=
  f.queries.any fun q => q.key == key

/-- Speculative references that did not wait have been queued. -/
def Finds (f f' : Frontier) : Prop :=
  ∃ found, f'.queries = f.queries ++ found ∧
    ∀ q ∈ found, q.speculative = true ∧ f.isQueued q.key = false

theorem Finds.refl (f : Frontier) : Finds f f :=
  ⟨[], (List.append_nil _).symm, by simp⟩

theorem Finds.trans (h : Finds f f') (h' : Finds f' f'') : Finds f f'' := by
  obtain ⟨found, hqueries, hfound⟩ := h
  obtain ⟨found', hqueries', hfound'⟩ := h'
  refine ⟨found ++ found', by rw [hqueries', hqueries, List.append_assoc], fun q hq => ?_⟩
  rcases List.mem_append.1 hq with hq | hq
  · exact hfound q hq
  · obtain ⟨hguess, hfresh⟩ := hfound' q hq
    rw [isQueued, hqueries, List.any_append, Bool.or_eq_false_iff] at hfresh
    exact ⟨hguess, hfresh.1⟩

theorem finds_enqueueImports (f : Frontier) (imports : List FoundImport) :
    Finds f (f.enqueueImports imports) := by
  induction imports generalizing f with
  | nil => exact .refl f
  | cons i rest ih =>
    have hfirst : Finds f (f.enqueueQuery ⟨i.context, f.options.requestFor i.name⟩ true) := by
      unfold enqueueQuery
      split
      · exact .refl f
      · split
        · next hwants =>
          refine ⟨_, rfl, fun q hq => ?_⟩
          rw [List.mem_singleton.1 hq]
          exact ⟨rfl, by simpa [wantsQuery, isQueued] using (Bool.and_eq_true_iff.1 hwants).2⟩
        · rw [if_pos rfl]
          exact .refl f
    exact hfirst.trans (ih _)

theorem finds_foldl_takeScan (scans : List (Path × Option (List FoundImport))) (f : Frontier) :
    Finds f (scans.foldl takeScan f) := by
  induction scans generalizing f with
  | nil => exact .refl f
  | cons scan rest ih =>
    have hfirst : Finds f (takeScan f scan) := by
      unfold takeScan
      split
      · exact .refl f
      · exact finds_enqueueImports { f with
          ledger.scans := f.ledger.scans + 1
          dependencies := f.dependencies.insert scan.1 } _
    exact hfirst.trans (ih _)

theorem finds_flushVisits (host : Host σ) (f : Frontier) (s : σ) :
    Finds f (flushVisits host f s).1 := by
  rw [flushVisits_eq]
  exact finds_foldl_takeScan _ { f with
    visits := [], visited := f.visited ++ (takeVisits f.visits f).1.map Visit.file }

/-! ## Drains -/

theorem Drains.dropped_le {result : Except Failure Unit} (h : Drains host f s result f' s') :
    f.ledger.dropped ≤ f'.ledger.dropped := by
  refine h.preserves (P := fun f' _ => f.ledger.dropped ≤ f'.ledger.dropped) ?_ ?_ (Nat.le_refl _)
  · intro f₁ s₁ hle
    have hledger : (flushVisits host f₁ s₁).1.ledger.dropped = f₁.ledger.dropped := by
      rw [flushVisits_eq, foldl_takeScan_ledger]
    rwa [hledger]
  · intro f₁ f₂ s₁ s₂ q rest result hle _ hr
    rw [resolve_ledger hr]
    exact Nat.le_trans hle (Nat.le_add_right _ _)

/-- A required reference is not one of the speculative ones behind a queue. -/
theorem split_of_required {found served rest : List Query} {key : Reference}
    (hg : ∀ q ∈ found, q.speculative = true)
    (h : queries ++ found = served ++ ⟨key, false⟩ :: rest) :
    ∃ behind, queries = served ++ ⟨key, false⟩ :: behind ∧ rest = behind ++ found := by
  rcases List.append_eq_append_iff.1 h with ⟨between, hserved, hfound⟩ |
    ⟨between, hqueries, hrest⟩
  · have hguess := hg ⟨key, false⟩ (hfound ▸ List.mem_append_right between List.mem_cons_self)
    cases hguess
  · cases between with
    | nil =>
      have hguess := hg ⟨key, false⟩ (by
        rw [List.nil_append] at hrest
        rw [← hrest]
        exact List.mem_cons_self)
      cases hguess
    | cons q between =>
      obtain ⟨rfl, rfl⟩ := List.cons.inj hrest
      exact ⟨between, hqueries, rfl⟩

/-- What one layer of a drain does with the references that waited, and with those that its scans
found. -/
theorem layer_serves {f₁ f₂ : Frontier} {s₁ s₂ : σ} {result : Except Failure Unit}
    (scanned : flushVisits host f s = (f₁, s₁))
    (resolved : resolveQueue host f₁.queries f₁ s₁ = (result, f₂, s₂)) :
    ∃ found served dropped, f₁.queries = f.queries ++ found ∧
      (∀ q ∈ found, q.speculative = true ∧ f.isQueued q.key = false) ∧
      Served f₂.cache served [] dropped ∧
      f₂.ledger.dropped = f.ledger.dropped + dropped.length ∧
      ((result = .ok () ∧ served = f.queries ++ found ∧ f₂.queries = []) ∨
        ∃ key failures, result = .error (unresolved key failures) ∧
          f.queries ++ found = served ++ ⟨key, false⟩ :: f₂.queries ∧
          f₂.cache.contains key = false) := by
  obtain ⟨found, hqueries, hfound⟩ := finds_flushVisits host f s
  have hledger : (flushVisits host f s).1.ledger.dropped = f.ledger.dropped := by
    rw [flushVisits_eq, foldl_takeScan_ledger]
  rw [scanned] at hqueries hledger
  dsimp only at hqueries hledger
  obtain ⟨served, dropped, hserved, hcount, hend⟩ := resolveQueue_serves resolved
  rw [hledger] at hcount
  rw [hqueries] at hend
  exact ⟨found, served, dropped, hqueries, hfound, hserved, hcount, hend⟩

/-- What a drain does with the references that waited when it started. -/
def Conserves (f : Frontier) (result : Except Failure Unit) (f' : Frontier) : Prop :=
  (result = .ok () ∧ f'.visits = [] ∧ f'.queries = [] ∧
    ∃ dropped, Served f'.cache f.queries [] dropped ∧
      f.ledger.dropped + dropped.length ≤ f'.ledger.dropped) ∨
  ∃ served key behind found dropped message,
    result = .error (.resolve key message) ∧ f.queries = served ++ ⟨key, false⟩ :: behind ∧
    f'.cache.contains key = false ∧ f'.queries = behind ++ found ∧
    (∀ q ∈ found, q.speculative = true ∧ f.isQueued q.key = false) ∧
    Served f'.cache served [] dropped ∧
    f'.ledger.dropped = f.ledger.dropped + dropped.length

theorem Drains.conserves {result : Except Failure Unit} (h : Drains host f s result f' s') :
    Conserves f result f' := by
  cases h with
  | idle idle =>
    obtain ⟨hvisits, hqueries⟩ := hasPending_eq_false.1 idle
    refine Or.inl ⟨rfl, hvisits, hqueries, [], ?_, Nat.le_refl _⟩
    rw [hqueries]
    exact .nil
  | failed _ scanned resolved =>
    obtain ⟨found, served, dropped, hqueries, hfound, hserved, hcount, ⟨hok, -⟩ |
      ⟨key, failures, herror, hsplit, hfresh⟩⟩ := layer_serves scanned resolved
    · cases hok
    · obtain ⟨behind, hbefore, hbehind⟩ := split_of_required (fun q hq => (hfound q hq).1) hsplit
      exact Or.inr ⟨served, key, behind, found, dropped, _, herror, hbefore, hfresh, hbehind,
        hfound, hserved, hcount⟩
  | layer _ scanned resolved others =>
    obtain ⟨found, served, dropped, hqueries, -, hserved, hcount, ⟨-, rfl, hempty⟩ |
      ⟨key, failures, herror, -⟩⟩ := layer_serves scanned resolved
    · -- From here on all references are speculative.
      obtain ⟨hok, hidle, hgrowth⟩ := others.of_guesses (by simp [Guessing, hempty])
      obtain ⟨hvisits, hnone⟩ := hasPending_eq_false.1 hidle
      obtain ⟨refused₁, _, dropped₁, dropped₂, hrefused, hdropped, hfront, -⟩ :=
        (hserved.mono fun _ => hgrowth.cache.contains).split
      obtain rfl : refused₁ = [] := (List.append_eq_nil_iff.1 hrefused.symm).1
      have hlater := others.dropped_le
      have hlength : dropped.length = dropped₁.length + dropped₂.length := by
        rw [hdropped, List.length_append]
      exact Or.inl ⟨hok, hvisits, hnone, dropped₁, hfront, by omega⟩
    · cases herror

/-! ## One drain after another -/

/-- Drains follow one another until one succeeds, and in between the host may change. Those that
fail end at the references `refused`. -/
inductive Retries (host : Host σ) : Frontier → List Reference → Frontier → Prop where
  | done {f f' : Frontier} {s s' : σ} {layers : Nat}
      (drained : drain host layers f s = some (.ok (), f', s')) : Retries host f [] f'
  | again {f f₁ f' : Frontier} {s s₁ : σ} {layers : Nat} {key : Reference} {message : String}
      {refused : List Reference}
      (failed : drain host layers f s = some (.error (.resolve key message), f₁, s₁))
      (others : Retries host f₁ refused f') : Retries host f (key :: refused) f'

theorem Retries.extends (h : Retries host f refused f') : Extends host f f' := by
  induction h with
  | done drained => exact (drains_of_drain drained).extends
  | again failed _ ih => exact (drains_of_drain failed).extends.trans ih

/-- A drain takes up where the one before has failed. -/
theorem Retries.serves (h : Retries host f refused f') :
    f'.visits = [] ∧ f'.queries = [] ∧
      ∃ dropped, Served f'.cache f.queries refused dropped ∧
        f.ledger.dropped + dropped.length ≤ f'.ledger.dropped := by
  induction h with
  | done drained =>
    rcases (drains_of_drain drained).conserves with ⟨-, hvisits, hnone, hserved⟩ |
      ⟨_, _, _, _, _, _, herror, -⟩
    · exact ⟨hvisits, hnone, hserved⟩
    · cases herror
  | @again f f₁ f' s s₁ layers key message refused failed others ih =>
    obtain ⟨hvisits, hnone, dropped', hlater, hcount'⟩ := ih
    refine ⟨hvisits, hnone, ?_⟩
    rcases (drains_of_drain failed).conserves with ⟨hok, -⟩ |
      ⟨served, key', behind, found, dropped, message', herror, hsplit, -, hqueue, hfound,
        hserved, hcount⟩
    · cases hok
    · cases herror
      rw [hqueue] at hlater
      obtain ⟨refused₁, refused₂, dropped₁, dropped₂, rfl, rfl, hbehind, hnew⟩ := hlater.split
      obtain rfl : refused₂ = [] := hnew.of_guesses fun q hq => (hfound q hq).1
      have hbefore : Served f'.cache served [] dropped :=
        hserved.mono fun _ => others.extends.cache.contains
      refine ⟨dropped ++ dropped₁, ?_, ?_⟩
      · rw [hsplit, List.append_nil]
        exact hbefore.append (.refused (q := ⟨key, false⟩) rfl hbehind)
      · rw [List.length_append] at hcount' ⊢
        omega

/-- A drain loses no reference. When it succeeds, nothing waits, and all that waited was served:
each required reference is cached. When it fails, it does so at a required reference that waited and
is not cached; those in front of it were served, those behind it wait in their order and required as
before, and only speculative ones that did not wait have come to wait behind them. So drains that
follow one another until one succeeds serve all references that waited at first, except for those at
which a drain has failed. -/
theorem drain_conserves (host : Host σ) (f : Frontier) :
    (∀ {layers : Nat} {s s' : σ} {result : Except Failure Unit} {f' : Frontier},
      drain host layers f s = some (result, f', s') → Conserves f result f') ∧
    ∀ {refused : List Reference} {f' : Frontier}, Retries host f refused f' →
      f'.visits = [] ∧ f'.queries = [] ∧
        ∃ dropped, Served f'.cache f.queries refused dropped ∧
          f.ledger.dropped + dropped.length ≤ f'.ledger.dropped :=
  ⟨fun h => (drains_of_drain h).conserves, fun h => h.serves⟩

/-- A speculative reference and a required one to nothing, and a required one to a file, wait. -/
def threeWaiting : Frontier where
  options := {}
  queries := [⟨⟨⟨"/s"⟩, "./c"⟩, true⟩, ⟨⟨⟨"/s"⟩, "./d"⟩, false⟩,
    ⟨⟨⟨"/s"⟩, "./b"⟩, false⟩]

theorem drain_conserves_threeWaiting :
    ∃ result f₁ s₁ f', drain importedSheet.host 1 threeWaiting {} = some (result, f₁, s₁) ∧
      Conserves threeWaiting result f₁ ∧
      Retries importedSheet.host threeWaiting [⟨⟨"/s"⟩, "./d"⟩] f' ∧ f'.queries = [] ∧
      f'.cache.contains ⟨⟨"/s"⟩, "./b"⟩ = true := by
  have hrun : ((drain importedSheet.host 1 threeWaiting {}).bind fun first =>
      (drain importedSheet.host 2 first.2.1 first.2.2).map fun second =>
        (match first.1 with
          | .error (.resolve key _) => (key.context.text, key.request)
          | .error (.compile _) | .error (.config _) | .error (.consistency _) | .error (.io _)
          | .error (.notFound _) | .error (.serialization _) | .error (.unresolvedImport ..)
          | .ok _ => ("", ""), second.1.isOk)) = some (("/s", "./d"), true) := by
    decide +kernel
  obtain ⟨⟨result, f₁, s₁⟩, hfirst, hrest⟩ := Option.bind_eq_some_iff.1 hrun
  obtain ⟨⟨done, f', s'⟩, hsecond, hseen⟩ := Option.map_eq_some_iff.1 hrest
  obtain ⟨hkey, hok⟩ := Prod.mk.inj hseen
  dsimp only at hkey hok
  have hfirst' := (drain_conserves importedSheet.host threeWaiting).1 hfirst
  rcases result with (_ | _ | _ | _ | _ | ⟨⟨⟨context⟩, request⟩, message⟩ | _ | _) | _ <;>
    simp only [Prod.mk.injEq] at hkey <;> try exact absurd hkey.1 (by decide)
  obtain ⟨rfl, rfl⟩ := hkey
  rcases done with _ | _
  · cases hok
  have hretries : Retries importedSheet.host threeWaiting [⟨⟨"/s"⟩, "./d"⟩] f' :=
    .again hfirst (.done hsecond)
  obtain ⟨-, hnone, dropped, hserved, -⟩ :=
    (drain_conserves importedSheet.host threeWaiting).2 hretries
  refine ⟨_, f₁, s₁, f', hfirst, hfirst', hretries, hnone, ?_⟩
  have hwaited : (⟨⟨⟨"/s"⟩, "./b"⟩, false⟩ : Query) ∈ threeWaiting.queries := by
    simp [threeWaiting]
  rcases hserved.required hwaited rfl with hcached | hrefused
  · exact hcached
  · simp at hrefused

end StyleWeave.Frontier
