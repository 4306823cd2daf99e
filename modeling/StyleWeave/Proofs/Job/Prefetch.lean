import Mathlib.Data.List.Infix
import StyleWeave.Proofs.Job.Ending
import StyleWeave.Proofs.Job.Scanning

/-!
# Scanning ahead only saves attempts

A job that scans ahead is compared with one that does not. If all imports are settled, both come to
the same. And each retry of the first can be charged to a retry of the second: the import that was
missing is lacked by the second job's first call and known to its last one, so there is a retry that
made it known. `Charged` says which reference was needed then; no two retries are charged to the
same reference, because whatever was resolved for the earlier one is known to the later one.
-/

namespace StyleWeave

open Inline (Lacks pendingOf ParseCache)

variable {m : Memory} {options : Options} {cache : Cache} {importer importer' : Path}
  {name name' : String}

namespace Memory

/-- If a request is cached, with the extension or without, then so is the candidate that the host
grants for it, unless that is the request itself. -/
theorem Grounded.contains_candidate (hg : m.Grounded options.dialect cache)
    (hd : options.dialect.Closed) {context : Path} {request candidate : String} {target : Path}
    (hcached : cache.contains ⟨context, request⟩ = true ∨
      cache.contains ⟨context, options.dialect.withExtension request⟩ = true)
    (hgranted : m.granted? context (options.dialect.candidates request) =
      some (candidate, target)) :
    cache.contains ⟨context, candidate⟩ = true ∨ candidate = request := by
  rcases hcached with hcached | hcached
  · obtain ⟨candidate', target', hgranted', hcached'⟩ := hg _ hcached
    rw [hgranted] at hgranted'
    obtain ⟨rfl, rfl⟩ := Prod.mk.inj (Option.some.inj hgranted')
    exact Or.inl hcached'
  · by_cases hliteral : options.dialect.isLiteralRequest request = true
    · rw [Dialect.candidates, if_pos hliteral] at hgranted
      exact Or.inr (by simpa using (resolve_of_granted? hgranted).1)
    · -- The request with the extension comes first, and is granted.
      obtain ⟨candidate', target', hgranted', -⟩ := hg _ hcached
      rw [Dialect.candidates, if_pos (hd request)] at hgranted'
      obtain ⟨hmem, hr⟩ := resolve_of_granted? hgranted'
      obtain rfl := List.mem_singleton.1 hmem
      rw [Dialect.candidates, if_neg hliteral, granted?_cons_of_resolve hr] at hgranted
      obtain ⟨rfl, rfl⟩ := Prod.mk.inj (Option.some.inj hgranted)
      exact Or.inl hcached

end Memory

/-! ## What an import is charged to -/

namespace Inline

variable {tree : SourceTree} {cache' : Cache}

/-- Resolving `key` is what makes an import known that is missing over a cache: `key` is the
import's own reference, or that of its path, as another import makes it whose path is cached. -/
inductive Charged (options : Options) (cache : Cache) (importer : Path) (name : String)
    (key : Reference) : Prop where
  | own (own : key == options.reference importer name)
  | path {importer' : Path} {name' : String} (path : key == options.fileReference importer name)
      (short : options.dialect.isDialectFile ⟨name⟩ = false)
      (marked : options.dialect.isHostReference name' = true)
      (other : key == options.reference importer' name')
      (cached : cache.contains (options.fileReference importer' name') = true)

/-- If an import is missing over `cache`, and becomes known when `key` is resolved as the reference
of an import that is the same one or known over `cache`, then it is charged to `key`. -/
theorem charged_of_learn (hd : options.dialect.Closed) (hg : m.Grounded options.dialect cache)
    (hmissing : Lacks options (Lookup.known? ⟨tree, cache, options⟩) importer name)
    (hbefore : Lacks options (Lookup.known? ⟨tree, cache', options⟩) importer name)
    (hneeded : Lacks options (Lookup.known? ⟨tree, cache', options⟩) importer' name')
    {candidate : String} {target : Path}
    (hgranted : m.granted? (options.reference importer' name').context
      (options.dialect.candidates (options.reference importer' name').request) =
        some (candidate, target))
    (hafter : Lookup.known? ⟨tree, cache'.learn (options.reference importer' name') candidate
      target, options⟩ importer name ≠ none)
    (hother : (importer = importer' ∧ name = name') ∨
      Lookup.known? ⟨tree, cache, options⟩ importer' name' ≠ none) :
    Charged options cache importer name (options.reference importer' name') := by
  rcases hother with ⟨rfl, rfl⟩ | hknown
  · exact .own (BEq.refl _)
  · obtain ⟨hown, hpath⟩ := hmissing.not_cached
    obtain ⟨hown', hpath'⟩ := hbefore.not_cached
    have hcached := hneeded.cached_of_known hknown
    have hrequest : cache.contains (options.reference importer' name') = true ∨
        cache.contains ⟨options.importContext importer',
          options.dialect.withExtension (options.requestFor name')⟩ = true := by
      by_cases hdialect : options.dialect.isDialectFile ⟨name'⟩ = true
      · rw [Options.fileReference_of_dialectFile options hdialect] at hcached
        exact Or.inl (hcached.elim id id)
      · rwa [Options.fileReference_of_not_dialectFile options hneeded.1 (by simpa using hdialect)]
          at hcached
    -- The resolution has added no reference that `cache` lacks but the needed one.
    have hneeds : ∀ key : Reference, cache.contains key = false → cache'.contains key = false →
        (cache'.learn (options.reference importer' name') candidate target).contains key = true →
        key == options.reference importer' name' := by
      intro key hkey hkey' hlearn
      rw [Cache.contains_learn, hkey', Bool.or_false, Bool.or_eq_true] at hlearn
      rcases hlearn with hcandidate | hkeyed
      · rcases hg.contains_candidate hd hrequest hgranted with hcontains | rfl
        · exact absurd ((Cache.contains_congr cache hcandidate).trans hcontains) (by simp [hkey])
        · exact hcandidate
      · exact hkeyed
    rcases hbefore.cached_of_known hafter with hlearn | hlearn
    · exact .own (BEq.symm (hneeds _ hown hown' hlearn))
    · have hkey := hneeds _ hpath hpath' hlearn
      by_cases hdialect : options.dialect.isDialectFile ⟨name⟩ = true
      · rw [Options.fileReference_of_dialectFile options hdialect] at hkey
        exact .own (BEq.symm hkey)
      · refine .path (BEq.symm hkey) (by simpa using hdialect) hneeded.1 (BEq.refl _) ?_
        refine hcached.resolve_left fun hcontains => ?_
        rw [← Cache.contains_congr cache hkey, hpath] at hcontains
        simp at hcontains

/-- Two missing imports are charged to different references, if all that is known of the first one
is known of the second one, and the reference of the first one too. -/
theorem Charged.differ {key key' : Reference} (h : Charged options cache importer name key)
    (h' : Charged options cache' importer' name' key')
    (hmark : options.dialect.isHostReference name = true)
    (hmark' : options.dialect.isHostReference name' = true)
    (hkept : ∀ k, cache.contains k = true → cache'.contains k = true)
    (hresolved : cache'.contains (options.reference importer name) = true)
    (hown : cache'.contains (options.reference importer' name') = false)
    (hpath : cache'.contains (options.fileReference importer' name') = false) :
    (key == key') = false := by
  by_contra hne
  have heq : key == key' := by simpa using hne
  have hself : ∀ k : Reference, k == options.reference importer name →
      (k == options.reference importer' name') = true → False := by
    intro k hk hk'
    have hcontains := Cache.contains_congr cache' (BEq.trans (BEq.symm hk) hk')
    simp [hresolved, hown] at hcontains
  rcases h with own | @⟨importer₁, name₁, path, short, marked, other, cached⟩
  · rcases h' with own' | ⟨path', -, -, -, -⟩
    · exact hself key own (BEq.trans heq own')
    · have hcontains := Cache.contains_congr cache' (BEq.trans (BEq.symm own) (BEq.trans heq path'))
      simp [hresolved, hpath] at hcontains
  · rcases h' with own' | ⟨path', short', -, -, -⟩
    · -- Both make the same reference, so they have the same name, and the path is cached.
      obtain ⟨hcontext, hrequest⟩ := Reference.beq_iff.1 (BEq.trans (BEq.symm other)
        (BEq.trans heq own'))
      have hname : name₁ = name' := options.requestFor_inj marked hmark' hrequest
      have hcontains := Cache.contains_congr cache' (options.fileReference_congr name₁ hcontext)
      rw [hkept _ cached, hname, hpath] at hcontains
      simp at hcontains
    · rw [options.fileReference_of_not_dialectFile hmark short] at path
      rw [options.fileReference_of_not_dialectFile hmark' short'] at path'
      obtain ⟨hcontext, hrequest⟩ := Reference.beq_iff.1 (BEq.trans (BEq.symm path)
        (BEq.trans heq path'))
      exact hself (options.reference importer name) (BEq.refl _)
        (Reference.beq_iff.2 ⟨hcontext, Dialect.withExtension_inj hrequest⟩)

end Inline

/-! ## Calls that end with a missing import -/

namespace Job

variable {prefetch : Bool} {layers layers' depth : Nat} {file : Path} {source : String}
  {log log' : Memory.Log} {parsed parsed' : ParseCache}
  {calls calls' : List (Call Memory.Log ParseCache)}
  {call : Call Memory.Log ParseCache} {step step' : JobStep Memory.Log ParseCache Output}

/-- The call ends because of an import that it lacks. -/
structure Misses (m : Memory) (options : Options) (depth : Nat) (file : Path) (source : String)
    (call : Call Memory.Log ParseCache) (importer : Path) (name : String) : Prop where
  outcome : call.outcome = .ok (.needsResolution (pendingOf options importer name))
  ended : (Inline.passOver options m.tree (knownAt m options call) depth file source).1 =
    .error (.pending (pendingOf options importer name))
  reaches : Inline.ReachesImport options m.tree (m.proper? options) file source importer name
  lacks : Lacks options (knownAt m options call) importer name

/-- All that is cached at a call, and what it reports, is cached at the other. -/
def Feeds (a b : Call Memory.Log ParseCache) : Prop :=
  ∀ key, a.job.frontier.cache.contains key = true ∨ a.reported? = some key →
    b.job.frontier.cache.contains key = true

instance : Trans Feeds Feeds Feeds where
  trans hab hbc key h := hbc key (Or.inl (hab key h))

theorem Follows.feeds {tree : SourceTree} {a b : Call Memory.Log ParseCache}
    (h : Follows m.host (Inline.renderer depth) tree layers a b) : Feeds a b := by
  obtain ⟨pending, hout, hretried⟩ := h.retried
  rintro key (hcached | hreported)
  · exact hretried.grown.cache.contains hcached
  · obtain rfl : pending.key = key := by simpa [Call.reported?, hout] using hreported
    exact hretried.cached

theorem Misses.unique (h : Misses m options depth file source call importer name)
    (h' : Misses m options depth file source call importer' name') :
    importer = importer' ∧ name = name' :=
  Inline.pendingOf_inj
    (Outcome.needsResolution.inj (Except.ok.inj (h.outcome.symm.trans h'.outcome)))

section

variable (hparsed : parsed.Valid) (hparsed' : parsed'.Valid)
  (hsettled : m.AllSettled options file source)

include hparsed hsettled

theorem Runs.within
    (h : Runs m.host (Inline.renderer depth) m.tree layers
      (create file source { options with prefetch }) log parsed calls step)
    (hcall : call ∈ calls) :
    Inline.Within options m.tree (knownAt m options call) (m.proper? options) file source :=
  hsettled.within (Memory.explains_of_growth (h.underway hparsed call hcall).grown.cache)

theorem Runs.misses_of_ended
    (h : Runs m.host (Inline.renderer depth) m.tree layers
      (create file source { options with prefetch }) log parsed calls step)
    (hcall : call ∈ calls)
    (hended : (Inline.passOver options m.tree (knownAt m options call) depth file source).1 =
      .error (.pending (pendingOf options importer name))) :
    Misses m options depth file source call importer name := by
  have hpass := h.passOver hparsed hcall
  obtain ⟨importer', name', heq, hreaches, hlacks⟩ := Inline.lacks_of_passOver hended
  obtain ⟨rfl, rfl⟩ := Inline.pendingOf_inj heq
  refine ⟨?_, hended, hreaches.within (h.within hparsed hsettled hcall), hlacks⟩
  rw [← Option.some_inj, ← hpass, Inline.outcome_eq_needsResolution_iff]
  exact hended

theorem Runs.misses
    (h : Runs m.host (Inline.renderer depth) m.tree layers
      (create file source { options with prefetch }) log parsed calls step)
    (hcall : call ∈ calls) {pending : Pending}
    (hout : call.outcome = .ok (.needsResolution pending)) :
    ∃ importer name, pending = pendingOf options importer name ∧
      Misses m options depth file source call importer name := by
  have hpass := h.passOver hparsed hcall
  dsimp only at hpass
  rw [hout, Inline.outcome_eq_needsResolution_iff] at hpass
  obtain ⟨importer, name, rfl, -, -⟩ := Inline.lacks_of_passOver hpass
  exact ⟨importer, name, rfl, h.misses_of_ended hparsed hsettled hcall hpass⟩

omit hsettled in
/-- What the last call of a first run misses, the host cannot resolve. -/
theorem Runs.proper?_of_last
    (h : Runs m.host (Inline.renderer depth) m.tree layers
      (create file source { options with prefetch }) log parsed calls step)
    {last : Call Memory.Log ParseCache} (hlast : calls.getLast? = some last)
    (hmisses : Misses m options depth file source last importer name) :
    m.proper? options importer name = none := by
  obtain ⟨last', hlast', hverdict, -⟩ := h.verdict (guessing_create file source _)
  obtain rfl : last = last' := Option.some.inj (hlast.symm.trans hlast')
  obtain ⟨hnone, -⟩ := hverdict.refusal (h.underway hparsed last (List.mem_of_getLast? hlast))
    hmisses.outcome hmisses.lacks
  exact (Memory.proper?_of_lacks hmisses.lacks).trans hnone

/-- An import that some call misses, and that the host can resolve, is known to the last call of
each first run. -/
theorem Runs.known_at_last
    (h : Runs m.host (Inline.renderer depth) m.tree layers
      (create file source { options with prefetch }) log parsed calls step)
    {last : Call Memory.Log ParseCache} (hlast : calls.getLast? = some last)
    (hmisses : Misses m options depth file source call importer name)
    (hwithin : Inline.Within options m.tree (knownAt m options call) (m.proper? options) file
      source)
    (hproper : m.proper? options importer name ≠ none) :
    knownAt m options last importer name ≠ none := by
  have hmem : last ∈ calls := List.mem_of_getLast? hlast
  rcases Inline.passOver_of_missing hwithin (h.within hparsed hsettled hmem) hmisses.ended with
    hknown | hended | ⟨importer', name', hended, hknown⟩
  · exact hknown
  · have hm := h.misses_of_ended hparsed hsettled hmem hended
    exact absurd (h.proper?_of_last hparsed hlast hm) hproper
  · -- What the last call misses instead has no proper file, so it is not known to the other call.
    exfalso
    have hm := h.misses_of_ended hparsed hsettled hmem hended
    have hnone := h.proper?_of_last hparsed hlast hm
    rcases hwithin importer' name' hm.reaches with heq | hlacks
    · exact hknown (heq.trans hnone)
    · exact hknown hlacks.2

/-- What a call of a first run misses, if it is not the last one, the host can resolve. -/
theorem Runs.retry
    (h : Runs m.host (Inline.renderer depth) m.tree layers
      (create file source { options with prefetch }) log parsed calls step)
    (hd : options.dialect.Closed) (hcall : call ∈ calls.dropLast) :
    ∃ importer name, Misses m options depth file source call importer name ∧
      m.proper? options importer name ≠ none := by
  have hmem := List.mem_of_mem_dropLast hcall
  obtain ⟨next, hnext, hfollows⟩ := exists_follows (h.isChain (guessing_create file source _)) hcall
  obtain ⟨pending, hout, hretried⟩ := hfollows.retried
  obtain ⟨importer, name, rfl, hmisses⟩ := h.misses hparsed hsettled hmem hout
  have hgrounded := (m.grounded_empty options.dialect).growth hd
    (h.underway hparsed next hnext).grown.cache
  obtain ⟨request, target, hgranted, -⟩ := hgrounded _ hretried.cached
  refine ⟨importer, name, hmisses, ?_⟩
  rw [Memory.proper?_of_lacks hmisses.lacks, Memory.designated?_eq_granted?]
  simpa [pendingOf] using Option.ne_none_iff_exists'.2 ⟨_, hgranted⟩

/-- Without scanning ahead, an import that the host is needed for, and that the last call of a first
run knows, becomes known by one retry: the host resolves what some other import misses. -/
theorem Runs.exists_learning
    (h : Runs m.host (Inline.renderer depth) m.tree layers
      (create file source { options with prefetch := false }) log parsed calls step)
    (hlacks : Lacks options (Lookup.known? ⟨m.tree, {}, options⟩) importer name)
    (hknown : ∀ last, calls.getLast? = some last → knownAt m options last importer name ≠ none) :
    ∃ a ∈ calls.dropLast, ∃ importer' name' candidate target,
      Misses m options depth file source a importer' name' ∧
      Lacks options (knownAt m options a) importer name ∧
      m.granted? (options.reference importer' name').context
        (options.dialect.candidates (options.reference importer' name').request) =
          some (candidate, target) ∧
      Lookup.known? ⟨m.tree, a.job.frontier.cache.learn (options.reference importer' name')
        candidate target, options⟩ importer name ≠ none := by
  obtain ⟨first, rest, rfl, hempty⟩ := h.head_cache rfl
  have hchain := h.isChain (guessing_create file source _)
  have hfirst : Lacks options (knownAt m options first) importer name := by
    unfold knownAt
    rw [hempty]
    exact hlacks
  obtain ⟨last, hlast, -⟩ := h.verdict (guessing_create file source _)
  obtain ⟨a, ha, b, hfollows, hbefore, hafter⟩ :=
    exists_turn (P := fun c => Lacks options (knownAt m options c) importer name) hchain hfirst
      hlast fun hlacks => hknown last hlast hlacks.2
  have hmem := List.mem_of_mem_dropLast ha
  have hunder := h.underway hparsed a hmem
  obtain ⟨pending, candidate, target, hout, hgrants, hcache⟩ := hfollows.learns
    (by rw [hunder.grown.options]; rfl)
  obtain ⟨importer', name', rfl, hmisses⟩ := h.misses hparsed hsettled hmem hout
  have hgranted := Memory.granted?_of_grants hgrants
  rw [hunder.grown.options] at hgranted
  refine ⟨a, ha, importer', name', candidate, target, hmisses, hbefore, hgranted, fun hnone => ?_⟩
  refine hafter ⟨hbefore.1, ?_⟩
  unfold knownAt
  rw [hcache]
  exact hnone

include hparsed' in
/-- Each retry of a first run can be charged to a retry of a first run without scanning ahead. -/
theorem Runs.charged
    (h : Runs m.host (Inline.renderer depth) m.tree layers
      (create file source { options with prefetch }) log parsed calls step)
    (h' : Runs m.host (Inline.renderer depth) m.tree layers'
      (create file source { options with prefetch := false }) log' parsed' calls' step')
    (hd : options.dialect.Closed) (hcall : call ∈ calls.dropLast) :
    ∃ importer name key, Misses m options depth file source call importer name ∧
      Inline.Charged options call.job.frontier.cache importer name key ∧
      key ∈ calls'.dropLast.filterMap Call.reported? := by
  have hmem := List.mem_of_mem_dropLast hcall
  obtain ⟨importer, name, hmisses, hproper⟩ := h.retry hparsed hsettled hd hcall
  have hwithin := h.within hparsed hsettled hmem
  -- The other run knows the import in the end, so one of its retries makes it known.
  obtain ⟨a, ha, importer', name', candidate, target, hmisses', hlacks, hgranted, hafter⟩ :=
    h'.exists_learning hparsed' hsettled (hmisses.lacks.of_not_cached rfl rfl) fun last hlast =>
      h'.known_at_last hparsed' hsettled hlast hmisses hwithin hproper
  have hamem := List.mem_of_mem_dropLast ha
  refine ⟨importer, name, options.reference importer' name', hmisses, ?_, ?_⟩
  · refine Inline.charged_of_learn hd ?_ hmisses.lacks hlacks hmisses'.lacks hgranted hafter ?_
    · exact (m.grounded_empty options.dialect).growth hd (h.underway hparsed call hmem).grown.cache
    · have hwithin' := h'.within hparsed' hsettled hamem
      rcases Inline.passOver_of_missing hwithin hwithin' hmisses.ended with
        hknown | hended | ⟨i, n, hended, hknown⟩
      · exact absurd hlacks.2 hknown
      · have hm := h'.misses_of_ended hparsed' hsettled hamem hended
        exact Or.inl (hm.unique hmisses')
      · have hm := h'.misses_of_ended hparsed' hsettled hamem hended
        obtain ⟨rfl, rfl⟩ := hm.unique hmisses'
        exact Or.inr hknown
  · exact List.mem_filterMap.2 ⟨a, ha, by simp [Call.reported?, hmisses'.outcome, pendingOf]⟩

include hparsed' in
/-- If all imports are settled, a first run makes no more calls than one without scanning ahead. -/
theorem Runs.length_le
    (h : Runs m.host (Inline.renderer depth) m.tree layers
      (create file source { options with prefetch }) log parsed calls step)
    (h' : Runs m.host (Inline.renderer depth) m.tree layers'
      (create file source { options with prefetch := false }) log' parsed' calls' step')
    (hd : options.dialect.Closed) : calls.length ≤ calls'.length := by
  have hfeeds : calls.dropLast.Pairwise Feeds :=
    ((h.isChain (guessing_create file source _)).imp fun _ _ hf => hf.feeds).pairwise.sublist
      (List.dropLast_sublist calls)
  have hretries : calls.dropLast.length ≤ (calls'.dropLast.filterMap Call.reported?).length := by
    refine Reference.length_le_of_holds
      (R := fun call key => ∃ importer name, Misses m options depth file source call importer name ∧
        Inline.Charged options call.job.frontier.cache importer name key) ?_ ?_
    · intro call hcall
      obtain ⟨importer, name, key, hmisses, hcharged, hkey⟩ :=
        h.charged hparsed hparsed' hsettled h' hd hcall
      exact ⟨key, hkey, importer, name, hmisses, hcharged⟩
    · refine hfeeds.imp fun {a b} hab => ?_
      rintro key key' ⟨importer, name, hmisses, hcharged⟩ ⟨importer', name', hmisses', hcharged'⟩
      have hresolved := hab (options.reference importer name)
        (Or.inr (by simp [Call.reported?, hmisses.outcome, pendingOf]))
      obtain ⟨hown, hpath⟩ := hmisses'.lacks.not_cached
      exact hcharged.differ hcharged' hmisses.lacks.1 hmisses'.lacks.1
        (fun k hk => hab k (Or.inl hk)) hresolved hown hpath
  have hreported := List.length_filterMap_le Call.reported? calls'.dropLast
  obtain ⟨first, rest, rfl, -⟩ := h'.head_cache rfl
  simp only [List.length_dropLast, List.length_cons] at hretries hreported ⊢
  omega

end

/-- Whether documents are scanned ahead or not, a first run ends. If all imports are settled, it
comes to the same, and in a closed dialect it takes no more attempts if they are. And no less will
do: an import of the document is known alike to the first attempts exactly if it is settled. -/
theorem prefetch_saves_attempts {limits : Limits} (hdepth : m.targets.length < depth)
    (hlayers : m.targets.length + 1 < limits.layers)
    (hrenders : (m.references options file source).length < limits.renders)
    (hparsed : parsed.Valid) (hparsed' : parsed'.Valid) (log log' : Memory.Log) :
    ∃ (ahead still : JobStep Memory.Log ParseCache Output)
      (first first' : Call Memory.Log ParseCache) (rest rest' : List (Call Memory.Log ParseCache)),
      (create file source { options with prefetch := true }).run m.host (Inline.renderer depth)
        m.tree limits log parsed = some ahead ∧
      (create file source { options with prefetch := false }).run m.host (Inline.renderer depth)
        m.tree limits log' parsed' = some still ∧
      Runs m.host (Inline.renderer depth) m.tree limits.layers
        (create file source { options with prefetch := true }) log parsed (first :: rest) ahead ∧
      Runs m.host (Inline.renderer depth) m.tree limits.layers
        (create file source { options with prefetch := false }) log' parsed' (first' :: rest')
        still ∧
      (m.AllSettled options file source →
        ahead.result.map Output.rendered = still.result.map Output.rendered ∧
          (options.dialect.Closed → ahead.job.attempts ≤ still.job.attempts)) ∧
      ∀ name, Inline.Imports options source name → options.dialect.Closed →
        options.dialect.isDialectFile file = true → options.importVariables = [] →
        options.dialect.isHostReference name = true →
        options.dialect.isDialectFile ⟨name⟩ =
          options.dialect.isLiteralRequest (options.requestFor name) →
        (m.Settled options file name ↔
          knownAt m options first file name = knownAt m options first' file name ∨
            Lacks options (knownAt m options first') file name) := by
  have hends : ∀ prefetch log {parsed : ParseCache}, parsed.Valid →
      ∃ (step : JobStep Memory.Log ParseCache Output) (calls : List (Call Memory.Log ParseCache)),
        (create file source { options with prefetch }).run m.host (Inline.renderer depth) m.tree
          limits log parsed = some step ∧
        Runs m.host (Inline.renderer depth) m.tree limits.layers
          (create file source { options with prefetch }) log parsed calls step ∧
        step.job.attempts = calls.length := by
    intro prefetch log parsed hparsed
    refine exists_run hdepth hlayers ?_ hparsed log
    exact hrenders
  obtain ⟨ahead, calls, hrun, hcalls, hattempts⟩ := hends true log hparsed
  obtain ⟨still, calls', hrun', hcalls', hattempts'⟩ := hends false log' hparsed'
  obtain ⟨first, rest, rfl⟩ := hcalls.exists_head
  obtain ⟨first', rest', rfl⟩ := hcalls'.exists_head
  refine ⟨ahead, still, first, first', rest, rest', hrun, hrun', hcalls, hcalls', ?_, ?_⟩
  · intro hsettled
    constructor
    · have hproper := hcalls.properResult hparsed hsettled
      have hproper' := hcalls'.properResult hparsed' hsettled
      exact Option.some.inj (hproper.symm.trans hproper')
    · intro hd
      rw [hattempts, hattempts']
      exact hcalls.length_le hparsed hparsed' hsettled hcalls' hd
  · intro name himports hd hfile hvariables hhost hregular
    exact hcalls.head_known_iff hcalls' hparsed hparsed' hd hfile hvariables himports hhost hregular

theorem allSettled_onePackage :
    onePackage.AllSettled {} ⟨"/app/main.styl"⟩ "@import '~pkg.styl'\n" := by
  have hnames : ∀ text ∈ onePackage.texts "@import '~pkg.styl'\n",
      ∀ name ∈ Memory.importNames {} text, name = "~pkg.styl" := by
    decide +kernel
  have hdirectory : ∀ importer ∈ (⟨"/app/main.styl"⟩ : Path) :: onePackage.targets,
      (onePackage.lookup {}).nativeDirectory? importer "~pkg.styl" = none := by
    decide +kernel
  have hplain : (({} : Options).dialect).PlainExtension := by decide +kernel
  have hmark : ({} : Options).dialect.isHostReference "~pkg.styl" = true := by decide +kernel
  have hregular : ({} : Options).dialect.isDialectFile ⟨"~pkg.styl"⟩ =
      ({} : Options).dialect.isLiteralRequest (({} : Options).requestFor "~pkg.styl") := by
    decide +kernel
  refine Memory.allSettled_of_forall fun importer himporter text htext name hname => ?_
  rw [hnames text htext name hname, Memory.settled_iff_of_closed hplain.closed hmark hregular]
  intro _ directory hdir
  rw [hdirectory importer himporter] at hdir
  cases hdir

theorem prefetch_saves_attempts_onePackage :
    ∃ (ahead still : JobStep Memory.Log ParseCache Output)
      (first first' : Call Memory.Log ParseCache),
      (create ⟨"/app/main.styl"⟩ "@import '~pkg.styl'\n" { prefetch := true }).run onePackage.host
        (Inline.renderer 3) onePackage.tree ⟨4, 4⟩ {} {} = some ahead ∧
      (create ⟨"/app/main.styl"⟩ "@import '~pkg.styl'\n" { prefetch := false }).run onePackage.host
        (Inline.renderer 3) onePackage.tree ⟨4, 4⟩ {} {} = some still ∧
      ahead.result.map Output.rendered = still.result.map Output.rendered ∧
      ahead.job.attempts ≤ still.job.attempts ∧
      (knownAt onePackage {} first ⟨"/app/main.styl"⟩ "~pkg.styl" =
          knownAt onePackage {} first' ⟨"/app/main.styl"⟩ "~pkg.styl" ∨
        Lacks {} (knownAt onePackage {} first') ⟨"/app/main.styl"⟩ "~pkg.styl") := by
  have hclosed : (({} : Options).dialect).Closed :=
    Dialect.PlainExtension.closed (by decide +kernel)
  have hdepth : onePackage.targets.length < 3 := by decide +kernel
  have hlayers : onePackage.targets.length + 1 < (⟨4, 4⟩ : Limits).layers := by decide +kernel
  have hrenders : (onePackage.references {} ⟨"/app/main.styl"⟩ "@import '~pkg.styl'\n").length <
      (⟨4, 4⟩ : Limits).renders := by decide +kernel
  have himports : Inline.Imports {} "@import '~pkg.styl'\n" "~pkg.styl" := by decide +kernel
  obtain ⟨ahead, still, first, first', rest, rest', hahead, hstill, -, -, hsame, hknown⟩ :=
    prefetch_saves_attempts hdepth hlayers hrenders Inline.ParseCache.valid_empty
      Inline.ParseCache.valid_empty {} {}
  obtain ⟨hresult, hattempts⟩ := hsame allSettled_onePackage
  have hentry := hknown "~pkg.styl" himports hclosed (by decide +kernel) rfl (by decide +kernel)
    (by decide +kernel)
  refine ⟨ahead, still, first, first', hahead, hstill, hresult, hattempts hclosed, hentry.1 ?_⟩
  exact allSettled_onePackage _ _ ⟨_, .entry, himports⟩

/-- A package that the tree has a directory for, and the host another file. -/
def twoPackages : Memory where
  files := [(⟨"/app/~pkg/index.styl"⟩, "native\n"), (⟨"/modules/pkg.styl"⟩, "host\n")]
  moduleDirs := [⟨"/modules"⟩]

theorem prefetch_differs_twoPackages :
    let css (prefetch : Bool) :=
      ((create ⟨"/app/main.styl"⟩ "@import '~pkg'\n" { prefetch }).run twoPackages.host
        (Inline.renderer 3) twoPackages.tree ⟨4, 4⟩ {} {}).map fun step =>
          step.result.toOption.map fun output => output.rendered.css
    css true = some (some "host\n") ∧ css false = some (some "native\n") := by
  decide +kernel

end Job

end StyleWeave
