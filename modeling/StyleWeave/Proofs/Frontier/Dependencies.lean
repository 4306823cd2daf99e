import StyleWeave.Proofs.Frontier.Exploration
import StyleWeave.Proofs.Path.Order

/-!
# Where dependencies come from

The files that a result depends on are collected at four places: scans, resolutions, render calls
and the start of a run. `Host.audited` keeps an account of the first two, which the host takes part
in, and of what the host is told. `Accounted` says that the dependencies of a frontier are the files
of this account and some other ones that are known, no more and no less, and a drain keeps to that.
-/

namespace StyleWeave

variable {σ : Type}

/-- An account of what a host did. -/
structure Audit where
  /-- The paths that it resolved references to. -/
  granted : List Path := []
  /-- The files that it read. -/
  texts : List Path := []
  /-- The files that it was told of, in order. -/
  told : List Path := []

namespace Audit

/-- The file was read, or a reference was resolved to it. -/
def mentions (audit : Audit) (p : Path) : Bool :=
  audit.granted.contains p || audit.texts.contains p

theorem mentions_grant (audit : Audit) (target p : Path) :
    mentions { audit with granted := audit.granted ++ [target] } p =
      (p == target || audit.mentions p) := by
  unfold mentions
  dsimp only
  rw [List.contains_append, List.contains_cons, List.contains_nil, Bool.or_false, Bool.or_comm _
    (p == target), Bool.or_assoc]

theorem mentions_read (audit : Audit) (file p : Path) :
    mentions { audit with texts := audit.texts ++ [file] } p = (p == file || audit.mentions p) := by
  unfold mentions
  dsimp only
  rw [List.contains_append, List.contains_cons, List.contains_nil, Bool.or_false, Bool.or_comm _
    (p == file), Bool.or_left_comm]

end Audit

namespace Host

/-- The host with an account of what it does. -/
def audited (host : Host σ) : Host (σ × Audit) where
  resolve t key :=
    match host.resolve t.1 key with
    | (.ok target, s) => (.ok target, s, { t.2 with granted := t.2.granted ++ [target] })
    | (.error failure, s) => (.error failure, s, t.2)
  read t file :=
    match host.read t.1 file with
    | (.ok text, s) => (.ok text, s, { t.2 with texts := t.2.texts ++ [file] })
    | (.error failure, s) => (.error failure, s, t.2)
  depend t file := (host.depend t.1 file, { t.2 with told := t.2.told ++ [file] })

variable {host : Host σ} {t t' : σ × Audit} {context : Path} {requests : List String}

theorem audited_resolve_ok {key : Reference} {target : Path}
    (h : host.audited.resolve t key = (.ok target, t')) :
    t'.2 = { t.2 with granted := t.2.granted ++ [target] } := by
  unfold audited at h
  dsimp only at h
  rcases hr : host.resolve t.1 key with ⟨failure | found, s⟩
  · rw [hr] at h
    cases h
  · rw [hr] at h
    cases h
    rfl

theorem audited_resolve_error {key : Reference} {failure : Failure}
    (h : host.audited.resolve t key = (.error failure, t')) : t'.2 = t.2 := by
  unfold audited at h
  dsimp only at h
  rcases hr : host.resolve t.1 key with ⟨failure' | found, s⟩
  · rw [hr] at h
    cases h
    rfl
  · rw [hr] at h
    cases h

theorem audited_read_ok {file : Path} {text : String}
    (h : host.audited.read t file = (.ok text, t')) :
    t'.2 = { t.2 with texts := t.2.texts ++ [file] } := by
  unfold audited at h
  dsimp only at h
  rcases hr : host.read t.1 file with ⟨failure | found, s⟩
  · rw [hr] at h
    cases h
  · rw [hr] at h
    cases h
    rfl

theorem audited_read_error {file : Path} {failure : Failure}
    (h : host.audited.read t file = (.error failure, t')) : t'.2 = t.2 := by
  unfold audited at h
  dsimp only at h
  rcases hr : host.read t.1 file with ⟨failure' | found, s⟩
  · rw [hr] at h
    cases h
    rfl
  · rw [hr] at h
    cases h

theorem Refuses.audited {failures : List Failure}
    (h : host.audited.Refuses context requests t failures t') : t'.2 = t.2 := by
  induction h with
  | nil => rfl
  | cons first _ ih => exact ih.trans (audited_resolve_error first)

theorem Grants.audited {request : String} {target : Path}
    (h : host.audited.Grants context requests t request target t') :
    t'.2 = { t.2 with granted := t.2.granted ++ [target] } := by
  induction h with
  | here first => exact audited_resolve_ok first
  | there first _ ih => rw [ih, audited_resolve_error first]

end Host

namespace Frontier

variable {known known' told : List Path} {f f' : Frontier} {audit : Audit}

/-- The dependencies of a frontier are the files that are known and those that the host has answered
with or read. Only for known ones a text is given. -/
structure Accounted (known told : List Path) (f : Frontier) (audit : Audit) : Prop where
  increasing : PathSet.Increasing f.dependencies.paths
  contains : ∀ p, f.dependencies.contains p = (known.contains p || audit.mentions p)
  given : ∀ v ∈ f.visits, v.text.isSome = true → known.contains v.file = true
  told : audit.told = told

theorem accounted_create (options : Options) : Accounted [] [] { options } {} where
  increasing := List.Pairwise.nil
  contains p := by simp [PathSet.contains, PathSet.empty, Audit.mentions]
  given v hv := by cases hv
  told := rfl

/-- Nothing but the dependencies and the waiting documents count. -/
theorem Accounted.congr (h : Accounted known told f audit)
    (hdependencies : f'.dependencies = f.dependencies) (hvisits : f'.visits ⊆ f.visits) :
    Accounted known told f' audit where
  increasing := by
    rw [hdependencies]
    exact h.increasing
  contains p := by
    rw [hdependencies]
    exact h.contains p
  given v hv := h.given v (hvisits hv)
  told := h.told

theorem Accounted.enqueueVisit (h : Accounted known told f audit) {file : Path}
    {text : Option String} (hgiven : text.isSome = true → known.contains file = true) :
    Accounted known told (f.enqueueVisit file text) audit := by
  unfold Frontier.enqueueVisit
  split
  · refine ⟨h.increasing, h.contains, fun v hv => ?_, h.told⟩
    rcases List.mem_append.1 hv with hv | hv
    · exact h.given v hv
    · obtain rfl := List.mem_singleton.1 hv
      exact hgiven
  · exact h

/-- A dependency more, if it is known from then on or in the account. -/
theorem Accounted.insert (h : Accounted known told f audit) {file : Path} {audit' : Audit}
    (htold : audit'.told = audit.told)
    (hmore : ∀ p, (known'.contains p || audit'.mentions p) =
      (p == file || (known.contains p || audit.mentions p)))
    (hknown : ∀ p, known.contains p = true → known'.contains p = true) :
    Accounted known' told { f with dependencies := f.dependencies.insert file } audit' where
  increasing := PathSet.increasing_insertInto file h.increasing
  contains p := by rw [PathSet.contains_insert, h.contains, hmore]
  given v hv hsome := hknown _ (h.given v hv hsome)
  told := htold.trans h.told

theorem Accounted.congr_known (h : Accounted known told f audit)
    (hknown : ∀ p, known'.contains p = known.contains p) : Accounted known' told f audit where
  increasing := h.increasing
  contains p := by rw [h.contains, hknown]
  given v hv hsome := by rw [hknown]; exact h.given v hv hsome
  told := h.told

/-- Telling the host of files counts as nothing else. -/
theorem Accounted.announce (h : Accounted known told f audit) {files : List Path} {audit' : Audit}
    (haudit : audit' = { audit with told := audit.told ++ files }) :
    Accounted known (told ++ files) f audit' where
  increasing := h.increasing
  contains p := by rw [h.contains, haudit]; rfl
  given := h.given
  told := by rw [haudit, h.told]

theorem Accounted.addDependency (h : Accounted known told f audit) (file : Path) :
    Accounted (file :: known) told (f.addDependency file) audit := by
  have hvisit : Accounted known told (f.enqueueVisit file none) audit :=
    h.enqueueVisit (by simp)
  refine hvisit.insert rfl (fun p => ?_) fun p hp => ?_
  · rw [List.contains_cons, Bool.or_assoc]
  · rw [List.contains_cons, hp, Bool.or_true]

theorem Accounted.addDependencies (h : Accounted known told f audit) (files : List Path) :
    Accounted (files.reverse ++ known) told (f.addDependencies files) audit := by
  induction files generalizing f known with
  | nil => exact h
  | cons file rest ih =>
    rw [List.reverse_cons, List.append_assoc]
    exact ih (h.addDependency file)

theorem enqueueVisit_dependencies (f : Frontier) (file : Path) (text : Option String) :
    (f.enqueueVisit file text).dependencies = f.dependencies := by
  unfold Frontier.enqueueVisit
  split <;> rfl

/-- A document becomes known that is queued with its text. -/
theorem Accounted.enter (h : Accounted known told f audit) (file : Path) (text : Option String) :
    Accounted (file :: known) told ((f.enqueueVisit file text).addDependency file) audit := by
  have hdependencies : ((f.enqueueVisit file text).addDependency file).dependencies =
      f.dependencies.insert file := by
    show ((f.enqueueVisit file text).enqueueVisit file none).dependencies.insert file = _
    rw [enqueueVisit_dependencies, enqueueVisit_dependencies]
  refine ⟨?_, fun p => ?_, fun v hv hsome => ?_, h.told⟩
  · rw [hdependencies]
    exact PathSet.increasing_insertInto file h.increasing
  · rw [hdependencies, PathSet.contains_insert, h.contains, List.contains_cons, Bool.or_assoc]
  · have hvisit : v ∈ ((f.enqueueVisit file text).enqueueVisit file none).visits := hv
    rw [List.contains_cons]
    rcases mem_visits_enqueueVisit hvisit with hvisit | ⟨rfl, -⟩
    · rcases mem_visits_enqueueVisit hvisit with hvisit | ⟨rfl, -⟩
      · rw [h.given v hvisit hsome, Bool.or_true]
      · rw [BEq.refl, Bool.true_or]
    · rw [BEq.refl, Bool.true_or]

/-! ## Drains -/

theorem enqueueImports_dependencies (f : Frontier) (imports : List FoundImport) :
    (f.enqueueImports imports).dependencies = f.dependencies := by
  induction imports generalizing f with
  | nil => rfl
  | cons i rest ih =>
    obtain ⟨queries, heq, -⟩ :=
      f.enqueueQuery_spec ⟨i.context, f.options.requestFor i.name⟩ true
    have hrest := ih { f with queries }
    rw [← heq] at hrest
    exact hrest.trans (by rw [heq])

/-- A document was scanned whose text is given or was read. -/
theorem Accounted.takeScan (h : Accounted known told f audit) {file : Path} {audit' : Audit}
    (imports : List FoundImport) (htold : audit'.told = audit.told)
    (hmore : ∀ p, (known.contains p || audit'.mentions p) =
      (p == file || (known.contains p || audit.mentions p))) :
    Accounted known told (f.takeScan (file, some imports)) audit' := by
  have hinsert : Accounted known told
      { f with dependencies := f.dependencies.insert file } audit' :=
    h.insert htold hmore fun _ hp => hp
  have hnoted := noted_enqueueImports
    { f with
      ledger.scans := f.ledger.scans + 1
      dependencies := f.dependencies.insert file } imports
  refine hinsert.congr (enqueueImports_dependencies _ imports) ?_
  intro v hv
  have hvisits : v ∈ f.visits := by
    rw [← hnoted.visits]
    exact hv
  exact hvisits

section

variable {host : Host σ} {t t' : σ × Audit}

theorem Accounted.scanBatch (options : Options) {batch : List Visit}
    (h : Accounted known told f t.2)
    (hbatch : ∀ v ∈ batch, v.text.isSome = true → known.contains v.file = true) :
    Accounted known told
      ((Frontier.scanBatch host.audited options batch t).1.foldl Frontier.takeScan f)
      (Frontier.scanBatch host.audited options batch t).2.2 := by
  induction batch generalizing f t with
  | nil => exact h
  | cons v rest ih =>
    have hrest : ∀ v ∈ rest, v.text.isSome = true → known.contains v.file = true :=
      fun v hv => hbatch v (List.mem_cons_of_mem _ hv)
    unfold Frontier.scanBatch Host.scanFile
    cases htext : v.text with
    | some text =>
      have hfile : known.contains v.file = true := hbatch v List.mem_cons_self (by simp [htext])
      refine ih (h.takeScan _ rfl fun p => ?_) hrest
      by_cases hp : (p == v.file) = true
      · rw [List.contains_congr hp, hfile]
        simp
      · rw [Bool.eq_false_iff.2 hp, Bool.false_or]
    | none =>
      rcases hread : host.audited.read t v.file with ⟨failure | text, t₁⟩
      · dsimp only
        refine ih (f := f) ?_ hrest
        rw [Host.audited_read_error hread]
        exact h
      · dsimp only
        refine ih (h.takeScan _ ?_ fun p => ?_) hrest
        · rw [Host.audited_read_ok hread]
        · rw [Host.audited_read_ok hread, Audit.mentions_read, Bool.or_left_comm]

theorem Accounted.flushVisits (h : Accounted known told f t.2) :
    Accounted known told (Frontier.flushVisits host.audited f t).1
      (Frontier.flushVisits host.audited f t).2.2 := by
  obtain ⟨hspec, hsub, -⟩ := takeVisits_spec f.visits f
  have htaken : Accounted known told (takeVisits f.visits f).2 t.2 := by
    rw [hspec]
    exact h.congr rfl (List.nil_subset _)
  exact htaken.scanBatch (takeVisits f.visits f).2.options fun v hv => h.given v (hsub hv)

theorem Accounted.record (h : Accounted known told f audit) (key : Reference) (request : String)
    (target : Path) : Accounted known told (f.record key request target)
      { audit with granted := audit.granted ++ [target] } := by
  have hinsert : Accounted known told { f with dependencies := f.dependencies.insert target }
      { audit with granted := audit.granted ++ [target] } := by
    refine h.insert rfl (fun p => ?_) fun _ hp => hp
    rw [Audit.mentions_grant, Bool.or_left_comm]
  have hcached : Accounted known told
      { f with
        cache := (f.cache.store key target).store ⟨key.context, request⟩ target
        ledger.resolved := f.ledger.resolved + 1
        dependencies := f.dependencies.insert target }
      { audit with granted := audit.granted ++ [target] } :=
    hinsert.congr rfl (List.Subset.refl _)
  exact hcached.enqueueVisit (by simp)

theorem Accounted.resolve (h : Accounted known told f t.2) {key : Reference} {speculative : Bool}
    {result : Except Failure (Option Path)}
    (hr : Resolution host.audited key speculative f t result f' t') :
    Accounted known told f' t'.2 := by
  have hcounted : ∀ ledger, Accounted known told { f with ledger } t.2 :=
    fun ledger => h.congr rfl (List.Subset.refl _)
  cases hr with
  | cached hit => exact h
  | @granted _ request target ledger _ grants =>
    rw [grants.audited]
    exact (hcounted ledger).record key request target
  | @dropped _ _ ledger _ _ refuses =>
    rw [refuses.audited]
    exact hcounted ledger
  | @refused _ _ ledger _ _ refuses =>
    rw [refuses.audited]
    exact hcounted ledger

/-- A drain keeps account of the dependencies, and tells the host nothing. -/
theorem Accounted.drain (h : Accounted known told f t.2) {layers : Nat}
    {result : Except Failure Unit}
    (hd : Frontier.drain host.audited layers f t = some (result, f', t')) :
    Accounted known told f' t'.2 := by
  refine (drains_of_drain hd).carries (P := fun f t => Accounted known told f t.2) ?_ ?_ h
  · exact fun hf => hf.flushVisits
  · intro f f' t t' q rest result hf hqueries hr
    have hrest : Accounted known told { f with queries := rest } t.2 :=
      hf.congr rfl (List.Subset.refl _)
    exact hrest.resolve hr

end

end Frontier

end StyleWeave
