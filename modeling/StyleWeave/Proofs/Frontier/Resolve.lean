import StyleWeave.Frontier
import StyleWeave.Proofs.Cache

/-!
# Resolving one reference

What one call of the resolver can do, said once. A host that is asked for the candidates of a
reference one after the other either refuses them all or grants the first that it does not refuse.
`Resolution` lists what `resolve` makes of that, and `Cache.Growth` what any number of resolutions
make of a cache.
-/

namespace StyleWeave

variable {σ : Type}

namespace Host

/-- Asked for requests from one context one after the other, the host refuses them all, with these
failures. -/
inductive Refuses (host : Host σ) (context : Path) : List String → σ → List Failure → σ → Prop where
  | nil (s : σ) : Refuses host context [] s [] s
  | cons {request : String} {rest : List String} {s s₁ s₂ : σ} {failure : Failure}
      {failures : List Failure} (first : host.resolve s ⟨context, request⟩ = (.error failure, s₁))
      (others : Refuses host context rest s₁ failures s₂) :
      Refuses host context (request :: rest) s (failure :: failures) s₂

/-- Asked for requests from one context one after the other, the host resolves `request` after it
has refused those in front of it. -/
inductive Grants (host : Host σ) (context : Path) :
    List String → σ → String → Path → σ → Prop where
  | here {request : String} {rest : List String} {s s₁ : σ} {target : Path}
      (first : host.resolve s ⟨context, request⟩ = (.ok target, s₁)) :
      Grants host context (request :: rest) s request target s₁
  | there {skipped request : String} {rest : List String} {s s₁ s₂ : σ} {failure : Failure}
      {target : Path} (first : host.resolve s ⟨context, skipped⟩ = (.error failure, s₁))
      (other : Grants host context rest s₁ request target s₂) :
      Grants host context (skipped :: rest) s request target s₂

/-- From the first state to the second, the host was only asked to read files. -/
inductive Reads (host : Host σ) : σ → σ → Prop where
  | refl {s : σ} : Reads host s s
  | read {s s' : σ} (file : Path) (others : Reads host (host.read s file).2 s') : Reads host s s'

theorem Grants.mem {host : Host σ} {context : Path} {requests : List String} {s s' : σ}
    {request : String} {target : Path} (h : Grants host context requests s request target s') :
    request ∈ requests := by
  induction h with
  | here => exact List.mem_cons_self
  | there _ _ ih => exact List.mem_cons_of_mem _ ih

end Host

namespace Cache

/-- The cache once the host has resolved a reference by one of its candidates. -/
def learn (c : Cache) (key : Reference) (request : String) (target : Path) : Cache :=
  (c.store key target).store ⟨key.context, request⟩ target

/-- `Growth host dialect c c'`: resolving references that were not cached has made `c'` of `c`. -/
inductive Growth (host : Host σ) (dialect : Dialect) (c : Cache) : Cache → Prop where
  | refl : Growth host dialect c c
  | learn {c' : Cache} {key : Reference} {s s' : σ} {request : String} {target : Path}
      (before : Growth host dialect c c') (fresh : c'.find? key = none)
      (granted : host.Grants key.context (dialect.candidates key.request) s request target s') :
      Growth host dialect c (c'.learn key request target)

variable {host : Host σ} {dialect : Dialect} {c c' c'' : Cache}

theorem Growth.trans (h : Growth host dialect c c') (h' : Growth host dialect c' c'') :
    Growth host dialect c c'' := by
  induction h' with
  | refl => exact h
  | learn _ fresh granted ih => exact ih.learn fresh granted

@[simp] theorem contains_learn (c : Cache) (key k : Reference) (request : String) (target : Path) :
    (c.learn key request target).contains k =
      (k == ⟨key.context, request⟩ || (k == key || c.contains k)) := by
  simp [learn]

/-- A reference that was not cached leads to the path that it was resolved to. -/
theorem find?_learn {key : Reference} (fresh : c.find? key = none) (request : String)
    (target : Path) : (c.learn key request target).find? key = some target := by
  have hstore : (c.store key target).find? key = some target := by
    rcases c.find?_store_of_beq target (BEq.refl key) with hs | ⟨p, hp, -, -⟩
    · exact hs
    · simp [fresh] at hp
  unfold learn
  by_cases hk : key == ⟨key.context, request⟩
  · have hfound := ((c.store key target).find?_congr hk).symm.trans hstore
    rw [store_of_find? hfound (BEq.refl _), hstore]
  · rw [find?_store_of_ne (Bool.eq_false_iff.2 hk), hstore]

theorem Growth.contains (h : Growth host dialect c c') {k : Reference}
    (hk : c.contains k = true) : c'.contains k = true := by
  induction h with
  | refl => exact hk
  | learn _ _ _ ih => simp [ih]

/-- What holds of all entries of a cache, and of each reference that is resolved, holds of all
entries from then on. -/
theorem Growth.forall_find? (h : Growth host dialect c c') {P : Reference → Path → Prop}
    (hc : ∀ k p, c.find? k = some p → P k p)
    (hnew : ∀ (key : Reference) (s s' : σ) (request : String) (target : Path),
      host.Grants key.context (dialect.candidates key.request) s request target s' →
      ∀ k : Reference, k == key ∨ k == ⟨key.context, request⟩ → P k target) :
    ∀ k p, c'.find? k = some p → P k p := by
  induction h with
  | refl => exact hc
  | learn _ _ granted ih =>
    refine forall_find?_store (forall_find?_store ih fun k hk => ?_) fun k hk => ?_
    · exact hnew _ _ _ _ _ granted k (Or.inl hk)
    · exact hnew _ _ _ _ _ granted k (Or.inr hk)

end Cache

namespace Frontier

variable {host : Host σ} {f f' : Frontier} {key : Reference} {s s' : σ}

/-! ## Queueing -/

section Queueing

variable (f) (file : Path) (text : Option String)

@[simp] theorem enqueueVisit_options : (f.enqueueVisit file text).options = f.options := by
  unfold enqueueVisit; split <;> rfl

@[simp] theorem enqueueVisit_cache : (f.enqueueVisit file text).cache = f.cache := by
  unfold enqueueVisit; split <;> rfl

@[simp] theorem enqueueVisit_queries : (f.enqueueVisit file text).queries = f.queries := by
  unfold enqueueVisit; split <;> rfl

@[simp] theorem enqueueVisit_visited : (f.enqueueVisit file text).visited = f.visited := by
  unfold enqueueVisit; split <;> rfl

@[simp] theorem addDependency_options : (f.addDependency file).options = f.options :=
  enqueueVisit_options f file none

@[simp] theorem addDependency_cache : (f.addDependency file).cache = f.cache :=
  enqueueVisit_cache f file none

@[simp] theorem addDependency_queries : (f.addDependency file).queries = f.queries :=
  enqueueVisit_queries f file none

@[simp] theorem addDependencies_options (files : List Path) :
    (f.addDependencies files).options = f.options := by
  induction files generalizing f with
  | nil => rfl
  | cons p files ih => exact (ih (f.addDependency p)).trans (addDependency_options f p)

@[simp] theorem addDependencies_cache (files : List Path) :
    (f.addDependencies files).cache = f.cache := by
  induction files generalizing f with
  | nil => rfl
  | cons p files ih => exact (ih (f.addDependency p)).trans (addDependency_cache f p)

@[simp] theorem addDependencies_queries (files : List Path) :
    (f.addDependencies files).queries = f.queries := by
  induction files generalizing f with
  | nil => rfl
  | cons p files ih => exact (ih (f.addDependency p)).trans (addDependency_queries f p)

variable (key : Reference) (request : String) (target : Path)

@[simp] theorem record_options : (f.record key request target).options = f.options := by
  simp [record]

@[simp] theorem record_cache :
    (f.record key request target).cache = f.cache.learn key request target := by
  simp [record, Cache.learn]

@[simp] theorem record_queries : (f.record key request target).queries = f.queries := by
  simp [record]

end Queueing

/-- A required reference that is neither cached nor queued comes last in the queue. -/
theorem enqueueQuery_of_wanted (h : f.wantsQuery key = true) (speculative : Bool) :
    f.enqueueQuery key speculative = { f with queries := f.queries ++ [⟨key, speculative⟩] } := by
  have hc : f.cache.contains key = false := by
    simp only [wantsQuery, Bool.and_eq_true, Bool.not_eq_eq_eq_not, Bool.not_true] at h
    exact h.1
  simp [enqueueQuery, hc, h]

/-- Queueing a speculative reference changes nothing but the queue, which gets at most that
reference behind it. -/
theorem enqueueQuery_speculative (f : Frontier) (key : Reference) :
    f.enqueueQuery key true = f ∨
      f.enqueueQuery key true = { f with queries := f.queries ++ [⟨key, true⟩] } := by
  unfold enqueueQuery
  split
  · exact Or.inl rfl
  · split
    · exact Or.inr rfl
    · exact Or.inl rfl

theorem mem_promote {q : Query} {queries : List Query} (hq : q ∈ queries) (key : Reference) :
    ∃ q' ∈ promote key queries, q'.key = q.key := by
  induction queries with
  | nil => simp at hq
  | cons first rest ih =>
    unfold promote
    split
    · rcases List.mem_cons.1 hq with rfl | hq
      · exact ⟨_, List.mem_cons_self, rfl⟩
      · exact ⟨q, List.mem_cons_of_mem _ hq, rfl⟩
    · rcases List.mem_cons.1 hq with rfl | hq
      · exact ⟨q, List.mem_cons_self, rfl⟩
      · obtain ⟨q', hq', hkey⟩ := ih hq
        exact ⟨q', List.mem_cons_of_mem _ hq', hkey⟩

/-- Queueing a reference changes nothing but the queue, and no reference leaves the queue. -/
theorem enqueueQuery_spec (f : Frontier) (key : Reference) (speculative : Bool) :
    ∃ queries, f.enqueueQuery key speculative = { f with queries } ∧
      ∀ q ∈ f.queries, ∃ q' ∈ queries, q'.key = q.key := by
  unfold enqueueQuery
  split
  · exact ⟨f.queries, rfl, fun q hq => ⟨q, hq, rfl⟩⟩
  · split
    · exact ⟨_, rfl, fun q hq => ⟨q, List.mem_append_left _ hq, rfl⟩⟩
    · split
      · exact ⟨f.queries, rfl, fun q hq => ⟨q, hq, rfl⟩⟩
      · exact ⟨_, rfl, fun q hq => mem_promote hq key⟩

/-! ## Asking the host -/

/-- What asking for some requests can give. It changes nothing of the frontier but its ledger. -/
inductive Asked (host : Host σ) (context : Path) (requests : List String) (f : Frontier) (s : σ) :
    Except (List String) (String × Path) → Frontier → σ → Prop where
  | granted {s' : σ} {request : String} {target : Path} {ledger : Ledger}
      (grants : host.Grants context requests s request target s') :
      Asked host context requests f s (.ok (request, target)) { f with ledger } s'
  | refused {s' : σ} {failures : List Failure} {ledger : Ledger}
      (refuses : host.Refuses context requests s failures s') :
      Asked host context requests f s (.error (failures.map reason)) { f with ledger } s'

theorem ask_asked (host : Host σ) (context : Path) (requests : List String) (f : Frontier)
    (s : σ) :
    Asked host context requests f s (ask host context requests f s).1
      (ask host context requests f s).2.1 (ask host context requests f s).2.2 := by
  induction requests generalizing f s with
  | nil => exact @Asked.refused _ host context [] f s s [] f.ledger (.nil s)
  | cons request rest ih =>
    rcases hr : host.resolve s ⟨context, request⟩ with ⟨failure | target, s₁⟩
    · have h := ih { f with ledger.hostResolveCalls := f.ledger.hostResolveCalls + 1 } s₁
      simp only [ask, hr]
      generalize ask host context rest _ s₁ = answer at h ⊢
      obtain ⟨found, f₁, s₂⟩ := answer
      cases h with
      | granted grants => exact Asked.granted (.there hr grants)
      | refused refuses => exact Asked.refused (.cons hr refuses)
    · simp only [ask, hr]
      exact Asked.granted (.here hr)

/-- The failure to resolve a reference whose candidates the host has refused. -/
def unresolved (key : Reference) (failures : List Failure) : Failure :=
  .resolve key ("; ".intercalate (failures.map reason))

/-- What resolving a reference can give. -/
inductive Resolution (host : Host σ) (key : Reference) (speculative : Bool) (f : Frontier) (s : σ) :
    Except Failure (Option Path) → Frontier → σ → Prop where
  | cached {target : Path} (hit : f.cache.find? key = some target) :
      Resolution host key speculative f s (.ok (some target)) f s
  | granted {s' : σ} {request : String} {target : Path} {ledger : Ledger}
      (fresh : f.cache.find? key = none)
      (grants : host.Grants key.context (f.options.dialect.candidates key.request) s request target
        s') :
      Resolution host key speculative f s (.ok (some target))
        (Frontier.record { f with ledger } key request target) s'
  /-- The host refuses all candidates of a speculative reference, which is dropped. -/
  | dropped {s' : σ} {failures : List Failure} {ledger : Ledger} (guess : speculative = true)
      (fresh : f.cache.find? key = none)
      (refuses : host.Refuses key.context (f.options.dialect.candidates key.request) s failures
        s') :
      Resolution host key speculative f s (.ok none) { f with ledger } s'
  /-- The host refuses all candidates of a required reference. -/
  | refused {s' : σ} {failures : List Failure} {ledger : Ledger} (required : speculative = false)
      (fresh : f.cache.find? key = none)
      (refuses : host.Refuses key.context (f.options.dialect.candidates key.request) s failures
        s') :
      Resolution host key speculative f s (.error (unresolved key failures)) { f with ledger } s'

theorem resolve_resolution (host : Host σ) (key : Reference) (speculative : Bool) (f : Frontier)
    (s : σ) :
    Resolution host key speculative f s (resolve host key speculative f s).1
      (resolve host key speculative f s).2.1 (resolve host key speculative f s).2.2 := by
  unfold resolve
  cases hc : f.cache.find? key with
  | some target => exact .cached hc
  | none =>
    have h := ask_asked host key.context (f.options.dialect.candidates key.request) f s
    revert h
    generalize ask host key.context _ f s = answer
    obtain ⟨found, f₁, s₁⟩ := answer
    intro h
    cases h with
    | granted grants => exact .granted hc grants
    | refused refuses =>
      cases speculative with
      | true => exact .dropped rfl hc refuses
      | false => exact .refused rfl hc refuses

theorem resolution_of_resolve {speculative : Bool} {result : Except Failure (Option Path)}
    (h : resolve host key speculative f s = (result, f', s')) :
    Resolution host key speculative f s result f' s' := by
  have hr := resolve_resolution host key speculative f s
  rwa [h] at hr

end Frontier

end StyleWeave
