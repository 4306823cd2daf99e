import StyleWeave.Proofs.Dialect
import StyleWeave.Proofs.Frontier.Resolve

/-!
# Hosts that keep to their answers

A host may answer as it likes, and differently at every call. Of a host whose answers depend on
nothing but what it is asked for, up to equality of paths, more can be said: it designates one path
for a reference at most, that of the first candidate which it resolves, and a cache of its answers
stays coherent with it (`Coherent.growth`). A reference is cached together with the candidate that
was resolved. In a closed dialect that candidate is its only candidate, so both spellings
designate the same path, and resolving them in another order comes to the same.
-/

namespace StyleWeave

variable {σ : Type}

namespace Host

variable {host : Host σ} {dialect : Dialect} {s s' s₀ : σ} {context context' : Path}
  {requests : List String} {request : String} {target : Path}

/-- For equal references, whatever was asked before, the host resolves to equal paths or fails. -/
def ResolvesAlike (host : Host σ) : Prop :=
  ∀ (s s' : σ) (a b : Reference), a == b →
    (host.resolve s a).1.toOption.map Path.components =
      (host.resolve s' b).1.toOption.map Path.components

/-- By equal paths, whatever was asked before, the host reads the same text or fails. -/
def ReadsAlike (host : Host σ) : Prop :=
  ∀ (s s' : σ) (p q : Path), p == q →
    (host.read s p).1.toOption = (host.read s' q).1.toOption

/-- The first of some requests from one context that the host resolves in a state, and its path. -/
def granted? (host : Host σ) (s : σ) (context : Path) (requests : List String) :
    Option (String × Path) :=
  requests.findSome? fun request =>
    (host.resolve s ⟨context, request⟩).1.toOption.map fun target => (request, target)

theorem granted?_cons (host : Host σ) (s : σ) (context : Path) (request : String)
    (rest : List String) :
    host.granted? s context (request :: rest) =
      match (host.resolve s ⟨context, request⟩).1 with
      | .ok target => some (request, target)
      | .error _ => host.granted? s context rest := by
  unfold granted?
  rw [List.findSome?_cons]
  cases (host.resolve s ⟨context, request⟩).1 <;> rfl

theorem mem_of_granted? (h : host.granted? s context requests = some (request, target)) :
    request ∈ requests ∧ (host.resolve s ⟨context, request⟩).1 = .ok target := by
  induction requests with
  | nil => simp [granted?] at h
  | cons first rest ih =>
    rw [granted?_cons] at h
    cases hfirst : (host.resolve s ⟨context, first⟩).1 with
    | ok found =>
      rw [hfirst] at h
      obtain ⟨rfl, rfl⟩ := Prod.mk.inj (Option.some.inj h)
      exact ⟨List.mem_cons_self, hfirst⟩
    | error failure =>
      rw [hfirst] at h
      exact ⟨List.mem_cons_of_mem _ (ih h).1, (ih h).2⟩

theorem granted?_eq_none_iff :
    host.granted? s context requests = none ↔
      ∀ request ∈ requests, ∃ failure, (host.resolve s ⟨context, request⟩).1 = .error failure := by
  unfold granted?
  rw [List.findSome?_eq_none_iff]
  refine forall₂_congr fun request _ => ?_
  cases (host.resolve s ⟨context, request⟩).1 with
  | ok target => simp [Except.toOption]
  | error failure => simp [Except.toOption]

theorem granted?_singleton (h : (host.resolve s ⟨context, request⟩).1 = .ok target) :
    host.granted? s context [request] = some (request, target) := by
  rw [granted?_cons, h]

/-! ## Answers in other states -/

theorem ResolvesAlike.ok (hhost : host.ResolvesAlike) {a b : Reference} (hab : a == b)
    (h : (host.resolve s a).1 = .ok target) (s' : σ) :
    ∃ found, (host.resolve s' b).1 = .ok found ∧ found == target := by
  have hboth := hhost s s' a b hab
  rw [h] at hboth
  cases hb : (host.resolve s' b).1 with
  | ok found =>
    rw [hb] at hboth
    exact ⟨found, rfl, Path.beq_iff.2 (Option.some.inj hboth).symm⟩
  | error failure => simp [hb, Except.toOption] at hboth

theorem ResolvesAlike.error (hhost : host.ResolvesAlike) {a b : Reference} (hab : a == b)
    {failure : Failure} (h : (host.resolve s a).1 = .error failure) (s' : σ) :
    ∃ failure', (host.resolve s' b).1 = .error failure' := by
  cases hb : (host.resolve s' b).1 with
  | ok found =>
    obtain ⟨_, hok, -⟩ := hhost.ok (BEq.symm hab) hb s
    simp [h] at hok
  | error failure' => exact ⟨failure', rfl⟩

/-- From equal contexts, and in all states, the same request is granted with equal paths. -/
theorem ResolvesAlike.granted? (hhost : host.ResolvesAlike) (hcontext : context == context')
    (h : host.granted? s context requests = some (request, target)) (s' : σ) :
    ∃ found, host.granted? s' context' requests = some (request, found) ∧ found == target := by
  induction requests with
  | nil => simp [Host.granted?] at h
  | cons first rest ih =>
    have hkeys : (⟨context, first⟩ : Reference) == ⟨context', first⟩ :=
      Reference.beq_iff.2 ⟨Path.beq_iff.1 hcontext, rfl⟩
    rw [granted?_cons] at h ⊢
    cases hfirst : (host.resolve s ⟨context, first⟩).1 with
    | ok found =>
      rw [hfirst] at h
      obtain ⟨rfl, rfl⟩ := Prod.mk.inj (Option.some.inj h)
      obtain ⟨found', hfound', heq⟩ := hhost.ok hkeys hfirst s'
      exact ⟨found', by rw [hfound'], heq⟩
    | error failure =>
      rw [hfirst] at h
      obtain ⟨failure', hfailure'⟩ := hhost.error hkeys hfirst s'
      rw [hfailure']
      exact ih h

theorem ResolvesAlike.granted?_eq_none (hhost : host.ResolvesAlike)
    (hcontext : context == context') (h : host.granted? s context requests = none) (s' : σ) :
    host.granted? s' context' requests = none := by
  cases hgranted : host.granted? s' context' requests with
  | none => rfl
  | some found =>
    obtain ⟨_, hsome, -⟩ := hhost.granted? (BEq.symm hcontext) hgranted s
    simp [h] at hsome

/-- What the host grants when it is asked in turn is what it grants in any state. -/
theorem Grants.granted? (hhost : host.ResolvesAlike)
    (h : host.Grants context requests s request target s') (s₀ : σ) :
    ∃ found, host.granted? s₀ context requests = some (request, found) ∧ found == target := by
  induction h with
  | @here request rest s s₁ target first =>
    obtain ⟨found, hfound, heq⟩ := hhost.ok (BEq.refl _) (congrArg Prod.fst first) s₀
    exact ⟨found, by rw [granted?_cons, hfound], heq⟩
  | @there skipped request rest s s₁ s₂ failure target first _ ih =>
    obtain ⟨failure', hfailure'⟩ := hhost.error (BEq.refl _) (congrArg Prod.fst first) s₀
    rw [granted?_cons, hfailure']
    exact ih

theorem Refuses.granted? (hhost : host.ResolvesAlike) {failures : List Failure}
    (h : host.Refuses context requests s failures s') (s₀ : σ) :
    host.granted? s₀ context requests = none := by
  induction h with
  | nil => rfl
  | cons first _ ih =>
    obtain ⟨failure', hfailure'⟩ := hhost.error (BEq.refl _) (congrArg Prod.fst first) s₀
    rw [granted?_cons, hfailure']
    exact ih

/-! ## Designated paths -/

/-- In every state, the path is that of the first candidate of the reference which the host
resolves. -/
def Designates (host : Host σ) (dialect : Dialect) (key : Reference) (target : Path) : Prop :=
  ∀ s, ∃ request found,
    host.granted? s key.context (dialect.candidates key.request) = some (request, found) ∧
      found == target

theorem Designates.unique {key key' : Reference} {target' : Path} (hhost : host.ResolvesAlike)
    (h : host.Designates dialect key target) (h' : host.Designates dialect key' target')
    (hkey : key == key') (s : σ) : target == target' := by
  obtain ⟨request, found, hgranted, heq⟩ := h s
  obtain ⟨request', found', hgranted', heq'⟩ := h' s
  obtain ⟨hcontext, hrequest⟩ := Reference.beq_iff.1 hkey
  obtain ⟨found'', hsame, heq''⟩ := hhost.granted? (Path.beq_iff.2 hcontext) hgranted s
  rw [hrequest, hgranted'] at hsame
  obtain ⟨-, rfl⟩ := Prod.mk.inj (Option.some.inj hsame)
  exact BEq.trans (BEq.symm heq) (BEq.trans (BEq.symm heq'') heq')

theorem ResolvesAlike.designates {key k : Reference} {found : Path} (hhost : host.ResolvesAlike)
    (h : host.granted? s key.context (dialect.candidates key.request) = some (request, found))
    (heq : found == target) (hk : k == key) : host.Designates dialect k target := by
  intro s₀
  obtain ⟨hcontext, hrequest⟩ := Reference.beq_iff.1 hk
  obtain ⟨found', hgranted, heq'⟩ := hhost.granted? (Path.beq_iff.2 hcontext.symm) h s₀
  exact ⟨request, found', by rw [hrequest]; exact hgranted, BEq.trans heq' heq⟩

/-- In a closed dialect, the candidate that is granted designates the same path. -/
theorem ResolvesAlike.candidate_designates {key k : Reference} {found : Path}
    (hhost : host.ResolvesAlike) (hd : dialect.Closed)
    (h : host.granted? s key.context (dialect.candidates key.request) = some (request, found))
    (heq : found == target) (hk : k == ⟨key.context, request⟩) :
    host.Designates dialect k target := by
  obtain ⟨hmem, hfound⟩ := mem_of_granted? h
  obtain ⟨candidate, hcandidate⟩ : ∃ c : Reference, c = ⟨key.context, request⟩ := ⟨_, rfl⟩
  have hsingle : host.granted? s candidate.context (dialect.candidates candidate.request) =
      some (request, found) := by
    rw [hcandidate, hd.candidates hmem]
    exact granted?_singleton hfound
  rw [← hcandidate] at hk
  exact hhost.designates hsingle heq hk

/-- Each reference in the cache leads to the path that the host designates for it. -/
def Coherent (host : Host σ) (dialect : Dialect) (cache : Cache) : Prop :=
  ∀ key target, cache.find? key = some target → host.Designates dialect key target

theorem coherent_empty (host : Host σ) (dialect : Dialect) : host.Coherent dialect {} := by
  intro key target h
  simp [Cache.find?] at h

theorem Coherent.growth {c c' : Cache} (hhost : host.ResolvesAlike) (hd : dialect.Closed)
    (hc : host.Coherent dialect c) (h : Cache.Growth host dialect c c') :
    host.Coherent dialect c' := by
  refine h.forall_find? hc fun key s s' request target granted k hk => ?_
  obtain ⟨found, hfound, heq⟩ := granted.granted? hhost s
  rcases hk with hk | hk
  · exact hhost.designates hfound heq hk
  · exact hhost.candidate_designates hd hfound heq hk

/-- To a coherent cache, resolutions add entries and change none. -/
theorem Coherent.accretes {c c' : Cache} (hhost : host.ResolvesAlike) (hd : dialect.Closed)
    (hc : host.Coherent dialect c) (h : Cache.Growth host dialect c c') : c.Accretes c' := by
  induction h with
  | refl => exact .refl
  | @learn c₁ key s s' request target before fresh granted ih =>
    obtain ⟨found, hfound, heq⟩ := granted.granted? hhost s
    refine (ih.store ?_).store fun p hp => ?_
    · intro p hp
      simp [fresh] at hp
    · -- The candidate may be cached already, as another reference or as the candidate of one.
      have hentries : ∀ k p, (c₁.store key target).find? k = some p →
          host.Designates dialect k p :=
        Cache.forall_find?_store (hc.growth hhost hd before) fun k hk =>
          hhost.designates hfound heq hk
      have htarget := hhost.candidate_designates hd hfound heq (BEq.refl _)
      exact (hentries _ p hp).unique hhost htarget (BEq.refl _) s

/-- In a state, the host grants each reference in the cache, and the candidate that it grants is
cached too. -/
def Grounded (host : Host σ) (s : σ) (dialect : Dialect) (cache : Cache) : Prop :=
  ∀ key, cache.contains key = true → ∃ request target,
    host.granted? s key.context (dialect.candidates key.request) = some (request, target) ∧
      cache.contains ⟨key.context, request⟩ = true

theorem grounded_empty (host : Host σ) (s : σ) (dialect : Dialect) :
    host.Grounded s dialect {} := by
  intro key h
  simp [Cache.contains, Cache.find?] at h

theorem Grounded.growth {c c' : Cache} (hhost : host.ResolvesAlike) (hd : dialect.Closed)
    (hc : host.Grounded s dialect c) (h : Cache.Growth host dialect c c') :
    host.Grounded s dialect c' := by
  induction h with
  | refl => exact hc
  | @learn c₁ key _ _ request target _ _ granted ih =>
    obtain ⟨found, hgranted, -⟩ := granted.granted? hhost s
    intro k hk
    rw [Cache.contains_learn, Bool.or_eq_true, Bool.or_eq_true] at hk
    have hcandidate : ∀ context : Path, context == key.context →
        (c₁.learn key request target).contains ⟨context, request⟩ = true := by
      intro context hcontext
      have heq : (⟨context, request⟩ : Reference) == ⟨key.context, request⟩ :=
        Reference.beq_iff.2 ⟨Path.beq_iff.1 hcontext, rfl⟩
      simp [heq]
    rcases hk with hk | hk | hk
    · -- The candidate that was granted is its own candidate.
      obtain ⟨hcontext, hrequest⟩ := Reference.beq_iff.1 hk
      obtain ⟨hmem, hfound⟩ := mem_of_granted? hgranted
      obtain ⟨found', hgranted', -⟩ :=
        hhost.granted? (Path.beq_iff.2 hcontext.symm) (granted?_singleton hfound) s
      refine ⟨request, found', ?_, hcandidate k.context (Path.beq_iff.2 hcontext)⟩
      rw [hrequest, hd.candidates hmem]
      exact hgranted'
    · obtain ⟨hcontext, hrequest⟩ := Reference.beq_iff.1 hk
      obtain ⟨found', hgranted', -⟩ := hhost.granted? (Path.beq_iff.2 hcontext.symm) hgranted s
      refine ⟨request, found', ?_, hcandidate k.context (Path.beq_iff.2 hcontext)⟩
      rw [hrequest]
      exact hgranted'
    · obtain ⟨request', target', hgranted', hcontains⟩ := ih k hk
      exact ⟨request', target', hgranted', by simp [hcontains]⟩

end Host

end StyleWeave
