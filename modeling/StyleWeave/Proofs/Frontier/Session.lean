import StyleWeave.Proofs.Frontier.Drain
import StyleWeave.Proofs.Host.Memory

/-!
# What a cache holds, it holds for good

A frontier is worked on by calls in any order: documents and references are queued, dependencies
counted, single references resolved and queues drained. `Session` is any such sequence of calls.
With a host that keeps to its answers, and a plain extension, the cache is coherent after each
session, and later sessions add to it and change nothing (`cached_for_good`). So a reference that
was resolved once is never asked for again.
-/

namespace StyleWeave.Frontier

variable {σ : Type} {host : Host σ} {f f' f'' : Frontier} {s s' s'' : σ} {key : Reference}

/-- A sequence of calls leads from one frontier and state of the host to another. Between the calls
the host may be used for something else. -/
inductive Session (host : Host σ) (f : Frontier) (s : σ) : Frontier → σ → Prop where
  | refl : Session host f s f s
  | meanwhile {f' : Frontier} {s' : σ} (before : Session host f s f' s') (s'' : σ) :
      Session host f s f' s''
  | enqueueVisit {f' : Frontier} {s' : σ} (before : Session host f s f' s') (file : Path)
      (text : Option String) : Session host f s (f'.enqueueVisit file text) s'
  | enqueueQuery {f' : Frontier} {s' : σ} (before : Session host f s f' s') (key : Reference)
      (speculative : Bool) : Session host f s (f'.enqueueQuery key speculative) s'
  | addDependencies {f' : Frontier} {s' : σ} (before : Session host f s f' s')
      (files : List Path) : Session host f s (f'.addDependencies files) s'
  | resolve {f' f'' : Frontier} {s' s'' : σ} {key : Reference} {speculative : Bool}
      {result : Except Failure (Option Path)} (before : Session host f s f' s')
      (resolved : Frontier.resolve host key speculative f' s' = (result, f'', s'')) :
      Session host f s f'' s''
  | drain {f' f'' : Frontier} {s' s'' : σ} {layers : Nat} {result : Except Failure Unit}
      (before : Session host f s f' s')
      (drained : Frontier.drain host layers f' s' = some (result, f'', s'')) :
      Session host f s f'' s''

theorem enqueueQuery_extends (f : Frontier) (key : Reference) (speculative : Bool) :
    Extends host f (f.enqueueQuery key speculative) := by
  obtain ⟨queries, heq, -⟩ := f.enqueueQuery_spec key speculative
  rw [heq]
  exact ⟨rfl, .refl⟩

/-- A session keeps the options, and all that it does to the cache is to add what it resolves. -/
theorem Session.extends (h : Session host f s f' s') : Extends host f f' := by
  induction h with
  | refl => exact ⟨rfl, .refl⟩
  | meanwhile _ _ ih => exact ih
  | enqueueVisit _ file text ih =>
    exact ih.trans ⟨enqueueVisit_options _ _ _, by rw [enqueueVisit_cache]; exact .refl⟩
  | enqueueQuery _ key speculative ih => exact ih.trans (enqueueQuery_extends _ key speculative)
  | addDependencies _ files ih =>
    exact ih.trans ⟨addDependencies_options _ _, by rw [addDependencies_cache]; exact .refl⟩
  | resolve _ resolved ih => exact ih.trans (resolution_of_resolve resolved).extends.1
  | drain _ drained ih => exact ih.trans (drains_of_drain drained).extends

/-! ## Cached references -/

theorem resolve_of_cached {target : Path} (h : f.cache.find? key = some target)
    (host : Host σ) (speculative : Bool) (s : σ) :
    resolve host key speculative f s = (.ok (some target), f, s) := by
  unfold resolve
  rw [h]

theorem enqueueQuery_of_cached (h : f.cache.contains key = true) (speculative : Bool) :
    f.wantsQuery key = false ∧ f.enqueueQuery key speculative = f := by
  simp [wantsQuery, enqueueQuery, h]

theorem find?_of_resolve {speculative : Bool} {target : Path}
    (h : resolve host key speculative f s = (.ok (some target), f', s')) :
    f'.cache.find? key = some target := by
  cases resolution_of_resolve h with
  | cached hit => exact hit
  | granted fresh grants =>
    rw [record_cache]
    exact Cache.find?_learn fresh _ target

/-- After a session from an empty frontier, each reference in the cache leads to the path that the
host designates for it. Whatever is called then, no entry is led to another path. And a reference
that was resolved leads to its path from then on, without the host being asked, and is not queued
again. -/
theorem cached_for_good (hhost : host.ResolvesAlike) {options : Options}
    (hplain : options.dialect.PlainExtension) {s₀ : σ} (hf : Session host { options } s₀ f s) :
    host.Coherent options.dialect f.cache ∧
    (∀ f' s', Session host f s f' s' → f.cache.Accretes f'.cache) ∧
    ∀ key speculative target f₁ s₁,
      resolve host key speculative f s = (.ok (some target), f₁, s₁) →
      ∀ f' s', Session host f₁ s₁ f' s' → ∀ key', key' == key → ∀ speculative',
        resolve host key' speculative' f' s' = (.ok (some target), f', s') ∧
        f'.wantsQuery key' = false ∧ f'.enqueueQuery key' speculative' = f' := by
  have hcoherent : ∀ {f : Frontier} {s : σ}, Session host { options } s₀ f s →
      host.Coherent options.dialect f.cache := fun hf =>
    (host.coherent_empty options.dialect).growth hhost hplain.closed hf.extends.cache
  have haccretes : ∀ {f f' : Frontier} {s s' : σ}, Session host { options } s₀ f s →
      Session host f s f' s' → f.cache.Accretes f'.cache := by
    intro f f' s s' hf hf'
    have hgrowth := hf'.extends.cache
    rw [hf.extends.options] at hgrowth
    exact (hcoherent hf).accretes hhost hplain.closed hgrowth
  refine ⟨hcoherent hf, fun f' s' => haccretes hf, ?_⟩
  intro key speculative target f₁ s₁ hresolve f' s' hf' key' hkey speculative'
  have hfound : f'.cache.find? key' = some target := by
    rw [f'.cache.find?_congr hkey]
    exact (haccretes (hf.resolve hresolve) hf').find? (find?_of_resolve hresolve)
  have hcontains : f'.cache.contains key' = true := Cache.contains_iff.2 ⟨target, hfound⟩
  exact ⟨resolve_of_cached hfound host speculative' s',
    enqueueQuery_of_cached hcontains speculative'⟩

/-- A package in a directory of modules. -/
def modulePackage : Memory where
  files := [(⟨"/modules/pkg.styl"⟩, "a\n")]
  moduleDirs := [⟨"/modules"⟩]

theorem cached_for_good_modulePackage :
    ∃ result f s, drain modulePackage.host 2
        (({ options := {} } : Frontier).enqueueQuery ⟨⟨"/app"⟩, "pkg"⟩ true) {} =
          some (result, f, s) ∧
      modulePackage.host.Coherent {} f.cache ∧
      ∀ f' s', Session modulePackage.host f s f' s' →
        resolve modulePackage.host ⟨⟨"/app/."⟩, "pkg"⟩ false f' s' =
          (.ok (some ⟨"/modules/pkg.styl"⟩), f', s') ∧
        f'.wantsQuery ⟨⟨"/app/."⟩, "pkg"⟩ = false := by
  have hplain : (({} : Options).dialect).PlainExtension := by decide +kernel
  have hdrain : ((drain modulePackage.host 2
      (({ options := {} } : Frontier).enqueueQuery ⟨⟨"/app"⟩, "pkg"⟩ true) {}).bind
        fun answer => (answer.2.1.cache.find? ⟨⟨"/app"⟩, "pkg"⟩).map Path.text) =
      some "/modules/pkg.styl" := by
    decide +kernel
  obtain ⟨⟨result, f, s⟩, hanswer, hpath⟩ := Option.bind_eq_some_iff.1 hdrain
  obtain ⟨⟨text⟩, hfound, rfl⟩ := Option.map_eq_some_iff.1 hpath
  have hsession := (Session.refl.enqueueQuery ⟨⟨"/app"⟩, "pkg"⟩ true).drain hanswer
  obtain ⟨hcoherent, -, hgood⟩ := cached_for_good modulePackage.resolvesAlike hplain hsession
  refine ⟨result, f, s, hanswer, hcoherent, fun f' s' hf' => ?_⟩
  have hresolve := resolve_of_cached hfound modulePackage.host false s
  have hkey : (⟨⟨"/app/."⟩, "pkg"⟩ : Reference) == ⟨⟨"/app"⟩, "pkg"⟩ := by decide +kernel
  obtain ⟨h₁, h₂, -⟩ := hgood _ _ _ _ _ hresolve f' s' hf' _ hkey false
  exact ⟨h₁, h₂⟩

end StyleWeave.Frontier
