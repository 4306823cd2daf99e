import StyleWeave.Proofs.Host.Memory
import StyleWeave.Proofs.Job.Inlining

/-!
# Where the imports of a rendered document are found

A name that only the host can resolve reaches the renderer on one of two ways: through the cache, by
its reference or by that of its path with extension, or as a pending reference that ends the pass.
All caches of a first run are coherent, and both references lead to the path that the host
designates. So if the document is rendered, each such name was found where the host wants it, unless
the tree had it.
-/

namespace StyleWeave

namespace Lookup

variable {m : Memory} {l : Lookup} {importer : Path} {name : String}

/-- A host reference that the tree does not have is known, over a coherent cache, only as the path
that the host designates. -/
theorem designated?_of_known? (hd : l.options.dialect.Closed)
    (hc : m.Coherent l.options.dialect l.cache)
    (hhost : l.options.dialect.isHostReference name = true)
    (hregular : l.options.dialect.isDialectFile ⟨name⟩ =
      l.options.dialect.isLiteralRequest (l.options.requestFor name))
    (hfile : l.nativeFile? importer name = none) (hdir : l.nativeDirectory? importer name = none)
    {target : Path} (h : l.known? importer name = some target) :
    m.designated? l.options.dialect (l.options.reference importer name) = some target := by
  rw [known?_of_host hhost hfile, hdir, Option.or_none] at h
  rcases Option.or_eq_some_iff.1 h with h | ⟨-, h⟩
  · exact Memory.designated?_of_fileReference hd hhost hregular (hc _ _ h)
  · exact hc _ _ h

end Lookup

namespace Job

open Inline (ParseCache)

/-- If the first run of a job over a host in memory renders its document, then in the last pass, the
one that did, each import that only the host can resolve and the tree does not have was found where
the host designates it: `pass` is that pass, watched. -/
theorem located_as_designated {m : Memory} {file : Path} {source : String} {options : Options}
    (hplain : options.dialect.PlainExtension) {depth : Nat} {limits : Limits} {log : Memory.Log}
    {parsed : ParseCache} (hparsed : parsed.Valid) {step : JobStep Memory.Log ParseCache Output}
    (ran : (create file source options).run m.host (Inline.renderer depth) m.tree limits log
      parsed = some step) {output : Output} (hok : step.result = .ok output) :
    ∃ calls last pass, Runs m.host (Inline.renderer depth) m.tree limits.layers
        (create file source options) log parsed calls step ∧
      calls.getLast? = some last ∧
      Inline.passThrough (Inline.Setting.ofLocator options (last.job.lookup m.tree).locator).watch
        depth file source (.empty, []) last.renderer = (.ok (), pass) ∧
      output.rendered = Inline.finish options file pass ∧
      ∀ sighting ∈ pass.search.2,
        options.dialect.isHostReference sighting.name = true →
        (m.lookup options).nativeFile? sighting.importer sighting.name = none →
        (m.lookup options).nativeDirectory? sighting.importer sighting.name = none →
        options.dialect.isDialectFile ⟨sighting.name⟩ =
          options.dialect.isLiteralRequest (options.requestFor sighting.name) →
        ∃ target, m.designated? options.dialect (options.reference sighting.importer
          sighting.name) = some target ∧ sighting.files = [target] := by
  have hg := guessing_create file source options
  obtain ⟨calls, hcalls, -⟩ := (run_eq_some_iff hg).1 ran
  obtain ⟨last, hlast, hverdict, -⟩ := hcalls.verdict hg
  obtain ⟨rendered, hrendered⟩ := hverdict.ok_iff.1 ⟨output, hok⟩
  have hmem : last ∈ calls := List.mem_of_getLast? hlast
  have hunder := hcalls.underway hparsed last hmem
  have hopt : last.job.frontier.options = options := hunder.grown.options
  have hcoherent : m.Coherent options.dialect last.job.frontier.cache :=
    (Memory.coherent_empty m options.dialect).growth hplain.closed hunder.grown.cache
  have hlookup : last.job.lookup m.tree = ⟨m.tree, last.job.frontier.cache, options⟩ := by
    rw [lookup, hopt]
  -- The last pass ends well, and so it does when it is watched.
  have hpass := hcalls.pass last hmem
  rw [hopt, hunder.file, hunder.source, hrendered] at hpass
  obtain ⟨hend, hfinish⟩ := Inline.outcome_eq_rendered_iff.1 hpass
  obtain ⟨hresult, halike⟩ := Inline.passThrough_watch
    (Inline.Setting.ofLocator options (last.job.lookup m.tree).locator) depth file source .empty
    hunder.parsed
  refine ⟨calls, last, _, hcalls, hlast, Prod.ext (hresult.trans hend) rfl, ?_, ?_⟩
  · have hresult := hverdict.rendered hrendered
    rw [hok] at hresult
    rw [Except.ok.inj hresult, hfinish]
    exact (halike.finish_eq options file).symm
  · intro sighting hsighting hhost hfile hdir hregular
    obtain ⟨found, hfound⟩ := halike.state.1.2 sighting hsighting
    rw [hlookup] at hfound
    have hlocate := Inline.locateIn_locator ⟨m.tree, last.job.frontier.cache, options⟩
      sighting.importer sighting.name found
    have hlocated := (congrArg Prod.fst hlocate).symm.trans hfound
    obtain ⟨target, hsearch, hfiles⟩ := Inline.located_eq_ok_iff.1 hlocated
    rw [Lookup.search_eq] at hsearch
    have hknown := Options.answer_eq_some_iff.1 hsearch
    have hfile' := (Lookup.nativeFile?_cache m.tree last.job.frontier.cache {} options).trans hfile
    have hdir' :=
      (Lookup.nativeDirectory?_cache m.tree last.job.frontier.cache {} options).trans hdir
    exact ⟨target, Lookup.designated?_of_known? (m := m)
      (l := ⟨m.tree, last.job.frontier.cache, options⟩) hplain.closed hcoherent hhost hregular
      hfile' hdir' hknown, hfiles⟩

/-- If the first call renders the document, it is the only one. -/
theorem Converges.of_rendered {σ ρ : Type} {host : Host σ} {renderer : Renderer ρ}
    {tree : SourceTree} {layers : Nat} {job job' : Job} {s : σ} {r r' : ρ}
    {calls : List (Call σ ρ)} {step : JobStep σ ρ Output} {rendered : Rendered}
    (h : Converges host renderer tree layers job s r calls step)
    (hcall : job.attempt renderer tree r = some (.ok (.rendered rendered), job', r')) :
    calls = [⟨job, s, r, .ok (.rendered rendered)⟩] := by
  cases h with
  | failed call => cases call.symm.trans hcall
  | rendered call => cases call.symm.trans hcall; rfl
  | missing call => cases call.symm.trans hcall
  | retry call => cases call.symm.trans hcall

/-- The document that imports the one package is rendered in one pass. This has seen one import,
and the package was found where the host designates it. -/
theorem located_as_designated_onePackage :
    let file : Path := ⟨"/app/main.styl"⟩
    let source := "@import '~pkg.styl'\n"
    ∃ (step : JobStep Memory.Log ParseCache Output) (output : Output)
      (calls : List (Call Memory.Log ParseCache)) (last : Call Memory.Log ParseCache)
      (pass : Inline.Pass (PathSet × List Inline.Sighting)),
      (create file source {}).run onePackage.host (Inline.renderer 2) onePackage.tree ⟨2, 2⟩ {} {} =
        some step ∧ step.result = .ok output ∧
      Runs onePackage.host (Inline.renderer 2) onePackage.tree 2 (create file source {}) {} {} calls
        step ∧ calls.getLast? = some last ∧
      Inline.passThrough
        (Inline.Setting.ofLocator {} (last.job.lookup onePackage.tree).locator).watch 2 file source
        (.empty, []) last.renderer = (.ok (), pass) ∧
      output.rendered = Inline.finish {} file pass ∧
      ∃ sighting target, pass.search.2 = [sighting] ∧ sighting.name = "~pkg.styl" ∧
        sighting.files = [target] ∧ target.text = "/lib/pkg.styl" ∧
        onePackage.designated? {} (({} : Options).reference sighting.importer sighting.name) =
          some target := by
  intro file source
  -- The prefetch, the first call behind it, and what the pass of this call sees.
  have hfirst : (((create file source {}).enqueueEntry.drain onePackage.host 2 {}).bind
      fun drained => (drained.2.1.attempt (Inline.renderer 2) onePackage.tree {}).map
        fun attempted =>
          (attempted.1.isOk && (missing? attempted.1).isNone,
          (Inline.passThrough (Inline.Setting.ofLocator {}
            (drained.2.1.lookup onePackage.tree).locator).watch 2 file source (.empty, [])
              {}).2.search.2.map fun sighting =>
                (sighting.importer.text, sighting.name, sighting.files.map Path.text))) =
      some (true, [("/app/main.styl", "~pkg.styl", ["/lib/pkg.styl"])]) := by
    decide +kernel
  have hrun : ((create file source {}).run onePackage.host (Inline.renderer 2) onePackage.tree
      ⟨2, 2⟩ {} {}).map (fun step => step.result.isOk) = some true := by
    decide +kernel
  obtain ⟨⟨drained, job, log⟩, hdrain, hrest⟩ := Option.bind_eq_some_iff.1 hfirst
  obtain ⟨⟨outcome, job', parsed⟩, hattempt, hseen⟩ := Option.map_eq_some_iff.1 hrest
  obtain ⟨hrendered, hsighted⟩ := Prod.mk.inj hseen
  obtain ⟨step, ran, hisOk⟩ := Option.map_eq_some_iff.1 hrun
  rcases hok : step.result with failure | output
  · rw [hok] at hisOk
    cases hisOk
  obtain ⟨calls, last, pass, hcalls, hlast, hpass, hfinish, hsightings⟩ :=
    located_as_designated (by decide +kernel) Inline.ParseCache.valid_empty ran hok
  have hcall : last.job = job ∧ last.renderer = {} := by
    obtain ⟨job₁, log₁, step₁, hdrain₁, hconverges, -⟩ := hcalls
    have hsame : (drained, job, log) = (.ok (), job₁, log₁) :=
      Option.some.inj (hdrain.symm.trans hdrain₁)
    obtain ⟨-, rfl, rfl⟩ := by simpa only [Prod.mk.injEq] using hsame
    rcases outcome with failure | rendered | pending
    · cases hrendered
    · rw [hconverges.of_rendered hattempt] at hlast
      obtain rfl := Option.some.inj hlast
      exact ⟨rfl, rfl⟩
    · cases hrendered
  have hsearched : pass.search.2.map (fun sighting =>
      (sighting.importer.text, sighting.name, sighting.files.map Path.text)) =
        [("/app/main.styl", "~pkg.styl", ["/lib/pkg.styl"])] := by
    rw [hcall.1, hcall.2] at hpass
    rw [← hsighted]
    dsimp only
    rw [hpass]
  obtain ⟨sighting, hone, hshown⟩ := List.map_eq_singleton_iff.1 hsearched
  obtain ⟨himporter, hname, hfiles⟩ := by simpa only [Prod.mk.injEq] using hshown
  have himporter' : sighting.importer = file := congrArg Path.mk himporter
  have hnative : (onePackage.lookup {}).nativeFile? sighting.importer sighting.name = none ∧
      (onePackage.lookup {}).nativeDirectory? sighting.importer sighting.name = none := by
    rw [himporter', hname]
    decide +kernel
  obtain ⟨target, hdesignated, htarget⟩ := hsightings sighting (by simp [hone])
    (by rw [hname]; decide +kernel) hnative.1 hnative.2 (by rw [hname]; decide +kernel)
  rw [htarget] at hfiles
  exact ⟨step, output, calls, last, pass, ran, hok, hcalls, hlast, hpass, hfinish, sighting, target,
    hone, hname, htarget, List.singleton_inj.1 hfiles, hdesignated⟩

end Job

end StyleWeave
