import StyleWeave.Options.Basic
import StyleWeave.Proofs.Frontier.Exploration
import StyleWeave.Proofs.Host.Names
import StyleWeave.Proofs.Path.Extension

/-!
# Dialects that recognise their own requests

An import name without an extension is completed by the dialect, with the extension or as the index
file of a directory. The completed request is to be complete, so that nothing more is added to it,
and to name a document of the dialect, so that the document is scanned. Validated options do not
have all of this (`inferred_of_validate`): the extension must be one that a file can have and that
is shown by a request that ends with it, and the index file must have a name.
-/

namespace StyleWeave

variable {σ : Type}

namespace Dialect

/-- The dialect recognises what it completes: its extension is one that a file can have, the name of
its index file is not empty, and what has its extension is complete. -/
structure Coherent (d : Dialect) : Prop where
  oneExtension : d.OneExtension
  indexFile : Text.EndsInName d.indexFile
  completes : d.Completes

variable {d : Dialect}

/-- A dialect is coherent if its extension has no dots and no slashes, its index file has a name,
and the extension does not end with a quote, unless it then shows that of a plain stylesheet. -/
theorem coherent_iff :
    d.Coherent ↔ d.OneExtension ∧ Text.EndsInName d.indexFile ∧
      ((∀ c, d.extension.toList.getLast? = some c → c ≠ '"' ∧ c ≠ '\'') ∨
        d.isLiteralExtension d.shownExtension = true) := by
  constructor
  · rintro ⟨hone, hindex, -, hshown | hliteral⟩
    · exact ⟨hone, hindex, Or.inl (shownExtension_eq_iff.1 hshown).2⟩
    · exact ⟨hone, hindex, Or.inr hliteral⟩
  · rintro ⟨hone, hindex, hor⟩
    refine ⟨hone, hindex, fun hslash => ?_, ?_⟩
    · -- What is shown is a part of the extension, as that has no dots.
      have htrimmed := trimQuotes_prefix d.extension
      rcases d.shownExtension_spec.2 with ⟨hshown, -⟩ | ⟨hdot, -⟩
      · rw [hshown] at hslash
        exact hone.2 (htrimmed.subset hslash)
      · exact hone.1 (htrimmed.subset hdot)
    · exact hor.imp_left fun hquote => shownExtension_eq_iff.2 ⟨hone.1, hquote⟩

/-- What a request is completed to. -/
def inferred (d : Dialect) (request : String) : List String :=
  [d.withExtension request, d.indexRequest request]

theorem candidates_of_not_literal {request : String} (h : d.isLiteralRequest request = false) :
    d.candidates request = d.inferred request := by
  rw [candidates, h]
  rfl

/-- Exactly a coherent dialect recognises what it completes. -/
theorem inferred_iff (hne : d.extension ≠ "") {request : String}
    (hrequest : Text.EndsInName request) :
    (∀ c ∈ d.inferred request, d.isLiteralRequest c = true ∧ d.isDialectFile ⟨c⟩ = true) ↔
      d.Coherent := by
  constructor
  · intro h
    obtain ⟨hliteral, hfile⟩ := h (d.withExtension request) (by simp [inferred])
    obtain ⟨-, hindex⟩ := h (d.indexRequest request) (by simp [inferred])
    exact ⟨((isDialectFile_withExtension_iff hne request).1 hfile).1,
      ((isDialectFile_indexRequest_iff hne request).1 hindex).2,
      (d.isLiteralRequest_withExtension_iff request).1 hliteral⟩
  · rintro ⟨hone, hindex, hcompletes⟩ c hc
    rcases List.mem_cons.1 hc with rfl | hc
    · exact ⟨(d.isLiteralRequest_withExtension_iff request).2 hcompletes,
        (isDialectFile_withExtension_iff hne request).2 ⟨hone, hrequest⟩⟩
    · rw [List.mem_singleton.1 hc]
      exact ⟨(d.isLiteralRequest_indexRequest_iff request).2 hcompletes,
        (isDialectFile_indexRequest_iff hne request).2 ⟨hone, hindex⟩⟩

end Dialect

/-- What a host grants it has resolved in some state. -/
theorem Host.Grants.exists_resolve {host : Host σ} {context target : Path}
    {requests : List String} {request : String} {s s' : σ}
    (h : host.Grants context requests s request target s') :
    ∃ t, (host.resolve t ⟨context, request⟩).1 = .ok target := by
  induction h with
  | here first => exact ⟨_, congrArg Prod.fst first⟩
  | there _ _ ih => exact ih

namespace Frontier

variable {host : Host σ} {f f' : Frontier} {s s' : σ} {key : Reference} {target file : Path}

/-! ## Documents that references lead to -/

/-- A document gets known when it is queued, if documents are scanned ahead and it is one of the
dialect. -/
theorem documents_enqueueVisit (f : Frontier) (file : Path) (text : Option String) :
    (f.enqueueVisit file text).documents.contains file = true ↔
      f.documents.contains file = true ∨
        (f.options.prefetch = true ∧ f.options.dialect.isDialectFile file = true) := by
  unfold enqueueVisit
  by_cases hwants : f.wantsVisit file = true
  · rw [if_pos hwants]
    rw [wantsVisit_eq, Bool.and_eq_true, Bool.and_eq_true] at hwants
    refine iff_of_true ?_ (Or.inr hwants.1)
    exact List.contains_iff_exists_mem_beq.2 ⟨file, by simp [documents], BEq.refl file⟩
  · rw [if_neg hwants]
    constructor
    · intro hknown
      exact Or.inl hknown
    · rintro (hknown | ⟨hprefetch, hfile⟩)
      · exact hknown
      · rw [wantsVisit_eq, hprefetch, hfile] at hwants
        simpa using hwants

/-- The document that a reference is resolved to gets known, if documents are scanned ahead and it
is one of the dialect. -/
theorem documents_of_resolve {speculative : Bool} (fresh : f.cache.find? key = none)
    (h : resolve host key speculative f s = (.ok (some target), f', s')) :
    f'.documents.contains target = true ↔ f.documents.contains target = true ∨
      (f.options.prefetch = true ∧ f.options.dialect.isDialectFile target = true) := by
  cases resolution_of_resolve h with
  | cached hit =>
    rw [hit] at fresh
    cases fresh
  | @granted _ request _ ledger =>
    exact documents_enqueueVisit (recorded { f with ledger } key request target) target none

/-- A host that keeps file names resolves what a coherent dialect completes to documents of the
dialect. -/
theorem isDialectFile_of_resolve (hhost : host.KeepsNames) (hd : f.options.dialect.Coherent)
    (hne : f.options.dialect.extension ≠ "") {context : Path} {request : String}
    (hrequest : Text.EndsInName request)
    (hliteral : f.options.dialect.isLiteralRequest request = false) {speculative : Bool}
    (fresh : f.cache.find? ⟨context, request⟩ = none)
    (h : resolve host ⟨context, request⟩ speculative f s = (.ok (some target), f', s')) :
    f.options.dialect.isDialectFile target = true := by
  cases resolution_of_resolve h with
  | cached hit =>
    rw [hit] at fresh
    cases fresh
  | granted _ grants =>
    obtain ⟨t, hanswer⟩ := grants.exists_resolve
    have hmem := grants.mem
    rw [Dialect.candidates_of_not_literal hliteral] at hmem
    have hfile := ((Dialect.inferred_iff hne hrequest).2 hd _ hmem).2
    obtain ⟨ext, hext, -⟩ := (Option.any_eq_true _ _).1 hfile
    obtain ⟨name, hname, -⟩ := Option.bind_eq_some_iff.1 hext
    have htarget := hhost t _ target name hanswer hname
    rw [f.options.dialect.isDialectFile_of_fileName (htarget.trans hname.symm)]
    exact hfile

end Frontier

namespace Options

theorem extension_ne_of_validate {o : Options} (h : o.validate = .ok ()) :
    o.dialect.extension ≠ "" := by
  intro hempty
  unfold validate at h
  rw [hempty] at h
  split at h
  · cases h
  · cases h

/-- For validated options, a request that ends in a name is completed to requests that are complete
and name documents of the dialect exactly if the dialect is coherent, which is told by its extension
and its index file. More precisely, the requests are complete, and hence their own only candidates,
exactly if the extension is shown; the extended request names a document exactly if the extension is
one that a file can have; and the index file does if, besides, its name is not empty. In a coherent
dialect, a host that keeps file names leads from the request to a document that is visited when
documents are scanned ahead. -/
theorem inferred_of_validate {o : Options} (hvalid : o.validate = .ok ()) {request : String}
    (hrequest : Text.EndsInName request) :
    ((∀ c ∈ o.dialect.inferred request,
        o.dialect.isLiteralRequest c = true ∧ o.dialect.isDialectFile ⟨c⟩ = true) ↔
      o.dialect.Coherent) ∧
    (o.dialect.Coherent ↔ o.dialect.OneExtension ∧ Text.EndsInName o.dialect.indexFile ∧
      ((∀ c, o.dialect.extension.toList.getLast? = some c → c ≠ '"' ∧ c ≠ '\'') ∨
        o.dialect.isLiteralExtension o.dialect.shownExtension = true)) ∧
    (∀ c ∈ o.dialect.inferred request,
      (o.dialect.isLiteralRequest c = true ↔ o.dialect.Completes) ∧
        (o.dialect.candidates c = [c] ↔ o.dialect.Completes)) ∧
    (o.dialect.isDialectFile ⟨o.dialect.withExtension request⟩ = true ↔ o.dialect.OneExtension) ∧
    (o.dialect.isDialectFile ⟨o.dialect.indexRequest request⟩ = true ↔
      o.dialect.OneExtension ∧ Text.EndsInName o.dialect.indexFile) ∧
    (o.dialect.Coherent → o.dialect.isLiteralRequest request = false →
      ∀ {σ : Type} (host : Host σ) (context target : Path) (speculative : Bool) (f f' : Frontier)
        (s s' : σ), host.KeepsNames → f.options = o →
        f.cache.find? ⟨context, request⟩ = none →
        Frontier.resolve host ⟨context, request⟩ speculative f s =
          (.ok (some target), f', s') →
        (f'.documents.contains target = true ↔
          f.documents.contains target = true ∨ o.prefetch = true) ∧
        ∀ layers result f'' s'', Frontier.drain host layers f' s' = some (result, f'', s'') →
          f'.documents.contains target = true → f''.isVisited target = true) := by
  have hne := extension_ne_of_validate hvalid
  have hindex := Dialect.isDialectFile_indexRequest_iff hne request
  refine ⟨Dialect.inferred_iff hne hrequest, Dialect.coherent_iff, ?_, ?_, hindex, ?_⟩
  · intro c hc
    have hliteral : o.dialect.isLiteralRequest c = true ↔ o.dialect.Completes := by
      rcases List.mem_cons.1 hc with rfl | hc
      · exact o.dialect.isLiteralRequest_withExtension_iff request
      · rw [List.mem_singleton.1 hc]
        exact o.dialect.isLiteralRequest_indexRequest_iff request
    exact ⟨hliteral, Dialect.candidates_eq_singleton_iff.trans hliteral⟩
  · rw [Dialect.isDialectFile_withExtension_iff hne]
    exact and_iff_left hrequest
  · rintro hcoherent hliteral σ host context target speculative f f' s s' hhost rfl fresh hresolve
    have hfile := Frontier.isDialectFile_of_resolve hhost hcoherent hne hrequest hliteral fresh
      hresolve
    constructor
    · rw [Frontier.documents_of_resolve fresh hresolve, hfile]
      simp
    · intro layers result f'' s'' hdrain hknown
      exact (Frontier.drains_of_drain hdrain).isVisited hknown

/-- With the extension `styl`, the document that `./a` leads to is visited. -/
theorem inferred_of_validate_styl :
    let o : Options := {}
    let m : Memory := { files := [(⟨"/s/a.styl"⟩, "b\n")] }
    let f : Frontier := { options := o }
    o.validate = .ok () ∧ Text.EndsInName "./a" ∧ o.dialect.Coherent ∧ m.host.KeepsNames ∧
      (∀ c ∈ o.dialect.inferred "./a",
        o.dialect.isLiteralRequest c = true ∧ o.dialect.isDialectFile ⟨c⟩ = true) ∧
      ∃ f' s' f'' s'', Frontier.resolve m.host ⟨⟨"/s"⟩, "./a"⟩ false f {} =
          (.ok (some ⟨"/s/a.styl"⟩), f', s') ∧
        Frontier.drain m.host 2 f' s' = some (.ok (), f'', s'') ∧
        f''.isVisited ⟨"/s/a.styl"⟩ = true := by
  intro o m f
  have hvalid : o.validate = .ok () := by
    unfold validate
    rw [if_neg (by decide), if_neg (by decide +kernel)]
  have hends : Text.EndsInName "./a" := ⟨'a', by decide, by decide⟩
  have hcoherent : o.dialect.Coherent :=
    ⟨by unfold Dialect.OneExtension; decide, ⟨'x', by decide, by decide⟩,
      by unfold Dialect.Completes; decide +kernel⟩
  have hhost : m.host.KeepsNames := Memory.keepsNames rfl
  have hfresh : f.cache.find? ⟨⟨"/s"⟩, "./a"⟩ = none := rfl
  obtain ⟨hinferred, -, -, -, -, hpump⟩ := inferred_of_validate hvalid hends
  have htext : (Frontier.resolve m.host ⟨⟨"/s"⟩, "./a"⟩ false f {}).1.toOption.map
      (·.map Path.text) = some (some "/s/a.styl") := by
    decide +kernel
  rcases hresolve : Frontier.resolve m.host ⟨⟨"/s"⟩, "./a"⟩ false f {} with ⟨result, f', s'⟩
  have hdrain : ((Frontier.drain m.host 2 (Frontier.resolve m.host ⟨⟨"/s"⟩, "./a"⟩ false f {}).2.1
      (Frontier.resolve m.host ⟨⟨"/s"⟩, "./a"⟩ false f {}).2.2).map
        fun answer => answer.1.isOk) = some true := by
    decide +kernel
  rw [hresolve] at htext hdrain
  obtain ⟨⟨result', f'', s''⟩, hanswer, hok⟩ := Option.map_eq_some_iff.1 hdrain
  obtain rfl : result = .ok (some ⟨"/s/a.styl"⟩) := by
    cases result with
    | error failure => cases htext
    | ok found =>
      obtain ⟨target, rfl, htarget⟩ := Option.map_eq_some_iff.1 (Option.some.inj htext)
      obtain ⟨text⟩ := target
      exact congrArg (fun t => Except.ok (some (Path.mk t))) htarget
  obtain ⟨hknown, hvisited⟩ := hpump hcoherent (by decide) m.host ⟨"/s"⟩ ⟨"/s/a.styl"⟩ false f f' {}
    s' hhost rfl hfresh hresolve
  obtain rfl : result' = .ok () := by
    cases result' with
    | ok => rfl
    | error => cases hok
  exact ⟨hvalid, hends, hcoherent, hhost, hinferred.2 hcoherent, f', s', f'', s'', rfl, hanswer,
    hvisited 2 _ f'' s'' hanswer (hknown.2 (Or.inr rfl))⟩

/-- With the extension `in.styl`, which the options may have, the document that `./a` leads to is
not visited: a file of this name has the extension `styl`, and a request for it is completed again.
-/
theorem inferred_of_validate_innerDot :
    let o : Options := { dialect := { extension := "in.styl" } }
    let m : Memory := { files := [(⟨"/s/a.in.styl"⟩, "b\n")] }
    let resolved := Frontier.resolve m.host ⟨⟨"/s"⟩, "./a"⟩ false { options := o } {}
    o.validate = .ok () ∧ Text.EndsInName "./a" ∧
      o.dialect.isLiteralRequest (o.dialect.withExtension "./a") = false ∧
      o.dialect.isDialectFile ⟨o.dialect.withExtension "./a"⟩ = false ∧
      o.dialect.candidates (o.dialect.withExtension "./a") =
        ["./a.in.styl.in.styl", "./a.in.styl/index.in.styl"] ∧
      resolved.1.toOption.map (·.map Path.text) = some (some "/s/a.in.styl") ∧
      ((Frontier.drain m.host 2 resolved.2.1 resolved.2.2).map fun answer =>
        (answer.1.isOk, answer.2.1.isVisited ⟨"/s/a.in.styl"⟩)) = some (true, false) := by
  refine ⟨?_, ⟨'a', by decide, by decide⟩, ?_⟩
  · unfold validate
    rw [if_neg (by decide), if_neg (by decide +kernel)]
  · decide +kernel

end Options

end StyleWeave
