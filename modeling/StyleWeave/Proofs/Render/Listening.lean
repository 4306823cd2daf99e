import StyleWeave.Proofs.Render.Lookup
import StyleWeave.Proofs.Render.Simulation

/-!
# Listening to a pass

A locator that listens keeps a record of the paths and names that it is asked to find, and changes
nothing else. A pass over a lookup with nothing cached is native if it asks for nothing that only
the host can resolve. Then whatever is cached makes no difference to it (`Native.passThrough_eq`).
-/

namespace StyleWeave

open Inline (Setting ParseCache Halt Pass located filePath searchPaths)

/-- The locator that records the paths and names that it is asked to find. -/
def Locator.listen {σ : Type} (locator : Locator σ) : Locator (σ × List String) where
  find s path paths ignore :=
    let (result, found) := locator.find s.1 path paths ignore
    (result, found, s.2 ++ [path])
  index s name paths ignore :=
    let (result, found) := locator.index s.1 name paths ignore
    (result, found, s.2 ++ [name])
  read s file :=
    let (result, found) := locator.read s.1 file
    (result, found, s.2)

namespace Lookup

variable {tree : SourceTree} {options : Options} {importer : Path} {name : String}

/-- What a search for an import asks for: its path with extension, and its name if the path is not
found. -/
def asked (l : Lookup) (importer : Path) (name : String) : List String :=
  let path := filePath l.options.dialect name
  match l.find path (searchPaths l.options importer) (some importer) with
  | some _ => [path]
  | none => [path, name]

theorem locateIn_listen (l : Lookup) (importer : Path) (name : String)
    (s : PathSet × List String) :
    Setting.locateIn l.options l.locator.listen importer name s =
      (located l.options importer name (l.search importer name),
        foundBy s.1 (l.search importer name), s.2 ++ l.asked importer name) := by
  unfold Setting.locateIn search asked Locator.listen locator
  dsimp only
  cases l.find (filePath l.options.dialect name) (searchPaths l.options importer)
      (some importer) with
  | some file => rfl
  | none =>
    rcases l.index name (searchPaths l.options importer) (some importer) with
      pending | _ | file <;> simp [located, foundBy, record]

/-- A search that asks for nothing that only the host can resolve makes no use of the cache, and
does not end with a missing reference. -/
theorem search_of_asked
    (h : ∀ text ∈ asked ⟨tree, {}, options⟩ importer name,
      options.dialect.isHostReference text = false) (cache : Cache) :
    search ⟨tree, cache, options⟩ importer name = search ⟨tree, {}, options⟩ importer name ∧
      ∀ pending, search ⟨tree, {}, options⟩ importer name ≠ .error pending := by
  have hunmarked : ∀ (cache : Cache) (text : String),
      options.dialect.isHostReference text = false →
      hostFile? ⟨tree, cache, options⟩ importer text = none := by
    intro cache text htext
    unfold hostFile?
    rw [if_neg (by simp [htext])]
  have hpath : options.dialect.isHostReference (filePath options.dialect name) = false := by
    refine h _ ?_
    unfold asked
    dsimp only
    split <;> simp
  rw [search_eq, search_eq, known?, known?, nativeFile?_cache tree cache {},
    nativeDirectory?_cache tree cache {}, hunmarked cache _ hpath, hunmarked {} _ hpath]
  cases hfile : nativeFile? ⟨tree, {}, options⟩ importer name with
  | some file => exact ⟨rfl, by simp [Options.answer]⟩
  | none =>
    -- The path is not found, so the name is asked for as well.
    have hfind : find ⟨tree, {}, options⟩ (filePath options.dialect name)
        (searchPaths options importer) (some importer) = none := by
      unfold nativeFile? at hfile
      unfold find
      rw [hfile, hostKey?_eq, if_neg (by simp [hpath])]
      rfl
    have hname : options.dialect.isHostReference name = false := by
      refine h name ?_
      unfold asked
      dsimp only
      rw [hfind]
      simp
    rw [hunmarked cache name hname, hunmarked {} name hname]
    refine ⟨rfl, fun pending => ?_⟩
    cases nativeDirectory? ⟨tree, {}, options⟩ importer name with
    | some file => simp [Options.answer]
    | none => simp [Options.answer, hname]

end Lookup

namespace Inline

variable {tree : SourceTree} {options : Options} {depth : Nat} {file : Path} {source : String}

/-- The pass through a document over a lookup with nothing cached, listened to. -/
def listenedPass (options : Options) (tree : SourceTree) (depth : Nat) (file : Path)
    (source : String) : Except Halt Unit × Pass (PathSet × List String) :=
  passThrough (.ofLocator options (Lookup.locator ⟨tree, {}, options⟩).listen) depth file source
    (.empty, []) {}

/-- With nothing cached, the pass comes to an end, and it asks for nothing that only the host can
resolve. -/
structure Native (options : Options) (tree : SourceTree) (depth : Nat) (file : Path)
    (source : String) : Prop where
  ends : (listenedPass options tree depth file source).1 ≠ .error .tooDeep
  unmarked : ∀ text ∈ (listenedPass options tree depth file source).2.search.2,
    options.dialect.isHostReference text = false

theorem locate_listen_heard (l : Lookup) (importer : Path) (name : String)
    (s : PathSet × List String) :
    ((Setting.ofLocator l.options l.locator.listen).locate importer name s).2.2 =
      s.2 ++ l.asked importer name :=
  congrArg (fun answer => answer.2.2) (l.locateIn_listen importer name s)

theorem read_ne_pending {tree : SourceTree} {target : Path} {pending : Pending} :
    (tree.read target).mapError Halt.failed ≠ .error (.pending pending) := by
  cases tree.read target <;> simp [Except.mapError]

/-- Until something is asked for that only the host can resolve, a pass finds the same files
whatever is cached, and does not end with a missing reference. -/
theorem agreeUntil_asked (options : Options) (tree : SourceTree) (cache : Cache) :
    AgreeUntil (fun s : PathSet × List String =>
        ∃ text ∈ s.2, options.dialect.isHostReference text = true)
      (fun _ (_ : PathSet) => True) (fun _ => False)
      (fun halt => ∀ pending, halt ≠ .pending pending) (fun _ _ => True) (fun _ => True)
      (.ofLocator options (Lookup.locator ⟨tree, {}, options⟩).listen)
      (.ofLocator options (Lookup.locator ⟨tree, cache, options⟩)) := by
  refine ⟨rfl, rfl, ?_, ?_, by simp, ?_, fun _ _ hs => hs⟩
  · intro importer text name _ _ s t _
    have hheard := locate_listen_heard ⟨tree, {}, options⟩ importer name s
    by_cases hmark : ∃ text ∈ Lookup.asked ⟨tree, {}, options⟩ importer name,
        options.dialect.isHostReference text = true
    · -- The comparison ends here.
      obtain ⟨asked, hasked, hmark⟩ := hmark
      refine Or.inl ⟨asked, ?_, hmark⟩
      rw [hheard]
      exact List.mem_append_right s.2 hasked
    · have hunmarked : ∀ text ∈ Lookup.asked ⟨tree, {}, options⟩ importer name,
          options.dialect.isHostReference text = false := by
        simpa using hmark
      obtain ⟨hsame, hnever⟩ := Lookup.search_of_asked hunmarked cache
      have hlisten := congrArg Prod.fst (Lookup.locateIn_listen ⟨tree, {}, options⟩ importer name s)
      have hplain := congrArg Prod.fst (locateIn_locator ⟨tree, cache, options⟩ importer name t)
      dsimp only at hlisten hplain
      rw [hsame] at hplain
      refine Or.inr (Or.inr ⟨hlisten.trans hplain.symm, trivial, ?_, fun _ _ _ _ => trivial⟩)
      rintro halt hlocated pending rfl
      exact hnever pending (located_eq_pending_iff.1 (hlisten.symm.trans hlocated))
  · intro target _ s t _
    refine Or.inr (Or.inr ⟨rfl, trivial, ?_, fun _ _ => trivial⟩)
    rintro halt hread pending rfl
    exact read_ne_pending hread
  · rintro importer name s ⟨text, htext, hmark⟩
    refine ⟨text, ?_, hmark⟩
    rw [locate_listen_heard ⟨tree, {}, options⟩ importer name s]
    exact List.mem_append_left _ htext

/-- Whatever is cached, a native pass ends as it does with nothing cached, and has written the
same. -/
theorem Native.passThrough_eq (h : Native options tree depth file source) (cache : Cache)
    (found : PathSet) {parsed : ParseCache} (hparsed : parsed.Valid) :
    let pass := passThrough (.ofLocator options (Lookup.locator ⟨tree, cache, options⟩)) depth file
      source found parsed
    pass.1 = (listenedPass options tree depth file source).1 ∧
      finish options file pass.2 =
        finish options file (listenedPass options tree depth file source).2 ∧
      ∀ pending, pass.1 ≠ .error (.pending pending) := by
  intro pass
  have hcompare : (∃ text ∈ (listenedPass options tree depth file source).2.search.2,
        options.dialect.isHostReference text = true) ∨
      Corresponds (Alike fun _ _ => True) (fun _ => False)
        (fun halt => ∀ pending, halt ≠ .pending pending) (fun _ => True)
        (listenedPass options tree depth file source) pass :=
    corresponds_until (agreeUntil_asked options tree cache) depth trivial (by simp) trivial
      ParseCache.valid_empty hparsed
  rcases hcompare with ⟨text, htext, hmark⟩ | ⟨_, _, hfalse, _⟩ | ⟨hresult, halike, hnever, -⟩
  · simp [h.unmarked text htext] at hmark
  · exact hfalse.elim
  · refine ⟨hresult.symm, (halike.finish_eq options file).symm, fun pending hpending => ?_⟩
    exact hnever _ (hresult.trans hpending) pending rfl

/-- A native pass renders the document or fails. -/
theorem Native.exists_result (h : Native options tree depth file source) :
    ∃ result : Except Failure Rendered,
      outcome options file (listenedPass options tree depth file source).2
        (listenedPass options tree depth file source).1 = some (result.map Outcome.rendered) := by
  have hends := h.ends
  have hcached := h.passThrough_eq {} .empty ParseCache.valid_empty
  obtain ⟨hresult, -, hnever⟩ := hcached
  rw [hresult] at hnever
  generalize listenedPass options tree depth file source = pass at hends hnever ⊢
  obtain ⟨(pending | failure | _) | ⟨⟩, pass⟩ := pass
  · exact absurd rfl (hnever pending)
  · exact ⟨.error failure, rfl⟩
  · exact absurd rfl hends
  · exact ⟨.ok (finish options file pass), rfl⟩

end Inline

end StyleWeave
