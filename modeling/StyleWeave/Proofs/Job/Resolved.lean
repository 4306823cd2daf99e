import StyleWeave.Proofs.Frontier.Session
import StyleWeave.Proofs.Host.Names
import StyleWeave.Proofs.Job.Settled
import StyleWeave.Proofs.Path.Completion

/-!
# Imports that the host has resolved

A render looks in the cache for a name that only the host can resolve, and finds there what the host
has resolved it to. Any other name it looks for in the tree, whatever is cached for it. There it
finds a file if the host has found one by the same path (`Memory.AsSearched`): by no route, and not
the importing document itself.
-/

namespace StyleWeave

namespace Options

/-- The request for a name is the name as a path: as it is, or with `./` in front. -/
def AsksForPath (o : Options) (name : String) : Prop :=
  (o.requestFor name = name ∧
      (Reference.isRelative name = true ∨ Path.isAbsolute ⟨name⟩ = true)) ∨
    (o.requestFor name = "./" ++ name ∧ Path.isAbsolute ⟨name⟩ = false)

/-- A completed request for a name is a path, and leads where the completed name leads. -/
theorem AsksForPath.complete {o : Options} {name : String} (h : o.AsksForPath name)
    (hne : name ≠ "") {complete : String → String} (hc : KeepsStart complete) (dir : Path) :
    (Reference.isRelative (complete (o.requestFor name)) = true ∨
        Path.isAbsolute ⟨complete (o.requestFor name)⟩ = true) ∧
      (dir.join ⟨complete (o.requestFor name)⟩).normalize =
        (dir.join ⟨complete name⟩).normalize := by
  rcases h with ⟨hrequest, hpath⟩ | ⟨hrequest, habs⟩
  · rw [hrequest]
    refine ⟨hpath.imp (hc.relative name) fun habs => ?_, rfl⟩
    rwa [hc.absolute name hne]
  · have hcomplete : Path.isAbsolute ⟨complete name⟩ = false := by rwa [hc.absolute name hne]
    rw [hrequest, hc.here name hne habs]
    refine ⟨Or.inl ?_, Path.normalize_join_here dir hcomplete⟩
    exact Reference.isRelative_iff.2 (Or.inl (by simp [String.toList_append]))

end Options

/-! ## Searching the tree -/

namespace Lookup

variable {l : Lookup} {dir importer : Path} {path name : String} {paths : List Path}
  {ignore : Option Path}

/-- The tree is searched in each of the directories, and for an absolute path everywhere. -/
theorem isSome_nativeFind (hfile : l.tree.isFile (dir.join ⟨path⟩).normalize = true)
    (hreach : Path.isAbsolute ⟨path⟩ = true ∨
      dir ∈ paths ∧ isIgnored ignore (dir.join ⟨path⟩).normalize = false) :
    (l.nativeFind path paths ignore).isSome = true := by
  unfold nativeFind
  dsimp only
  by_cases habs : Path.isAbsolute ⟨path⟩ = true
  · have hjoin : dir.join ⟨path⟩ = ⟨path⟩ := if_pos habs
    rw [hjoin] at hfile
    rw [if_pos habs, if_pos hfile]
    rfl
  · obtain ⟨hdir, hother⟩ := hreach.resolve_left habs
    rw [if_neg habs, List.find?_isSome]
    refine ⟨_, List.mem_map.2 ⟨dir, List.mem_reverse.2 hdir, rfl⟩, ?_⟩
    rw [hother, hfile]
    rfl

theorem isSome_nativeIndex
    (h : (l.nativeFind (l.options.dialect.indexRequest name) paths ignore).isSome = true) :
    (l.nativeIndex name paths ignore).isSome = true := by
  have hindex : l.options.dialect.indexRequest (Text.trimSlashes name) =
      l.options.dialect.indexRequest name := by
    rw [Dialect.indexRequest, Dialect.indexRequest, Text.trimSlashes_trimSlashes]
  obtain ⟨file, hfile⟩ := Option.isSome_iff_exists.1 h
  unfold nativeIndex indexCandidates
  dsimp only
  rw [hindex, List.findSome?_cons, hfile]
  rfl

end Lookup

/-! ## Files of a host in memory -/

namespace Memory

variable {m : Memory} {options : Options} {importer target : Path} {name request : String}

/-- A path that has no route leads to the file there. -/
theorem eq_of_resolve_path {context : Path} (hroute : m.routes.lookup ⟨context, request⟩ = none)
    (hpath : Reference.isRelative request = true ∨ Path.isAbsolute ⟨request⟩ = true)
    (h : m.resolve ⟨context, request⟩ = .ok target) :
    target = (context.join ⟨request⟩).normalize ∧ m.tree.isFile target = true := by
  have hcandidates : m.candidates ⟨context, request⟩ = [(context.join ⟨request⟩).normalize] := by
    unfold candidates
    dsimp only
    by_cases hrelative : Reference.isRelative request = true
    · rw [if_pos hrelative]
    · have habs := hpath.resolve_left hrelative
      rw [if_neg hrelative, if_pos habs, Path.join, if_pos habs]
  have hfind := find?_of_resolve hroute h
  rw [hcandidates] at hfind
  have htarget := List.mem_singleton.1 (List.mem_of_find?_eq_some hfind)
  have hfile := List.find?_some hfind
  refine ⟨htarget, ?_⟩
  show (m.files.lookup target.normalize).isSome = true
  rwa [htarget, Path.normalize_normalize, ← htarget]

/-- The host has resolved `request`, the one for a name or a candidate for it, as the tree is
searched for the name: to the file at this path, which is not the importing document. The request is
taken to be complete exactly if the name is. -/
structure AsSearched (m : Memory) (options : Options) (importer : Path) (name request : String)
    (target : Path) : Prop where
  unrouted : m.routes.lookup ⟨importer.directory, request⟩ = none
  path : options.AsksForPath name
  reached : Path.isAbsolute ⟨name⟩ = true ∨
    importer.parent?.isSome = true ∧ (target == importer) = false
  spelled : request = options.dialect.indexRequest (options.requestFor name) ∨
    (options.dialect.isDialectFile ⟨name⟩ = true ↔ request = options.requestFor name)

theorem isSome_nativeFind_of_resolve (cache : Cache) {complete : String → String}
    (hc : KeepsStart complete) (hne : name ≠ "")
    (h : m.resolve ⟨importer.directory, complete (options.requestFor name)⟩ = .ok target)
    (hs : m.AsSearched options importer name (complete (options.requestFor name)) target) :
    (Lookup.nativeFind ⟨m.tree, cache, options⟩ (complete name)
      (Inline.searchPaths options importer) (some importer)).isSome = true := by
  obtain ⟨hpath, hplace⟩ := hs.path.complete hne hc importer.directory
  obtain ⟨htarget, hfile⟩ := eq_of_resolve_path hs.unrouted hpath h
  rw [hplace] at htarget
  rw [htarget] at hfile
  refine Lookup.isSome_nativeFind hfile ?_
  rcases hs.reached with habs | ⟨hparent, hother⟩
  · rw [← hc.absolute name hne] at habs
    exact Or.inl habs
  · obtain ⟨dir, hdir⟩ := Option.isSome_iff_exists.1 hparent
    refine Or.inr ⟨?_, ?_⟩
    · simp [Inline.searchPaths, Path.directory, hdir]
    · rw [← htarget]
      simpa [Lookup.isIgnored] using hother

/-- The request is the one for the name, or completes it by the extension, as the path does by which
the name is looked for first, or else it is that for a directory. -/
theorem AsSearched.cases (hs : m.AsSearched options importer name request target)
    (hmem : request ∈ options.requestFor name ::
      options.dialect.candidates (options.requestFor name)) :
    (request = options.requestFor name ∧ Inline.filePath options.dialect name = name) ∨
      (request = options.dialect.withExtension (options.requestFor name) ∧
        Inline.filePath options.dialect name = options.dialect.withExtension name) ∨
      request = options.dialect.indexRequest (options.requestFor name) := by
  rcases hs.spelled with hindex | hiff
  · exact Or.inr (Or.inr hindex)
  · by_cases hsame : request = options.requestFor name
    · exact Or.inl ⟨hsame, if_pos (hiff.2 hsame)⟩
    · have hpath : Inline.filePath options.dialect name = options.dialect.withExtension name :=
        if_neg (mt hiff.1 hsame)
      have hcandidate := (List.mem_cons.1 hmem).resolve_left hsame
      unfold Dialect.candidates at hcandidate
      split at hcandidate
      · exact absurd (List.mem_singleton.1 hcandidate) hsame
      · rcases List.mem_cons.1 hcandidate with hlonger | hindex
        · exact Or.inr (Or.inl ⟨hlonger, hpath⟩)
        · exact Or.inr (Or.inr (List.mem_singleton.1 hindex))

/-- Any other name than a host reference is found in the tree if the host has resolved it as the
tree is searched. -/
theorem isSome_known?_of_asSearched (cache : Cache) (hne : name ≠ "")
    (hmem : request ∈ options.requestFor name ::
      options.dialect.candidates (options.requestFor name))
    (h : m.resolve ⟨importer.directory, request⟩ = .ok target)
    (hs : m.AsSearched options importer name request target) :
    (Lookup.known? ⟨m.tree, cache, options⟩ importer name).isSome = true := by
  have hfound : (Lookup.nativeFile? ⟨m.tree, cache, options⟩ importer name).isSome = true ∨
      (Lookup.nativeDirectory? ⟨m.tree, cache, options⟩ importer name).isSome = true := by
    rcases hs.cases hmem with ⟨rfl, hpath⟩ | ⟨rfl, hpath⟩ | rfl
    · have hfind := isSome_nativeFind_of_resolve cache keepsStart_id hne h hs
      left
      rw [Lookup.nativeFile?, hpath]
      exact hfind
    · have hfind := isSome_nativeFind_of_resolve cache
        (keepsStart_withExtension options.dialect) hne h hs
      left
      rw [Lookup.nativeFile?, hpath]
      exact hfind
    · have hfind := isSome_nativeFind_of_resolve cache
        (keepsStart_indexRequest options.dialect) hne h hs
      right
      rw [Lookup.nativeDirectory?]
      exact Lookup.isSome_nativeIndex hfind
  unfold Lookup.known?
  rw [Option.isSome_or, Option.isSome_or, Option.isSome_or]
  rcases hfound with hfile | hdirectory
  · simp [hfile]
  · simp [hdirectory]

/-- Whatever may be cached for a reference, the host has answered it with that, or one of its
candidates. -/
theorem Cacheable.exists_request {dialect : Dialect} {key : Reference}
    (h : m.Cacheable dialect key target) :
    ∃ request ∈ key.request :: dialect.candidates key.request,
      m.resolve ⟨key.context, request⟩ = .ok target := by
  obtain ⟨asked, candidate, hgranted, hrequest⟩ := h
  obtain ⟨hmem, hanswer⟩ := resolve_of_granted? hgranted
  have hok : m.resolve ⟨key.context, candidate⟩ = .ok target := by
    cases hresult : m.resolve ⟨key.context, candidate⟩ with
    | ok answer => simpa [hresult, Except.toOption] using hanswer
    | error failure => simp [hresult, Except.toOption] at hanswer
  rcases hrequest with hrequest | hrequest
  · rw [hrequest]
    exact ⟨candidate, List.mem_cons_of_mem _ hmem, hok⟩
  · rw [hrequest]
    exact ⟨candidate, List.mem_cons_self, hok⟩

end Memory

/-! ## Locating what was resolved -/

theorem Options.importContext_eq_directory {o : Options} {importer : Path}
    (h : importer.parent?.isSome = true ∨ o.paths = []) :
    o.importContext importer = importer.directory := by
  unfold importContext Path.directory
  cases hparent : importer.parent? with
  | some dir => rfl
  | none =>
    have hpaths := h.resolve_left (by simp [hparent])
    simp [hpaths]

theorem Inline.exists_located {l : Lookup} {importer : Path} {name : String}
    (h : (l.known? importer name).isSome = true) (found : PathSet) :
    ∃ file, (Setting.locateIn l.options l.locator importer name found).1 = .ok [file] := by
  obtain ⟨file, hfile⟩ := Option.isSome_iff_exists.1 h
  refine ⟨file, ?_⟩
  rw [locateIn_locator, l.search_eq, hfile]
  rfl

namespace Memory

/-- Once the host has resolved an import of a document in a session, a render locates the import
with the cache that the session has come to, if it is a host reference. Otherwise the host has
answered one of the requests for it, and a render locates it if that was as the tree is searched. -/
theorem located_of_resolved (m : Memory) (options : Options) (importer : Path) {name : String}
    (hname : Inline.isRule options name = false) {log₀ log log' : Log} {f f' : Frontier}
    (hsession : Frontier.Session m.host { options } log₀ f log) {speculative : Bool}
    {target : Path}
    (hresolve : Frontier.resolve m.host ⟨importer.directory, options.requestFor name⟩ speculative
      f log = (.ok (some target), f', log')) (found : PathSet) :
    let l : Lookup := ⟨m.tree, f'.cache, options⟩
    (options.dialect.isHostReference name = true →
      importer.parent?.isSome = true ∨ options.paths = [] →
        ∃ file, (Inline.Setting.locateIn options l.locator importer name found).1 = .ok [file]) ∧
    (options.dialect.isHostReference name = false →
      (∃ request ∈ options.requestFor name ::
          options.dialect.candidates (options.requestFor name),
        (m.resolve ⟨importer.directory, request⟩) = .ok target) ∧
      ∀ request ∈ options.requestFor name ::
          options.dialect.candidates (options.requestFor name),
        m.resolve ⟨importer.directory, request⟩ = .ok target →
          m.AsSearched options importer name request target →
            ∃ file, (Inline.Setting.locateIn options l.locator importer name found).1 =
              .ok [file]) := by
  intro l
  have hfound : f'.cache.find? ⟨importer.directory, options.requestFor name⟩ = some target :=
    Frontier.find?_of_resolve hresolve
  constructor
  · intro hhost hplace
    refine Inline.exists_located (l := l) ?_ found
    have hcached : l.hostFile? importer name = some target := by
      rw [Lookup.hostFile?_of_host hhost, Options.reference,
        Options.importContext_eq_directory hplace]
      exact hfound
    unfold Lookup.known?
    rw [hcached]
    simp
  · intro hhost
    constructor
    · have hexplains := explains_of_growth (hsession.resolve hresolve).extends.cache
      exact (hexplains _ _ hfound).exists_request
    · intro request hmem hok hs
      have hne : name ≠ "" := by
        rintro rfl
        simp [Inline.isRule, Reference.isUnresolvable] at hname
      exact Inline.exists_located (l := l)
        (isSome_known?_of_asSearched f'.cache hne hmem hok hs) found

/-- A directory and a theme. The theme is a package, and has a route from beside the documents. -/
def sheets : Memory where
  files := [(⟨"/app/grid/index.styl"⟩, "grid\n"), (⟨"/lib/theme.styl"⟩, "theme\n")]
  routes := [(⟨⟨"/app"⟩, "theme.styl"⟩, ⟨"/lib/theme.styl"⟩),
    (⟨⟨"/app"⟩, "./theme.styl"⟩, ⟨"/lib/theme.styl"⟩)]

theorem exists_resolve (m : Memory) (options : Options) (key : Reference) (text : String)
    (h : (Frontier.resolve m.host key true { options } {}).1.toOption.map (Option.map Path.text) =
      some (some text)) :
    ∃ f log, Frontier.resolve m.host key true { options } {} = (.ok (some ⟨text⟩), f, log) := by
  rcases hresolve : Frontier.resolve m.host key true { options } {} with ⟨result, f, log⟩
  rw [hresolve] at h
  rcases result with failure | _ | ⟨⟨text'⟩⟩
  · cases h
  · cases h
  · obtain rfl : text' = text := by simpa [Except.toOption] using h
    exact ⟨f, log, rfl⟩

/-- A document beside the directory. -/
def sheet : Path :=
  ⟨"/app/main.styl"⟩

/-- The package is located from the cache, and the directory in the tree. -/
theorem located_of_resolved_sheets :
    (∃ f log, Frontier.resolve sheets.host ⟨sheet.directory, Options.requestFor {} "~theme"⟩ true
        { options := {} } {} = (.ok (some ⟨"/lib/theme.styl"⟩), f, log) ∧
      ∃ file, (Inline.Setting.locateIn {} (Lookup.locator ⟨sheets.tree, f.cache, {}⟩) sheet
        "~theme" .empty).1 = .ok [file]) ∧
    ∃ f log, Frontier.resolve sheets.host ⟨sheet.directory, Options.requestFor {} "grid"⟩ true
        { options := {} } {} = (.ok (some ⟨"/app/grid/index.styl"⟩), f, log) ∧
      ∃ file, (Inline.Setting.locateIn {} (Lookup.locator ⟨sheets.tree, f.cache, {}⟩) sheet
        "grid" .empty).1 = .ok [file] := by
  constructor
  · obtain ⟨f, log, hresolve⟩ := exists_resolve sheets {}
      ⟨sheet.directory, Options.requestFor {} "~theme"⟩ "/lib/theme.styl" (by decide +kernel)
    have hname : Inline.isRule {} "~theme" = false := by decide +kernel
    have hlocated := located_of_resolved sheets {} sheet hname .refl hresolve .empty
    exact ⟨f, log, hresolve, hlocated.1 (by decide +kernel) (Or.inr rfl)⟩
  · obtain ⟨f, log, hresolve⟩ := exists_resolve sheets {}
      ⟨sheet.directory, Options.requestFor {} "grid"⟩ "/app/grid/index.styl" (by decide +kernel)
    have hname : Inline.isRule {} "grid" = false := by decide +kernel
    have hlocated := located_of_resolved sheets {} sheet hname .refl hresolve .empty
    have hindex : sheets.resolve ⟨sheet.directory, "./grid/index.styl"⟩ =
        .ok ⟨"/app/grid/index.styl"⟩ := by
      rfl
    have hsearched : sheets.AsSearched {} sheet "grid" "./grid/index.styl"
        ⟨"/app/grid/index.styl"⟩ := {
      unrouted := Option.isNone_iff_eq_none.1 (by decide +kernel)
      path := Or.inr (by decide +kernel)
      reached := Or.inr (by decide +kernel)
      spelled := Or.inl (by decide +kernel) }
    exact ⟨f, log, hresolve,
      (hlocated.2 (by decide +kernel)).2 _ (by decide +kernel) hindex hsearched⟩

/-- A route is no way for the tree: what the host resolves by it, a render does not find. -/
theorem resolved_not_located :
    Inline.isRule {} "theme" = false ∧ sheets.tree.isFile ⟨"/lib/theme.styl"⟩ = true ∧
      ∃ f log, Frontier.resolve sheets.host ⟨sheet.directory, Options.requestFor {} "theme"⟩ true
          { options := {} } {} = (.ok (some ⟨"/lib/theme.styl"⟩), f, log) ∧
        (Inline.Setting.locateIn {} (Lookup.locator ⟨sheets.tree, f.cache, {}⟩) sheet "theme"
          .empty).1 = .error (Inline.notLocated {} sheet "theme") := by
  have hknown : (Lookup.known? ⟨sheets.tree, (Frontier.resolve sheets.host
      ⟨sheet.directory, Options.requestFor {} "theme"⟩ true { options := {} } {}).2.1.cache, {}⟩
      sheet "theme").isNone = true := by
    decide +kernel
  obtain ⟨f, log, hresolve⟩ := exists_resolve sheets {}
    ⟨sheet.directory, Options.requestFor {} "theme"⟩ "/lib/theme.styl" (by decide +kernel)
  rw [hresolve] at hknown
  have hhost : Dialect.isHostReference {} "theme" = false := by decide +kernel
  have hanswer : Options.answer {} sheet "theme" none = .ok none := by
    unfold Options.answer
    exact if_neg (by rw [hhost]; decide)
  have hlocate := Inline.locateIn_locator ⟨sheets.tree, f.cache, {}⟩ sheet "theme" .empty
  rw [Lookup.search_eq, Option.isNone_iff_eq_none.1 hknown, hanswer] at hlocate
  exact ⟨by decide +kernel, by decide +kernel, f, log, hresolve, congrArg Prod.fst hlocate⟩

end Memory

end StyleWeave
