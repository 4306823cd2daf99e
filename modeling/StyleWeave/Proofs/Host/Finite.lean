import StyleWeave.Project
import StyleWeave.Proofs.Host.Memory
import StyleWeave.Proofs.Path.Normal
import StyleWeave.Proofs.Render.Depth
import StyleWeave.Proofs.Syntax.Paths

/-!
# Hosts in memory lead to finitely many files

All paths that a host in memory resolves references to, and all that are found in its tree, are
normal paths of its files or targets of its routes. So a job over such a host reads finitely many
texts, and needs finitely many references (`Lists`). They are fewer than the characters of the
documents (`length_documentReferences_lt`).
-/

namespace StyleWeave.Memory

variable {m : Memory} {options : Options}

theorem exists_of_lookup {α β : Type} [BEq α] {key : α} {value : β} {entries : List (α × β)}
    (h : entries.lookup key = some value) : ∃ k, (k, value) ∈ entries ∧ (key == k) = true := by
  induction entries with
  | nil => simp at h
  | cons e rest ih =>
    obtain ⟨k, v⟩ := e
    rw [List.lookup_cons] at h
    split at h
    · next hk =>
      obtain rfl : v = value := Option.some.inj h
      exact ⟨k, List.mem_cons_self, hk⟩
    · obtain ⟨k', hmem, hk'⟩ := ih h
      exact ⟨k', List.mem_cons_of_mem _ hmem, hk'⟩

/-- The normal paths of the files, and the targets of the routes. -/
def targets (m : Memory) : List Path :=
  (m.files.map fun e => e.1.normalize) ++ m.routes.map Prod.snd

/-! ## Files -/

theorem normalize_mem_targets {p : Path} (h : (m.files.lookup p.normalize).isSome = true) :
    p.normalize ∈ m.targets := by
  obtain ⟨text, htext⟩ := Option.isSome_iff_exists.1 h
  obtain ⟨k, hmem, hk⟩ := exists_of_lookup htext
  have heq := Path.normalize_congr (Path.beq_iff.1 hk)
  rw [Path.normalize_normalize] at heq
  rw [heq]
  exact List.mem_append_left _ (List.mem_map.2 ⟨_, hmem, rfl⟩)

theorem exists_normalize_of_mem_candidates {key : Reference} {p : Path}
    (h : p ∈ m.candidates key) : ∃ q : Path, p = q.normalize := by
  unfold Memory.candidates at h
  dsimp only at h
  split at h
  · exact ⟨_, List.mem_singleton.1 h⟩
  · split at h
    · exact ⟨_, List.mem_singleton.1 h⟩
    · obtain ⟨dir, -, rfl⟩ := List.mem_map.1 h
      exact ⟨_, rfl⟩

theorem resolve_mem_targets {key : Reference} {target : Path} (h : m.resolve key = .ok target) :
    target ∈ m.targets := by
  unfold resolve at h
  split at h
  · next hroute =>
    obtain rfl := Except.ok.inj h
    obtain ⟨k, hmem, -⟩ := exists_of_lookup hroute
    exact List.mem_append_right _ (List.mem_map.2 ⟨_, hmem, rfl⟩)
  · split at h
    · next hfind =>
      obtain rfl := Except.ok.inj h
      obtain ⟨q, rfl⟩ := exists_normalize_of_mem_candidates (List.mem_of_find?_eq_some hfind)
      have hfile := List.find?_some hfind
      exact normalize_mem_targets hfile
    · simp at h

theorem leadsInto_targets (m : Memory) : m.host.LeadsInto m.targets := by
  intro log key target log' h
  exact resolve_mem_targets (congrArg Prod.fst h)

theorem isFile_normalize {p : Path} (h : m.tree.isFile p.normalize = true) :
    p.normalize ∈ m.targets := by
  refine normalize_mem_targets ?_
  have htext : (m.files.lookup p.normalize.normalize).isSome = true := h
  rwa [Path.normalize_normalize] at htext

/-! ## What is known of imports -/

section

variable {cache : Cache} {path : String} {paths : List Path} {ignore : Option Path} {file : Path}

theorem nativeFind_mem
    (h : Lookup.nativeFind ⟨m.tree, cache, options⟩ path paths ignore = some file) :
    file ∈ m.targets := by
  unfold Lookup.nativeFind at h
  dsimp only at h
  split at h
  · split at h
    · next hfile =>
      obtain rfl := Option.some.inj h
      exact isFile_normalize hfile
    · simp at h
  · obtain ⟨dir, -, rfl⟩ := List.mem_map.1 (List.mem_of_find?_eq_some h)
    have hfile := List.find?_some h
    rw [Bool.and_eq_true] at hfile
    exact isFile_normalize hfile.2

theorem nativeIndex_mem
    (h : Lookup.nativeIndex ⟨m.tree, cache, options⟩ path paths ignore = some file) :
    file ∈ m.targets := by
  unfold Lookup.nativeIndex at h
  dsimp only at h
  split at h
  · next hfind =>
    obtain rfl := Option.some.inj h
    obtain ⟨candidate, -, hcandidate⟩ := List.exists_of_findSome?_eq_some hfind
    exact nativeFind_mem hcandidate
  · split at h
    · simp at h
    · obtain ⟨dir, -, hdir⟩ := List.exists_of_findSome?_eq_some h
      obtain ⟨candidate, -, hcandidate⟩ := List.exists_of_findSome?_eq_some hdir
      exact nativeFind_mem hcandidate

end

theorem mem_targets_of_growth {dialect : Dialect} {cache : Cache}
    (h : Cache.Growth m.host dialect {} cache) {key : Reference} {target : Path}
    (hfind : cache.find? key = some target) : target ∈ m.targets := by
  refine h.forall_find? (P := fun _ target => target ∈ m.targets)
    (fun key target hempty => by simp [Cache.find?] at hempty) ?_ key target hfind
  intro key log log' request target granted _ _
  exact m.leadsInto_targets.grants granted

theorem known?_leadsInto {dialect : Dialect} {cache : Cache}
    (h : Cache.Growth m.host dialect {} cache) :
    Inline.Finder.LeadsInto (Lookup.known? ⟨m.tree, cache, options⟩) m.targets := by
  intro importer name target hknown
  have hhost : ∀ n, Lookup.hostFile? ⟨m.tree, cache, options⟩ importer n = some target →
      target ∈ m.targets := by
    intro n hn
    unfold Lookup.hostFile? at hn
    split at hn
    · exact mem_targets_of_growth h hn
    · simp at hn
  unfold Lookup.known? at hknown
  rcases Option.or_eq_some_iff.1 hknown with hfile | ⟨-, hknown⟩
  · exact nativeFind_mem hfile
  · rcases Option.or_eq_some_iff.1 hknown with hpath | ⟨-, hknown⟩
    · exact hhost _ hpath
    · rcases Option.or_eq_some_iff.1 hknown with hname | ⟨-, hdir⟩
      · exact hhost _ hname
      · exact nativeIndex_mem hdir

/-! ## Texts and references -/

/-- The names of the imports of a text, as far as they are known statically. -/
def importNames (options : Options) (text : String) : List String :=
  match parse text.toList with
  | .ok document => (importSites document options.define).flatMap fun site =>
      site.names.filterMap id
  | .error _ => []

theorem mem_importNames {text name : String} (h : Inline.Imports options text name) :
    name ∈ importNames options text := by
  obtain ⟨document, hparse, site, hsite, expr, hexpr, -, -⟩ := h
  unfold importNames
  rw [hparse]
  refine List.mem_flatMap.2 ⟨site, hsite, List.mem_filterMap.2 ⟨some name, ?_, rfl⟩⟩
  exact (List.of_mem_zip hexpr).2

/-- The texts that a pass through one with text `source` may come to. -/
def texts (m : Memory) (source : String) : List String :=
  source :: m.files.map Prod.snd

theorem read_mem_texts {file : Path} {source text : String} (h : m.tree.read file = .ok text) :
    text ∈ m.texts source := by
  unfold tree at h
  dsimp only at h
  split at h
  · next htext =>
    obtain rfl := Except.ok.inj h
    obtain ⟨k, hmem, -⟩ := exists_of_lookup htext
    exact List.mem_cons_of_mem _ (List.mem_map.2 ⟨_, hmem, rfl⟩)
  · simp at h

theorem mem_texts_of_reaches {known : Inline.Finder} {file importer : Path} {source text : String}
    (h : Inline.Reaches options m.tree known file source importer text) :
    text ∈ m.texts source := by
  cases h with
  | entry => exact List.mem_cons_self
  | imported _ _ _ read => exact read_mem_texts read

/-- The references that a job on a document may need. -/
def references (m : Memory) (options : Options) (file : Path) (source : String) : List Reference :=
  (file :: m.targets).flatMap fun importer =>
    (m.texts source).flatMap fun text =>
      (importNames options text).map (options.reference importer)

/-- The list has the references of all imports that a job on a document may come to. -/
def Lists (m : Memory) (options : Options) (file : Path) (source : String)
    (keys : List Reference) : Prop :=
  ∀ (known : Inline.Finder) (importer : Path) (name : String), known.LeadsInto m.targets →
    Inline.ReachesImport options m.tree known file source importer name →
    options.reference importer name ∈ keys

theorem lists_references (m : Memory) (options : Options) (file : Path) (source : String) :
    m.Lists options file source (m.references options file source) := by
  rintro known importer name hknown ⟨text, hreach, himports⟩
  refine List.mem_flatMap.2 ⟨importer, hreach.mem hknown, ?_⟩
  refine List.mem_flatMap.2 ⟨text, mem_texts_of_reaches hreach, ?_⟩
  exact List.mem_map.2 ⟨name, mem_importNames himports, rfl⟩

/-! ## References, document by document -/

/-- The documents that a job on a document may come to, with their texts. -/
def documents (m : Memory) (file : Path) (source : String) : List (Path × String) :=
  (file, source) :: ((m.files.map fun e => (e.1.normalize, e.2)) ++
    m.routes.map fun e => (e.2, (m.text? e.2).getD ""))

/-- The references that a job on a document may need, with only the imports of each document. -/
def documentReferences (m : Memory) (options : Options) (file : Path) (source : String) :
    List Reference :=
  (m.documents file source).flatMap fun document =>
    (importNames options document.2).map (options.reference document.1)

theorem mem_documents {known : Inline.Finder} (hknown : known.LeadsInto m.targets)
    {file importer : Path} {source text : String}
    (h : Inline.Reaches options m.tree known file source importer text) :
    (importer, text) ∈ m.documents file source := by
  cases h with
  | entry => exact List.mem_cons_self
  | @imported from_ _ text' name _ _ _ found read =>
    refine List.mem_cons_of_mem _ (List.mem_append.2 ?_)
    have htext : m.text? importer = some text := by
      unfold tree at read
      dsimp only at read
      split at read
      · next htext =>
        rw [htext, Except.ok.inj read]
      · cases read
    rcases List.mem_append.1 (hknown from_ name importer found) with hfile | hroute
    · -- The file is found by its normal path, which is that of the entry with its text.
      left
      obtain ⟨e, -, rfl⟩ := List.mem_map.1 hfile
      obtain ⟨k, hmem, hk⟩ := exists_of_lookup htext
      have hnormal : k.normalize = e.1.normalize := by
        rw [← Path.normalize_congr (Path.beq_iff.1 hk), Path.normalize_normalize,
          Path.normalize_normalize]
      exact List.mem_map.2 ⟨(k, text), hmem, by rw [hnormal]⟩
    · right
      obtain ⟨e, hmem, rfl⟩ := List.mem_map.1 hroute
      exact List.mem_map.2 ⟨e, hmem, by rw [htext]; rfl⟩

theorem lists_documentReferences (m : Memory) (options : Options) (file : Path) (source : String) :
    m.Lists options file source (m.documentReferences options file source) := by
  rintro known importer name hknown ⟨text, hreach, himports⟩
  refine List.mem_flatMap.2 ⟨(importer, text), mem_documents hknown hreach, ?_⟩
  exact List.mem_map.2 ⟨name, mem_importNames himports, rfl⟩

theorem length_importNames_le (options : Options) (text : String) :
    (importNames options text).length ≤ text.length := by
  unfold importNames
  cases hparse : parse text.toList with
  | error e => exact Nat.zero_le _
  | ok document =>
    have hnames : ∀ sites : List ImportSite,
        (∀ site ∈ sites, site.names.length = site.statement.exprs.length) →
        (sites.flatMap fun site => site.names.filterMap id).length ≤
          (pathsOf (sites.map ImportSite.statement)).length := by
      intro sites hsites
      induction sites with
      | nil => exact Nat.le_refl 0
      | cons site rest ih =>
        have hrest := ih fun other hother => hsites other (List.mem_cons_of_mem _ hother)
        have hsite := hsites site List.mem_cons_self
        have hknown : (site.names.filterMap id).length ≤ site.names.length :=
          List.length_filterMap_le id site.names
        rw [List.flatMap_cons, List.length_append, List.map_cons, pathsOf, List.flatMap_cons,
          List.length_append]
        exact Nat.add_le_add (hsite ▸ hknown) hrest
    calc ((importSites document options.define).flatMap fun site => site.names.filterMap id).length
        ≤ (pathsOf ((importSites document options.define).map ImportSite.statement)).length :=
          hnames _ (Node.length_names_of_sitesOfAll options.define [] document)
      _ = (pathsOf (Node.importsOfAll document)).length := by
          rw [Inline.statements_of_importSites]
      _ ≤ text.toList.length := length_paths_le hparse
      _ = text.length := String.length_toList

theorem length_flatMap_le_total {α β : Type} {f : α → List β} {size : α → Nat} {entries : List α}
    (h : ∀ a ∈ entries, (f a).length ≤ size a) :
    (entries.flatMap f).length ≤ total (entries.map size) := by
  induction entries with
  | nil => exact Nat.le_refl 0
  | cons a rest ih =>
    have hrest := ih fun b hb => h b (List.mem_cons_of_mem _ hb)
    have ha := h a List.mem_cons_self
    rw [List.flatMap_cons, List.length_append]
    exact Nat.add_le_add ha hrest

/-- A job needs fewer references than the limits for its renders say. -/
theorem length_documentReferences_lt (m : Memory) (options : Options) (file : Path)
    (source : String) :
    (m.documentReferences options file source).length + 1 < m.importBound source := by
  have hnames : ∀ document : Path × String,
      ((importNames options document.2).map (options.reference document.1)).length ≤
        document.2.length := by
    intro document
    rw [List.length_map]
    exact length_importNames_le options document.2
  have hfiles := length_flatMap_le_total fun e (_ : e ∈ m.files) => hnames (e.1.normalize, e.2)
  have htargets := length_flatMap_le_total fun e (_ : e ∈ m.routes) =>
    hnames (e.2, (m.text? e.2).getD "")
  have hentry := hnames (file, source)
  unfold documentReferences documents importBound
  rw [List.flatMap_cons, List.flatMap_append, List.length_append, List.length_append,
    List.flatMap_map, List.flatMap_map]
  dsimp only at hfiles htargets hentry ⊢
  omega

end StyleWeave.Memory
