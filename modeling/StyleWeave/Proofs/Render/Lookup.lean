import Mathlib.Data.List.Infix
import StyleWeave.Render.Inline
import StyleWeave.Render.Lookup

/-!
# Finding the document of an import

An import is looked up twice: `find` is asked for its path with extension, and then `index` for its
name. `Lookup.search` is both together, and `search_eq` says what comes of it: the first path known
from the tree by file, from the cache by either of the two references, and from the tree by
directory; and if there is none, a pending reference for a name that only the host can resolve.
-/

namespace StyleWeave

/-! ## References of imports -/

namespace Options

/-- The directory that references of a document are made in: its own one, or else the last of the
search directories. -/
def importContext (o : Options) (importer : Path) : Path :=
  importer.parent?.getD (o.paths.getLast?.getD ⟨""⟩)

/-- The reference of an import for the host. -/
def reference (o : Options) (importer : Path) (name : String) : Reference :=
  ⟨o.importContext importer, o.requestFor name⟩

/-- The reference for the host of the path by which an import is looked for first. -/
def fileReference (o : Options) (importer : Path) (name : String) : Reference :=
  o.reference importer (Inline.filePath o.dialect name)

/-- What a search answers for an import, given the file that is known for it. -/
def answer (o : Options) (importer : Path) (name : String) :
    Option Path → Except Pending (Option Path)
  | some file => .ok (some file)
  | none =>
    if o.dialect.isHostReference name then .error ⟨o.reference importer name, name, importer⟩
    else .ok none

theorem answer_eq_some_iff {o : Options} {importer file : Path} {name : String}
    {known : Option Path} :
    o.answer importer name known = .ok (some file) ↔ known = some file := by
  cases known with
  | some file' => simp [answer]
  | none => by_cases hr : o.dialect.isHostReference name <;> simp [answer, hr]

end Options

namespace Text

theorem startsWith_iff {s start : String} :
    startsWith s start = true ↔ ∃ rest, s.toList = start.toList ++ rest := by
  rw [startsWith, List.isPrefixOf_iff_prefix]
  exact ⟨fun ⟨rest, h⟩ => ⟨rest, h.symm⟩, fun ⟨rest, h⟩ => ⟨rest, h.symm⟩⟩

theorem stripPrefix?_eq_some {s start rest : String} (h : s = start ++ rest) :
    stripPrefix? start s = some rest := by
  have hp : start.toList.isPrefixOf? s.toList = some rest.toList := by
    rw [List.isPrefixOf?_eq_some_iff_append_eq, h, String.toList_append]
  rw [stripPrefix?, hp]
  simp

end Text

namespace Dialect

variable {d : Dialect} {name : String}

/-- A name that only the host can resolve is its mark with something behind it. -/
theorem isHostReference_iff :
    d.isHostReference name = true ↔ d.hostPrefix ≠ "" ∧ ∃ rest, name = d.hostPrefix ++ rest := by
  simp only [isHostReference, Bool.and_eq_true, Bool.not_eq_eq_eq_not, Bool.not_true,
    String.isEmpty_eq_false_iff, Text.startsWith_iff]
  refine and_congr_right fun _ => ⟨fun ⟨rest, h⟩ => ⟨String.ofList rest, ?_⟩, fun ⟨rest, h⟩ =>
    ⟨rest.toList, by rw [h, String.toList_append]⟩⟩
  rw [← String.toList_inj, String.toList_append, String.toList_ofList, h]

end Dialect

namespace Options

variable {importer importer' : Path} {name name' : String}

/-- Of a marked name, the request is what stands behind the mark. -/
theorem requestFor_of_mark (o : Options) {rest : String} (h : o.dialect.hostPrefix ≠ "") :
    o.requestFor (o.dialect.hostPrefix ++ rest) = rest := by
  have hr : o.dialect.isHostReference (o.dialect.hostPrefix ++ rest) = true :=
    Dialect.isHostReference_iff.2 ⟨h, rest, rfl⟩
  rw [requestFor, if_pos hr, Text.stripPrefix?_eq_some rfl, Option.getD_some]

/-- The path by which a marked name is looked for first is marked as well, and its request is
completed likewise. -/
theorem filePath_of_host (o : Options) (h : o.dialect.isHostReference name = true) :
    o.dialect.isHostReference (Inline.filePath o.dialect name) = true ∧
      o.requestFor (Inline.filePath o.dialect name) =
        if o.dialect.isDialectFile ⟨name⟩ then o.requestFor name
        else o.dialect.withExtension (o.requestFor name) := by
  unfold Inline.filePath
  split
  · exact ⟨h, rfl⟩
  · obtain ⟨hne, rest, rfl⟩ := Dialect.isHostReference_iff.1 h
    have happ : o.dialect.withExtension (o.dialect.hostPrefix ++ rest) =
        o.dialect.hostPrefix ++ o.dialect.withExtension rest := by
      simp [Dialect.withExtension, String.append_assoc]
    rw [happ, requestFor_of_mark o hne, requestFor_of_mark o hne]
    exact ⟨Dialect.isHostReference_iff.2 ⟨hne, _, rfl⟩, rfl⟩

theorem fileReference_of_dialectFile (o : Options) (h : o.dialect.isDialectFile ⟨name⟩ = true) :
    o.fileReference importer name = o.reference importer name := by
  rw [fileReference, Inline.filePath, if_pos h]

theorem fileReference_of_not_dialectFile (o : Options)
    (hhost : o.dialect.isHostReference name = true)
    (h : o.dialect.isDialectFile ⟨name⟩ = false) :
    o.fileReference importer name =
      ⟨o.importContext importer, o.dialect.withExtension (o.requestFor name)⟩ := by
  have hpath := (o.filePath_of_host hhost).2
  rw [if_neg (by simp [h])] at hpath
  rw [fileReference, reference, hpath]

theorem fileReference_congr (o : Options) (name : String)
    (h : (o.importContext importer).components = (o.importContext importer').components) :
    o.fileReference importer name == o.fileReference importer' name := by
  unfold fileReference reference
  exact Reference.beq_iff.2 ⟨h, by dsimp only⟩

/-- Names that only the host can resolve are told apart by their requests. -/
theorem requestFor_inj (o : Options) (h : o.dialect.isHostReference name = true)
    (h' : o.dialect.isHostReference name' = true) (heq : o.requestFor name = o.requestFor name') :
    name = name' := by
  obtain ⟨hne, rest, rfl⟩ := Dialect.isHostReference_iff.1 h
  obtain ⟨-, rest', rfl⟩ := Dialect.isHostReference_iff.1 h'
  rw [requestFor_of_mark o hne, requestFor_of_mark o hne] at heq
  rw [heq]

end Options

namespace Lookup

variable {l : Lookup} {importer : Path} {name : String}

theorem hostKey?_eq (l : Lookup) (importer : Path) (name : String) :
    l.hostKey? name (Inline.searchPaths l.options importer) (some importer) =
      if l.options.dialect.isHostReference name then some (l.options.reference importer name)
      else none := by
  unfold hostKey? Options.reference Options.importContext Inline.searchPaths
  split
  · cases hp : importer.parent? with
    | none => cases hl : l.options.paths.getLast? <;> simp [hp, hl]
    | some parent => simp
  · rfl

/-! ## Looking up an import -/

/-- The file that an import stands for by its path, without the host. -/
def nativeFile? (l : Lookup) (importer : Path) (name : String) : Option Path :=
  l.nativeFind (Inline.filePath l.options.dialect name) (Inline.searchPaths l.options importer)
    (some importer)

/-- The file that an import stands for by a directory, without the host. -/
def nativeDirectory? (l : Lookup) (importer : Path) (name : String) : Option Path :=
  l.nativeIndex name (Inline.searchPaths l.options importer) (some importer)

section

variable (tree : SourceTree) (cache cache' : Cache) (options : Options) (prefetch : Bool)

/-- Neither the cache nor whether documents are scanned ahead makes a difference to what the tree
has. -/
theorem nativeFind_eq :
    nativeFind ⟨tree, cache, { options with prefetch }⟩ = nativeFind ⟨tree, cache', options⟩ := by
  funext path paths ignore
  rfl

theorem nativeFile?_eq :
    nativeFile? ⟨tree, cache, { options with prefetch }⟩ importer name =
      nativeFile? ⟨tree, cache', options⟩ importer name := by
  rw [nativeFile?, nativeFile?, nativeFind_eq tree cache cache']
  rfl

theorem nativeDirectory?_eq :
    nativeDirectory? ⟨tree, cache, { options with prefetch }⟩ importer name =
      nativeDirectory? ⟨tree, cache', options⟩ importer name := by
  have hcandidates : indexCandidates ⟨tree, cache, { options with prefetch }⟩ =
      indexCandidates ⟨tree, cache', options⟩ := rfl
  have hpaths : Inline.searchPaths { options with prefetch } importer =
      Inline.searchPaths options importer := rfl
  unfold nativeDirectory? nativeIndex
  rw [hcandidates, nativeFind_eq tree cache cache', hpaths]

theorem nativeFile?_cache :
    nativeFile? ⟨tree, cache, options⟩ importer name =
      nativeFile? ⟨tree, cache', options⟩ importer name :=
  nativeFile?_eq tree cache cache' options options.prefetch

theorem nativeDirectory?_cache :
    nativeDirectory? ⟨tree, cache, options⟩ importer name =
      nativeDirectory? ⟨tree, cache', options⟩ importer name :=
  nativeDirectory?_eq tree cache cache' options options.prefetch

end

/-- What the cache says of a name, if only the host can resolve it. -/
def hostFile? (l : Lookup) (importer : Path) (name : String) : Option Path :=
  if l.options.dialect.isHostReference name then l.cache.find? (l.options.reference importer name)
  else none

theorem hostFile?_of_host (h : l.options.dialect.isHostReference name = true) :
    l.hostFile? importer name = l.cache.find? (l.options.reference importer name) :=
  if_pos h

/-- The file that is known for an import: by its path, from the host, or by a directory. -/
def known? (l : Lookup) (importer : Path) (name : String) : Option Path :=
  (l.nativeFile? importer name).or <|
    (l.hostFile? importer (Inline.filePath l.options.dialect name)).or <|
      (l.hostFile? importer name).or (l.nativeDirectory? importer name)

/-- Look up an import by its path, and then by its name. -/
def search (l : Lookup) (importer : Path) (name : String) : Except Pending (Option Path) :=
  let paths := Inline.searchPaths l.options importer
  match l.find (Inline.filePath l.options.dialect name) paths (some importer) with
  | some file => .ok (some file)
  | none => l.index name paths (some importer)

theorem known?_prefetch (tree : SourceTree) (cache : Cache) (options : Options) (prefetch : Bool)
    (importer : Path) (name : String) :
    known? ⟨tree, cache, { options with prefetch }⟩ importer name =
      known? ⟨tree, cache, options⟩ importer name := by
  rw [known?, known?, nativeFile?_eq tree cache cache, nativeDirectory?_eq tree cache cache]
  rfl

/-- What is known of a name that only the host can resolve, if the tree does not have it. -/
theorem known?_of_host (hhost : l.options.dialect.isHostReference name = true)
    (hfile : l.nativeFile? importer name = none) :
    l.known? importer name =
      (l.cache.find? (l.options.fileReference importer name)).or
        ((l.cache.find? (l.options.reference importer name)).or
          (l.nativeDirectory? importer name)) := by
  have hhost' := (l.options.filePath_of_host hhost).1
  rw [known?, hfile, Option.none_or, hostFile?_of_host hhost, hostFile?_of_host hhost']
  rfl

theorem search_eq (l : Lookup) (importer : Path) (name : String) :
    l.search importer name = l.options.answer importer name (l.known? importer name) := by
  have hcached : ∀ n, l.cached? (l.hostKey? n (Inline.searchPaths l.options importer)
      (some importer)) = l.hostFile? importer n := by
    intro n
    rw [hostKey?_eq, hostFile?]
    split <;> rfl
  unfold search find index known?
  dsimp only
  rw [hcached, hcached, hostKey?_eq, ← nativeFile?, ← nativeDirectory?]
  cases l.nativeFile? importer name with
  | some file => rfl
  | none =>
    cases l.hostFile? importer (Inline.filePath l.options.dialect name) with
    | some file => rfl
    | none =>
      cases l.hostFile? importer name with
      | some file => rfl
      | none =>
        cases l.nativeDirectory? importer name with
        | some file => rfl
        | none =>
          by_cases hr : l.options.dialect.isHostReference name <;> simp [Options.answer, hr]

/-- The files found so far, with the one in an answer. -/
def foundBy (found : PathSet) : Except Pending (Option Path) → PathSet
  | .ok (some file) => found.insert file
  | _ => found

end Lookup

namespace Inline

/-- How a search ends for the pass that makes it. -/
def located (options : Options) (importer : Path) (name : String) :
    Except Pending (Option Path) → Except Halt (List Path)
  | .ok (some file) => .ok [file]
  | .ok none => .error (notLocated options importer name)
  | .error pending => .error (.pending pending)

theorem located_eq_ok_iff {options : Options} {importer : Path} {name : String}
    {answer : Except Pending (Option Path)} {files : List Path} :
    located options importer name answer = .ok files ↔
      ∃ file, answer = .ok (some file) ∧ files = [file] := by
  rcases answer with pending | _ | file <;> simp [located, eq_comm]

theorem located_eq_pending_iff {options : Options} {importer : Path} {name : String}
    {answer : Except Pending (Option Path)} {pending : Pending} :
    located options importer name answer = .error (.pending pending) ↔ answer = .error pending := by
  rcases answer with pending' | _ | file <;> simp [located, notLocated]

/-- A pass over a lookup finds the documents of imports by searching it. -/
theorem locateIn_locator (l : Lookup) (importer : Path) (name : String) (found : PathSet) :
    Setting.locateIn l.options l.locator importer name found =
      (located l.options importer name (l.search importer name),
        Lookup.foundBy found (l.search importer name)) := by
  unfold Setting.locateIn Lookup.search Lookup.locator
  dsimp only
  cases l.find (filePath l.options.dialect name) (searchPaths l.options importer)
      (some importer) with
  | some file => rfl
  | none => rcases l.index name (searchPaths l.options importer) (some importer) with
      pending | _ | file <;> rfl

/-- A pass over a lookup finds the one file that is known for the name. -/
theorem known?_of_ofLocator {l : Lookup} {importer : Path} {name : String} {found : PathSet}
    {files : List Path}
    (h : ((Setting.ofLocator l.options l.locator).locate importer name found).1 = .ok files) :
    ∃ file, l.known? importer name = some file ∧ files = [file] := by
  have hfound := congrArg Prod.fst (locateIn_locator l importer name found)
  rw [Lookup.search_eq] at hfound
  obtain ⟨file, hanswer, rfl⟩ := located_eq_ok_iff.1 (hfound.symm.trans h)
  exact ⟨file, Options.answer_eq_some_iff.1 hanswer, rfl⟩

/-- What a pass over a lookup reads is what the tree has. -/
theorem read_of_ofLocator {l : Lookup} {file : Path} {found : PathSet} {text : String}
    (h : ((Setting.ofLocator l.options l.locator).read file found).1 = .ok text) :
    l.tree.read file = .ok text := by
  have hread : (l.tree.read file).mapError Halt.failed = .ok text := h
  cases hresult : l.tree.read file with
  | error failure =>
    rw [hresult] at hread
    cases hread
  | ok text' =>
    rw [hresult] at hread
    rw [Except.ok.inj hread]

/-- A pass over a lookup that finds no file needs the host, or says that there is none. -/
theorem locate_error_of_ofLocator {l : Lookup} {importer : Path} {name : String}
    {found : PathSet} {halt : Halt}
    (h : ((Setting.ofLocator l.options l.locator).locate importer name found).1 = .error halt) :
    (∃ pending, l.search importer name = .error pending ∧ halt = .pending pending) ∨
      halt = notLocated l.options importer name := by
  have hfound := congrArg Prod.fst (locateIn_locator l importer name found)
  have hhalt := hfound.symm.trans h
  rcases hsearch : l.search importer name with pending | _ | target <;> rw [hsearch] at hhalt
  · exact Or.inl ⟨pending, rfl, (Except.error.inj hhalt).symm⟩
  · exact Or.inr (Except.error.inj hhalt).symm
  · cases hhalt

/-- What a pass over a lookup cannot read, the tree refuses. -/
theorem read_error_of_ofLocator {l : Lookup} {file : Path} {found : PathSet} {halt : Halt}
    (h : ((Setting.ofLocator l.options l.locator).read file found).1 = .error halt) :
    ∃ failure, l.tree.read file = .error failure ∧ halt = .failed failure := by
  have hread : (l.tree.read file).mapError Halt.failed = .error halt := h
  cases hresult : l.tree.read file with
  | error failure =>
    rw [hresult] at hread
    exact ⟨failure, rfl, (Except.error.inj hread).symm⟩
  | ok text =>
    rw [hresult] at hread
    cases hread

end Inline

end StyleWeave
