import StyleWeave.Cache
import StyleWeave.Path.Name
import StyleWeave.Path.Normal
import StyleWeave.Render.Basic

/-!
# Looking up imports

A `Lookup` finds imports in the source tree, and the names that only the host can resolve in the
cache of resolved references. The search in the tree is called native. `find` prefers it over the
cache, and `index`, the last resort, prefers the cache. A host reference that neither has is
pending.
-/

namespace StyleWeave

/-- What imports are looked up in. -/
structure Lookup where
  tree : SourceTree
  cache : Cache
  options : Options

namespace Lookup

/-- The path is that of the importing document. -/
def isIgnored (ignore : Option Path) (p : Path) : Bool :=
  ignore.any (p == ·)

/-- The file that a path leads to from the last directory it leads to one from. An absolute path
leads to one file at most, which may be the importing document. -/
def nativeFind (l : Lookup) (path : String) (paths : List Path) (ignore : Option Path) :
    Option Path :=
  let file : Path := ⟨path⟩
  if file.isAbsolute then
    if l.tree.isFile file.normalize then some file.normalize else none
  else
    (paths.reverse.map fun dir => (dir.join file).normalize).find? fun p =>
      !isIgnored ignore p && l.tree.isFile p

/-- The paths that may stand for a directory: its index file, and the file in it that has its
name. -/
def indexCandidates (l : Lookup) (name : String) : List String :=
  let stem := (Path.stem? ⟨name⟩).getD name
  [l.options.dialect.indexRequest name, name ++ "/" ++ stem ++ "." ++ l.options.dialect.extension]

/-- The file that stands for a directory. A directory that is not there is looked for in the module
directories too, unless its name is that of a document. -/
def nativeIndex (l : Lookup) (name : String) (paths : List Path) (ignore : Option Path) :
    Option Path :=
  let name := Text.trimSlashes name
  let candidates := l.indexCandidates name
  match candidates.findSome? fun c => l.nativeFind c paths ignore with
  | some file => some file
  | none =>
    if l.options.dialect.isDialectFile ⟨name⟩ then none
    else
      l.options.moduleDirs.findSome? fun dir =>
        candidates.findSome? fun c => l.nativeFind (dir ++ "/" ++ c) paths ignore

/-- The reference that a name is for the host. It is made in the last of the directories, or in that
of the importing document. -/
def hostKey? (l : Lookup) (name : String) (paths : List Path) (ignore : Option Path) :
    Option Reference :=
  if l.options.dialect.isHostReference name then
    let context := (paths.getLast?.orElse fun _ => ignore.bind Path.parent?).getD ⟨""⟩
    some ⟨context, l.options.requestFor name⟩
  else none

/-- Where the host has resolved a name to. -/
def cached? (l : Lookup) (key : Option Reference) : Option Path :=
  key.bind l.cache.find?

/-- Find a file by its path with extension. -/
def find (l : Lookup) (path : String) (paths : List Path) (ignore : Option Path) : Option Path :=
  (l.nativeFind path paths ignore).orElse fun _ => l.cached? (l.hostKey? path paths ignore)

/-- Find the file that stands for a directory or package. -/
def index (l : Lookup) (name : String) (paths : List Path) (ignore : Option Path) :
    Except Pending (Option Path) :=
  let key := l.hostKey? name paths ignore
  match (l.cached? key).orElse fun _ => l.nativeIndex name paths ignore with
  | some file => .ok (some file)
  | none =>
    match key with
    | some key => .error ⟨key, name, ignore.getD ⟨""⟩⟩
    | none => .ok none

/-- An answer, with the file in it added to those found. -/
def record (found : PathSet) :
    Except Pending (Option Path) → Except Pending (Option (List Path)) × PathSet
  | .ok (some file) => (.ok (some [file]), found.insert file)
  | .ok none => (.ok none, found)
  | .error pending => (.error pending, found)

/-- The lookup as a locator, whose state is the set of files found so far. -/
def locator (l : Lookup) : Locator PathSet where
  find found path paths ignore := record found (.ok (l.find path paths ignore))
  index found name paths ignore := record found (l.index name paths ignore)
  read found file := (l.tree.read file, found)

end Lookup

end StyleWeave
