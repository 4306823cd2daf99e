import StyleWeave.Disk.Basic
import StyleWeave.Host.Basic
import StyleWeave.Options.Basic
import StyleWeave.Path.Normal
import StyleWeave.Path.Set

/-!
# A host on a disk

The host resolves a request that is relative or absolute to the file it leads to. Any other request
is one for a package: it is looked for where its alias leads, and then in the module directories of
the context and of every directory above it. The host's state is the set of files that results
depend on.
-/

namespace StyleWeave.Disk

/-- The request starts with an alias: it is the alias, or goes on behind it with a slash. -/
def hasAlias (request name : String) : Bool :=
  match Text.stripPrefix? name request with
  | some rest => rest.isEmpty || Text.startsWith rest "/"
  | none => false

/-- The longest alias that a request starts with, and its directory. -/
def alias? (aliases : Dictionary Path) (request : String) : Option (String × Path) :=
  (aliases.entries.filter fun e => hasAlias request e.1).foldl
    (fun best e =>
      match best with
      | some b => if b.1.utf8ByteSize ≤ e.1.utf8ByteSize then some e else some b
      | none => some e)
    none

/-- The file that a request stands for where its alias leads. -/
def aliasCandidates (aliases : Dictionary Path) (request : String) : List Path :=
  match alias? aliases request with
  | some (name, dir) =>
    let rest := ((Text.stripPrefix? name request).getD "").toList.dropWhile (· = '/')
    [(dir.join ⟨String.ofList rest⟩).normalize]
  | none => []

/-- The files that a request stands for in the module directories of the context and above. -/
def moduleCandidates (moduleDirs : List String) (key : Reference) : List Path :=
  key.context.ancestors.flatMap fun above =>
    moduleDirs.map fun dir => ((above.join ⟨dir⟩).join ⟨key.request⟩).normalize

/-- The paths that a reference may stand for, in order. -/
def candidates (options : Options) (key : Reference) : List Path :=
  let request : Path := ⟨key.request⟩
  if Reference.isRelative key.request then [(key.context.join request).normalize]
  else if request.isAbsolute then [request.normalize]
  else aliasCandidates options.aliases key.request ++ moduleCandidates options.moduleDirs key

/-- What a reference resolves to. -/
def resolve (d : Disk) (options : Options) (key : Reference) : Except Failure Path :=
  match (candidates options key).find? d.isFile with
  | some file => .ok file
  | none => .error (.resolve key
      ("Can't resolve '" ++ key.request ++ "' in '" ++ key.context.text ++ "'"))

/-- The text of a file, or the failure to read it. -/
def readText (d : Disk) (file : Path) : Except Failure String :=
  (d.read file).mapError Failure.ofSystemError

/-- The host that answers from a disk. -/
def host (d : Disk) (options : Options) : Host PathSet where
  resolve files key := (d.resolve options key, files)
  read files file := (d.readText file, files)
  depend files file := files.insert file

/-- The disk as a renderer sees it. -/
def tree (d : Disk) : SourceTree where
  isFile := d.isFile
  read := d.readText

end StyleWeave.Disk
