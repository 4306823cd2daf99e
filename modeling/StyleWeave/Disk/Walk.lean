import StyleWeave.Disk.Basic
import StyleWeave.Options.Profile

/-!
# Options and documents on a disk

The options in a configuration file, the documents beneath a directory, and the files that they are
rendered to.
-/

namespace StyleWeave.Disk

/-- The options that a configuration file describes. -/
def loadOptions (d : Disk) (config : Path) (profile : Option String) : Except Failure Options := do
  let text ← (d.read config).mapError Failure.ofSystemError
  Options.ofToml text profile

/-- The components of a path without the `.` in front. -/
def withoutCurrent (p : Path) : List Path.Component :=
  match p.components with
  | .current :: rest => rest
  | components => components

/-- What an absolute path is built on: two slashes at its start are kept, where more or fewer are
one. -/
def slashes (p : Path) : Path :=
  match p.text.toList with
  | '/' :: '/' :: '/' :: _ => ⟨"/"⟩
  | '/' :: '/' :: _ => ⟨"//"⟩
  | _ => ⟨"/"⟩

/-- The path as seen from the root. It keeps its `..` and the slash at its end. -/
def absolute (d : Disk) (p : Path) : Path :=
  let start := if p.isAbsolute then slashes p else d.workingPath
  let components := (withoutCurrent p).filter (· ≠ .root)
  let joined := components.foldl (fun path c => path.join ⟨c.text⟩) start
  if p.text.toList.getLast? = some '/' then joined.join ⟨""⟩ else joined

/-- The path goes through a module directory, or names one. -/
def isInModules (options : Options) (p : Path) : Bool :=
  p.components.any fun c => options.moduleDirs.contains c.text

/-- The documents that a path stands for: the file it leads to, or the documents beneath the
directory it leads to, without those in module directories. -/
def documents (d : Disk) (options : Options) (p : Path) : List Path :=
  if d.isFile p then [p]
  else
    (d.filesBeneath p).filter fun file =>
      options.dialect.isDialectFile file && !isInModules options file

/-- The file that a document is rendered to: `out` itself if the document was named, and the file in
the directory `out` that corresponds to it if a directory was. -/
def target (d : Disk) (rendered document out : Path) : Path :=
  if d.isFile rendered then out
  else (out.join ((document.relativeTo? rendered).getD document)).withExtension "css"

end StyleWeave.Disk
