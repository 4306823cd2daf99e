import StyleWeave.Dictionary
import StyleWeave.Path.Name
import StyleWeave.SystemError

/-!
# Disks

A disk is a tree of directories and files together with a working directory. Paths lead through it
as the system follows them: every step but the last must lead to a directory that is there, `..`
goes back to the directory above, and a slash at the end asks for a directory.
-/

namespace StyleWeave

/-- A file or directory. -/
inductive Disk.Tree where
  | file (bytes : ByteArray)
  /-- A directory with what it holds, in the order of names. -/
  | directory (entries : List (String × Disk.Tree))
  deriving Inhabited

/-- A tree of files and a working directory. -/
structure Disk where
  entries : List (String × Disk.Tree) := []
  /-- The names that lead from the root to the working directory. -/
  workingDirectory : List String := []
  deriving Inhabited

namespace Disk

namespace Tree

/-- What a directory holds; a file holds nothing. -/
def contents : Tree → List (String × Tree)
  | directory entries => entries
  | file _ => []

/-- It is a directory. -/
def isDirectory : Tree → Bool
  | directory _ => true
  | file _ => false

/-- What names lead to from a directory. -/
def descend : List String → Tree → Option Tree
  | [], t => some t
  | name :: names, t => (t.contents.lookup name).bind (descend names)

/-- The entries of a directory with `t` where `names` lead to. Directories on the way are made. -/
def insertAt (t : Tree) : List String → List (String × Tree) → List (String × Tree)
  | [], entries => entries
  | [name], entries => Dictionary.insertInto name t entries
  | name :: names, entries =>
    let inner := ((entries.lookup name).map contents).getD []
    Dictionary.insertInto name (directory (insertAt t names inner)) entries

mutual

/-- The files in a tree with the names that lead to them, each directory in the order of names. -/
def files : Tree → List (List String × ByteArray)
  | file bytes => [([], bytes)]
  | directory entries => filesOfAll entries

/-- The files in the entries of a directory. -/
def filesOfAll : List (String × Tree) → List (List String × ByteArray)
  | [] => []
  | (name, t) :: rest =>
    (t.files.map fun found => (name :: found.1, found.2)) ++ filesOfAll rest

end

end Tree

/-- The root directory. -/
def root (d : Disk) : Tree :=
  .directory d.entries

/-- The disk with `t` where `names` lead to from the root. -/
def insert (d : Disk) (names : List String) (t : Tree) : Disk :=
  { d with entries := Tree.insertAt t names d.entries }

/-- The working directory as a path. -/
def workingPath (d : Disk) : Path :=
  .ofComponents (.root :: d.workingDirectory.map .name)

/-! ## Following paths -/

/-- The longest name, in bytes, that a directory can hold. -/
def maxName : Nat := 255

/-- The longest path, in bytes, that the system follows. -/
def maxPath : Nat := 4095

/-- Follow the segments of a path from the directory that `names` lead to, in reverse. -/
def follow (d : Disk) : List String → List (List Char) → Except SystemError (List String)
  | names, [] => .ok names
  | names, segment :: rest =>
    match d.root.descend names.reverse with
    | none => .error .notFound
    | some here =>
      if !here.isDirectory then .error .notADirectory
      else if segment = [] || segment = ['.'] then follow d names rest
      else if segment = ['.', '.'] then follow d names.tail rest
      else
        let name := String.ofList segment
        if maxName < name.utf8ByteSize then .error .nameTooLong
        else if (here.contents.lookup name).isSome then follow d (name :: names) rest
        else .error .notFound

/-- Where a path is followed from: the root or the working directory, as names in reverse. -/
def origin (d : Disk) (p : Path) : List String :=
  if p.isAbsolute then [] else d.workingDirectory.reverse

/-- Refuse paths that the system does not follow at all. -/
def checkPath (p : Path) : Except SystemError Unit :=
  if p.text.toList.contains '\x00' then .error .embeddedNul
  else if p.text.isEmpty then .error .notFound
  else if maxPath < p.text.utf8ByteSize then .error .nameTooLong
  else .ok ()

/-- The names that lead from the root to where a path leads, and what is there. -/
def locate (d : Disk) (p : Path) : Except SystemError (List String × Tree) := do
  checkPath p
  let names ← d.follow (d.origin p) (Path.segments p.text.toList)
  match d.root.descend names.reverse with
  | some t => return (names.reverse, t)
  | none => throw .notFound

/-- A path leads to a file. -/
def isFile (d : Disk) (p : Path) : Bool :=
  match d.locate p with
  | .ok (_, .file _) => true
  | _ => false

/-- A path leads to a directory. -/
def isDirectory (d : Disk) (p : Path) : Bool :=
  match d.locate p with
  | .ok (_, .directory _) => true
  | _ => false

/-- The text of a file. -/
def read (d : Disk) (p : Path) : Except SystemError String := do
  match ← d.locate p with
  | (_, .directory _) => throw .isADirectory
  | (_, .file bytes) =>
    match String.fromUTF8? bytes with
    | some text => return text
    | none => throw .notUtf8

/-! ## Changes -/

/-- The last segment of a path without slashes at its end, and the segments in front of it. -/
def lastSegment (p : Path) : List (List Char) × List Char :=
  let segments := Path.segments (Text.trimSlashes p.text).toList
  (segments.dropLast, segments.getLast?.getD [])

/-- A segment that is no name: it leads to a directory that is there. -/
def isNoName (segment : List Char) : Bool :=
  segment = [] || segment = ['.'] || segment = ['.', '.']

/-- The directory in which the last name of a path stands, by the names that lead to it in
reverse. -/
def parentOf (d : Disk) (p : Path) : Except SystemError (List String × Tree) := do
  checkPath p
  let names ← d.follow (d.origin p) (lastSegment p).1
  match d.root.descend names.reverse with
  | some (.directory entries) => return (names, .directory entries)
  | some (.file _) => throw .notADirectory
  | none => throw .notFound

/-- Make a directory. -/
def makeDirectory (d : Disk) (p : Path) : Except SystemError Disk := do
  let (names, parent) ← d.parentOf p
  let segment := (lastSegment p).2
  let name := String.ofList segment
  if isNoName segment then throw .alreadyExists
  else if maxName < name.utf8ByteSize then throw .nameTooLong
  else if (parent.contents.lookup name).isSome then throw .alreadyExists
  else return d.insert (name :: names).reverse (.directory [])

/-- Make the directories of a path, given the path and those above it from the nearest to the
farthest. One that is there already is fine. -/
def makeDirectories (d : Disk) : List Path → Except SystemError Disk
  | [] => .ok d
  | p :: above =>
    if p.text.isEmpty then .ok d
    else
      match d.makeDirectory p with
      | .ok d => .ok d
      | .error e =>
        if e = .notFound then do
          let d ← makeDirectories d above
          match d.makeDirectory p with
          | .ok d => return d
          | .error e => if d.isDirectory p then return d else throw e
        else if d.isDirectory p then .ok d
        else .error e

/-- Write a file, in place of one that is there. A slash at the end asks for a directory, which
cannot be written. -/
def write (d : Disk) (p : Path) (text : String) : Except SystemError Disk := do
  let (names, parent) ← d.parentOf p
  let segment := (lastSegment p).2
  let name := String.ofList segment
  let slash := p.text.toList.getLast? = some '/'
  if isNoName segment || slash then throw .isADirectory
  else if maxName < name.utf8ByteSize then throw .nameTooLong
  else
    match parent.contents.lookup name with
    | some (.directory _) => throw .isADirectory
    | _ => return d.insert (name :: names).reverse (.file text.toUTF8)

mutual

/-- The paths of the files in a tree that stands at a path, each directory in the order of names. A
directory whose path is too long for the system to follow cannot be listed, and is passed over. -/
def Tree.walk (p : Path) : Tree → List Path
  | .file _ => [p]
  | .directory entries => if maxPath < p.text.utf8ByteSize then [] else Tree.walkAll p entries

/-- The paths of the files in the entries of a directory that stands at a path. -/
def Tree.walkAll (p : Path) : List (String × Tree) → List Path
  | [] => []
  | (name, t) :: rest => t.walk (p.join ⟨name⟩) ++ Tree.walkAll p rest

end

/-- The paths of the files beneath a directory, in the order in which they are met. -/
def filesBeneath (d : Disk) (p : Path) : List Path :=
  match d.locate p with
  | .ok (_, t) => t.walk p
  | .error _ => []

/-- The files beneath the directory that `names` lead to which `before` does not have, or has with
other bytes, with their texts, in the order of their paths as texts. -/
def changes (names : List String) (before after : Disk) : List (String × String) :=
  let old := ((before.root.descend names).map Tree.files).getD []
  let new := ((after.root.descend names).map Tree.files).getD []
  let changed := new.filter fun (names, bytes) =>
    match old.lookup names with
    | some b => b.data != bytes.data
    | none => true
  let written := changed.map fun (names, bytes) =>
    ("/".intercalate names, (String.fromUTF8? bytes).getD "")
  written.mergeSort fun a b => a.1 ≤ b.1

end Disk

end StyleWeave
