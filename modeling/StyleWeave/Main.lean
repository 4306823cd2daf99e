import StyleWeave.CommandLine.Run

/-!
# The program

The program takes a snapshot of the files that a command line can be about, runs the command line on
it, and then writes the files that the command line wrote. The snapshot holds what is beneath the
working directory and around the absolute paths among the arguments. Links to directories are not
followed.
-/

namespace StyleWeave.Main

/-- What is at a directory entry, unless it cannot be read. -/
partial def readTree (entry : IO.FS.DirEntry) : IO (Option Disk.Tree) := do
  try
    match (← entry.path.symlinkMetadata).type with
    | .dir =>
      let mut entries : List (String × Disk.Tree) := []
      for inner in ← entry.path.readDir do
        if let some t ← readTree inner then
          entries := Dictionary.insertInto inner.fileName t entries
      return some (.directory entries)
    | _ => return some (.file (← IO.FS.readBinFile entry.path))
  catch _ => return none

/-- The names of a path that is seen from the root. -/
def namesOf (path : String) : List String :=
  (Path.components ⟨path⟩).filterMap fun
    | .name s => some s
    | _ => none

/-- The disk with what is at a path that is seen from the root. -/
def capture (disk : Disk) (path : String) : IO Disk := do
  match ← readTree ⟨"/", path⟩ with
  | some (.directory entries) =>
    return if (namesOf path).isEmpty then { disk with entries }
      else disk.insert (namesOf path) (.directory entries)
  | some t => return disk.insert (namesOf path) t
  | none => return disk

/-- The directory around a path: the path itself if it leads to a directory. -/
def surroundings (path : String) : IO String := do
  let entry : IO.FS.DirEntry := ⟨"/", path⟩
  return if ← entry.path.isDir then path else (Path.directory ⟨path⟩).text

/-- The disk that a command line runs on. -/
def snapshot (args : List String) : IO Disk := do
  let here := (← IO.currentDir).toString
  let mut disk : Disk := { workingDirectory := namesOf here }
  for path in args.filter fun arg => Path.isAbsolute ⟨arg⟩ do
    disk ← capture disk (← surroundings path)
  capture disk here

/-- Write the files that differ between two disks. -/
def writeChanges (before after : Disk) : IO Unit :=
  for (path, text) in Disk.changes [] before after do
    let file : Path := ⟨"/" ++ path⟩
    IO.FS.createDirAll file.directory.text
    IO.FS.writeFile file.text text

end StyleWeave.Main

/-- Run the command line. -/
def main (args : List String) : IO UInt32 := do
  let disk ← StyleWeave.Main.snapshot args
  match StyleWeave.CommandLine.run disk args with
  | none =>
    IO.eprintln "Error: a document comes to no end"
    return 1
  | some ending =>
    IO.print ending.output
    StyleWeave.Main.writeChanges disk ending.disk
    if let some fault := ending.fault then
      IO.eprintln ("Error: " ++ fault.report)
    if ending.exitCode = 2 then
      IO.eprint StyleWeave.CommandLine.programInterface.helpText
    return ending.exitCode.toUInt32
