import StyleWeave.Path.Basic

/-!
# File names, parents and extensions

All of these look at the last component of a path, so a slash or a `/.` at the end of the text
makes no difference.
-/

namespace StyleWeave.Path

/-- The first `n` characters of a path. -/
def takeText (p : Path) (n : Nat) : Path :=
  ⟨String.ofList (p.text.toList.take n)⟩

/-- Where the last of some pieces ends; the start of the text if there is none. -/
def stopOf (pieces : List Piece) : Nat :=
  (pieces.getLast?.map Piece.stop).getD 0

/-- The path without its last component. The root and the empty path have no parent. -/
def parent? (p : Path) : Option Path :=
  match p.pieces.getLast? with
  | none | some ⟨.root, _⟩ => none
  | some _ => some (p.takeText (stopOf p.pieces.dropLast))

/-- The path without its last component, or the empty path. -/
def directory (p : Path) : Path :=
  p.parent?.getD ⟨""⟩

/-- The path, its parent, the parent of that, and so on; `n` bounds how many there are. -/
def ancestorsUpTo : Nat → Path → List Path
  | 0, _ => []
  | n + 1, p =>
    match p.parent? with
    | none => [p]
    | some q => p :: ancestorsUpTo n q

/-- The path and everything above it, from the nearest to the farthest. -/
def ancestors (p : Path) : List Path :=
  ancestorsUpTo (p.pieces.length + 1) p

/-- The name a path ends with. The root, `.` and `..` are no names. -/
def fileName? (p : Path) : Option String :=
  match p.pieces.getLast? with
  | some ⟨.name s, _⟩ => some s
  | _ => none

/-- A file name cut at its last dot into stem and extension. A name without a dot, or with its only
dot in front, has no extension. -/
def splitExtension (file : String) : String × Option String :=
  match Text.splitLastDot file.toList with
  | some (before, after) =>
    if before = [] then (file, none) else (String.ofList before, some (String.ofList after))
  | none => (file, none)

/-- The file name without its extension. -/
def stem? (p : Path) : Option String :=
  p.fileName?.map fun file => (splitExtension file).1

/-- The extension of the file name, without the dot. -/
def extension? (p : Path) : Option String :=
  p.fileName?.bind fun file => (splitExtension file).2

/-- The path with the extension of its file name replaced by `ext`. A path without a file name
stays as it is. The old extension goes first, so where that leaves `..`, which is no name, there is
nothing to extend. -/
def withExtension (p : Path) (ext : String) : Path :=
  match p.fileName? with
  | none => p
  | some file =>
    let stem := (splitExtension file).1
    let stop := stopOf p.pieces
    let kept := p.takeText (stop - file.length + stem.length)
    if stem = "." && stop = p.text.length then ⟨kept.text ++ "."⟩
    else ⟨kept.text ++ "." ++ ext⟩

/-- What leads from `root` to `p`, if the components of `p` start with those of `root`. -/
def relativeTo? (p root : Path) : Option Path :=
  if root.components.isPrefixOf p.components then
    match p.pieces.drop root.pieces.length with
    | [] => some ⟨""⟩
    | first :: rest =>
      let stop := stopOf (first :: rest)
      let start := first.stop - first.component.text.length
      some ⟨String.ofList ((p.text.toList.take stop).drop start)⟩
  else none

end StyleWeave.Path
