import StyleWeave.Host.Basic
import StyleWeave.Path.Normal
import StyleWeave.Path.Set

/-!
# A host in memory

A `Memory` holds its files by normal path, so it reads a file by any path with the same normal
form. A reference is resolved by the first of these that applies:

- a route, which need not lead to a file;
- for a request that starts with `./` or `../`, the file it leads to from the context;
- for an absolute request, the file it names;
- for any other request, the first module directory in which it leads to a file.

The host's state is a log of what it was asked.
-/

namespace StyleWeave

/-- Files in memory, and how references to them are resolved. -/
structure Memory where
  /-- The texts of the files by normal path. -/
  files : List (Path × String) := []
  /-- References with fixed answers. -/
  routes : List (Reference × Path) := []
  moduleDirs : List Path := []
  deriving Repr, Inhabited

namespace Memory

/-- Set the value of a key in a list of entries: in its place if an equal key is there, and at the
end if not. -/
def put {α β : Type} [BEq α] (key : α) (value : β) : List (α × β) → List (α × β)
  | [] => [(key, value)]
  | (k, v) :: rest => if key == k then (k, value) :: rest else (k, v) :: put key value rest

/-- The memory with a file. -/
def insertFile (m : Memory) (file : Path) (text : String) : Memory :=
  { m with files := put file.normalize text m.files }

/-- The memory with a route. -/
def insertRoute (m : Memory) (key : Reference) (target : Path) : Memory :=
  { m with routes := put key target m.routes }

/-- The text of the file that a path leads to. -/
def text? (m : Memory) (file : Path) : Option String :=
  m.files.lookup file.normalize

/-- The paths that a reference without a route may stand for, in order. -/
def candidates (m : Memory) (key : Reference) : List Path :=
  let request : Path := ⟨key.request⟩
  if Reference.isRelative key.request then [(key.context.join request).normalize]
  else if request.isAbsolute then [request.normalize]
  else m.moduleDirs.map fun dir => (dir.join request).normalize

/-- The failure to resolve a reference. -/
def cannotResolve (key : Reference) : Failure :=
  .resolve key ("Can't resolve '" ++ key.request ++ "' in '" ++ key.context.text ++ "'")

/-- What a reference resolves to. -/
def resolve (m : Memory) (key : Reference) : Except Failure Path :=
  match m.routes.lookup key with
  | some target => .ok target
  | none =>
    match (m.candidates key).find? fun p => (m.files.lookup p).isSome with
    | some p => .ok p
    | none => .error (cannotResolve key)

/-- What reading a file through its normal path gives. -/
def read (m : Memory) (file : Path) : Except Failure String :=
  match m.text? file with
  | some text => .ok text
  | none => .error (.notFound file.normalize.text)

/-- What the host was asked. -/
structure Log where
  resolveCalls : List Reference := []
  /-- How often each file was read, by normal path in the order of paths. -/
  reads : List (Path × Nat) := []
  /-- The files that results depend on, in the order they were named. -/
  dependencies : List Path := []
  deriving Repr, Inhabited

namespace Log

/-- Count one more reading of a path in an ordered list of counts. -/
def countRead (file : Path) : List (Path × Nat) → List (Path × Nat)
  | [] => [(file, 1)]
  | (p, n) :: rest =>
    match compare file p with
    | .lt => (file, 1) :: (p, n) :: rest
    | .eq => (p, n + 1) :: rest
    | .gt => (p, n) :: countRead file rest

/-- How often a reference was to be resolved. -/
def resolveCount (log : Log) (key : Reference) : Nat :=
  log.resolveCalls.countP (· == key)

/-- How often the file of a normal path was read. -/
def readCount (log : Log) (file : Path) : Nat :=
  (log.reads.lookup file).getD 0

end Log

/-- The host that answers from memory and logs every call. -/
def host (m : Memory) : Host Log where
  resolve log key := (m.resolve key, { log with resolveCalls := log.resolveCalls ++ [key] })
  read log file := (m.read file, { log with reads := Log.countRead file.normalize log.reads })
  depend log file := { log with dependencies := log.dependencies ++ [file] }

/-- The files in memory as a renderer sees them. -/
def tree (m : Memory) : SourceTree where
  isFile file := (m.text? file).isSome
  read file :=
    match m.text? file with
    | some text => .ok text
    | none => .error (.notFound file.text)

end Memory

end StyleWeave
