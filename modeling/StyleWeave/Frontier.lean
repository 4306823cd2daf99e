import StyleWeave.Cache
import StyleWeave.Host.Scan
import StyleWeave.Path.Set

/-!
# The frontier of the import graph

A compile job learns the import graph of its document step by step. Its frontier is what it knows
of the graph and what it still has to look at: the documents to scan, the references to resolve,
what references were resolved to, and the files that the result depends on.

`drain` works off both queues, layer by layer. All waiting documents are scanned and their imports
queued; then all waiting references are resolved and the documents they lead to are queued. Scans
only guess what a render will need, so their references are speculative: a failure to resolve one is
dropped. A reference that a render asked for is required, and a failure to resolve it ends the
drain.

A host may lead from document to document without end. So `drain` is given a number of layers, and
answers nothing if they do not suffice.
-/

namespace StyleWeave

/-- A document waiting to be scanned. -/
structure Visit where
  file : Path
  text : Option String
  deriving Repr, Inhabited

/-- A reference waiting to be resolved. -/
structure Query where
  key : Reference
  /-- A failure to resolve it is dropped. -/
  speculative : Bool
  deriving Repr, Inhabited

/-- How much work was done. -/
structure Ledger where
  scans : Nat := 0
  hostResolveCalls : Nat := 0
  resolved : Nat := 0
  dropped : Nat := 0
  deriving DecidableEq, Repr, Inhabited

/-- What a job knows of the import graph and has yet to look at. -/
structure Frontier where
  options : Options
  cache : Cache := {}
  visits : List Visit := []
  /-- The documents whose turn to be scanned has come. -/
  visited : List Path := []
  queries : List Query := []
  dependencies : PathSet := .empty
  ledger : Ledger := {}
  deriving Repr, Inhabited

namespace Frontier

variable {σ : Type}

/-- Something waits to be looked at. -/
def hasPending (f : Frontier) : Bool :=
  !f.visits.isEmpty || !f.queries.isEmpty

/-- The document's turn to be scanned has come. -/
def isVisited (f : Frontier) (file : Path) : Bool :=
  f.visited.contains file

/-- The document may be queued: documents are scanned ahead, it is one of the dialect, and it was
not queued before. -/
def wantsVisit (f : Frontier) (file : Path) : Bool :=
  f.options.prefetch && f.options.dialect.isDialectFile file && !f.isVisited file &&
    !f.visits.any fun v => v.file == file

/-- Queue a document for scanning if it may be queued. -/
def enqueueVisit (f : Frontier) (file : Path) (text : Option String) : Frontier :=
  if f.wantsVisit file then { f with visits := f.visits ++ [⟨file, text⟩] } else f

/-- The reference is neither resolved nor queued. -/
def wantsQuery (f : Frontier) (key : Reference) : Bool :=
  !f.cache.contains key && !f.queries.any fun q => q.key == key

/-- Make the entry of a reference in a queue required. -/
def promote (key : Reference) : List Query → List Query
  | [] => []
  | q :: rest =>
    if q.key == key then { q with speculative := false } :: rest else q :: promote key rest

/-- Queue a reference, unless it is resolved. If it is queued already, it becomes required when it
is required now. -/
def enqueueQuery (f : Frontier) (key : Reference) (speculative : Bool) : Frontier :=
  if f.cache.contains key then f
  else if f.wantsQuery key then { f with queries := f.queries ++ [⟨key, speculative⟩] }
  else if speculative then f
  else { f with queries := promote key f.queries }

/-- Count a file among those that the result depends on, and queue it. -/
def addDependency (f : Frontier) (file : Path) : Frontier :=
  let f := f.enqueueVisit file none
  { f with dependencies := f.dependencies.insert file }

/-- Count several files among those that the result depends on, and queue them. -/
def addDependencies (f : Frontier) (files : List Path) : Frontier :=
  files.foldl addDependency f

/-! ## Resolving -/

/-- What a failure of the host says about a reference. -/
def reason : Failure → String
  | .resolve _ message => message
  | failure => failure.message

/-- Ask the host for each of some requests from one context until it resolves one. Answers the
request and its path, or the reasons of all failures. -/
def ask (host : Host σ) (context : Path) : List String → Frontier → σ →
    Except (List String) (String × Path) × Frontier × σ
  | [], f, s => (.error [], f, s)
  | request :: rest, f, s =>
    let f := { f with ledger.hostResolveCalls := f.ledger.hostResolveCalls + 1 }
    match host.resolve s ⟨context, request⟩ with
    | (.ok target, s) => (.ok (request, target), f, s)
    | (.error failure, s) =>
      match ask host context rest f s with
      | (.ok found, f, s) => (.ok found, f, s)
      | (.error reasons, f, s) => (.error (reason failure :: reasons), f, s)

/-- The frontier once the host has resolved `request`, one of the candidates of a reference. Both
requests lead to the path from now on. -/
def record (f : Frontier) (key : Reference) (request : String) (target : Path) : Frontier :=
  let cache := (f.cache.store key target).store ⟨key.context, request⟩ target
  let f := { f with
    cache
    ledger.resolved := f.ledger.resolved + 1
    dependencies := f.dependencies.insert target }
  f.enqueueVisit target none

/-- Resolve a reference: from the cache, or by asking the host for its candidates in turn. A
speculative reference that cannot be resolved has no path. -/
def resolve (host : Host σ) (key : Reference) (speculative : Bool) (f : Frontier) (s : σ) :
    Except Failure (Option Path) × Frontier × σ :=
  match f.cache.find? key with
  | some target => (.ok (some target), f, s)
  | none =>
    match ask host key.context (f.options.dialect.candidates key.request) f s with
    | (.ok (request, target), f, s) => (.ok (some target), f.record key request target, s)
    | (.error reasons, f, s) =>
      if speculative then
        (.ok none, { f with ledger.dropped := f.ledger.dropped + 1 }, s)
      else (.error (.resolve key ("; ".intercalate reasons)), f, s)

/-- Resolve the references of a queue in order. The first failure leaves those behind it queued. -/
def resolveQueue (host : Host σ) : List Query → Frontier → σ → Except Failure Unit × Frontier × σ
  | [], f, s => (.ok (), { f with queries := [] }, s)
  | q :: rest, f, s =>
    match resolve host q.key q.speculative { f with queries := rest } s with
    | (.ok _, f, s) => resolveQueue host rest f s
    | (.error failure, f, s) => (.error failure, f, s)

/-- Resolve all queued references. -/
def flushQueries (host : Host σ) (f : Frontier) (s : σ) : Except Failure Unit × Frontier × σ :=
  resolveQueue host f.queries f s

/-! ## Scanning -/

/-- Take the queued documents whose turn has not come before, in order, and count them as
visited. -/
def takeVisits : List Visit → Frontier → List Visit × Frontier
  | [], f => ([], { f with visits := [] })
  | v :: rest, f =>
    if f.isVisited v.file then takeVisits rest f
    else
      let (batch, f) := takeVisits rest { f with visited := f.visited ++ [v.file] }
      (v :: batch, f)

/-- Queue the imports that a scan of a document found. -/
def enqueueImports (f : Frontier) (imports : List FoundImport) : Frontier :=
  imports.foldl
    (fun f i => f.enqueueQuery ⟨i.context, f.options.requestFor i.name⟩ true) f

/-- Scan the documents of a batch. Answers the imports of each, or nothing for one that cannot be
read. -/
def scanBatch (host : Host σ) (options : Options) :
    List Visit → σ → List (Path × Option (List FoundImport)) × σ
  | [], s => ([], s)
  | v :: rest, s =>
    let (result, s) := host.scanFile s v.file v.text options.scanTables options.dialect
    let (others, s) := scanBatch host options rest s
    ((v.file, result.toOption) :: others, s)

/-- Take over what the scan of a document found. A document that cannot be read is no
dependency. -/
def takeScan (f : Frontier) (scan : Path × Option (List FoundImport)) : Frontier :=
  match scan.2 with
  | none => f
  | some imports =>
    { f with
      ledger.scans := f.ledger.scans + 1
      dependencies := f.dependencies.insert scan.1 }.enqueueImports imports

/-- Scan all queued documents and queue their imports. -/
def flushVisits (host : Host σ) (f : Frontier) (s : σ) : Frontier × σ :=
  let (batch, f) := takeVisits f.visits f
  let (scans, s) := scanBatch host f.options batch s
  (scans.foldl takeScan f, s)

/-! ## Draining -/

/-- Work off both queues, in at most `layers` layers. -/
def drain (host : Host σ) : Nat → Frontier → σ → Option (Except Failure Unit × Frontier × σ)
  | layers, f, s =>
    if !f.hasPending then some (.ok (), f, s)
    else
      match layers with
      | 0 => none
      | layers + 1 =>
        let (f, s) := flushVisits host f s
        match flushQueries host f s with
        | (.error failure, f, s) => some (.error failure, f, s)
        | (.ok _, f, s) => drain host layers f s

end Frontier

end StyleWeave
