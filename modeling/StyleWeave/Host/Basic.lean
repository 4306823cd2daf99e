import StyleWeave.Failure

/-!
# Hosts and source trees

A host is the build system a compile job works for: it resolves references, reads files, and is
told which files the result depends on. It answers as it likes and may change with every call, so
each of its operations takes its state and gives the next one. `Host σ` describes a host with
states `σ`.

A source tree is what a renderer sees of the files while it renders, and does not change meanwhile.
-/

namespace StyleWeave

/-- A build system with states `σ`. -/
structure Host (σ : Type) where
  resolve : σ → Reference → Except Failure Path × σ
  read : σ → Path → Except Failure String × σ
  /-- Take note that the result depends on a file. -/
  depend : σ → Path → σ

namespace Host

variable {σ : Type}

/-- Tell the host of several files in turn. -/
def dependAll (host : Host σ) (s : σ) (files : List Path) : σ :=
  files.foldl host.depend s

/-- The host with chosen answers: where `answer` has a failure for a reference, the host is still
asked, and the failure takes the place of its answer. -/
def failingOn (host : Host σ) (answer : Reference → Option Failure) : Host σ where
  resolve s key :=
    let (result, s) := host.resolve s key
    match answer key with
    | some failure => (.error failure, s)
    | none => (result, s)
  read := host.read
  depend := host.depend

end Host

/-- The files a renderer can see. -/
structure SourceTree where
  isFile : Path → Bool
  read : Path → Except Failure String

end StyleWeave
