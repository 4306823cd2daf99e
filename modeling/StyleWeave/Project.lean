import StyleWeave.Disk.Host
import StyleWeave.Host.Memory
import StyleWeave.Job
import StyleWeave.Render.Inline

/-!
# Compiling finite projects

The files in memory or on a disk are finitely many, so a job over them comes to an end. This module
computes limits from the files and runs jobs within them.

- Each layer of a drain but the first scans a document that no layer scanned before.
- The documents being inlined into one another are different files.
- Each render but the last asks for a reference that was not asked for before, made by an import of
  some document. A document has fewer imports than characters.
- In memory a file has one normal path. On a disk it has an absolute one, and for each number of
  `..` at the start at most one that is relative.
-/

namespace StyleWeave

/-- The sum of some sizes. -/
def total (sizes : List Nat) : Nat :=
  sizes.foldr (· + ·) 0

namespace Memory

/-- More documents than references can lead to. -/
def reach (m : Memory) : Nat :=
  m.files.length + m.routes.length + 2

/-- More imports than the documents hold that references can lead to, with one of text `source`. -/
def importBound (m : Memory) (source : String) : Nat :=
  let inFiles := total (m.files.map fun e => e.2.length)
  let inTargets := total (m.routes.map fun e => ((m.text? e.2).getD "").length)
  source.length + inFiles + inTargets + 2

/-- Limits that suffice for a job on a document. -/
def limits (m : Memory) (source : String) : Limits where
  layers := m.reach
  renders := m.importBound source

/-- The inlining renderer for the documents in memory, and those that a cache leads to. -/
def renderer (m : Memory) (cache : Cache) : Renderer Inline.ParseCache :=
  Inline.renderer (m.reach + cache.size)

end Memory

namespace Disk

/-- More normal paths than lead to one file: each `..` takes two characters of the path. -/
def spellings : Nat := maxPath

/-- More normal paths than lead to the files of the disk. -/
def reach (d : Disk) : Nat :=
  spellings * d.root.files.length + 2

/-- More references than the files of the disk, by all their paths, and a document of text `source`
make. -/
def importBound (d : Disk) (source : String) : Nat :=
  source.length + spellings * total (d.root.files.map fun f => f.2.size) + 2

/-- Limits for a job on a document. -/
def limits (d : Disk) (source : String) : Limits where
  layers := d.reach
  renders := d.importBound source

/-- The inlining renderer for the documents on the disk. -/
def renderer (d : Disk) : Renderer Inline.ParseCache :=
  Inline.renderer d.reach

/-- Compile a document on the disk with a new job, given the files that earlier results depend on
and the documents parsed before. -/
def compile (d : Disk) (options hostOptions : Options) (file : Path) (source : String)
    (files : PathSet) (parsed : Inline.ParseCache) :
    Option (JobStep PathSet Inline.ParseCache Output) :=
  (Job.create file source options).run (d.host hostOptions) d.renderer d.tree (d.limits source)
    files parsed

end Disk

end StyleWeave
