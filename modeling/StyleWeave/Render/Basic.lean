import StyleWeave.Host.Basic
import StyleWeave.Options.Basic
import StyleWeave.Path.Set

/-!
# Renderers and what they are given

A renderer turns a document into CSS in one pass. It reaches other documents only through a
`Locator`, which finds them and reads them. Where neither can be done before the host has resolved a
reference, the locator reports that reference as pending, and the renderer ends its pass with it.
-/

namespace StyleWeave

/-- An import that only the host can locate. -/
structure Pending where
  key : Reference
  name : String
  importer : Path
  deriving Repr, Inhabited

/-- How a renderer finds and reads documents. The state `σ` is that of the locator. -/
structure Locator (σ : Type) where
  /-- Find a file by its path with extension, in the last of some directories that has it, the
  importing document left out. -/
  find : σ → String → List Path → Option Path → Except Pending (Option (List Path)) × σ
  /-- Find the file that stands for a directory, likewise. -/
  index : σ → String → List Path → Option Path → Except Pending (Option (List Path)) × σ
  read : σ → Path → Except Failure String × σ

/-- A rendered document. -/
structure Rendered where
  css : String
  sourceMap : Option String
  deriving Repr, Inhabited

/-- How a render ends that does not fail. -/
inductive Outcome where
  | rendered (result : Rendered)
  /-- A reference must be resolved before the document can be rendered. -/
  | needsResolution (pending : Pending)
  deriving Repr, Inhabited

/-- What one render gives. -/
structure RenderStep (ρ : Type) where
  outcome : Except Failure Outcome
  found : PathSet
  state : ρ

/-- A renderer with states `ρ`. It renders the text of a file under some options through a locator,
and answers nothing if it comes to no end. -/
structure Renderer (ρ : Type) where
  render : ρ → Path → String → Options → Locator PathSet → PathSet → Option (RenderStep ρ)

end StyleWeave
