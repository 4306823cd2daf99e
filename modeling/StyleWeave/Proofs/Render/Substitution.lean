import StyleWeave.Proofs.Render.Lookup
import StyleWeave.Proofs.Render.Writes
import StyleWeave.Proofs.Syntax.Spans

/-!
# Substituting documents for imports

A text is cut at its import statements (`parts`, of which `flatMap_source_parts` says that they make
up the text). Substitution keeps the text between the statements and replaces each statement with
what its path expressions stand for: a rule, nothing, or the text of a document, in which the same
is done. It knows nothing of lines, columns and source maps.
-/

namespace StyleWeave.Inline

open Text (slice dropBytes Boundary)

/-! ## Parts of a text -/

/-- A part of a source text: text that stays, or the text of an import statement. -/
inductive Part where
  | text (text : List Char)
  | site (text : List Char) (site : ImportSite)

/-- A text from byte `pos` on, cut at the statements in it. -/
def parts (source : List Char) : Nat → List ImportSite → List Part
  | pos, [] => [.text (dropBytes source pos)]
  | pos, site :: rest =>
    .text (slice source pos site.statement.start) ::
      .site (slice source site.statement.start site.statement.stop) site ::
      parts source site.statement.stop rest

/-- What a part is in its text. -/
def Part.source : Part → List Char
  | .text cs | .site cs _ => cs

/-- The parts of a text make it up. -/
theorem flatMap_source_parts {cs : List Char} {pos : Nat} {sites : List ImportSite}
    (h : Syntax.Spans cs pos (sites.map ImportSite.statement)) (hpos : Boundary cs pos) :
    (parts cs pos sites).flatMap Part.source = dropBytes cs pos := by
  induction sites generalizing pos with
  | nil => simp [parts, Part.source]
  | cons site rest ih =>
    obtain - | ⟨hle, hlt, hstart, hstop, -, hothers⟩ := h
    have hrest := ih hothers hstop
    simp only [parts, List.flatMap_cons, Part.source]
    rw [hrest, Text.slice_append_dropBytes hstart hstop (Nat.le_of_lt hlt),
      Text.slice_append_dropBytes hpos hstart hle]

/-! ## Substitution -/

/-- A part of the result: text of a source, or a rule. -/
inductive Piece where
  | kept (text : List Char)
  | rule (text : String)

def Piece.text : Piece → List Char
  | .kept cs => cs
  | .rule s => s.toList

/-- What something is replaced with, if some files were included before, and the files that are
included behind it. -/
abbrev Replacement :=
  List Path → Option (List Piece × List Path)

/-- Replace things in turn. -/
def inTurn {α : Type} (f : α → Replacement) : List α → Replacement
  | [], included => some ([], included)
  | a :: rest, included =>
    (f a included).bind fun here =>
      (inTurn f rest here.2).map fun there => (here.1 ++ there.1, there.2)

/-- What a file is replaced with that an import of a kind leads to. -/
def replaceFile (l : Lookup) (nested : Path → String → Replacement) (kind : ImportKind)
    (file : Path) : Replacement :=
  fun included =>
    if kind = .require && included.contains file then some ([], included)
    else
      match l.tree.read file with
      | .ok text => nested file text (included ++ [file])
      | .error _ => none

/-- What a path expression with its name is replaced with. -/
def replaceExpr (l : Lookup) (nested : Path → String → Replacement) (importer : Path)
    (kind : ImportKind) : Expr × Option String → Replacement :=
  fun (expr, name) included =>
    match urlTarget? expr, name with
    | some target, _ => some ([.rule (urlRule target)], included)
    | none, none => none
    | none, some name =>
      if isRule l.options name then some ([.rule (nameRule name)], included)
      else
        match l.known? importer name with
        | some file => replaceFile l nested kind file included
        | none => none

/-- What a part of a document is replaced with. -/
def replacePart (l : Lookup) (nested : Path → String → Replacement) (importer : Path) :
    Part → Replacement
  | .text text => fun included => some ([.kept text], included)
  | .site _ site =>
    inTurn (replaceExpr l nested importer site.statement.kind)
      (site.statement.exprs.zip site.names)

/-- What a document is replaced with, with at most `depth` documents nested in one another. -/
def substitute (l : Lookup) : Nat → Path → String → Replacement
  | 0 => fun _ _ _ => none
  | depth + 1 => fun file source =>
    match parse source.toList with
    | .ok document =>
      inTurn (replacePart l (substitute l depth) file)
        (parts source.toList 0 (importSites document l.options.define))
    | .error _ => fun _ => none

theorem substitute_of_parse {l : Lookup} {source : String} {document : List Node}
    (h : parse source.toList = .ok document) (depth : Nat) (file : Path) :
    substitute l (depth + 1) file source =
      inTurn (replacePart l (substitute l depth) file)
        (parts source.toList 0 (importSites document l.options.define)) := by
  simp only [substitute, h]

theorem inTurn_append {α : Type} (f : α → Replacement) (as bs : List α) (included : List Path) :
    inTurn f (as ++ bs) included =
      (inTurn f as included).bind fun here =>
        (inTurn f bs here.2).map fun there => (here.1 ++ there.1, there.2) := by
  induction as generalizing included with
  | nil => simp [inTurn]
  | cons a rest ih =>
    rw [List.cons_append, inTurn, inTurn]
    cases f a included with
    | none => rfl
    | some here =>
      simp only [Option.bind_some, ih]
      cases inTurn f rest here.2 with
      | none => rfl
      | some there => simp [Function.comp_def]

end StyleWeave.Inline
