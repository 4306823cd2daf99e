import StyleWeave.Proofs.Render.Steps

/-!
# What a pass writes

Each line of the output is a rule or comes from a line of a source (`Write`), and whatever a step
writes is such lines put behind the others at once (`Pass.write`). Passes that have written the same
(`Linked`) do so again behind the same lines.
-/

namespace StyleWeave.Inline

/-! ## Rules in the CSS -/

/-- The rule of an import of a URL. -/
def urlRule (target : String) : String :=
  "@import url(\"" ++ target ++ "\");"

/-- The rule of an import by name. -/
def nameRule (name : String) : String :=
  "@import \"" ++ name ++ "\";"

theorem append_urlRule (indent target : String) :
    indent ++ "@import url(\"" ++ target ++ "\");" = indent ++ urlRule target := by
  simp only [urlRule, String.append_assoc]

theorem append_nameRule (indent name : String) :
    indent ++ "@import \"" ++ name ++ "\";" = indent ++ nameRule name := by
  simp only [nameRule, String.append_assoc]

/-! ## What is written -/

/-- A line of the output: a rule that comes from no document, or a line that comes from line
`number` of a source. -/
inductive Write where
  | rule (indent text : String)
  | mapped (line : String) (source number : Nat)
  deriving DecidableEq, Repr

namespace Write

def line : Write → String
  | rule indent text => indent ++ text
  | mapped line _ _ => line

/-- The mappings of lines that are written from line `output` of the output on. -/
def mappings : Nat → List Write → List Mapping
  | _, [] => []
  | output, rule _ _ :: rest => mappings (output + 1) rest
  | output, mapped _ source number :: rest => ⟨output, source, number⟩ :: mappings (output + 1) rest

theorem mappings_append (output : Nat) (writes writes' : List Write) :
    mappings output (writes ++ writes') =
      mappings output writes ++ mappings (output + writes.length) writes' := by
  induction writes generalizing output with
  | nil => rfl
  | cons w rest ih =>
    have hlength : output + (w :: rest).length = output + 1 + rest.length := by
      rw [List.length_cons]
      omega
    rw [hlength]
    cases w with
    | rule indent text => exact ih (output + 1)
    | mapped line source number => exact congrArg (_ :: ·) (ih (output + 1))

end Write

/-- A line as it is written if it holds no part of an import. -/
def lineText (indent : String) (line : Text.Line) : String :=
  if (Text.trim line.text).isEmpty then "" else indent ++ String.ofList line.text

/-- A fragment as it is written. -/
def fragmentText (base : String) (text : List Char) (opened : Nat) : String :=
  let text := Text.trim text
  base ++ levels (opened - (text.takeWhile (· = '\x7d')).length) ++ String.ofList text

/-- What is written of a fragment. -/
def fragmentWrites (base : String) (text : List Char) (opened source number : Nat) : List Write :=
  if (Text.trim text).isEmpty then [] else [.mapped (fragmentText base text opened) source number]

variable {σ : Type}

/-- A pass behind some lines more. -/
def Pass.write (p : Pass σ) (writes : List Write) : Pass σ :=
  { p with
    lines := p.lines ++ (writes.map Write.line).toArray
    mappings := p.mappings ++ (Write.mappings p.lines.size writes).toArray }

theorem writeRule_eq (indent text : String) (p : Pass σ) :
    writeRule (indent ++ text) p = p.write [.rule indent text] := by
  simp [writeRule, Pass.write, Write.line, Write.mappings]

theorem writeLine_eq (indent : String) (source : Nat) (line : Text.Line) (p : Pass σ) :
    writeLine indent source line p =
      p.write [.mapped (lineText indent line) source line.number] := by
  simp [writeLine, writeMapped, Pass.write, Write.line, Write.mappings, lineText]

theorem writeFragment_snd (base : String) (text : List Char) (opened source number : Nat)
    (p : Pass σ) :
    (writeFragment base text opened source number p).2 =
      p.write (fragmentWrites base text opened source number) := by
  unfold writeFragment fragmentWrites fragmentText
  dsimp only
  split
  · simp [Pass.write, Write.mappings]
  · simp [writeMapped, Pass.write, Write.line, Write.mappings]

theorem Pass.write_append (p : Pass σ) (writes writes' : List Write) :
    p.write (writes ++ writes') = (p.write writes).write writes' := by
  simp [Pass.write, Write.mappings_append]

/-! ## Entering a document -/

theorem sourceIndex_snd (file : Path) (p : Pass σ) :
    ∃ more, (sourceIndex file p).2 = { p with sources := p.sources ++ more } := by
  unfold sourceIndex
  split
  · exact ⟨[], by rw [List.append_nil]⟩
  · exact ⟨[file], rfl⟩

/-- The parses that are kept stay right when a pass enters a document. -/
theorem valid_entered {p : Pass σ} (h : p.parsed.Valid) (file : Path) (source : String) :
    (sourceIndex file { p with parsed := (p.parsed.parse source).2 }).2.parsed.Valid := by
  obtain ⟨more, hsources⟩ :=
    sourceIndex_snd file { p with parsed := (p.parsed.parse source).2 }
  rw [hsources]
  exact h.parse source

/-! ## Passes that have written the same -/

variable {τ : Type}

/-- Two passes have written the same, and `S` relates what they search and have parsed. -/
structure Linked (S : σ × ParseCache → τ × ParseCache → Prop) (p : Pass σ) (q : Pass τ) : Prop where
  state : S (p.search, p.parsed) (q.search, q.parsed)
  included : p.included = q.included
  lines : p.lines = q.lines
  sources : p.sources = q.sources
  mappings : p.mappings = q.mappings

namespace Linked

variable {S : σ × ParseCache → τ × ParseCache → Prop} {p : Pass σ} {q : Pass τ}

theorem write (h : Linked S p q) (writes : List Write) :
    Linked S (p.write writes) (q.write writes) := by
  refine { h with lines := ?_, mappings := ?_ }
  · unfold Pass.write
    rw [h.lines]
  · unfold Pass.write
    rw [h.mappings, h.lines]

theorem sourceIndex (h : Linked S p q) (file : Path) :
    (sourceIndex file p).1 = (sourceIndex file q).1 ∧
      Linked S (sourceIndex file p).2 (sourceIndex file q).2 := by
  unfold Inline.sourceIndex
  rw [h.sources]
  cases q.sources.findIdx? (· == file) with
  | some i => exact ⟨rfl, h⟩
  | none => exact ⟨rfl, { h with sources := rfl }⟩

theorem finish_eq (h : Linked S p q) (options : Options) (file : Path) :
    finish options file p = finish options file q := by
  unfold finish
  rw [h.lines, h.sources, h.mappings]

end Linked

end StyleWeave.Inline
