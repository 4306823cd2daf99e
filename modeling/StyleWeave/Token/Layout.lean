import StyleWeave.ParseError
import StyleWeave.Text.Offset
import StyleWeave.Token.Lexer

/-!
# Layout

The layout pass places lexemes on lines and turns the indentation of a line into `indent` and
`dedent` items. Blank lines have no layout, and inside braces and parentheses indentation means
nothing.
-/

namespace StyleWeave.Layout

open Text (bytes)

/-- Where the layout pass stands in a document. -/
structure State where
  /-- The byte offset behind the last lexeme. -/
  offset : Nat := 0
  /-- The 0-based line. -/
  line : Nat := 0
  /-- The byte offset where the line starts. -/
  lineStart : Nat := 0
  /-- No lexeme of the line was placed yet. -/
  fresh : Bool := true
  /-- The columns of the open indented blocks, the innermost first. -/
  columns : List Nat := []
  braces : Nat := 0
  parens : Nat := 0
  deriving Repr

/-- The column of the innermost block. -/
def column (columns : List Nat) : Nat :=
  columns.head?.getD 0

/-- The columns of the blocks that stay open on a line that starts at `col`. -/
def outdent (col : Nat) (columns : List Nat) : List Nat :=
  columns.dropWhile (col < ·)

/-- The line breaks inside a gap, which only block comments hold, end the line. -/
def passGap (s : State) (gap : List Char) : List Located × State :=
  match gap.count '\n' with
  | 0 => ([], s)
  | n =>
    let tail := (gap.reverse.takeWhile (· != '\n')).reverse
    let lineStart := s.offset + bytes gap - bytes tail
    let ended :=
      if s.fresh then [] else [⟨.token .newline, s.line, lineStart - 1, lineStart⟩]
    (ended, { s with line := s.line + n, lineStart, fresh := true })

/-- The layout of a line whose first lexeme starts at byte `start`. -/
def indentation (s : State) (start : Nat) : Except ParseError (List Located × State) :=
  if !s.fresh then .ok ([], s)
  else if s.braces != 0 || s.parens != 0 then .ok ([], { s with fresh := false })
  else
    let col := start - s.lineStart
    if column s.columns < col then
      .ok ([⟨.indent, s.line, start, start⟩],
        { s with fresh := false, columns := col :: s.columns })
    else
      let columns := outdent col s.columns
      if col = column columns then
        .ok (List.replicate (s.columns.length - columns.length) ⟨.dedent, s.line, start, start⟩,
          { s with fresh := false, columns })
      else .error (.indentation (s.line + 1))

/-- Count a bracket; a closing one needs an open one of its kind. -/
def bracket (s : State) (t : Token) : Except ParseError State :=
  match t with
  | .openBrace => .ok { s with braces := s.braces + 1 }
  | .closeBrace =>
    if s.braces = 0 then .error (.unbalanced (s.line + 1))
    else .ok { s with braces := s.braces - 1 }
  | .openParen => .ok { s with parens := s.parens + 1 }
  | .closeParen =>
    if s.parens = 0 then .error (.unbalanced (s.line + 1))
    else .ok { s with parens := s.parens - 1 }
  | _ => .ok s

/-- Place one lexeme. -/
def place (s : State) (l : Lexeme) : Except ParseError (List Located × State) :=
  match l.kind with
  | .openString => .error (.unterminatedString (s.line + 1))
  | .openComment => .error (.unterminatedComment (s.line + 1))
  | .token t => do
    let start := s.offset + bytes l.gap
    let stop := start + bytes l.text
    let (ended, s) := passGap s l.gap
    if t = .newline then
      let here := if s.fresh then [] else [⟨.token .newline, s.line, start, stop⟩]
      return (ended ++ here,
        { s with offset := stop, line := s.line + 1, lineStart := stop, fresh := true })
    else
      let (layout, s) ← indentation s start
      let s ← bracket s t
      return (ended ++ layout ++ [⟨.token t, s.line, start, stop⟩], { s with offset := stop })

/-- The items at the end of a document of `size` bytes. -/
def finish (s : State) (size : Nat) : Except ParseError (List Located) :=
  if s.braces != 0 || s.parens != 0 then .error (.unbalanced (s.line + 1))
  else
    let at_ (item : Item) : Located := ⟨item, s.line, size, size⟩
    let ended := if s.fresh then [] else [at_ (.token .newline)]
    .ok (ended ++ List.replicate s.columns.length (at_ .dedent) ++ [at_ .eof])

/-- Place the lexemes of a document of `size` bytes. -/
def run (size : Nat) (s : State) : List Lexeme → Except ParseError (List Located)
  | [] => finish s size
  | l :: ls => do
    let (items, s) ← place s l
    let rest ← run size s ls
    return items ++ rest

end Layout

/-- The token stream of a document. -/
def tokenize (source : List Char) : Except ParseError (List Located) :=
  Layout.run (Text.bytes source) {} (Lexeme.ofText source)

end StyleWeave
