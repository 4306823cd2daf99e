import StyleWeave.ParseError
import StyleWeave.Syntax.Expression
import StyleWeave.Token.Layout

/-!
# Reading documents

Statements are read one after the other until the block they stand in is closed: by the end of the
document, by a brace, or by the end of its indentation. As in the readers of expressions, every
answer comes with the number of items it took.
-/

namespace StyleWeave.Syntax

/-- What closes a block. -/
inductive BlockEnd where
  | eof
  | brace
  | dedent
  deriving DecidableEq, Repr

/-- Where a heading leads. -/
inductive Heading where
  /-- To nothing: it is a statement by itself. -/
  | declaration
  | block (close : BlockEnd)
  deriving DecidableEq, Repr

/-- The tokens of a heading as texts, where it leads, and how many items it took, its opening brace
or indentation included. With `depth` parentheses open, braces, semicolons and line breaks are
part of the heading. -/
def heading (depth : Nat) : List Located → List String × Heading × Nat
  | [] => ([], .declaration, 0)
  | l :: ls =>
    match l.item with
    | .eof | .indent | .dedent => ([], .declaration, 0)
    | .token t =>
      let more (depth : Nat) : List String × Heading × Nat :=
        let (parts, lead, n) := heading depth ls
        (t.text :: parts, lead, n + 1)
      match t with
      | .openBrace => if depth = 0 then ([], .block .brace, 1) else more depth
      | .newline =>
        if depth = 0 then
          if ls.head?.map Located.item = some .indent then ([], .block .dedent, 2)
          else ([], .declaration, 1)
        else
          let (parts, lead, n) := heading depth ls
          (parts, lead, n + 1)
      | .semicolon | .closeBrace => if depth = 0 then ([], .declaration, 0) else more depth
      | .openParen => more (depth + 1)
      | .closeParen => more (depth - 1)
      | _ => more depth

/-- The byte offset behind the last token that is no line break. -/
def lastStop (items : List Located) : Nat :=
  items.foldl (fun stop l =>
    match l.item with
    | .token .newline => stop
    | .token _ => l.stop
    | _ => stop) 0

/-- The import statement whose keyword is `l`, and how many items follow the keyword in it, the
indentation of a continued list included. -/
def importing (kind : ImportKind) (l : Located) (ls : List Located) : Node × Nat :=
  let (exprs, indents, n) := expressions ls
  let n := n + statementRest (ls.drop n)
  let n := n + count .semicolon (ls.drop n)
  let statement : Import := {
    kind
    exprs
    line := l.line
    start := l.start
    stop := lastStop (l :: ls.take n) }
  (.importing statement, n + continuationRest indents (ls.drop n))

/-- The operator that an item is, if it is one that assigns. -/
def assignOp? : Item → Option AssignOp
  | .token .assign => some .set
  | .token .assignLocal => some .setLocal
  | .token .assignDefault => some .default
  | _ => none

/-- The assignment to `name` whose operator is `op`, and how many items follow the operator. -/
def assignment (name : String) (op : AssignOp) (ls : List Located) : Node × Nat :=
  let (value, n) := expression ls
  (.assign name op value, n + statementRest (ls.drop n))

/-- How a statement starts. -/
inductive Opening where
  | complete (node : Node)
  | before (selector : String) (close : BlockEnd)

/-- The statement that starts with `l`, up to the block it may have, and how many of the items
behind `l` that takes. -/
def opening (l : Located) (ls : List Located) : Opening × Nat :=
  let plain : Opening × Nat :=
    let (parts, lead, n) := heading 0 (l :: ls)
    let text := " ".intercalate parts
    match lead with
    | .declaration => (.complete (.declaration text), n - 1)
    | .block close => (.before text close, n - 1)
  match l.item with
  | .token .atImport =>
    let (node, n) := importing .import_ l ls
    (.complete node, n)
  | .token .atRequire =>
    let (node, n) := importing .require l ls
    (.complete node, n)
  | .token (.ident name) =>
    match ls.head?.bind fun next => assignOp? next.item with
    | some op =>
      let (node, n) := assignment name op (ls.drop 1)
      (.complete node, 1 + n)
    | none => plain
  | _ => plain

/-- The statements up to the end of their block, and how many items they take, the end of the block
included. `lastLine` is the line of the last item of the document. -/
def statements (lastLine : Nat) (close : BlockEnd) (items : List Located) :
    Except ParseError (List Node × Nat) :=
  match items with
  | [] => if close = .brace then .error (.unbalanced (lastLine + 1)) else .ok ([], 0)
  | l :: ls =>
    match l.item with
    | .eof => if close = .brace then .error (.unbalanced (l.line + 1)) else .ok ([], 0)
    | .dedent =>
      if close = .dedent then .ok ([], 1) else .error (.unexpected (l.line + 1) "dedent")
    | .token .closeBrace =>
      if close = .brace then .ok ([], 1) else .error (.unbalanced (l.line + 1))
    | .token .newline | .token .semicolon => do
      let (nodes, n) ← statements lastLine close ls
      return (nodes, n + 1)
    | .indent => do
      let (children, n) ← statements lastLine .dedent ls
      let (nodes, m) ← statements lastLine close (ls.drop n)
      return (.block children :: nodes, 1 + n + m)
    | _ =>
      match opening l ls with
      | (.complete node, n) => do
        let (nodes, m) ← statements lastLine close (ls.drop n)
        return (node :: nodes, 1 + n + m)
      | (.before selector inner, n) => do
        let (children, k) ← statements lastLine inner (ls.drop n)
        let (nodes, m) ← statements lastLine close (ls.drop (n + k))
        return (.rule selector children :: nodes, 1 + n + k + m)
termination_by items.length
decreasing_by all_goals (simp only [List.length_cons, List.length_drop]; omega)

/-- The statements of a token stream. -/
def parseItems (items : List Located) : Except ParseError (List Node) :=
  (statements ((items.getLast?.map Located.line).getD 0) .eof items).map Prod.fst

end Syntax

/-- The statements of a document. -/
def parse (source : List Char) : Except ParseError (List Node) := do
  Syntax.parseItems (← tokenize source)

end StyleWeave
