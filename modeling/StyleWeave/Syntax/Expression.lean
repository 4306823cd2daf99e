import StyleWeave.Syntax.Tree
import StyleWeave.Text.Affix
import StyleWeave.Token.Basic

/-!
# Reading expressions

The readers of this module look at the items in front of them and answer with what they read and
how many items that took. None of them fails: what they cannot make sense of is an `unknown`
expression.
-/

namespace StyleWeave.Syntax

/-- An expression cannot go on behind this item. -/
def endsExpr : Item → Bool
  | .eof | .indent | .dedent => true
  | .token t =>
    match t with
    | .newline | .semicolon | .closeBrace | .openBrace | .comma | .closeParen => true
    | _ => false

/-- A statement cannot go on behind this item. -/
def endsStatement : Item → Bool
  | .eof | .indent | .dedent => true
  | .token t =>
    match t with
    | .newline | .semicolon | .closeBrace | .openBrace => true
    | _ => false

/-- The rest of the items starts where an expression cannot go on. -/
def atEnd (items : List Located) : Bool :=
  (items.head?.map Located.item).all endsExpr

/-- How many items there are up to the end of the statement. -/
def statementRest (items : List Located) : Nat :=
  (items.takeWhile fun l => !endsStatement l.item).length

/-- How many items there are up to the end of the expression, with `depth` parentheses open. -/
def exprRest (depth : Nat) : List Located → Nat
  | [] => 0
  | l :: ls =>
    match l.item with
    | .eof | .indent | .dedent => 0
    | .token .openParen => exprRest (depth + 1) ls + 1
    | .token .closeParen =>
      match depth with
      | 0 => 0
      | d + 1 => exprRest d ls + 1
    | item => if depth = 0 && endsExpr item then 0 else exprRest depth ls + 1

/-- The first item is the token `t`. -/
def startsWith (t : Token) (items : List Located) : Bool :=
  (items.head?.map Located.item) = some (.token t)

/-- One, if the first item is the token `t`, and zero otherwise. -/
def count (t : Token) (items : List Located) : Nat :=
  if startsWith t items then 1 else 0

/-- The target of a `url(...)`: what stands in the parentheses, without blanks around it and without
quotes around that. -/
def urlTarget (text : String) : String :=
  let isQuote (c : Char) : Bool := c = '"' || c = '\''
  let inside := Text.trim ((text.toList.drop 4).dropLast)
  String.ofList (Text.dropEndWhile isQuote (inside.dropWhile isQuote))

mutual

/-- An operand: a string or number, a `url(...)`, a variable, a call, or an expression in
parentheses. -/
def primary (items : List Located) : Expr × Nat :=
  match items with
  | [] => (.unknown, 0)
  | l :: ls =>
    match l.item with
    | .token (.string s) | .token (.number s) => (.literal s, 1)
    | .token (.url s) => (.call "url" [.literal (urlTarget s)], 1)
    | .token (.ident name) =>
      if startsWith .openParen ls then
        let (args, n) := arguments (ls.drop 1)
        (.call name args, 2 + n + count .closeParen (ls.drop (1 + n)))
      else (.ident name, 1)
    | .token .openParen =>
      let (inner, n) := expression ls
      let rest := ls.drop n
      if startsWith .closeParen rest then (inner, 1 + n + 1)
      else (.unknown, 1 + n + exprRest 0 rest)
    | item => (.unknown, if endsExpr item then 0 else 1)
termination_by 4 * items.length
decreasing_by all_goals (simp only [List.length_cons, List.length_drop]; omega)

/-- The operands that are added to `left`. -/
def sum (left : Expr) (items : List Located) : Expr × Nat :=
  match items with
  | [] => (left, 0)
  | l :: ls =>
    if l.item = .token .plus then
      let (right, n) := primary ls
      let (e, m) := sum (.concat left right) (ls.drop n)
      (e, 1 + n + m)
    else (left, 0)
termination_by 4 * items.length
decreasing_by all_goals (simp only [List.length_cons, List.length_drop]; omega)

/-- An expression: operands with `+` between them. An identifier behind a string or number starts a
media query, which is passed over. Anything else makes the expression unknown. -/
def expression (items : List Located) : Expr × Nat :=
  let (first, n) := primary items
  let (e, m) := sum first (items.drop n)
  let rest := items.drop (n + m)
  if atEnd rest then (e, n + m)
  else
    let stop := n + m + exprRest 0 rest
    match e, rest.head?.map Located.item with
    | .literal s, some (.token (.ident _)) => (.literal s, stop)
    | _, _ => (.unknown, stop)
termination_by 4 * items.length + 1
decreasing_by
  · omega
  · simp only [List.length_drop]; omega

/-- The arguments of a call, up to its closing parenthesis. Where no expression starts, an item is
passed over. -/
def arguments (items : List Located) : List Expr × Nat :=
  match items with
  | [] => ([], 0)
  | l :: ls =>
    match l.item with
    | .token .closeParen | .eof | .dedent => ([], 0)
    | .token .comma | .token .newline =>
      let (args, n) := arguments ls
      (args, n + 1)
    | _ =>
      let (arg, n) := expression (l :: ls)
      let (args, m) := arguments (ls.drop (n - 1))
      (arg :: args, (n - 1) + 1 + m)
termination_by 4 * items.length + 2
decreasing_by all_goals (simp only [List.length_cons, List.length_drop]; omega)

end

/-- How many line breaks come first. -/
def newlines (items : List Located) : Nat :=
  (items.takeWhile fun l => l.item = .token .newline).length

/-- What may follow a comma in a list: line breaks, and deeper indentation behind those. Answers how
many items that takes, and whether the indentation is there. -/
def afterComma (items : List Located) : Nat × Bool :=
  let n := newlines items
  if (items.drop n).head?.map Located.item = some .indent then (n + 1, true) else (n, false)

/-- Path expressions with commas between them. A comma continues the list on the next line. Answers
the expressions, how many times the next line was indented deeper, and how many items it took. -/
def expressions (items : List Located) : List Expr × Nat × Nat :=
  let (e, n) := expression items
  match _h : items.drop n with
  | [] => ([e], 0, n)
  | l :: ls =>
    if l.item = .token .comma then
      let (k, deeper) := afterComma ls
      let (es, indents, m) := expressions (ls.drop k)
      (e :: es, indents + deeper.toNat, n + 1 + k + m)
    else ([e], 0, n)
termination_by items.length
decreasing_by
  have := congrArg List.length _h
  simp only [List.length_drop, List.length_cons] at *
  omega

/-- How many items close the indentation that a continued list has opened. -/
def continuationRest : Nat → List Located → Nat
  | 0, _ => 0
  | indents + 1, items =>
    let n := newlines items
    if (items.drop n).head?.map Located.item = some .dedent then
      n + 1 + continuationRest indents (items.drop (n + 1))
    else n

end StyleWeave.Syntax
