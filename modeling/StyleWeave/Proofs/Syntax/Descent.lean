import StyleWeave.Proofs.Syntax.Cursor

/-!
# Reading by descent

The grammar of documents, read by calls of each other that move a cursor: what the readers of
expressions and statements say in terms of the items they are given, the calls of this module do one
item at a time. Every call gives up when it is nested too deep, every loop when it makes too many
passes (`depth` and `limit`), so that a document for which the calls would not end has no answer
whatever the bounds are.
-/

namespace StyleWeave.Syntax

namespace Descent

open Parsing

/-! ## Expressions -/

def statementEnd (limit : Nat) : Nat → Parsing Unit
  | 0 => exhausted
  | _ + 1 => skipWhile .statementEnd (fun item => !endsStatement item) limit

def lineBreaks (limit : Nat) : Parsing Unit :=
  skipWhile .lineBreaks (fun item => item = .token .newline) limit

def exprRestPass (depth : Nat) : Parsing (Next Nat Unit) := do
  match ← peek with
  | .eof | .indent | .dedent => return .leave ()
  | .token .openParen =>
    advance
    return .again (depth + 1)
  | .token .closeParen =>
    if depth = 0 then
      return .leave ()
    else
      advance
      return .again (depth - 1)
  | item =>
    if depth = 0 && endsExpr item then
      return .leave ()
    else
      advance
      return .again depth

def exprRest (limit : Nat) : Nat → Parsing Unit
  | 0 => exhausted
  | _ + 1 => loop .exprRest exprRestPass limit 0

def sumPass (operand : Parsing Expr) (left : Expr) : Parsing (Next Expr Expr) := do
  if ← skip (.token .plus) then
    let right ← operand
    return .again (.concat left right)
  else
    return .leave left

/-- Takes the item in front if the cursor has not moved since it was at `position`. -/
def advanceFrom (position : Nat) : Parsing Unit := do
  if (← cursor).position = position then
    advance

def argumentsPass (expression : Parsing Expr) (args : List Expr) :
    Parsing (Next (List Expr) (List Expr)) := do
  match ← peek with
  | .token .closeParen | .eof | .dedent => return .leave args
  | .token .comma | .token .newline =>
    advance
    return .again args
  | _ =>
    let before := (← cursor).position
    let arg ← expression
    advanceFrom before
    return .again (args ++ [arg])

/-- Behind an identifier: it may be the name of a call. -/
def named (expression : Parsing Expr) (limit : Nat) (name : String) : Parsing Expr := do
  if ← skip (.token .openParen) then
    let args ← loop .arguments (argumentsPass expression) limit []
    let _ ← skip (.token .closeParen)
    return .call name args
  else
    return .ident name

/-- Behind an opening parenthesis. -/
def inParens (expression : Parsing Expr) (exprRest : Parsing Unit) : Parsing Expr := do
  let inner ← expression
  if ← skip (.token .closeParen) then
    return inner
  else
    exprRest
    return .unknown

/-- What is known of an expression that `item` follows and that ends behind it: a string or number
in front of a media query. -/
def known : Expr → Item → Expr
  | .literal s, .token (.ident _) => .literal s
  | _, _ => .unknown

/-- Behind the operands of an expression. -/
def expressionEnd (exprRest : Parsing Unit) (e : Expr) : Parsing Expr := do
  let item ← peek
  if endsExpr item then
    return e
  else
    exprRest
    return known e item

mutual

def primary (limit : Nat) : Nat → Parsing Expr
  | 0 => exhausted
  | depth + 1 => do
    match ← peek with
    | .token (.string s) | .token (.number s) =>
      advance
      return .literal s
    | .token (.url s) =>
      advance
      return .call "url" [.literal (urlTarget s)]
    | .token (.ident name) =>
      advance
      named (expression limit depth) limit name
    | .token .openParen =>
      advance
      inParens (expression limit depth) (exprRest limit depth)
    | item =>
      if endsExpr item then
        return .unknown
      else
        advance
        return .unknown

def expression (limit : Nat) : Nat → Parsing Expr
  | 0 => exhausted
  | depth + 1 => do
    let first ← primary limit depth
    let e ← loop .sum (sumPass (primary limit depth)) limit first
    expressionEnd (exprRest limit depth) e

end

/-- Behind a comma, whether the next line is indented deeper. -/
def afterComma (limit : Nat) : Parsing Bool := do
  lineBreaks limit
  skip .indent

/-- A pass over a list, with what was read of it so far and how many times its lines were indented
deeper. -/
def listPass (expression : Parsing Expr) (limit : Nat) (read : List Expr × Nat) :
    Parsing (Next (List Expr × Nat) (List Expr × Nat)) := do
  if ← skip (.token .comma) then
    let deeper ← afterComma limit
    let e ← expression
    return .again (read.1 ++ [e], read.2 + deeper.toNat)
  else
    return .leave read

def expressions (limit : Nat) : Nat → Parsing (List Expr × Nat)
  | 0 => exhausted
  | depth + 1 => do
    let first ← expression limit depth
    loop .list (listPass (expression limit depth) limit) limit ([first], 0)

def continuationPass (limit : Nat) : Nat → Parsing (Next Nat Unit)
  | 0 => return .leave ()
  | indents + 1 => do
    lineBreaks limit
    if ← skip .dedent then
      return .again indents
    else
      return .leave ()

def continuation (limit : Nat) : Nat → Nat → Parsing Unit
  | 0, _ => exhausted
  | _ + 1, indents => loop .continuation (continuationPass limit) limit indents

/-! ## Statements -/

/-- What a heading comes to, with the block that it leads to. -/
def headed (block : BlockEnd → Parsing (List Node)) (parts : List String) : Heading → Parsing Node
  | .declaration => return .declaration (" ".intercalate parts)
  | .block close => do
    let children ← block close
    return .rule (" ".intercalate parts) children

def headingPass (block : BlockEnd → Parsing (List Node)) (read : List String × Nat) :
    Parsing (Next (List String × Nat) Node) := do
  let (parts, depth) := read
  let leave (lead : Heading) : Parsing (Next (List String × Nat) Node) := do
    let node ← headed block parts lead
    return .leave node
  let more (t : Token) (depth : Nat) : Parsing (Next (List String × Nat) Node) := do
    advance
    return .again (parts ++ [t.text], depth)
  match ← peek with
  | .eof | .indent | .dedent => leave .declaration
  | .token t =>
    match t with
    | .openBrace =>
      if depth = 0 then
        advance
        leave (.block .brace)
      else
        more t depth
    | .newline =>
      if depth = 0 then
        advance
        if ← skip .indent then
          leave (.block .dedent)
        else
          leave .declaration
      else
        advance
        return .again (parts, depth)
    | .semicolon | .closeBrace => if depth = 0 then leave .declaration else more t depth
    | .openParen => more t (depth + 1)
    | .closeParen => more t (depth - 1)
    | _ => more t depth

def importing (limit depth : Nat) (kind : ImportKind) : Parsing Node := do
  let line := (← cursor).line
  let start := (← cursor).start
  advance
  let (exprs, indents) ← expressions limit depth
  statementEnd limit depth
  let _ ← skip (.token .semicolon)
  let stop := (← cursor).stop
  continuation limit depth indents
  return .importing { kind, exprs, line, start, stop }

def assignment (limit depth : Nat) (name : String) (op : AssignOp) : Parsing Node := do
  advance
  advance
  let value ← expression limit depth
  statementEnd limit depth
  return .assign name op value

def statementsPass (statement : Parsing Node) (block : Parsing (List Node)) (close : BlockEnd)
    (nodes : List Node) : Parsing (Next (List Node) (List Node)) := do
  match ← peek with
  | .eof =>
    if close = .brace then
      refuse (.unbalanced ((← cursor).line + 1))
    else
      return .leave nodes
  | .dedent =>
    if close = .dedent then
      advance
      return .leave nodes
    else
      refuse (.unexpected ((← cursor).line + 1) "dedent")
  | .token .closeBrace =>
    if close = .brace then
      advance
      return .leave nodes
    else
      refuse (.unbalanced ((← cursor).line + 1))
  | .token .newline | .token .semicolon =>
    advance
    return .again nodes
  | .indent =>
    advance
    let children ← block
    return .again (nodes ++ [.block children])
  | _ =>
    let node ← forStatement statement
    return .again (nodes ++ [node])

mutual

def statements (limit : Nat) : Nat → BlockEnd → Parsing (List Node)
  | 0, _ => exhausted
  | depth + 1, close =>
    loop .statements
      (statementsPass (statement limit depth) (statements limit depth .dedent) close) limit []

def statement (limit : Nat) : Nat → Parsing Node
  | 0 => exhausted
  | depth + 1 => do
    match ← peek with
    | .token .atImport => importing limit depth .import_
    | .token .atRequire => importing limit depth .require
    | .token (.ident name) =>
      match assignOp? (← cursor).next with
      | some op => assignment limit depth name op
      | none => heading limit depth
    | _ => heading limit depth

def heading (limit : Nat) : Nat → Parsing Node
  | 0 => exhausted
  | depth + 1 => loop .heading (headingPass (statements limit depth)) limit ([], 0)

end

/-- The call for a whole document. -/
def document (limit : Nat) : Nat → Parsing (List Node)
  | 0 => exhausted
  | depth + 1 => statements limit depth .eof

end Descent

end StyleWeave.Syntax
