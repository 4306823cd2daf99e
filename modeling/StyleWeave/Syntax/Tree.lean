/-!
# Syntax trees

The parts of a document that matter for finding its imports: the blocks, the assignments of
variables and the import statements. All other statements are kept as text.
-/

namespace StyleWeave

/-- What an import statement does with a document that was included before. -/
inductive ImportKind where
  | import_
  | require
  deriving DecidableEq, Repr, Inhabited

/-- An expression. -/
inductive Expr where
  | literal (text : String)
  | concat (left right : Expr)
  | ident (name : String)
  /-- A function applied to arguments; `url(...)` counts as one. -/
  | call (function : String) (args : List Expr)
  | unknown
  deriving Repr, Inhabited

/-- When an assignment binds its variable. -/
inductive AssignOp where
  | set
  | setLocal
  /-- `?=` binds it unless it is bound already. -/
  | default
  deriving DecidableEq, Repr, Inhabited

/-- An import statement. -/
structure Import where
  kind : ImportKind
  exprs : List Expr
  /-- The 0-based line of the keyword. -/
  line : Nat
  /-- The byte offset of the keyword. -/
  start : Nat
  /-- The byte offset behind the last path expression, or behind the `;` that ends the statement. -/
  stop : Nat
  deriving Repr, Inhabited

/-- A statement. -/
inductive Node where
  | block (children : List Node)
  /-- A selector, at-rule or other heading with the block it stands before. -/
  | rule (selector : String) (children : List Node)
  | importing (statement : Import)
  | assign (name : String) (op : AssignOp) (value : Expr)
  | declaration (text : String)
  deriving Repr, Inhabited

end StyleWeave
