import StyleWeave.Dictionary
import StyleWeave.Syntax.Tree

/-!
# Scopes

Import paths are evaluated without running the document. A variable has the text last assigned to
it in the blocks around the import, or else what the variable table says. An assignment of an
expression that cannot be evaluated hides the table: the variable is then unknown.
-/

namespace StyleWeave

/-- The variables assigned so far, the latest first. A variable without a text is unknown. -/
abbrev Scope := List (String × Option String)

/-- The text of an expression, if it is known. -/
def Expr.eval (scope : Scope) (table : Table) : Expr → Option String
  | literal text => some text
  | concat left right => do
    let l ← left.eval scope table
    let r ← right.eval scope table
    return l ++ r
  | ident name => (scope.lookup name).getD (table.find? name)
  | call _ _ | unknown => none

namespace Scope

/-- The variable is assigned or has an entry in the table. -/
def defines (scope : Scope) (table : Table) (name : String) : Bool :=
  (scope.lookup name).isSome || table.contains name

/-- The scope behind an assignment. -/
def assign (scope : Scope) (table : Table) (name : String) (op : AssignOp) (value : Expr) : Scope :=
  if op = .default && scope.defines table name then scope
  else (name, value.eval scope table) :: scope

end Scope

/-- An import statement with the names that its path expressions evaluate to; an expression that is
not known statically has none. -/
structure ImportSite where
  statement : Import
  names : List (Option String)
  deriving Repr, Inhabited

namespace Node

mutual

/-- The imports in a statement, and the scope behind it. What a block assigns ends with it. -/
def sites (table : Table) (scope : Scope) : Node → List ImportSite × Scope
  | block children | rule _ children => ((sitesOfAll table scope children).1, scope)
  | importing statement =>
    ([⟨statement, statement.exprs.map (Expr.eval scope table)⟩], scope)
  | assign name op value => ([], scope.assign table name op value)
  | declaration _ => ([], scope)

/-- The imports in consecutive statements, and the scope behind them. -/
def sitesOfAll (table : Table) (scope : Scope) : List Node → List ImportSite × Scope
  | [] => ([], scope)
  | node :: rest =>
    let (here, scope) := node.sites table scope
    let (there, scope) := sitesOfAll table scope rest
    (here ++ there, scope)

end

end Node

/-- The imports of a document in order. -/
def importSites (document : List Node) (table : Table) : List ImportSite :=
  (Node.sitesOfAll table [] document).1

end StyleWeave
