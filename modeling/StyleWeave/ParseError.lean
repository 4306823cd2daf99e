/-!
# Malformed documents

Why the text of a document is not in the dialect, with the 1-based number of the line where it
shows.
-/

namespace StyleWeave

/-- Why a document cannot be parsed. -/
inductive ParseError where
  | unterminatedString (line : Nat)
  | unterminatedComment (line : Nat)
  | unbalanced (line : Nat)
  /-- A line that is indented less than its block and more than the block around it. -/
  | indentation (line : Nat)
  /-- Something that cannot stand where it does. -/
  | unexpected (line : Nat) (found : String)
  deriving DecidableEq, Repr

namespace ParseError

/-- The line where the fault shows. -/
def line : ParseError → Nat
  | unterminatedString n | unterminatedComment n | unbalanced n | indentation n
  | unexpected n _ => n

/-- The fault as messages show it. -/
def message : ParseError → String
  | unterminatedString n => "unterminated string on line " ++ toString n
  | unterminatedComment n => "unterminated comment on line " ++ toString n
  | unbalanced n => "unbalanced brackets near line " ++ toString n
  | indentation n => "inconsistent indentation on line " ++ toString n
  | unexpected n found => "unexpected " ++ found ++ " on line " ++ toString n

end ParseError

end StyleWeave
