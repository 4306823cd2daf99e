import StyleWeave.Text.Blank

/-!
# Beginnings, ends and last dots

The cuts that names, requests and file names are taken apart with.
-/

namespace StyleWeave.Text

/-- What follows `start` in `s`, if `s` starts with it. -/
def stripPrefix? (start s : String) : Option String :=
  (start.toList.isPrefixOf? s.toList).map String.ofList

/-- `s` starts with `start`. -/
def startsWith (s start : String) : Bool :=
  start.toList.isPrefixOf s.toList

/-- `s` without the characters at its end that satisfy `p`. -/
def trimEndWhile (p : Char → Bool) (s : String) : String :=
  String.ofList (dropEndWhile p s.toList)

/-- `s` without the slashes at its end. -/
def trimSlashes (s : String) : String :=
  trimEndWhile (· = '/') s

/-- `s` without the quotes at its end. -/
def trimQuotes (s : String) : String :=
  trimEndWhile (fun c => c = '"' || c = '\'') s

/-- What stands before and after the last dot of a text, if it has one. -/
def splitLastDot : List Char → Option (List Char × List Char)
  | [] => none
  | c :: cs =>
    match splitLastDot cs with
    | some (before, after) => some (c :: before, after)
    | none => if c = '.' then some ([], cs) else none

/-- What stands after the last dot of a text, if it has one. -/
def afterLastDot? (s : String) : Option String :=
  (splitLastDot s.toList).map fun parts => String.ofList parts.2

/-- Two texts are equal when the case of ASCII letters is ignored. -/
def equalFold (a b : String) : Bool :=
  a.toList.map Char.toLower = b.toList.map Char.toLower

/-- `s` written `n` times. -/
def repeated (n : Nat) (s : String) : String :=
  String.join (List.replicate n s)

end StyleWeave.Text
