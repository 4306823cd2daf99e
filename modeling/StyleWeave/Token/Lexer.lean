import StyleWeave.Text.Blank
import StyleWeave.Token.Basic

/-!
# Lexemes

A text is cut into lexemes, each behind a gap of blanks and comments. The longest lexeme that fits
is taken. A character that no lexeme starts with is a lexeme by itself, so cutting fails only in a
string or a block comment that does not end.

The functions that measure a lexeme or gap give its number of characters.
-/

namespace StyleWeave

/-- What a lexeme is. -/
inductive Lexeme.Kind where
  | token (t : Token)
  | openString
  /-- The start of a block comment without end. -/
  | openComment
  deriving DecidableEq, Repr

/-- A lexeme of a text. -/
structure Lexeme where
  /-- The blanks and comments between the lexeme before and this one. -/
  gap : List Char
  kind : Lexeme.Kind
  text : List Char
  deriving Repr

namespace Lexeme

/-- A character that an identifier or the name of an at-rule can start with, dollars apart. -/
def isNameStart (c : Char) : Bool :=
  c.isAlpha || c = '_'

/-- A character inside the name of an at-rule. -/
def isNameChar (c : Char) : Bool :=
  c.isAlphanum || c = '_' || c = '-'

/-- A character that an identifier can start with. -/
def isIdentStart (c : Char) : Bool :=
  isNameStart c || c = '$'

/-- A character inside an identifier. -/
def isIdentChar (c : Char) : Bool :=
  isNameChar c || c = '$'

/-- A character of a number's unit. -/
def isUnitChar (c : Char) : Bool :=
  c.isAlpha || c = '%'

/-! ## Gaps -/

/-- How far it is to the end of a block comment from behind its start. -/
def commentTail : List Char → Option Nat
  | '*' :: '/' :: _ => some 2
  | _ :: cs => (commentTail cs).map (· + 1)
  | [] => none

/-- How long the comment is that a text starts with, its first character left out. -/
def commentRest : List Char → Option Nat
  | '/' :: '/' :: cs => some ((cs.takeWhile (· != '\n')).length + 1)
  | '/' :: '*' :: cs => (commentTail cs).map (· + 1)
  | _ => none

/-- How long the gap is that a text starts with. -/
def gapLength (cs : List Char) : Nat :=
  match cs with
  | [] => 0
  | c :: rest =>
    if Text.isGap c then gapLength rest + 1
    else
      match commentRest (c :: rest) with
      | some n => gapLength (rest.drop n) + n + 1
      | none => 0
termination_by cs.length
decreasing_by all_goals (simp only [List.length_cons, List.length_drop]; omega)

/-! ## Lexemes of more than one character -/

/-- How far it is to the end of a string from behind its opening quote, if it ends on its line. -/
def stringTail (quote : Char) : List Char → Option Nat
  | [] => none
  | '\\' :: c :: cs => if c = '\n' then none else (stringTail quote cs).map (· + 2)
  | c :: cs =>
    if c = quote then some 1
    else if c = '\n' || c = '\\' then none
    else (stringTail quote cs).map (· + 1)

/-- The text of a string, given what stands between its quotes: a backslash is dropped and the
character behind it kept. -/
def unescape : List Char → List Char
  | '\\' :: c :: cs => c :: unescape cs
  | '\\' :: [] => []
  | c :: cs => c :: unescape cs
  | [] => []

/-- How long the inside of `url(...)` is that a text starts with, and whether its parenthesis
follows. -/
def urlInside (cs : List Char) : Nat × Bool :=
  let inside := cs.takeWhile fun c => c != ')' && c != '\n'
  (inside.length, (cs.drop inside.length).head? = some ')')

/-- How long the number is whose first digit stands before a text. -/
def numberTail (cs : List Char) : Nat :=
  let whole := (cs.takeWhile Char.isDigit).length
  let fraction :=
    match cs.drop whole with
    | '.' :: ds =>
      match (ds.takeWhile Char.isDigit).length with
      | 0 => 0
      | n => n + 1
    | _ => 0
  whole + fraction + ((cs.drop (whole + fraction)).takeWhile isUnitChar).length

/-- The token of an at-rule's name. -/
def atToken (name : List Char) : Token :=
  match String.ofList name with
  | "import" => .atImport
  | "require" => .atRequire
  | s => .atRule s

/-- The token of an identifier that starts with `c`, and how many characters of it are in `cs`. A
`url` with a parenthesis behind it is no identifier: with its closing parenthesis on the line it is
one token, and without it is taken up to the end of the line. -/
def identOf (c : Char) (cs : List Char) : Token × Nat :=
  let more := cs.takeWhile isIdentChar
  let name := String.ofList (c :: more)
  match cs.drop more.length with
  | '(' :: inside =>
    if name = "url" then
      let (n, closed) := urlInside inside
      let stop := if closed then n + 2 else n + 1
      let text := String.ofList (c :: cs.take (more.length + stop))
      (if closed then .url text else .punct text, more.length + stop)
    else (.ident name, more.length)
  | _ => (.ident name, more.length)

/-- The kind of the lexeme that starts with `c`, and how many characters of it are in `cs`. -/
def kindOf (c : Char) (cs : List Char) : Kind × Nat :=
  let single (t : Token) : Kind × Nat := (.token t, 0)
  let other := single (.punct (String.ofList [c]))
  if isIdentStart c then
    let (t, n) := identOf c cs
    (.token t, n)
  else if c.isDigit then
    let n := numberTail cs
    (.token (.number (String.ofList (c :: cs.take n))), n)
  else
    match c, cs with
    | '\n', _ => single .newline
    | '"', _ | '\'', _ =>
      match stringTail c cs with
      | some n => (.token (.string (String.ofList (unescape (cs.take (n - 1))))), n)
      | none => (.openString, 0)
    | '@', d :: _ =>
      if isNameStart d || d = '-' then
        let name := cs.takeWhile isNameChar
        (.token (atToken name), name.length)
      else other
    | '-', d :: ds =>
      if isIdentStart d then
        let more := ds.takeWhile isIdentChar
        (.token (.ident (String.ofList (c :: d :: more))), more.length + 1)
      else other
    | '/', '*' :: _ => (.openComment, cs.length)
    | '?', '=' :: _ => (.token .assignDefault, 1)
    | ':', '=' :: _ => (.token .assignLocal, 1)
    | '+', _ => single .plus
    | '=', _ => single .assign
    | '(', _ => single .openParen
    | ')', _ => single .closeParen
    | '\x7b', _ => single .openBrace
    | '\x7d', _ => single .closeBrace
    | ',', _ => single .comma
    | ';', _ => single .semicolon
    | _, _ => other

/-- The lexemes of a text. The blanks and comments behind the last are left out. -/
def ofText (cs : List Char) : List Lexeme :=
  let gap := gapLength cs
  match _h : cs.drop gap with
  | [] => []
  | c :: rest =>
    let (kind, n) := kindOf c rest
    ⟨cs.take gap, kind, c :: rest.take n⟩ :: ofText (rest.drop n)
termination_by cs.length
decreasing_by
  have := congrArg List.length _h
  simp only [List.length_drop, List.length_cons] at *
  omega

end Lexeme

end StyleWeave
