/-!
# Tokens

The tokens of a document, and the stream of tokens with the layout made explicit: where a block
opened by indentation begins and ends.
-/

namespace StyleWeave

/-- A token as written in a document. -/
inductive Token where
  | newline
  | atImport
  /-- The keyword of an import that takes effect once. -/
  | atRequire
  /-- Any other at-rule; the name is without its `@`. -/
  | atRule (name : String)
  /-- A quoted string; the text is without quotes and escapes. -/
  | string (text : String)
  /-- A `url(...)` written without a line break, in full. -/
  | url (text : String)
  | ident (name : String)
  | number (text : String)
  | plus
  | assign
  | assignDefault
  | assignLocal
  | openParen
  | closeParen
  | openBrace
  | closeBrace
  | comma
  | semicolon
  | punct (text : String)
  deriving DecidableEq, Repr, Inhabited

namespace Token

/-- The token as the text of a statement shows it. A string is shown in double quotes, its text
as it is. -/
def text : Token → String
  | newline => "\n"
  | atImport => "@import"
  | atRequire => "@require"
  | atRule name => "@" ++ name
  | string s => "\"" ++ s ++ "\""
  | url s | ident s | number s | punct s => s
  | plus => "+"
  | assign => "="
  | assignDefault => "?="
  | assignLocal => ":="
  | openParen => "("
  | closeParen => ")"
  | openBrace => "\x7b"
  | closeBrace => "\x7d"
  | comma => ","
  | semicolon => ";"

end Token

/-- One item of a token stream with layout. -/
inductive Item where
  | token (t : Token)
  | indent
  /-- The innermost block opened by indentation ends. -/
  | dedent
  | eof
  deriving DecidableEq, Repr, Inhabited

/-- An item with its place in the document. -/
structure Located where
  item : Item
  /-- The 0-based line it starts on. -/
  line : Nat
  /-- The byte offset where it starts. -/
  start : Nat
  /-- The byte offset behind it. -/
  stop : Nat
  deriving DecidableEq, Repr, Inhabited

end StyleWeave
