import StyleWeave.Text.Affix

/-!
# Paths

A path is the text it was written as, and is kept that way. What two paths mean is compared by
their components: `/a//b`, `/a/./b` and `/a/b/` differ as texts and have the same components, so
`==` and `compare` do not tell them apart. A `..` is a component of its own, and so is a `.` in
front of a relative path, so `./a` differs from `a`.
-/

namespace StyleWeave

/-- A path, as written. -/
structure Path where
  text : String
  deriving Repr, Inhabited

namespace Path

/-- One step of a path. -/
inductive Component where
  | root
  | current
  | parent
  | name (text : String)
  deriving DecidableEq, Repr, Inhabited

namespace Component

/-- The text of a component. -/
def text : Component → String
  | root => "/"
  | current => "."
  | parent => ".."
  | name s => s

/-- The place of a kind of component in the order of components. -/
def rank : Component → Nat
  | root => 0
  | current => 1
  | parent => 2
  | name _ => 3

/-- Components are ordered by kind, and names among each other by their text. -/
instance : Ord Component where
  compare a b := (compare a.rank b.rank).then (compare a.text b.text)

end Component

/-- A component together with where it ends in the path's text. -/
structure Piece where
  component : Component
  /-- The number of characters of the path up to the end of the component. -/
  stop : Nat
  deriving Repr

/-- A text cut at its slashes. -/
def segments : List Char → List (List Char)
  | [] => [[]]
  | c :: cs =>
    if c = '/' then [] :: segments cs
    else
      match segments cs with
      | [] => [[c]]
      | segment :: rest => (c :: segment) :: rest

/-- The component a segment stands for. An empty segment stands for none, and a `.` for none
unless it is the first segment. -/
def component? (first : Bool) (segment : List Char) : Option Component :=
  if segment = [] then none
  else if segment = ['.'] then if first then some .current else none
  else if segment = ['.', '.'] then some .parent
  else some (.name (String.ofList segment))

/-- The pieces of consecutive segments, the first of which starts at character `start`. -/
def piecesFrom (first : Bool) (start : Nat) : List (List Char) → List Piece
  | [] => []
  | segment :: rest =>
    let stop := start + segment.length
    let others := piecesFrom false (stop + 1) rest
    match component? first segment with
    | some c => ⟨c, stop⟩ :: others
    | none => others

/-- A path starts at the root. -/
def isAbsolute (p : Path) : Bool :=
  p.text.toList.head? = some '/'

/-- The components of a path with the places where they end. -/
def pieces (p : Path) : List Piece :=
  let relative := piecesFrom true 0 (segments p.text.toList)
  if p.isAbsolute then ⟨.root, 1⟩ :: relative else relative

/-- The components of a path. -/
def components (p : Path) : List Component :=
  p.pieces.map Piece.component

/-- Paths are equal when their components are. -/
instance : BEq Path where
  beq p q := p.components == q.components

/-- Paths are ordered component by component. -/
instance : Ord Path where
  compare p q := compare p.components q.components

instance : ToString Path where
  toString := text

/-- The path with the given components. -/
def ofComponents : List Component → Path
  | .root :: rest => ⟨"/" ++ "/".intercalate (rest.map Component.text)⟩
  | cs => ⟨"/".intercalate (cs.map Component.text)⟩

/-- The path reached from `p` by `q`: an absolute `q` replaces `p`, and a relative one follows it
behind a slash. -/
def join (p q : Path) : Path :=
  if q.isAbsolute then q
  else if p.text = "" || p.text.toList.getLast? = some '/' then ⟨p.text ++ q.text⟩
  else ⟨p.text ++ "/" ++ q.text⟩

theorem beq_iff {p q : Path} : p == q ↔ p.components = q.components := by
  show (p.components == q.components) = true ↔ _
  exact beq_iff_eq

@[simp] theorem beq_self (p : Path) : (p == p) = true :=
  beq_iff.2 rfl

theorem beq_comm (p q : Path) : (p == q) = (q == p) := by
  rw [Bool.eq_iff_iff, beq_iff, beq_iff]
  exact eq_comm

theorem beq_trans {p q r : Path} (hpq : p == q) (hqr : q == r) : p == r :=
  beq_iff.2 ((beq_iff.1 hpq).trans (beq_iff.1 hqr))

end Path

end StyleWeave
