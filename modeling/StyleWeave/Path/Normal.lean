import StyleWeave.Path.Basic

/-!
# Normal forms of paths

The normal form of a path has no `.`, and a `..` has taken away the name before it. A `..` stays
only where there is no name to take away: in front of a relative path. Behind the root it is
dropped.
-/

namespace StyleWeave.Path

/-- Append a component to the components of a normal path, which are kept in reverse. -/
def pushNormal (reversed : List Component) (c : Component) : List Component :=
  match c with
  | .current => reversed
  | .parent =>
    match reversed with
    | .name _ :: above => above
    | .root :: _ => reversed
    | _ => .parent :: reversed
  | .root | .name _ => c :: reversed

/-- The components of the normal form. -/
def normalComponents (cs : List Component) : List Component :=
  (cs.foldl pushNormal []).reverse

/-- The normal form of a path, found without looking at any file. -/
def normalize (p : Path) : Path :=
  ofComponents (normalComponents p.components)

end StyleWeave.Path
