import StyleWeave.Path.Basic

/-!
# References

A reference is what the host's resolver is asked for: a request, as seen from the directory of the
document that makes it. `requestFor` turns an import's name into a request. References are compared
as they are: `./x` and `x` are two requests, so a name goes through `requestFor` before it becomes
part of a reference.
-/

namespace StyleWeave

/-- A request and the directory it was made in. -/
structure Reference where
  /-- The directory of the document that makes the request. -/
  context : Path
  request : String
  deriving Repr, Inhabited

namespace Reference

/-- References are equal when their contexts are equal paths and their requests the same text. -/
instance : BEq Reference where
  beq a b := a.context == b.context && a.request == b.request

/-- References are ordered by context, then by request. -/
instance : Ord Reference where
  compare a b := (compare a.context b.context).then (compare a.request b.request)

/-- The reference as messages show it. -/
def display (r : Reference) : String :=
  "(" ++ r.context.text ++ ", " ++ r.request ++ ")"

/-- The name starts with a drive letter, a colon and a slash of either kind, or with two
backslashes. -/
def isDriveAbsolute (name : String) : Bool :=
  match name.toList with
  | '\\' :: '\\' :: _ => true
  | drive :: ':' :: slash :: _ => drive.isAlpha && (slash = '/' || slash = '\\')
  | _ => false

/-- The name starts with `./` or `../`. -/
def isRelative (name : String) : Bool :=
  match name.toList with
  | '.' :: '/' :: _ => true
  | '.' :: '.' :: '/' :: _ => true
  | _ => false

/-- A letter, digit, plus, dot or hyphen, as a URL scheme is made of. -/
def isSchemeChar (c : Char) : Bool :=
  c.isAlphanum || c = '+' || c = '.' || c = '-'

/-- The name starts with a URL scheme and a colon, or with two slashes. -/
def isUrlLike (name : String) : Bool :=
  match name.toList with
  | '/' :: '/' :: _ => true
  | c :: rest => c.isAlpha && (rest.dropWhile isSchemeChar).head? = some ':'
  | [] => false

/-- The request for an import name, with `root` as the place that names starting with a slash are
relative to:

- `~pkg/x` asks for `pkg/x`;
- names starting with `./`, `../` or a drive are asked for as they are;
- `/x` is asked for under `root`, where a leading `~` of the root is dropped, and as it is without
  a root;
- any other name asks for `./name`. -/
def requestFor (name : String) (root : Option String) : String :=
  match Text.stripPrefix? "~" name with
  | some modulePath => modulePath
  | none =>
    if isRelative name || isDriveAbsolute name then name
    else if Text.startsWith name "/" then
      match root with
      | some root => Text.trimSlashes ((Text.stripPrefix? "~" root).getD root) ++ name
      | none => name
    else "./" ++ name

/-- Names that no resolver is asked for: empty ones, patterns, and URLs. -/
def isUnresolvable (name : String) : Bool :=
  name.isEmpty || name.toList.contains '*' || (isUrlLike name && !isDriveAbsolute name)

theorem beq_iff {a b : Reference} :
    a == b ↔ a.context.components = b.context.components ∧ a.request = b.request := by
  show (a.context == b.context && a.request == b.request) = true ↔ _
  simp [Path.beq_iff]

@[simp] theorem beq_self (a : Reference) : (a == a) = true :=
  beq_iff.2 ⟨rfl, rfl⟩

theorem beq_comm (a b : Reference) : (a == b) = (b == a) := by
  rw [Bool.eq_iff_iff, beq_iff, beq_iff]
  exact ⟨fun h => ⟨h.1.symm, h.2.symm⟩, fun h => ⟨h.1.symm, h.2.symm⟩⟩

theorem beq_trans {a b c : Reference} (hab : a == b) (hbc : b == c) : a == c := by
  rw [beq_iff] at *
  exact ⟨hab.1.trans hbc.1, hab.2.trans hbc.2⟩

end Reference

end StyleWeave
