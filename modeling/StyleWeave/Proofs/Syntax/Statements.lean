import StyleWeave.Proofs.Token.Places
import StyleWeave.Syntax.Parser

/-!
# Statements as a relation

`Reads` lists the ways to read the statements of a block, one rule for each. It is the reader of
statements seen as a relation (`statements_eq_ok_iff`), so what is to be shown of a document that
was read is shown rule by rule, and that a document can be read is shown by applying the rules. How
a single statement starts is a relation in the same way (`opening_eq_iff`). What is to be shown of
documents that cannot be read is shown by the item at hand (`Role`), with an equation for each.
-/

namespace StyleWeave

def ImportKind.printed : ImportKind → List Char
  | .import_ => "@import".toList
  | .require => "@require".toList

def ImportKind.token : ImportKind → Token
  | .import_ => .atImport
  | .require => .atRequire

namespace Syntax

/-- A statement can start with this item. -/
def startsStatement : Item → Bool
  | .eof | .dedent | .indent => false
  | .token t =>
    match t with
    | .closeBrace | .newline | .semicolon => false
    | _ => true

/-- What an item is to the reader of statements. -/
inductive Role (item : Item) : Prop where
  | eof (item : item = .eof)
  | dedent (item : item = .dedent)
  | closeBrace (item : item = .token .closeBrace)
  | blank (item : item = .token .newline ∨ item = .token .semicolon)
  | indent (item : item = .indent)
  | statement (item : startsStatement item = true)

theorem role (item : Item) : Role item := by
  cases item with
  | eof => exact .eof rfl
  | dedent => exact .dedent rfl
  | indent => exact .indent rfl
  | token t =>
    cases t with
    | closeBrace => exact .closeBrace rfl
    | newline => exact .blank (Or.inl rfl)
    | semicolon => exact .blank (Or.inr rfl)
    | _ => exact .statement rfl

/-- Up to the end of a block that `close` closes, the items are read as these statements, and how
many items that takes. -/
inductive Reads : BlockEnd → List Located → List Node → Nat → Prop where
  | nothing {close : BlockEnd} (open_ : close ≠ .brace) : Reads close [] [] 0
  | eof {close : BlockEnd} {l : Located} (ls : List Located) (item : l.item = .eof)
      (open_ : close ≠ .brace) : Reads close (l :: ls) [] 0
  | dedent {l : Located} (ls : List Located) (item : l.item = .dedent) :
      Reads .dedent (l :: ls) [] 1
  | closeBrace {l : Located} (ls : List Located) (item : l.item = .token .closeBrace) :
      Reads .brace (l :: ls) [] 1
  | blank {close : BlockEnd} {l : Located} {ls : List Located} {nodes : List Node} {n : Nat}
      (item : l.item = .token .newline ∨ l.item = .token .semicolon)
      (others : Reads close ls nodes n) : Reads close (l :: ls) nodes (n + 1)
  | block {close : BlockEnd} {l : Located} {ls : List Located} {children nodes : List Node}
      {n m : Nat} (item : l.item = .indent) (inner : Reads .dedent ls children n)
      (others : Reads close (ls.drop n) nodes m) :
      Reads close (l :: ls) (.block children :: nodes) (1 + n + m)
  | complete {close : BlockEnd} {l : Located} {ls : List Located} {node : Node} {nodes : List Node}
      {n m : Nat} (item : startsStatement l.item = true)
      (statement : opening l ls = (.complete node, n)) (others : Reads close (ls.drop n) nodes m) :
      Reads close (l :: ls) (node :: nodes) (1 + n + m)
  | rule {close inner : BlockEnd} {l : Located} {ls : List Located} {selector : String}
      {children nodes : List Node} {n k m : Nat} (item : startsStatement l.item = true)
      (statement : opening l ls = (.before selector inner, n))
      (body : Reads inner (ls.drop n) children k)
      (others : Reads close (ls.drop (n + k)) nodes m) :
      Reads close (l :: ls) (.rule selector children :: nodes) (1 + n + k + m)

theorem expressions_eq (items : List Located) :
    expressions items =
      match items.drop (expression items).2 with
      | [] => ([(expression items).1], 0, (expression items).2)
      | l :: ls =>
        if l.item = .token .comma then
          ((expression items).1 :: (expressions (ls.drop (afterComma ls).1)).1,
            (expressions (ls.drop (afterComma ls).1)).2.1 + (afterComma ls).2.toNat,
            (expression items).2 + 1 + (afterComma ls).1 +
              (expressions (ls.drop (afterComma ls).1)).2.2)
        else ([(expression items).1], 0, (expression items).2) := by
  rw [expressions.eq_def]
  dsimp only
  split
  · next hnil => rw [hnil]
  · next l ls hcons => rw [hcons]

/-! ## Import statements -/

/-- How many items an import statement takes behind its keyword, up to its semicolon. -/
def importLength (ls : List Located) : Nat :=
  let n := (expressions ls).2.2 + statementRest (ls.drop (expressions ls).2.2)
  n + count .semicolon (ls.drop n)

theorem importing_eq (kind : ImportKind) (l : Located) (ls : List Located) :
    importing kind l ls =
      (.importing {
        kind
        exprs := (expressions ls).1
        line := l.line
        start := l.start
        stop := lastStop (l :: ls.take (importLength ls)) },
        importLength ls + continuationRest (expressions ls).2.1 (ls.drop (importLength ls))) :=
  rfl

theorem expressions_le_importLength (items : List Located) :
    (expressions items).2.2 ≤ importLength items := by
  unfold importLength
  dsimp only
  omega

/-! ## How a statement starts -/

section

variable {l l' : Located} {ls ls' : List Located} {start : Opening} {n : Nat}

/-- The statement is neither an import nor an assignment. -/
def Headed (l : Located) (ls : List Located) : Prop :=
  (∀ kind : ImportKind, l.item ≠ .token kind.token) ∧
    ∀ name, l.item = .token (.ident name) → (ls.head?.bind fun next => assignOp? next.item) = none

theorem Headed.congr (h : Headed l ls) (hitem : l'.item = l.item)
    (hhead : ls'.head?.map Located.item = ls.head?.map Located.item) : Headed l' ls' := by
  have hop : (ls'.head?.bind fun next => assignOp? next.item) =
      ls.head?.bind fun next => assignOp? next.item := by
    have hmap := congrArg (Option.bind · assignOp?) hhead
    rwa [Option.bind_map, Option.bind_map] at hmap
  unfold Headed
  rw [hitem, hop]
  exact h

/-- How the statement starts whose first item is `l`, and how many of the items behind `l` that
takes. -/
inductive Starting (l : Located) (ls : List Located) : Opening → Nat → Prop where
  | import_ (kind : ImportKind) (item : l.item = .token kind.token) :
      Starting l ls (.complete (importing kind l ls).1) (importing kind l ls).2
  | assigns {name : String} {op : AssignOp} {next : Located} {others : List Located}
      (item : l.item = .token (.ident name)) (split : ls = next :: others)
      (operator : assignOp? next.item = some op) :
      Starting l ls (.complete (assignment name op others).1) (1 + (assignment name op others).2)
  | declaration {parts : List String} {n : Nat} (headed : Headed l ls)
      (heading : heading 0 (l :: ls) = (parts, .declaration, n)) :
      Starting l ls (.complete (.declaration (" ".intercalate parts))) (n - 1)
  | block {parts : List String} {close : BlockEnd} {n : Nat} (headed : Headed l ls)
      (heading : heading 0 (l :: ls) = (parts, .block close, n)) :
      Starting l ls (.before (" ".intercalate parts) close) (n - 1)

theorem opening_import (kind : ImportKind) (ls : List Located) (h : l.item = .token kind.token) :
    opening l ls = (.complete (importing kind l ls).1, (importing kind l ls).2) := by
  unfold opening
  rw [h]
  cases kind <;> rfl

theorem opening_assign {name : String} {op : AssignOp} {next : Located} (others : List Located)
    (h : l.item = .token (.ident name)) (hop : assignOp? next.item = some op) :
    opening l (next :: others) =
      (.complete (assignment name op others).1, 1 + (assignment name op others).2) := by
  unfold opening
  simp [h, hop]

theorem Headed.opening (h : Headed l ls) :
    opening l ls =
      match heading 0 (l :: ls) with
      | (parts, .declaration, n) => (.complete (.declaration (" ".intercalate parts)), n - 1)
      | (parts, .block close, n) => (.before (" ".intercalate parts) close, n - 1) := by
  obtain ⟨hkind, hassign⟩ := h
  unfold Syntax.opening
  dsimp only
  split
  · next hitem => exact absurd hitem (hkind .import_)
  · next hitem => exact absurd hitem (hkind .require)
  · next name hitem =>
    rw [hassign name hitem]
    generalize heading 0 (l :: ls) = read
    obtain ⟨parts, _ | close, n⟩ := read <;> rfl
  · generalize heading 0 (l :: ls) = read
    obtain ⟨parts, _ | close, n⟩ := read <;> rfl

theorem headed_or (l : Located) (ls : List Located) :
    (∃ kind : ImportKind, l.item = .token kind.token) ∨
      (∃ name next others op, l.item = .token (.ident name) ∧ ls = next :: others ∧
        assignOp? next.item = some op) ∨ Headed l ls := by
  by_cases hkind : ∃ kind : ImportKind, l.item = .token kind.token
  · exact Or.inl hkind
  · by_cases hassign : ∃ name next others op, l.item = .token (.ident name) ∧
        ls = next :: others ∧ assignOp? next.item = some op
    · exact Or.inr (Or.inl hassign)
    · refine Or.inr (Or.inr ⟨not_exists.1 hkind, fun name hitem => ?_⟩)
      rw [Option.bind_eq_none_iff]
      intro next hnext
      obtain ⟨others, rfl⟩ := List.head?_eq_some_iff.1 hnext
      exact Option.eq_none_iff_forall_ne_some.2 fun op hop =>
        hassign ⟨name, next, others, op, hitem, rfl, hop⟩

theorem opening_eq_iff : opening l ls = (start, n) ↔ Starting l ls start n := by
  constructor
  · intro h
    rcases headed_or l ls with ⟨kind, hitem⟩ | ⟨name, next, others, op, hitem, rfl, hop⟩ | hheaded
    · rw [opening_import kind ls hitem] at h
      obtain ⟨rfl, rfl⟩ := Prod.mk.inj h
      exact .import_ kind hitem
    · rw [opening_assign others hitem hop] at h
      obtain ⟨rfl, rfl⟩ := Prod.mk.inj h
      exact .assigns hitem rfl hop
    · rw [hheaded.opening] at h
      split at h
      · next parts n hheading =>
        obtain ⟨rfl, rfl⟩ := Prod.mk.inj h
        exact .declaration hheaded hheading
      · next parts close n hheading =>
        obtain ⟨rfl, rfl⟩ := Prod.mk.inj h
        exact .block hheaded hheading
  · intro h
    cases h with
    | import_ kind item => exact opening_import kind ls item
    | assigns item split operator =>
      subst split
      exact opening_assign _ item operator
    | declaration headed heading => rw [headed.opening, heading]
    | block headed heading => rw [headed.opening, heading]

/-- A statement without a block is an import, an assignment or a heading by itself. -/
theorem opening_complete {node : Node} (h : opening l ls = (.complete node, n)) :
    (∃ kind : ImportKind, l.item = .token kind.token ∧ importing kind l ls = (node, n)) ∨
      (∃ name op, node = (assignment name op (ls.drop 1)).1) ∨
      ∃ text, node = .declaration text := by
  cases opening_eq_iff.1 h with
  | import_ kind item => exact Or.inl ⟨kind, item, rfl⟩
  | assigns _ split _ =>
    subst split
    exact Or.inr (Or.inl ⟨_, _, rfl⟩)
  | declaration => exact Or.inr (Or.inr ⟨_, rfl⟩)

end

variable {lastLine : Nat} {close : BlockEnd} {items : List Located} {nodes : List Node} {n : Nat}

/-! ## The reader of statements, item by item -/

theorem statements_nil : statements lastLine close [] =
    if close = .brace then .error (.unbalanced (lastLine + 1)) else .ok ([], 0) := by
  rw [statements.eq_def]

section

variable {l : Located} (ls : List Located)

theorem statements_of_eof (h : l.item = .eof) : statements lastLine close (l :: ls) =
    if close = .brace then .error (.unbalanced (l.line + 1)) else .ok ([], 0) := by
  rw [statements.eq_def]
  simp only [h]

theorem statements_of_dedent (h : l.item = .dedent) : statements lastLine close (l :: ls) =
    if close = .dedent then .ok ([], 1) else .error (.unexpected (l.line + 1) "dedent") := by
  rw [statements.eq_def]
  simp only [h]

theorem statements_of_closeBrace (h : l.item = .token .closeBrace) :
    statements lastLine close (l :: ls) =
      if close = .brace then .ok ([], 1) else .error (.unbalanced (l.line + 1)) := by
  rw [statements.eq_def]
  simp only [h]

theorem statements_of_blank (h : l.item = .token .newline ∨ l.item = .token .semicolon) :
    statements lastLine close (l :: ls) = do
      let (nodes, n) ← statements lastLine close ls
      return (nodes, n + 1) := by
  rw [statements.eq_def]
  rcases h with h | h <;> simp only [h]

theorem statements_of_indent (h : l.item = .indent) : statements lastLine close (l :: ls) = do
    let (children, n) ← statements lastLine .dedent ls
    let (nodes, m) ← statements lastLine close (ls.drop n)
    return (.block children :: nodes, 1 + n + m) := by
  rw [statements.eq_def]
  simp only [h]

theorem statements_of_starts (h : startsStatement l.item = true) :
    statements lastLine close (l :: ls) =
      match opening l ls with
      | (.complete node, n) => do
        let (nodes, m) ← statements lastLine close (ls.drop n)
        return (node :: nodes, 1 + n + m)
      | (.before selector inner, n) => do
        let (children, k) ← statements lastLine inner (ls.drop n)
        let (nodes, m) ← statements lastLine close (ls.drop (n + k))
        return (.rule selector children :: nodes, 1 + n + k + m) := by
  rw [statements.eq_def]
  dsimp only
  split <;> first | rfl | simp_all [startsStatement]

end

theorem statements_of_reads (h : Reads close items nodes n) :
    statements lastLine close items = .ok (nodes, n) := by
  induction h with
  | nothing open_ => rw [statements_nil, if_neg open_]
  | eof ls item open_ => rw [statements_of_eof ls item, if_neg open_]
  | dedent ls item => rw [statements_of_dedent ls item, if_pos rfl]
  | closeBrace ls item => rw [statements_of_closeBrace ls item, if_pos rfl]
  | blank item others ih =>
    rw [statements_of_blank _ item, ih]
    rfl
  | block item inner others ih ih' =>
    rw [statements_of_indent _ item, ih]
    simp [ih', bind, Except.bind, pure, Except.pure]
  | complete item statement others ih =>
    rw [statements_of_starts _ item, statement]
    simp [ih, bind, Except.bind, pure, Except.pure]
  | rule item statement body others ih ih' =>
    rw [statements_of_starts _ item, statement]
    simp [ih, ih', bind, Except.bind, pure, Except.pure]

/-- A block ends here if it is read up to here. -/
theorem ends_of_ite {p : Prop} [Decidable p] {e : ParseError} {k : Nat}
    (h : (if p then .ok ([], k) else .error e) = Except.ok (nodes, n)) :
    p ∧ nodes = [] ∧ n = k := by
  by_cases hp : p
  · rw [if_pos hp] at h
    obtain ⟨hnodes, hn⟩ := Prod.mk.inj (Except.ok.inj h)
    exact ⟨hp, hnodes.symm, hn.symm⟩
  · rw [if_neg hp] at h
    cases h

theorem reads_of_statements (h : statements lastLine close items = .ok (nodes, n)) :
    Reads close items nodes n := by
  induction hlength : items.length using Nat.strongRecOn generalizing close items nodes n with
  | ind length ih =>
    cases items with
    | nil =>
      rw [statements_nil, ← ite_not] at h
      obtain ⟨hclose, rfl, rfl⟩ := ends_of_ite h
      exact .nothing hclose
    | cons l ls =>
      have hdrop : ∀ k, (ls.drop k).length < length := by
        intro k
        rw [← hlength, List.length_drop, List.length_cons]
        omega
      cases role l.item with
      | eof hitem =>
        rw [statements_of_eof ls hitem, ← ite_not] at h
        obtain ⟨hclose, rfl, rfl⟩ := ends_of_ite h
        exact .eof ls hitem hclose
      | dedent hitem =>
        rw [statements_of_dedent ls hitem] at h
        obtain ⟨rfl, rfl, rfl⟩ := ends_of_ite h
        exact .dedent ls hitem
      | closeBrace hitem =>
        rw [statements_of_closeBrace ls hitem] at h
        obtain ⟨rfl, rfl, rfl⟩ := ends_of_ite h
        exact .closeBrace ls hitem
      | blank hitem =>
        rw [statements_of_blank ls hitem] at h
        obtain ⟨⟨nodes', m⟩, hrest, heq⟩ := bind_eq_ok h
        obtain ⟨rfl, rfl⟩ := Prod.mk.inj (Except.ok.inj heq)
        exact .blank hitem (ih _ (hdrop 0) hrest rfl)
      | indent hitem =>
        rw [statements_of_indent ls hitem] at h
        obtain ⟨⟨children, k⟩, hbody, hnext⟩ := bind_eq_ok h
        obtain ⟨⟨nodes', m⟩, hrest, heq⟩ := bind_eq_ok hnext
        obtain ⟨rfl, rfl⟩ := Prod.mk.inj (Except.ok.inj heq)
        exact .block hitem (ih _ (hdrop 0) hbody rfl) (ih _ (hdrop k) hrest rfl)
      | statement hstarts =>
        rw [statements_of_starts ls hstarts] at h
        split at h
        · next node k hopening =>
          obtain ⟨⟨nodes', m⟩, hrest, heq⟩ := bind_eq_ok h
          obtain ⟨rfl, rfl⟩ := Prod.mk.inj (Except.ok.inj heq)
          exact .complete hstarts hopening (ih _ (hdrop k) hrest rfl)
        · next selector inner k hopening =>
          obtain ⟨⟨children, j⟩, hbody, hnext⟩ := bind_eq_ok h
          obtain ⟨⟨nodes', m⟩, hrest, heq⟩ := bind_eq_ok hnext
          obtain ⟨rfl, rfl⟩ := Prod.mk.inj (Except.ok.inj heq)
          exact .rule hstarts hopening (ih _ (hdrop k) hbody rfl) (ih _ (hdrop (k + j)) hrest rfl)

theorem statements_eq_ok_iff :
    statements lastLine close items = .ok (nodes, n) ↔ Reads close items nodes n :=
  ⟨reads_of_statements, statements_of_reads⟩

theorem parseItems_eq_ok_iff : parseItems items = .ok nodes ↔ ∃ n, Reads .eof items nodes n := by
  unfold parseItems
  constructor
  · intro h
    cases hread : statements ((items.getLast?.map Located.line).getD 0) .eof items with
    | error e => rw [hread] at h; cases h
    | ok answer =>
      rw [hread] at h
      obtain rfl : answer.1 = nodes := Except.ok.inj h
      exact ⟨answer.2, reads_of_statements hread⟩
  · rintro ⟨n, hreads⟩
    rw [statements_of_reads hreads]
    rfl

end Syntax

end StyleWeave
