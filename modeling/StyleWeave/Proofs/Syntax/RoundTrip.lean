import StyleWeave.Proofs.Syntax.Operands
import StyleWeave.Proofs.Syntax.Statements
import StyleWeave.Scope

/-!
# Parsing undoes printing

A printed tree is read as the tree, whatever the styles of its blocks. Only the places of its
imports are others (`parse_print`).
-/

namespace StyleWeave

/-! ## Trees without places -/

/-- An import statement without its place. -/
def Import.unplaced (statement : Import) : Import :=
  { statement with line := 0, start := 0, stop := 0 }

namespace Node

mutual

/-- A tree without the places of its import statements. -/
def unplaced : Node → Node
  | block children => .block (unplacedAll children)
  | rule selector children => .rule selector (unplacedAll children)
  | importing statement => .importing statement.unplaced
  | assign name op value => .assign name op value
  | declaration text => .declaration text

def unplacedAll : List Node → List Node
  | [] => []
  | node :: rest => node.unplaced :: unplacedAll rest

end

theorem unplacedAll_append (nodes more : List Node) :
    unplacedAll (nodes ++ more) = unplacedAll nodes ++ unplacedAll more := by
  induction nodes with
  | nil => rfl
  | cons node rest ih => rw [List.cons_append, unplacedAll, ih, unplacedAll, List.cons_append]

theorem unplacedAll_eq_map (nodes : List Node) : unplacedAll nodes = nodes.map unplaced := by
  induction nodes with
  | nil => rfl
  | cons node rest ih => rw [unplacedAll, ih, List.map_cons]

end Node

namespace Syntax

variable {items items' : List Item} {nodes nodes' : List Node}

/-- In front of everything but a deeper indentation, the items are read as the nodes. -/
def ReadAs (items : List Item) (nodes : List Node) : Prop :=
  ∀ ⦃close : BlockEnd⦄ ⦃xs tail : List Located⦄ ⦃more : List Node⦄ ⦃m : Nat⦄,
    xs.map Located.item = items → tail.head?.map Located.item ≠ some .indent →
    Reads close tail more m →
    ∃ read, Reads close (xs ++ tail) (read ++ more) (xs.length + m) ∧
      Node.unplacedAll read = nodes

theorem ReadAs.nil : ReadAs [] [] := by
  intro close xs tail more m hxs _ htail
  obtain rfl := List.map_eq_nil_iff.1 hxs
  refine ⟨[], ?_, rfl⟩
  rw [List.length_nil, Nat.zero_add]
  exact htail

theorem ReadAs.append (h : ReadAs items nodes) (h' : ReadAs items' nodes')
    (hstart : items'.head? ≠ some .indent) : ReadAs (items ++ items') (nodes ++ nodes') := by
  intro close xs tail more m hxs hnot htail
  obtain ⟨as, bs, rfl, has, hbs⟩ := List.map_eq_append_iff.1 hxs
  obtain ⟨read', hreads', hnodes'⟩ := h' hbs hnot htail
  have hnext : (bs ++ tail).head?.map Located.item ≠ some .indent := by
    cases bs with
    | nil => exact hnot
    | cons b bs =>
      rw [← hbs] at hstart
      exact hstart
  obtain ⟨read, hreads, hnodes⟩ := h has hnext hreads'
  refine ⟨read ++ read', ?_, by rw [Node.unplacedAll_append, hnodes, hnodes']⟩
  rw [List.append_assoc, List.append_assoc, List.length_append, Nat.add_assoc]
  exact hreads

/-! ## Headings -/

variable {l : Located} {ls : List Located} {word : Word} {n : Nat}

theorem heading_word (h : l.item = .token word.token) {lead : Heading}
    (hrest : heading 0 ls = ([], lead, n)) :
    heading 0 (l :: ls) = ([word.token.text], lead, n + 1) := by
  cases word with
  | ident name valid | atRule name valid =>
    rw [heading.eq_def]
    simp only [h, Word.token, hrest]

theorem headed_word (h : l.item = .token word.token)
    (hassign : (ls.head?.bind fun next => assignOp? next.item) = none) : Headed l ls := by
  refine ⟨fun kind => ?_, fun _ _ => hassign⟩
  rw [h]
  cases word <;> cases kind <;> simp [Word.token, ImportKind.token]

theorem opening_declaration (h : l.item = .token word.token)
    (hassign : (ls.head?.bind fun next => assignOp? next.item) = none)
    (hrest : heading 0 ls = ([], .declaration, n)) :
    opening l ls = (.complete (.declaration word.token.text), n) :=
  opening_eq_iff.2 (.declaration (headed_word h hassign) (heading_word h hrest))

theorem opening_block (h : l.item = .token word.token)
    (hassign : (ls.head?.bind fun next => assignOp? next.item) = none) {close : BlockEnd}
    (hrest : heading 0 ls = ([], .block close, n)) :
    opening l ls = (.before word.token.text close, n) :=
  opening_eq_iff.2 (.block (headed_word h hassign) (heading_word h hrest))

theorem startsStatement_word (h : l.item = .token word.token) :
    startsStatement l.item = true := by
  rw [h]
  cases word <;> rfl

/-! ## Statements -/

/-- Statements of one line: the reader takes their items up to the line break. -/
theorem readAs_line {t : Token} {body : List Item} {node : Node}
    (hstart : startsStatement (.token t) = true)
    (h : ∀ (l : Located) (xs tail : List Located), l.item = .token t →
      xs.map Located.item = body → startsWith .newline tail = true →
      ∃ read, opening l (xs ++ tail) = (.complete read, xs.length) ∧ read.unplaced = node) :
    ReadAs (.token t :: (body ++ [.token .newline])) [node] := by
  intro close xs tail more m hxs _ htail
  obtain ⟨l, ls, rfl, hl, hls⟩ := List.map_eq_cons_iff.1 hxs
  obtain ⟨as, bs, rfl, has, hbs⟩ := List.map_eq_append_iff.1 hls
  obtain ⟨r, rfl, hr⟩ := List.map_eq_singleton_iff.1 hbs
  obtain ⟨read, hopening, hnode⟩ := h l as (r :: tail) hl has (startsWith_of_item hr)
  have hbreak : Reads close ((as ++ r :: tail).drop as.length) more (m + 1) := by
    rw [List.drop_left' rfl]
    exact .blank (Or.inl hr) htail
  have hread := Reads.complete (hl ▸ hstart) hopening hbreak
  refine ⟨[read], ?_, by rw [Node.unplacedAll, hnode]; rfl⟩
  have hcount : 1 + as.length + (m + 1) = (l :: (as ++ [r])).length + m := by
    rw [List.length_cons, List.length_append, List.length_singleton]
    omega
  rw [hcount] at hread
  have htext : l :: (as ++ [r]) ++ tail = l :: (as ++ r :: tail) := by simp
  rw [htext]
  exact hread

/-- A line break ends expressions and statements. -/
theorem ends_of_newline {tail : List Located} (h : startsWith .newline tail = true) :
    atEnd tail = true ∧ statementRest tail = 0 ∧ count .semicolon tail = 0 := by
  cases tail with
  | nil => cases h
  | cons l ls =>
    have hl : l.item = .token .newline := by simpa [startsWith] using h
    simp [atEnd, endsExpr, statementRest, count, startsWith, hl, endsStatement]

theorem readAs_importing (kind : ImportKind) {e : Expr} {es : List Expr}
    (h : ∀ e' ∈ e :: es, e'.Printable) :
    ReadAs (.token kind.token :: (Expr.itemsOfAll (e :: es) ++ [.token .newline]))
      [.importing ⟨kind, e :: es, 0, 0, 0⟩] := by
  refine readAs_line (by cases kind <;> rfl) fun l xs tail hl hxs htail => ?_
  have hexprs := expressions_of_printable h hxs htail
  obtain ⟨-, hrest, hsemicolon⟩ := ends_of_newline htail
  have himport : (importing kind l (xs ++ tail)).2 = xs.length ∧
      (importing kind l (xs ++ tail)).1.unplaced = .importing ⟨kind, e :: es, 0, 0, 0⟩ := by
    unfold importing
    simp only [hexprs, List.drop_left' rfl, hrest, hsemicolon, Nat.add_zero]
    exact ⟨rfl, rfl⟩
  refine ⟨(importing kind l (xs ++ tail)).1, ?_, himport.2⟩
  rw [opening_import kind _ hl, himport.1]

theorem readAs_assign {name : String} (op : AssignOp) {value : Expr} (h : value.Printable) :
    ReadAs (.token (.ident name) :: .token op.token :: (value.items ++ [.token .newline]))
      [.assign name op value] := by
  have hline : ReadAs
      (.token (.ident name) :: ((.token op.token :: value.items) ++ [.token .newline]))
      [.assign name op value] := by
    have hstart : startsStatement (.token (.ident name)) = true := rfl
    refine readAs_line hstart fun l xs tail hl hxs htail => ?_
    obtain ⟨o, vs, rfl, ho, hvs⟩ := List.map_eq_cons_iff.1 hxs
    obtain ⟨hend, hrest, -⟩ := ends_of_newline htail
    have hvalue := expression_of_printable h hvs hend
    have hop : assignOp? o.item = some op := by
      rw [ho]
      cases op <;> rfl
    have hassign : assignment name op (vs ++ tail) = (.assign name op value, vs.length) := by
      unfold assignment
      rw [hvalue]
      dsimp only
      rw [List.drop_left' rfl, hrest, Nat.add_zero]
    refine ⟨.assign name op value, ?_, rfl⟩
    rw [List.cons_append, opening_assign _ hl hop, hassign, Nat.add_comm, List.length_cons]
  exact hline

theorem readAs_declaration (word : Word) :
    ReadAs [.token word.token, .token .newline] [.declaration word.token.text] := by
  intro close xs tail more m hxs hnot htail
  obtain ⟨l, ls, rfl, hl, hls⟩ := List.map_eq_cons_iff.1 hxs
  obtain ⟨r, rfl, hr⟩ := List.map_eq_singleton_iff.1 hls
  have hheading : heading 0 (r :: tail) = ([], .declaration, 1) := by
    rw [heading.eq_def]
    simp [hr, hnot]
  have hassign : ((r :: tail).head?.bind fun next => assignOp? next.item) = none := by
    simp [hr, assignOp?]
  have hopening := opening_declaration hl hassign hheading
  have hread := Reads.complete (startsStatement_word hl) hopening
    (show Reads close ((r :: tail).drop 1) more m from htail)
  have hcount : 1 + 1 + m = [l, r].length + m := rfl
  rw [hcount] at hread
  exact ⟨[.declaration word.token.text], hread, rfl⟩

/-! ## Blocks -/

theorem readAs_braced (word : Word) {body : List Item} {children : List Node}
    (h : ReadAs body children) :
    ReadAs (.token word.token :: .token .openBrace :: .token .newline ::
      (body ++ [.token .closeBrace, .token .newline])) [.rule word.token.text children] := by
  intro close xs tail more m hxs _ htail
  obtain ⟨l, ls, rfl, hl, hls⟩ := List.map_eq_cons_iff.1 hxs
  obtain ⟨b, bs, rfl, hb, hbs⟩ := List.map_eq_cons_iff.1 hls
  obtain ⟨r, rs, rfl, hr, hrs⟩ := List.map_eq_cons_iff.1 hbs
  obtain ⟨inside, behind, rfl, hinside, hbehind⟩ := List.map_eq_append_iff.1 hrs
  obtain ⟨d, ds, rfl, hd, hds⟩ := List.map_eq_cons_iff.1 hbehind
  obtain ⟨r', rfl, hr'⟩ := List.map_eq_singleton_iff.1 hds
  have hheading : heading 0 (b :: r :: (inside ++ d :: r' :: tail)) = ([], .block .brace, 1) := by
    rw [heading.eq_def]
    simp [hb]
  have hassign : ((b :: r :: (inside ++ d :: r' :: tail)).head?.bind
      fun next => assignOp? next.item) = none := by
    simp [hb, assignOp?]
  have hopening := opening_block hl hassign hheading
  have hclose : Reads .brace (d :: r' :: tail) [] 1 := .closeBrace _ hd
  obtain ⟨read, hreads, hnodes⟩ := h hinside (by simp [hd]) hclose
  rw [List.append_nil] at hreads
  have hbody : Reads .brace ((b :: r :: (inside ++ d :: r' :: tail)).drop 1) read
      (inside.length + 1 + 1) := .blank (Or.inl hr) hreads
  have hothers : Reads close
      ((b :: r :: (inside ++ d :: r' :: tail)).drop (1 + (inside.length + 1 + 1))) more
      (m + 1) := by
    have hdrop : (b :: r :: (inside ++ d :: r' :: tail)).drop (1 + (inside.length + 1 + 1)) =
        r' :: tail := by
      rw [Nat.add_comm, List.drop_succ_cons, List.drop_succ_cons]
      rw [show inside ++ d :: r' :: tail = (inside ++ [d]) ++ r' :: tail by simp]
      exact List.drop_left' (by simp)
    rw [hdrop]
    exact .blank (Or.inl hr') htail
  have hread := Reads.rule (startsStatement_word hl) hopening hbody hothers
  refine ⟨[.rule word.token.text read], ?_, by rw [Node.unplacedAll, Node.unplaced, hnodes]; rfl⟩
  have hcount : 1 + 1 + (inside.length + 1 + 1) + (m + 1) =
      (l :: b :: r :: (inside ++ [d, r'])).length + m := by
    simp
    omega
  rw [hcount] at hread
  have htext : l :: b :: r :: (inside ++ [d, r']) ++ tail =
      l :: b :: r :: (inside ++ d :: r' :: tail) := by simp
  rw [htext]
  exact hread

theorem readAs_indented (word : Word) {body : List Item} {children : List Node}
    (h : ReadAs body children) :
    ReadAs (.token word.token :: .token .newline :: .indent :: (body ++ [.dedent]))
      [.rule word.token.text children] := by
  intro close xs tail more m hxs _ htail
  obtain ⟨l, ls, rfl, hl, hls⟩ := List.map_eq_cons_iff.1 hxs
  obtain ⟨r, rs, rfl, hr, hrs⟩ := List.map_eq_cons_iff.1 hls
  obtain ⟨i, is, rfl, hi, his⟩ := List.map_eq_cons_iff.1 hrs
  obtain ⟨inside, behind, rfl, hinside, hbehind⟩ := List.map_eq_append_iff.1 his
  obtain ⟨d, rfl, hd⟩ := List.map_eq_singleton_iff.1 hbehind
  have hheading : heading 0 (r :: i :: (inside ++ d :: tail)) = ([], .block .dedent, 2) := by
    rw [heading.eq_def]
    simp [hr, hi]
  have hassign : ((r :: i :: (inside ++ d :: tail)).head?.bind
      fun next => assignOp? next.item) = none := by
    simp [hr, assignOp?]
  have hopening := opening_block hl hassign hheading
  have hclose : Reads .dedent (d :: tail) [] 1 := .dedent _ hd
  obtain ⟨read, hreads, hnodes⟩ := h hinside (by simp [hd]) hclose
  rw [List.append_nil] at hreads
  have hothers : Reads close
      ((r :: i :: (inside ++ d :: tail)).drop (2 + (inside.length + 1))) more m := by
    have hdrop : (r :: i :: (inside ++ d :: tail)).drop (2 + (inside.length + 1)) = tail := by
      rw [Nat.add_comm, List.drop_succ_cons, List.drop_succ_cons]
      rw [show inside ++ d :: tail = (inside ++ [d]) ++ tail by simp]
      exact List.drop_left' (by simp)
    rw [hdrop]
    exact htail
  have hread := Reads.rule (startsStatement_word hl) hopening hreads hothers
  refine ⟨[.rule word.token.text read], ?_, by rw [Node.unplacedAll, Node.unplaced, hnodes]; rfl⟩
  have hcount : 1 + 2 + (inside.length + 1) + m =
      (l :: r :: i :: (inside ++ [d])).length + m := by
    simp
    omega
  rw [hcount] at hread
  have htext : l :: r :: i :: (inside ++ [d]) ++ tail = l :: r :: i :: (inside ++ d :: tail) := by
    simp
  rw [htext]
  exact hread

end Syntax

namespace Stmt

open Syntax (ReadAs)

theorem head_itemsOfAll (inside : Bool) (tree : List Stmt) :
    (itemsOfAll inside tree).head? ≠ some .indent := by
  cases tree with
  | nil => simp [itemsOfAll]
  | cons s rest =>
    cases s with
    | importing kind first others | assign name op value | declaration word =>
      simp [itemsOfAll, items]
    | rule selector style first others =>
      rw [itemsOfAll, items]
      split <;> simp

mutual

/-- The items of a statement are read as the statement. -/
theorem readAs (s : Stmt) (inside : Bool) : ReadAs (s.items inside) [s.node] := by
  cases s with
  | importing kind first others =>
    refine Syntax.readAs_importing kind fun e he => ?_
    rcases List.mem_cons.1 he with rfl | he
    · exact first.2
    · obtain ⟨e', -, rfl⟩ := List.mem_map.1 he
      exact e'.2
  | assign name op value => exact Syntax.readAs_assign op value.2
  | declaration word => exact Syntax.readAs_declaration word
  | rule selector style first others =>
    have hbody : ∀ inside, ReadAs (first.items inside ++ itemsOfAll inside others)
        ([first.node] ++ nodes others) := fun inside =>
      (first.readAs inside).append (readAs_all others inside) (head_itemsOfAll inside others)
    rw [items]
    split
    · exact Syntax.readAs_braced selector (hbody true)
    · exact Syntax.readAs_indented selector (hbody false)

theorem readAs_all (tree : List Stmt) (inside : Bool) :
    ReadAs (itemsOfAll inside tree) (nodes tree) := by
  cases tree with
  | nil => exact ReadAs.nil
  | cons s rest =>
    exact (s.readAs inside).append (readAs_all rest inside) (head_itemsOfAll inside rest)

end

theorem nodes_eq_map (tree : List Stmt) : nodes tree = tree.map node := by
  induction tree with
  | nil => rfl
  | cons s rest ih => rw [nodes, ih, List.map_cons]

end Stmt

/-! ## Import statements -/

/-- An import without its place. -/
def ImportSite.unplaced (site : ImportSite) : ImportSite :=
  { site with statement := site.statement.unplaced }

namespace Node

variable (table : Table)

mutual

theorem sites_unplaced (node : Node) (scope : Scope) :
    node.unplaced.sites table scope =
      ((node.sites table scope).1.map ImportSite.unplaced, (node.sites table scope).2) := by
  cases node with
  | block children | rule _ children =>
    rw [unplaced, sites, sites, sitesOfAll_unplaced children scope]
  | importing statement => rfl
  | assign name op value => rfl
  | declaration text => rfl

theorem sitesOfAll_unplaced (nodes : List Node) (scope : Scope) :
    sitesOfAll table scope (unplacedAll nodes) =
      ((sitesOfAll table scope nodes).1.map ImportSite.unplaced,
        (sitesOfAll table scope nodes).2) := by
  cases nodes with
  | nil => rfl
  | cons node rest =>
    rw [unplacedAll, sitesOfAll, sitesOfAll, sites_unplaced node scope]
    dsimp only
    rw [sitesOfAll_unplaced rest, List.map_append]

end

end Node

theorem importSites_unplaced (nodes : List Node) (table : Table) :
    importSites (nodes.map Node.unplaced) table =
      (importSites nodes table).map ImportSite.unplaced := by
  rw [← Node.unplacedAll_eq_map, importSites, Node.sitesOfAll_unplaced]
  rfl

/-! ## Documents -/

theorem parse_print_eq (tree : List Stmt) :
    ∃ nodes, parse (print tree) = .ok nodes ∧ nodes.map Node.unplaced = tree.map Stmt.node := by
  obtain ⟨located, htokenize, hitems⟩ := scans_printed tree
  obtain ⟨xs, eof, rfl, hxs, heof⟩ := List.map_eq_append_iff.1 hitems
  obtain ⟨l, rfl, hl⟩ := List.map_eq_singleton_iff.1 heof
  have hend : Syntax.Reads .eof [l] [] 0 := .eof [] hl (by decide)
  obtain ⟨nodes, hreads, hnodes⟩ := Stmt.readAs_all tree false hxs (by simp [hl]) hend
  rw [List.append_nil] at hreads
  refine ⟨nodes, ?_, ?_⟩
  · rw [parse, htokenize]
    show Syntax.parseItems (xs ++ [l]) = .ok nodes
    rw [Syntax.parseItems, Syntax.statements_of_reads hreads]
    rfl
  · rw [← Node.unplacedAll_eq_map, hnodes, Stmt.nodes_eq_map]

/-- Parsing undoes printing: a printed tree is parsed as the tree, up to the places of its imports.
So however the blocks of a tree are printed, it is parsed as the same tree, with the same
imports. -/
theorem parse_print (tree : List Stmt) :
    (∃ nodes, parse (print tree) = .ok nodes ∧ nodes.map Node.unplaced = tree.map Stmt.node) ∧
    ∀ tree' : List Stmt, tree'.map Stmt.node = tree.map Stmt.node →
      ∃ nodes nodes', parse (print tree) = .ok nodes ∧ parse (print tree') = .ok nodes' ∧
        nodes'.map Node.unplaced = nodes.map Node.unplaced ∧
        ∀ table, (importSites nodes' table).map ImportSite.unplaced =
          (importSites nodes table).map ImportSite.unplaced := by
  obtain ⟨nodes, hparse, hnodes⟩ := parse_print_eq tree
  refine ⟨⟨nodes, hparse, hnodes⟩, fun tree' hsame => ?_⟩
  obtain ⟨nodes', hparse', hnodes'⟩ := parse_print_eq tree'
  have halike : nodes'.map Node.unplaced = nodes.map Node.unplaced := by
    rw [hnodes', hsame, hnodes]
  refine ⟨nodes, nodes', hparse, hparse', halike, fun table => ?_⟩
  rw [← importSites_unplaced, ← importSites_unplaced, halike]

/-- A tree whose two blocks are printed in one style. -/
def nestedBlocks (style : Style) : List Stmt :=
  [.rule (.ident "a" (by decide)) style
    (.rule (.ident "b" (by decide)) style
      (.importing .import_ ⟨.literal "c\"", .literal (by decide)⟩ []) []) []]

theorem parse_print_nestedBlocks :
    print (nestedBlocks .indented) = "a\n  b\n    @import \"c\\\"\"\n".toList ∧
    print (nestedBlocks (.braced 2)) =
      "a \x7b\n  b \x7b\n    @import \"c\\\"\"\n  \x7d\n\x7d\n".toList ∧
    ∃ nodes nodes', parse (print (nestedBlocks .indented)) = .ok nodes ∧
      parse (print (nestedBlocks (.braced 2))) = .ok nodes' ∧
      nodes'.map Node.unplaced = nodes.map Node.unplaced := by
  refine ⟨by decide, by decide, ?_⟩
  obtain ⟨nodes, nodes', hindented, hbraced, halike, -⟩ :=
    (parse_print (nestedBlocks .indented)).2 (nestedBlocks (.braced 2)) rfl
  exact ⟨nodes, nodes', hindented, hbraced, halike⟩

end StyleWeave
