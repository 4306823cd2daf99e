import StyleWeave.Proofs.Syntax.Statements
import StyleWeave.Proofs.Text.Solid
import StyleWeave.Proofs.Token.OneLine
import StyleWeave.Scope

/-!
# Names on one line

The literals of a document have no line feeds, so the names of its imports have none either, unless
the variable table puts one into them (`named_of_parse`).
-/

namespace StyleWeave

/-- No literal in the expression has a line feed. -/
inductive Expr.OneLine : Expr → Prop where
  | literal {text : String} (h : StyleWeave.OneLine text) : Expr.OneLine (.literal text)
  | concat {left right : Expr} (hleft : left.OneLine) (hright : right.OneLine) :
      Expr.OneLine (.concat left right)
  | ident (name : String) : Expr.OneLine (.ident name)
  | call {function : String} {args : List Expr} (h : ∀ arg ∈ args, Expr.OneLine arg) :
      Expr.OneLine (.call function args)
  | unknown : Expr.OneLine .unknown

namespace Syntax

/-- No token text of the items has a line feed. -/
def Plain (items : List Located) : Prop :=
  ∀ i ∈ items, ∀ t, i.item = .token t → t.OneLine

variable {items : List Located}

theorem Plain.tail {l : Located} (h : Plain (l :: items)) : Plain items :=
  fun i hi => h i (List.mem_cons_of_mem _ hi)

theorem Plain.drop (h : Plain items) (n : Nat) : Plain (items.drop n) :=
  fun i hi => h i (List.mem_of_mem_drop hi)

theorem oneLine_urlTarget {s : String} (h : OneLine s) : OneLine (urlTarget s) := by
  have hend : ∀ (p : Char → Bool) (cs : List Char), Text.dropEndWhile p cs ⊆ cs := by
    intro p cs c hc
    have hmem := (List.dropWhile_suffix p).subset (List.mem_reverse.1 hc)
    exact List.mem_reverse.1 hmem
  unfold urlTarget
  rw [oneLine_ofList]
  intro hfeed
  have hinside := (List.dropWhile_suffix _).subset (hend _ _ hfeed)
  have htrim := (Text.trim_infix _).subset hinside
  exact h (List.mem_of_mem_drop (List.dropLast_subset _ htrim))

mutual

theorem oneLine_primary (items : List Located) (h : Plain items) : (primary items).1.OneLine := by
  rw [primary.eq_def]
  match items with
  | [] => exact .unknown
  | l :: ls =>
    dsimp only
    split
    · next s hs => exact .literal (h l List.mem_cons_self _ hs)
    · next s hs => exact .literal (h l List.mem_cons_self _ hs)
    · next s hs =>
      refine .call fun arg harg => ?_
      rw [List.mem_singleton.1 harg]
      exact .literal (oneLine_urlTarget (h l List.mem_cons_self _ hs))
    · next name hname =>
      split
      · exact .call (oneLine_arguments (ls.drop 1) (h.tail.drop 1))
      · exact .ident name
    · split
      · exact oneLine_expression ls h.tail
      · exact .unknown
    · exact .unknown
termination_by 4 * items.length
decreasing_by all_goals (simp only [List.length_cons, List.length_drop]; omega)

theorem oneLine_sum (left : Expr) (items : List Located) (hleft : left.OneLine) (h : Plain items) :
    (sum left items).1.OneLine := by
  rw [sum.eq_def]
  match items with
  | [] => exact hleft
  | l :: ls =>
    dsimp only
    split
    · have hright := oneLine_primary ls h.tail
      exact oneLine_sum _ _ (.concat hleft hright) (h.tail.drop _)
    · exact hleft
termination_by 4 * items.length
decreasing_by all_goals (simp only [List.length_cons, List.length_drop]; omega)

theorem oneLine_expression (items : List Located) (h : Plain items) :
    (expression items).1.OneLine := by
  have hfirst := oneLine_primary items h
  have hsum := oneLine_sum _ _ hfirst (h.drop (primary items).2)
  rw [expression.eq_def]
  dsimp only
  split
  · exact hsum
  · split
    · next s name he _ =>
      rw [he] at hsum
      exact hsum
    · exact .unknown
termination_by 4 * items.length + 1
decreasing_by
  · omega
  · simp only [List.length_drop]; omega

theorem oneLine_arguments (items : List Located) (h : Plain items) :
    ∀ arg ∈ (arguments items).1, arg.OneLine := by
  rw [arguments.eq_def]
  match items with
  | [] => exact fun arg harg => by cases harg
  | l :: ls =>
    dsimp only
    split
    · exact fun arg harg => by cases harg
    · exact fun arg harg => by cases harg
    · exact fun arg harg => by cases harg
    · exact oneLine_arguments ls h.tail
    · exact oneLine_arguments ls h.tail
    · intro arg harg
      rcases List.mem_cons.1 harg with rfl | harg
      · exact oneLine_expression (l :: ls) h
      · exact oneLine_arguments _ (h.tail.drop _) arg harg
termination_by 4 * items.length + 2
decreasing_by all_goals (simp only [List.length_cons, List.length_drop]; omega)

end

theorem oneLine_expressions (items : List Located) (h : Plain items) :
    ∀ expr ∈ (expressions items).1, expr.OneLine := by
  have hfirst := oneLine_expression items h
  rw [expressions.eq_def]
  dsimp only
  split
  · intro expr hexpr
    rw [List.mem_singleton.1 hexpr]
    exact hfirst
  · next l ls hdrop =>
    split
    · intro expr hexpr
      rcases List.mem_cons.1 hexpr with rfl | hexpr
      · exact hfirst
      · have hrest : Plain ls := by
          have htail := h.drop (expression items).2
          rw [hdrop] at htail
          exact htail.tail
        have hshorter : (ls.drop (afterComma ls).1).length < items.length := by
          have hlength := congrArg List.length hdrop
          simp only [List.length_drop, List.length_cons] at hlength ⊢
          omega
        exact oneLine_expressions _ (hrest.drop _) expr hexpr
    · intro expr hexpr
      rw [List.mem_singleton.1 hexpr]
      exact hfirst
termination_by items.length
decreasing_by assumption

/-! ## Statements -/

end Syntax

/-- No literal in the expressions of the statement has a line feed. -/
inductive Node.OneLine : Node → Prop where
  | block {children : List Node} (h : ∀ child ∈ children, Node.OneLine child) :
      Node.OneLine (.block children)
  | rule (selector : String) {children : List Node} (h : ∀ child ∈ children, Node.OneLine child) :
      Node.OneLine (.rule selector children)
  | importing {statement : Import} (h : ∀ expr ∈ statement.exprs, expr.OneLine) :
      Node.OneLine (.importing statement)
  | assign (name : String) (op : AssignOp) {value : Expr} (h : value.OneLine) :
      Node.OneLine (.assign name op value)
  | declaration (text : String) : Node.OneLine (.declaration text)

namespace Syntax

theorem oneLine_importing (kind : ImportKind) (l : Located) {ls : List Located} (h : Plain ls) :
    (importing kind l ls).1.OneLine :=
  .importing (oneLine_expressions ls h)

theorem oneLine_opening {l : Located} {ls : List Located} {node : Node} {n : Nat}
    (h : Plain (l :: ls)) (hopening : opening l ls = (.complete node, n)) : node.OneLine := by
  rcases opening_complete hopening with ⟨kind, -, himport⟩ | ⟨name, op, rfl⟩ | ⟨text, rfl⟩
  · obtain ⟨rfl, rfl⟩ := Prod.mk.inj himport
    exact oneLine_importing kind l h.tail
  · exact .assign _ op (oneLine_expression _ (h.tail.drop 1))
  · exact .declaration _

theorem Reads.oneLine {close : BlockEnd} {nodes : List Node} {n : Nat} {items : List Located}
    (h : Reads close items nodes n) (hplain : Plain items) : ∀ node ∈ nodes, node.OneLine := by
  induction h with
  | nothing | eof | dedent | closeBrace => intro node hnode; cases hnode
  | blank _ _ ih => exact ih hplain.tail
  | block _ _ _ ihInner ihOthers =>
    intro node hnode
    rcases List.mem_cons.1 hnode with rfl | hnode
    · exact .block (ihInner hplain.tail)
    · exact ihOthers (hplain.tail.drop _) node hnode
  | complete _ statement _ ih =>
    intro node hnode
    rcases List.mem_cons.1 hnode with rfl | hnode
    · exact oneLine_opening hplain statement
    · exact ih (hplain.tail.drop _) node hnode
  | rule _ _ _ _ ihBody ihOthers =>
    intro node hnode
    rcases List.mem_cons.1 hnode with rfl | hnode
    · exact .rule _ (ihBody (hplain.tail.drop _))
    · exact ihOthers (hplain.tail.drop _) node hnode

end Syntax

theorem oneLine_of_parse {cs : List Char} {document : List Node} (h : parse cs = .ok document) :
    ∀ node ∈ document, node.OneLine := by
  obtain ⟨items, htokens, hparse⟩ := bind_eq_ok h
  obtain ⟨n, hreads⟩ := Syntax.parseItems_eq_ok_iff.1 hparse
  exact hreads.oneLine (oneLine_of_tokenize htokens)

/-! ## Names -/

/-- All texts that variables have are on one line. -/
def Scope.OneLine (scope : Scope) : Prop :=
  ∀ name text, scope.lookup name = some (some text) → StyleWeave.OneLine text

/-- All texts of the table are on one line. -/
def Table.OneLine (table : Table) : Prop :=
  ∀ name text, table.find? name = some text → StyleWeave.OneLine text

section

variable {table : Table} {scope : Scope}

theorem Expr.OneLine.eval (htable : Table.OneLine table) (hscope : scope.OneLine) {expr : Expr}
    (h : expr.OneLine) {text : String} (heval : expr.eval scope table = some text) :
    StyleWeave.OneLine text := by
  induction h generalizing text with
  | literal h =>
    rw [← Option.some.inj heval]
    exact h
  | @concat left right _ _ ihLeft ihRight =>
    obtain ⟨s, hs, heval⟩ := Option.bind_eq_some_iff.1 heval
    obtain ⟨t, ht, heval⟩ := Option.bind_eq_some_iff.1 heval
    rw [← Option.some.inj heval]
    exact (ihLeft hs).append (ihRight ht)
  | ident name =>
    rw [Expr.eval] at heval
    cases hlookup : scope.lookup name with
    | none =>
      rw [hlookup, Option.getD_none] at heval
      exact htable name text heval
    | some value =>
      rw [hlookup, Option.getD_some] at heval
      subst heval
      exact hscope name text hlookup
  | call | unknown => cases heval

theorem Scope.OneLine.assign (htable : Table.OneLine table) (hscope : scope.OneLine)
    (name : String) (op : AssignOp) {value : Expr} (h : value.OneLine) :
    (scope.assign table name op value).OneLine := by
  unfold Scope.assign
  split
  · exact hscope
  · intro other text hlookup
    rw [List.lookup_cons] at hlookup
    split at hlookup
    · exact h.eval htable hscope (Option.some.inj hlookup)
    · exact hscope other text hlookup

/-- No text that the statement imports by has a line feed. -/
def ImportSite.OneLine (site : ImportSite) : Prop :=
  (∀ expr ∈ site.statement.exprs, expr.OneLine) ∧
    ∀ text, some text ∈ site.names → StyleWeave.OneLine text

mutual

theorem Node.OneLine.sites (htable : Table.OneLine table) {scope : Scope} (hscope : scope.OneLine)
    (node : Node) (h : node.OneLine) :
    (∀ site ∈ (node.sites table scope).1, site.OneLine) ∧
      (node.sites table scope).2.OneLine := by
  match node, h with
  | .block children, .block hchildren =>
    exact ⟨(Node.OneLine.sitesOfAll htable hscope children hchildren).1, hscope⟩
  | .rule _ children, .rule _ hchildren =>
    exact ⟨(Node.OneLine.sitesOfAll htable hscope children hchildren).1, hscope⟩
  | .importing statement, .importing hexprs =>
    refine ⟨fun site hsite => ?_, hscope⟩
    rw [List.mem_singleton.1 hsite]
    refine ⟨hexprs, fun text htext => ?_⟩
    obtain ⟨expr, hexpr, heval⟩ := List.mem_map.1 htext
    exact (hexprs expr hexpr).eval htable hscope heval
  | .assign name op value, .assign _ _ hvalue =>
    exact ⟨fun site hsite => (List.not_mem_nil hsite).elim, hscope.assign htable name op hvalue⟩
  | .declaration _, .declaration _ =>
    exact ⟨fun site hsite => (List.not_mem_nil hsite).elim, hscope⟩

theorem Node.OneLine.sitesOfAll (htable : Table.OneLine table) {scope : Scope}
    (hscope : scope.OneLine) (nodes : List Node) (h : ∀ node ∈ nodes, node.OneLine) :
    (∀ site ∈ (Node.sitesOfAll table scope nodes).1, site.OneLine) ∧
      (Node.sitesOfAll table scope nodes).2.OneLine := by
  match nodes, h with
  | [], _ => exact ⟨fun site hsite => (List.not_mem_nil hsite).elim, hscope⟩
  | node :: rest, h =>
    obtain ⟨hhere, hscope'⟩ := Node.OneLine.sites htable hscope node (h node List.mem_cons_self)
    obtain ⟨hthere, hbehind⟩ := Node.OneLine.sitesOfAll htable hscope' rest
      fun other hother => h other (List.mem_cons_of_mem _ hother)
    refine ⟨fun site hsite => ?_, hbehind⟩
    rcases List.mem_append.1 hsite with hsite | hsite
    · exact hhere site hsite
    · exact hthere site hsite

end

/-- No text that a document imports by has a line feed, if no variable of the table has one. -/
theorem oneLine_importSites (htable : Table.OneLine table) {cs : List Char} {document : List Node}
    (h : parse cs = .ok document) : ∀ site ∈ importSites document table, site.OneLine := by
  have hempty : Scope.OneLine [] := by
    intro name text hlookup
    cases hlookup
  exact (Node.OneLine.sitesOfAll htable hempty document (oneLine_of_parse h)).1

end

end StyleWeave
