import StyleWeave.Proofs.Syntax.Spans

/-!
# What an import sees of its document

The path of an import is evaluated with what the statements in front of it bind, and with the table
for the rest. Only what is bound counts, and not by which of the two: so a text that is assigned
first might as well stand in the table (`importSites_assigned_first`). Of the blocks, only those
around the import count: what is bound in another one is forgotten where that ends
(`importSites_around_block`).
-/

namespace StyleWeave

namespace Dictionary

variable {α : Type}

theorem lookup_insertInto (key : String) (value : α) (entries : List (String × α)) (name : String) :
    (insertInto key value entries).lookup name =
      if name = key then some value else entries.lookup name := by
  induction entries with
  | nil =>
    unfold insertInto
    by_cases h : name = key
    · rw [h, List.lookup_cons_self, if_pos rfl]
    · rw [List.lookup_cons, beq_eq_false_iff_ne.2 h, if_neg h]
  | cons entry rest ih =>
    obtain ⟨k, v⟩ := entry
    unfold insertInto
    split
    · by_cases h : name = key
      · rw [h, List.lookup_cons_self, if_pos rfl]
      · rw [List.lookup_cons, beq_eq_false_iff_ne.2 h, if_neg h]
    · next heq =>
      obtain rfl : key = k := Std.LawfulEqCmp.eq_of_compare heq
      by_cases h : name = key
      · rw [h, List.lookup_cons_self, if_pos rfl]
      · rw [List.lookup_cons, List.lookup_cons, beq_eq_false_iff_ne.2 h, if_neg h]
    · next hgt =>
      have hne : key ≠ k := by
        rintro rfl
        have hself : compare key key = .eq := Std.ReflCmp.compare_self
        rw [hself] at hgt
        cases hgt
      rw [List.lookup_cons, List.lookup_cons, ih]
      by_cases h : name = key
      · subst h
        rw [beq_eq_false_iff_ne.2 hne, if_pos rfl]
      · rw [if_neg h, if_neg h]

/-- The key that was put in has its value, and each other the one that it had. -/
theorem find?_insert (d : Dictionary α) (key : String) (value : α) (name : String) :
    (d.insert key value).find? name = if name = key then some value else d.find? name :=
  lookup_insertInto key value d.entries name

end Dictionary

/-! ## What is bound -/

namespace Scope

/-- What a variable is bound to by the statements in front, or else by the table; it is bound to
nothing by an expression that is not known statically. -/
def binding? (scope : Scope) (table : Table) (name : String) : Option (Option String) :=
  (scope.lookup name).or ((table.find? name).map some)

/-- The same variables are bound to the same texts. -/
def Agrees (scope : Scope) (table : Table) (scope' : Scope) (table' : Table) : Prop :=
  ∀ name, scope.binding? table name = scope'.binding? table' name

variable {scope scope' : Scope} {table table' : Table}

theorem defines_eq_isSome (scope : Scope) (table : Table) (name : String) :
    scope.defines table name = (scope.binding? table name).isSome := by
  unfold defines binding? Dictionary.contains
  rw [Option.isSome_or, Option.isSome_map]

theorem eval_ident (scope : Scope) (table : Table) (name : String) :
    (Expr.ident name).eval scope table = (scope.binding? table name).join := by
  show (scope.lookup name).getD (table.find? name) = _
  unfold binding?
  cases scope.lookup name with
  | some text => rfl
  | none => cases table.find? name <;> rfl

theorem Agrees.eval (h : Agrees scope table scope' table') (e : Expr) :
    e.eval scope table = e.eval scope' table' := by
  induction e using Expr.eval.induct with
  | case1 text => rfl
  | case2 left right ihleft ihright =>
    rw [Expr.eval, Expr.eval, ihleft, ihright]
  | case3 name => rw [eval_ident, eval_ident, h name]
  | case4 function args => rfl
  | case5 => rfl

theorem binding?_cons (name : String) (value : Option String) (scope : Scope) (table : Table)
    (other : String) :
    binding? ((name, value) :: scope) table other =
      if other = name then some value else scope.binding? table other := by
  unfold binding?
  by_cases h : other = name
  · rw [h, List.lookup_cons_self, if_pos rfl]
    rfl
  · rw [List.lookup_cons, beq_eq_false_iff_ne.2 h, if_neg h]

/-- Assignments keep to what is bound. -/
theorem Agrees.assign (h : Agrees scope table scope' table') (name : String) (op : AssignOp)
    (value : Expr) :
    Agrees (scope.assign table name op value) table
      (scope'.assign table' name op value) table' := by
  unfold Scope.assign
  rw [defines_eq_isSome, defines_eq_isSome, h name, h.eval value]
  split
  · exact h
  · intro other
    rw [binding?_cons, binding?_cons, h other]

/-- A table entry in a scope of its own is as good as one in the table. -/
theorem agrees_insert (table : Table) (name text : String) :
    Agrees [(name, some text)] table [] (table.insert name text) := by
  intro other
  rw [binding?_cons]
  show _ = ((table.insert name text).find? other).map some
  rw [Dictionary.find?_insert]
  by_cases h : other = name
  · rw [if_pos h, if_pos h]
    rfl
  · rw [if_neg h, if_neg h]
    rfl

mutual

theorem Agrees.sites {scope scope' : Scope} (h : Agrees scope table scope' table') (node : Node) :
    (node.sites table scope).1 = (node.sites table' scope').1 ∧
      Agrees (node.sites table scope).2 table (node.sites table' scope').2 table' := by
  cases node with
  | block children | rule _ children =>
    have hinside := h.sitesOfAll children
    exact ⟨hinside.1, h⟩
  | importing statement =>
    have hnames : statement.exprs.map (Expr.eval scope table) =
        statement.exprs.map (Expr.eval scope' table') :=
      List.map_congr_left fun e _ => h.eval e
    refine ⟨?_, h⟩
    show [ImportSite.mk statement _] = [ImportSite.mk statement _]
    rw [hnames]
  | assign name op value => exact ⟨rfl, h.assign name op value⟩
  | declaration text => exact ⟨rfl, h⟩

theorem Agrees.sitesOfAll {scope scope' : Scope} (h : Agrees scope table scope' table')
    (nodes : List Node) :
    (Node.sitesOfAll table scope nodes).1 = (Node.sitesOfAll table' scope' nodes).1 ∧
      Agrees (Node.sitesOfAll table scope nodes).2 table
        (Node.sitesOfAll table' scope' nodes).2 table' := by
  cases nodes with
  | nil => exact ⟨rfl, h⟩
  | cons node rest =>
    obtain ⟨hhere, hbehind⟩ := h.sites node
    obtain ⟨hthere, hend⟩ := hbehind.sitesOfAll rest
    refine ⟨?_, hend⟩
    show (node.sites table scope).1 ++ _ = (node.sites table' scope').1 ++ _
    rw [hhere, hthere]

end

end Scope

/-- A text that a document assigns to a variable first might as well stand in the table, and so
might one that it assigns by `?=`, unless the table has one already. -/
theorem importSites_assigned_first (document : List Node) (table : Table) (name text : String) :
    importSites (.assign name .set (.literal text) :: document) table =
        importSites document (table.insert name text) ∧
      importSites (.assign name .default (.literal text) :: document) table =
        importSites document (if table.contains name then table else table.insert name text) := by
  have hbound : (Node.sitesOfAll table [(name, some text)] document).1 =
      importSites document (table.insert name text) :=
    ((Scope.agrees_insert table name text).sitesOfAll document).1
  have hassigned : ∀ op, importSites (.assign name op (.literal text) :: document) table =
      (Node.sitesOfAll table (Scope.assign [] table name op (.literal text)) document).1 :=
    fun op => List.nil_append _
  constructor
  · rw [hassigned]
    exact hbound
  · have hdefines : Scope.defines [] table name = table.contains name := rfl
    rw [hassigned, Scope.assign, hdefines]
    by_cases h : table.contains name = true
    · rw [if_pos (by simp [h]), if_pos h]
      rfl
    · rw [if_neg (by simp [h]), if_neg h]
      exact hbound

/-! ## Blocks -/

namespace Node

/-- A block under a selector, or one that stands alone. -/
def blockUnder : Option String → List Node → Node
  | none, children => block children
  | some selector, children => rule selector children

mutual

/-- The statements of each block in a statement, its own included. -/
def blocks : Node → List (List Node)
  | block children | rule _ children => children :: blocksOfAll children
  | importing _ | assign _ _ _ | declaration _ => []

/-- The statements of each block in some statements. -/
def blocksOfAll : List Node → List (List Node)
  | [] => []
  | node :: rest => node.blocks ++ blocksOfAll rest

end

theorem blocks_blockUnder (selector : Option String) (children : List Node) :
    (blockUnder selector children).blocks = children :: blocksOfAll children := by
  cases selector <;> rfl

theorem blocksOfAll_append (front behind : List Node) :
    blocksOfAll (front ++ behind) = blocksOfAll front ++ blocksOfAll behind := by
  induction front with
  | nil => rfl
  | cons node rest ih =>
    show node.blocks ++ blocksOfAll (rest ++ behind) = _
    rw [ih, ← List.append_assoc]
    rfl

/-- What a block binds ends with it. -/
theorem sites_blockUnder (table : Table) (scope : Scope) (selector : Option String)
    (children : List Node) :
    (blockUnder selector children).sites table scope =
      ((sitesOfAll table scope children).1, scope) := by
  cases selector <;> rfl

theorem sitesOfAll_cons (table : Table) (scope : Scope) (node : Node) (rest : List Node) :
    sitesOfAll table scope (node :: rest) =
      ((node.sites table scope).1 ++ (sitesOfAll table (node.sites table scope).2 rest).1,
        (sitesOfAll table (node.sites table scope).2 rest).2) :=
  rfl

theorem sitesOfAll_append (table : Table) (scope : Scope) (front behind : List Node) :
    sitesOfAll table scope (front ++ behind) =
      ((sitesOfAll table scope front).1 ++
          (sitesOfAll table (sitesOfAll table scope front).2 behind).1,
        (sitesOfAll table (sitesOfAll table scope front).2 behind).2) := by
  induction front generalizing scope with
  | nil => rfl
  | cons node rest ih =>
    rw [List.cons_append, sitesOfAll_cons, sitesOfAll_cons, ih, List.append_assoc]

end Node

/-- A document with one of its blocks left open, and the statements around that. -/
inductive BlockContext where
  | here (front : List Node) (selector : Option String) (behind : List Node)
  /-- The block is inside another block. -/
  | inside (front : List Node) (selector : Option String) (context : BlockContext)
      (behind : List Node)

namespace BlockContext

open Node (blockUnder blocks blocksOfAll importsOfAll sitesOfAll)

/-- The document with these statements in the block. -/
def fill : BlockContext → List Node → List Node
  | here front selector behind, children => front ++ blockUnder selector children :: behind
  | inside front selector context behind, children =>
    front ++ blockUnder selector (context.fill children) :: behind

/-- The import statements in front of the block. -/
def importsBefore : BlockContext → List Import
  | here front _ _ => importsOfAll front
  | inside front _ context _ => importsOfAll front ++ context.importsBefore

/-- The import statements behind the block. -/
def importsBehind : BlockContext → List Import
  | here _ _ behind => importsOfAll behind
  | inside _ _ context behind => context.importsBehind ++ importsOfAll behind

/-- The same in front of more statements. -/
def push (front : List Node) : BlockContext → BlockContext
  | here before selector behind => here (front ++ before) selector behind
  | inside before selector context behind => inside (front ++ before) selector context behind

theorem fill_push (front : List Node) (context : BlockContext) (children : List Node) :
    (context.push front).fill children = front ++ context.fill children := by
  cases context <;> exact List.append_assoc _ _ _

/-- The same in front of a document is one in the document that has it behind. -/
theorem exists_fill_cons {node : Node} {rest children : List Node}
    (h : ∃ context : BlockContext, context.fill children = rest) :
    ∃ context : BlockContext, context.fill children = node :: rest := by
  obtain ⟨context, rfl⟩ := h
  exact ⟨context.push [node], fill_push [node] context children⟩

mutual

theorem exists_fill_of_mem (node : Node) (rest : List Node) {children : List Node}
    (h : children ∈ node.blocks) :
    ∃ context : BlockContext, context.fill children = node :: rest := by
  have hblock : ∀ selector inner, inner = children ∨ children ∈ blocksOfAll inner →
      (children ∈ blocksOfAll inner → ∃ context : BlockContext, context.fill children = inner) →
      ∃ context : BlockContext, context.fill children = blockUnder selector inner :: rest := by
    intro selector inner hmem hinner
    rcases hmem with rfl | hmem
    · exact ⟨.here [] selector rest, rfl⟩
    · obtain ⟨context, rfl⟩ := hinner hmem
      exact ⟨.inside [] selector context rest, rfl⟩
  cases node with
  | block inner =>
    apply hblock none inner ((List.mem_cons.1 h).imp_left Eq.symm)
    exact fun hmem => exists_fill_of_mem_all inner hmem
  | rule selector inner =>
    apply hblock (some selector) inner ((List.mem_cons.1 h).imp_left Eq.symm)
    exact fun hmem => exists_fill_of_mem_all inner hmem
  | importing _ | assign _ _ _ | declaration _ => cases h

theorem exists_fill_of_mem_all (nodes : List Node) {children : List Node}
    (h : children ∈ blocksOfAll nodes) :
    ∃ context : BlockContext, context.fill children = nodes := by
  cases nodes with
  | nil => cases h
  | cons node rest =>
    rcases List.mem_append.1 h with hhere | hthere
    · exact exists_fill_of_mem node rest hhere
    · exact exists_fill_cons (exists_fill_of_mem_all rest hthere)

end

theorem mem_blocksOfAll_fill (context : BlockContext) (children : List Node) :
    children ∈ blocksOfAll (context.fill children) := by
  induction context with
  | here front selector behind =>
    rw [fill, Node.blocksOfAll_append, blocksOfAll, Node.blocks_blockUnder]
    simp
  | inside front selector context behind ih =>
    rw [fill, Node.blocksOfAll_append, blocksOfAll, Node.blocks_blockUnder]
    simp [ih]

/-- The imports around a block do not depend on what is in it; those in it are evaluated in the
scope in front of it. -/
theorem sitesOfAll_fill (context : BlockContext) (table : Table) (scope : Scope) :
    ∃ before behind inner after,
      before.map ImportSite.statement = context.importsBefore ∧
      behind.map ImportSite.statement = context.importsBehind ∧
      ∀ children, sitesOfAll table scope (context.fill children) =
        (before ++ (sitesOfAll table inner children).1 ++ behind, after) := by
  induction context generalizing scope with
  | here front selector behind =>
    have hfront := Node.statements_of_sitesOfAll table scope front
    have hbehind := Node.statements_of_sitesOfAll table (sitesOfAll table scope front).2 behind
    refine ⟨_, _, (sitesOfAll table scope front).2,
      (sitesOfAll table (sitesOfAll table scope front).2 behind).2, hfront, hbehind,
      fun children => ?_⟩
    rw [fill, Node.sitesOfAll_append, Node.sitesOfAll_cons, Node.sites_blockUnder,
      List.append_assoc]
  | inside front selector context behind ih =>
    have hfront := Node.statements_of_sitesOfAll table scope front
    have hbehind := Node.statements_of_sitesOfAll table (sitesOfAll table scope front).2 behind
    obtain ⟨before', behind', inner, after, hbefore', hbehind', hfill⟩ :=
      ih (sitesOfAll table scope front).2
    refine ⟨(sitesOfAll table scope front).1 ++ before',
      behind' ++ (sitesOfAll table (sitesOfAll table scope front).2 behind).1, inner,
      (sitesOfAll table (sitesOfAll table scope front).2 behind).2, ?_, ?_, fun children => ?_⟩
    · rw [List.map_append, hfront, hbefore']
      rfl
    · rw [List.map_append, hbehind, hbehind']
      rfl
    · rw [fill, Node.sitesOfAll_append, Node.sitesOfAll_cons, Node.sites_blockUnder, hfill]
      simp only [List.append_assoc]

end BlockContext

/-- Each block of a document, at any depth, can be left open, and what it is filled with does not
show in the imports around it: the statements in front of it and those behind it are there with the
same names, in the same order. -/
theorem importSites_around_block (document : List Node) (table : Table) :
    (∀ children, children ∈ Node.blocksOfAll document ↔
      ∃ context : BlockContext, context.fill children = document) ∧
    ∀ context : BlockContext, ∃ before behind scope,
      before.map ImportSite.statement = context.importsBefore ∧
      behind.map ImportSite.statement = context.importsBehind ∧
      ∀ children, importSites (context.fill children) table =
          before ++ (Node.sitesOfAll table scope children).1 ++ behind ∧
        (Node.sitesOfAll table scope children).1.map ImportSite.statement =
          Node.importsOfAll children := by
  constructor
  · intro children
    constructor
    · exact BlockContext.exists_fill_of_mem_all document
    · rintro ⟨context, rfl⟩
      exact context.mem_blocksOfAll_fill children
  · intro context
    obtain ⟨before, behind, scope, after, hbefore, hbehind, hfill⟩ :=
      context.sitesOfAll_fill table []
    refine ⟨before, behind, scope, hbefore, hbehind, fun children => ⟨?_, ?_⟩⟩
    · show (Node.sitesOfAll table [] (context.fill children)).1 = _
      rw [hfill]
    · exact Node.statements_of_sitesOfAll table scope children

/-- A variable that is assigned in a block is unknown behind it. -/
example : (importSites [.rule "a" [.assign "x" .set (.literal "b")],
    .importing ⟨.import_, [.ident "x"], 2, 13, 22⟩] .empty).map ImportSite.names = [[none]] := by
  decide

end StyleWeave
