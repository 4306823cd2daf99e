import StyleWeave.Proofs.Syntax.Spans

/-!
# How many path expressions a document has

Each path expression of an import statement stands behind the keyword or behind a comma, and both
are tokens of the text. So a document has at most as many path expressions as its text has
characters (`length_paths_le`).
-/

namespace StyleWeave

/-- A path expression of an import statement stands behind this item. -/
def Item.opensPath : Item → Bool
  | .token .atImport | .token .atRequire | .token .comma => true
  | _ => false

/-- How many path expressions may stand behind some items. -/
def pathsBehind (items : List Located) : Nat :=
  items.countP fun l => l.item.opensPath

@[simp] theorem pathsBehind_append (items items' : List Located) :
    pathsBehind (items ++ items') = pathsBehind items + pathsBehind items' :=
  List.countP_append

theorem pathsBehind_take_add (items : List Located) (n m : Nat) :
    pathsBehind (items.take (n + m)) =
      pathsBehind (items.take n) + pathsBehind ((items.drop n).take m) := by
  rw [List.take_add, pathsBehind_append]

theorem pathsBehind_eq_zero {items : List Located} (h : ∀ l ∈ items, ¬ l.IsSolid) :
    pathsBehind items = 0 := by
  refine List.countP_eq_zero.2 fun l hl hopens => h l hl ?_
  cases hitem : l.item with
  | token t =>
    refine ⟨t, hitem, ?_⟩
    rintro rfl
    simp [hitem, Item.opensPath] at hopens
  | _ => simp [hitem, Item.opensPath] at hopens

/-! ## Items of a text -/

namespace Lexeme

theorem length_ofText_le (cs : List Char) : (ofText cs).length ≤ cs.length := by
  obtain ⟨⟨tail, htail⟩, hregular⟩ := flatMap_ofText cs
  have hlen := congrArg List.length htail
  rw [List.length_append] at hlen
  have hle : (ofText cs).length ≤ ((ofText cs).flatMap fun l => l.gap ++ l.text).length := by
    generalize ofText cs = lexemes at hregular
    induction lexemes with
    | nil => exact Nat.le_refl 0
    | cons l rest ih =>
      have hrest := ih fun l' hl' => hregular l' (List.mem_cons_of_mem _ hl')
      have htext := List.length_pos_iff.2 (hregular l List.mem_cons_self).1
      rw [List.flatMap_cons, List.length_append, List.length_append, List.length_cons]
      omega
  omega

end Lexeme

namespace Layout

theorem pathsBehind_run_le {size : Nat} {s : State} {lexemes : List Lexeme} {items : List Located}
    (h : run size s lexemes = .ok items) : pathsBehind items ≤ lexemes.length := by
  induction lexemes generalizing s items with
  | nil => exact Nat.le_of_eq (pathsBehind_eq_zero (finish_spec h))
  | cons l rest ih =>
    obtain ⟨⟨here, s₁⟩, hplace, hmore⟩ := bind_eq_ok h
    obtain ⟨others, hrun, hitems⟩ := bind_eq_ok hmore
    obtain rfl := Except.ok.inj hitems
    obtain ⟨t, layout, line, -, hlayout, -, hplaced⟩ := place_spec hplace
    have hrest := ih hrun
    have hhere : pathsBehind here ≤ 1 := by
      have hnone := pathsBehind_eq_zero hlayout
      rcases hplaced with rfl | rfl
      · omega
      · rw [pathsBehind_append, hnone, Nat.zero_add]
        exact List.countP_le_length
    rw [pathsBehind_append, List.length_cons]
    omega

end Layout

/-! ## Import statements -/

namespace Node

mutual

theorem length_names_of_sites (table : Table) (scope : Scope) (node : Node) :
    ∀ site ∈ (node.sites table scope).1, site.names.length = site.statement.exprs.length :=
  match node with
  | block children | rule _ children => length_names_of_sitesOfAll table scope children
  | importing _ => by simp [sites]
  | assign _ _ _ | declaration _ => by simp [sites]

theorem length_names_of_sitesOfAll (table : Table) (scope : Scope) (nodes : List Node) :
    ∀ site ∈ (sitesOfAll table scope nodes).1,
      site.names.length = site.statement.exprs.length :=
  match nodes with
  | [] => by simp [sitesOfAll]
  | node :: rest => by
    intro site hsite
    rcases List.mem_append.1 hsite with hsite | hsite
    · exact length_names_of_sites table scope node site hsite
    · exact length_names_of_sitesOfAll table _ rest site hsite

end

end Node

/-- The path expressions of some import statements. -/
def pathsOf (imports : List Import) : List Expr :=
  imports.flatMap Import.exprs

@[simp] theorem pathsOf_append (imports imports' : List Import) :
    pathsOf (imports ++ imports') = pathsOf imports ++ pathsOf imports' :=
  List.flatMap_append

namespace Syntax

/-- Between two path expressions of a list stands a comma. -/
theorem length_expressions_le (items : List Located) :
    (expressions items).1.length ≤ pathsBehind (items.take (expressions items).2.2) + 1 := by
  induction hlength : items.length using Nat.strongRecOn generalizing items with
  | ind length ih =>
    rw [expressions_eq]
    split
    · simp
    · next l ls hrest =>
      split
      · next hcomma =>
        have hshorter : (ls.drop (afterComma ls).1).length < length := by
          have hlen := congrArg List.length hrest
          simp only [List.length_drop, List.length_cons] at hlen ⊢
          omega
        have hothers := ih _ hshorter _ rfl
        generalize expressions (ls.drop (afterComma ls).1) = others at hothers ⊢
        obtain ⟨es, indents, m⟩ := others
        dsimp only at hothers ⊢
        have hcount : (expression items).2 + 1 + (afterComma ls).1 + m =
            (expression items).2 + (1 + ((afterComma ls).1 + m)) := by omega
        have hone : pathsBehind ((l :: ls).take 1) = 1 := by
          simp [pathsBehind, hcomma, Item.opensPath]
        have hbehind : (l :: ls).drop 1 = ls := rfl
        rw [hcount, pathsBehind_take_add, hrest, pathsBehind_take_add, hone, hbehind,
          pathsBehind_take_add, List.length_cons]
        omega
      · simp

theorem length_paths_opening {l : Located} {ls : List Located} {node : Node} {n : Nat}
    (h : opening l ls = (.complete node, n)) :
    (pathsOf node.imports).length ≤ pathsBehind (l :: ls.take n) := by
  rcases opening_complete h with ⟨kind, hitem, himport⟩ | ⟨name, op, rfl⟩ | ⟨text, rfl⟩
  · have hopens : l.item.opensPath = true := by
      rw [hitem]
      cases kind <;> rfl
    have hexprs := length_expressions_le ls
    have hexprs_le := expressions_le_importLength ls
    rw [importing_eq] at himport
    obtain ⟨rfl, hn⟩ := Prod.mk.inj himport
    have hle : (expressions ls).2.2 ≤ n := by omega
    have hhead : pathsBehind (l :: ls.take n) = pathsBehind (ls.take n) + 1 := by
      simp [pathsBehind, hopens]
    have htake : pathsBehind (ls.take (expressions ls).2.2) ≤ pathsBehind (ls.take n) := by
      obtain ⟨more, rfl⟩ := Nat.exists_eq_add_of_le hle
      rw [pathsBehind_take_add]
      omega
    rw [hhead]
    simp only [Node.imports, pathsOf, List.flatMap_cons, List.flatMap_nil, List.append_nil]
    omega
  · exact Nat.zero_le _
  · exact Nat.zero_le _

/-- The path expressions that are read stand behind items that were taken. -/
theorem Reads.length_paths_le {close : BlockEnd} {items : List Located} {nodes : List Node}
    {n : Nat} (h : Reads close items nodes n) :
    (pathsOf (Node.importsOfAll nodes)).length ≤ pathsBehind (items.take n) := by
  have hcons : ∀ (l : Located) (items : List Located),
      pathsBehind items ≤ pathsBehind (l :: items) := by
    intro l items
    exact (List.sublist_cons_self l items).countP_le
  induction h with
  | nothing | eof | dedent | closeBrace => exact Nat.zero_le _
  | @blank _ l ls _ n _ _ ih =>
    rw [List.take_succ_cons]
    exact Nat.le_trans ih (hcons l _)
  | @block _ l ls children nodes n m _ _ _ ih ih' =>
    have hcount : 1 + n + m = (n + m) + 1 := by omega
    rw [hcount, List.take_succ_cons]
    refine Nat.le_trans ?_ (hcons l _)
    rw [pathsBehind_take_add]
    show (pathsOf (Node.importsOfAll children ++ Node.importsOfAll nodes)).length ≤ _
    rw [pathsOf_append, List.length_append]
    omega
  | @complete _ l ls node nodes n m _ hopening _ ih =>
    have hcount : 1 + n + m = (n + m) + 1 := by omega
    have hfirst := length_paths_opening hopening
    rw [hcount, List.take_succ_cons, List.take_add, ← List.cons_append, pathsBehind_append]
    show (pathsOf (node.imports ++ Node.importsOfAll nodes)).length ≤ _
    rw [pathsOf_append, List.length_append]
    omega
  | @rule _ _ l ls _ children nodes n k m _ _ _ _ ih ih' =>
    have hcount : 1 + n + k + m = (n + (k + m)) + 1 := by omega
    have hrest : ((ls.drop n).drop k).take m = (ls.drop (n + k)).take m := by
      rw [List.drop_drop]
    rw [hcount, List.take_succ_cons]
    refine Nat.le_trans ?_ (hcons l _)
    rw [pathsBehind_take_add, pathsBehind_take_add, hrest]
    show (pathsOf (Node.importsOfAll children ++ Node.importsOfAll nodes)).length ≤ _
    rw [pathsOf_append, List.length_append]
    omega

end Syntax

/-- A document has at most as many path expressions as its text has characters. -/
theorem length_paths_le {cs : List Char} {document : List Node} (h : parse cs = .ok document) :
    (pathsOf (Node.importsOfAll document)).length ≤ cs.length := by
  obtain ⟨items, htokens, hparse⟩ := bind_eq_ok h
  obtain ⟨n, hreads⟩ := Syntax.parseItems_eq_ok_iff.1 hparse
  calc (pathsOf (Node.importsOfAll document)).length
      ≤ pathsBehind (items.take n) := hreads.length_paths_le
    _ ≤ pathsBehind items := (List.take_sublist n items).countP_le
    _ ≤ (Lexeme.ofText cs).length := Layout.pathsBehind_run_le htokens
    _ ≤ cs.length := Lexeme.length_ofText_le cs

end StyleWeave
