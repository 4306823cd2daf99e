import Mathlib.Data.List.Induction
import StyleWeave.Proofs.Syntax.Statements
import StyleWeave.Proofs.Token.Places
import StyleWeave.Render.Inline

/-!
# Where import statements lie

The reader of a document takes the items of its token stream one after the other, so its import
statements take up stretches of the text that lie one behind the other, each from an at sign on
(`spans_of_parse`). Hence the imports of a document are in the order of the text already
(`sitesInOrder_eq`).
-/

namespace StyleWeave

open Text (Boundary dropBytes)

namespace Node

mutual

/-- The import statements in a statement. -/
def imports : Node → List Import
  | block children | rule _ children => importsOfAll children
  | importing statement => [statement]
  | assign _ _ _ | declaration _ => []

/-- The import statements in consecutive statements. -/
def importsOfAll : List Node → List Import
  | [] => []
  | node :: rest => node.imports ++ importsOfAll rest

end

mutual

theorem statements_of_sites (table : Table) (scope : Scope) (node : Node) :
    (node.sites table scope).1.map ImportSite.statement = node.imports :=
  match node with
  | block children | rule _ children => statements_of_sitesOfAll table scope children
  | importing _ | assign _ _ _ | declaration _ => rfl

theorem statements_of_sitesOfAll (table : Table) (scope : Scope) (nodes : List Node) :
    (sitesOfAll table scope nodes).1.map ImportSite.statement = importsOfAll nodes :=
  match nodes with
  | [] => rfl
  | node :: rest => by
    simp only [sitesOfAll, importsOfAll, List.map_append]
    rw [statements_of_sites, statements_of_sitesOfAll]

end

end Node

namespace ImportKind

theorem token_ne_newline (kind : ImportKind) : kind.token ≠ .newline := by
  cases kind <;> simp [token]

theorem item_of_token {kind : ImportKind} {item : Item} (h : item = .token kind.token) :
    item = .token .atImport ∨ item = .token .atRequire := by
  cases kind with
  | import_ => exact Or.inl h
  | require => exact Or.inr h

end ImportKind

namespace Syntax

/-! ## Stretches of items -/

/-- Import statements that were read from some of the items, one behind the other. -/
inductive Taken : List Located → List Import → Prop where
  | none (items : List Located) : Taken items []
  | skip {l : Located} {items : List Located} {imports : List Import}
      (others : Taken items imports) : Taken (l :: items) imports
  | take {l : Located} {stretch rest : List Located} {statement : Import} {imports : List Import}
      (keyword : l.item = .token statement.kind.token) (line : statement.line = l.line)
      (start : statement.start = l.start) (stop : statement.stop = lastStop (l :: stretch))
      (others : Taken rest imports) : Taken (l :: (stretch ++ rest)) (statement :: imports)

variable {items items' : List Located} {imports imports' : List Import}

theorem Taken.append (h : Taken items imports) (h' : Taken items' imports') :
    Taken (items ++ items') (imports ++ imports') := by
  induction h with
  | none items =>
    induction items with
    | nil => exact h'
    | cons l items ih => exact ih.skip
  | skip _ ih => exact ih.skip
  | take keyword line start stop _ ih =>
    rw [List.cons_append, List.append_assoc, List.cons_append]
    exact ih.take keyword line start stop

theorem taken_importing (kind : ImportKind) {l : Located} (ls : List Located)
    (hkeyword : l.item = .token kind.token) :
    Taken (l :: ls.take (importing kind l ls).2) (importing kind l ls).1.imports := by
  rw [importing_eq, List.take_add]
  exact .take hkeyword rfl rfl rfl (.none _)

theorem taken_opening {l : Located} {ls : List Located} {node : Node} {n : Nat}
    (h : opening l ls = (.complete node, n)) : Taken (l :: ls.take n) node.imports := by
  rcases opening_complete h with ⟨kind, hitem, himport⟩ | ⟨name, op, rfl⟩ | ⟨text, rfl⟩
  · obtain ⟨rfl, rfl⟩ := Prod.mk.inj himport
    exact taken_importing kind ls hitem
  · exact .none _
  · exact .none _

theorem Reads.taken {close : BlockEnd} {nodes : List Node} {n : Nat}
    (h : Reads close items nodes n) : Taken (items.take n) (Node.importsOfAll nodes) := by
  induction h with
  | nothing | eof | dedent | closeBrace => exact .none _
  | blank _ _ ih => exact ih.skip
  | @block _ l ls _ _ n m _ _ _ ih ih' =>
    have hcount : 1 + n + m = (n + m) + 1 := by omega
    rw [hcount, List.take_succ_cons, List.take_add]
    exact (ih.append ih').skip
  | @complete _ l ls _ _ n m _ hopening _ ih =>
    have hcount : 1 + n + m = (n + m) + 1 := by omega
    rw [hcount, List.take_succ_cons, List.take_add, ← List.cons_append]
    exact (taken_opening hopening).append ih
  | @rule _ _ l ls _ _ _ n k m _ _ _ _ ih ih' =>
    have hcount : 1 + n + k + m = (n + (k + m)) + 1 := by omega
    have hrest : (ls.drop n).take (k + m) = (ls.drop n).take k ++ (ls.drop (n + k)).take m := by
      rw [List.take_add, List.drop_drop]
    rw [hcount, List.take_succ_cons, List.take_add, hrest]
    exact ((Taken.none (ls.take n)).append (ih.append ih')).skip

/-! ## Stretches of text -/

/-- Behind byte `pos` of a text, statements take up stretches one behind the other, each from an at
sign on. -/
inductive Spans (cs : List Char) : Nat → List Import → Prop where
  | nil (pos : Nat) : Spans cs pos []
  | cons {pos : Nat} {statement : Import} {rest : List Import} (le : pos ≤ statement.start)
      (lt : statement.start < statement.stop) (start : Boundary cs statement.start)
      (stop : Boundary cs statement.stop)
      (head : (dropBytes cs statement.start).head? = some '@')
      (others : Spans cs statement.stop rest) : Spans cs pos (statement :: rest)

variable {cs : List Char}

theorem lastStop_append (items : List Located) (l : Located) :
    lastStop (items ++ [l]) = l.stop ∧ l.IsSolid ∨
      lastStop (items ++ [l]) = lastStop items ∧ ¬ l.IsSolid := by
  unfold lastStop
  rw [List.foldl_append]
  by_cases hsolid : l.IsSolid
  · obtain ⟨t, ht, hne⟩ := hsolid
    left
    refine ⟨?_, t, ht, hne⟩
    cases t <;> simp_all
  · right
    refine ⟨?_, hsolid⟩
    cases hitem : l.item with
    | token t =>
      cases t with
      | newline => simp [hitem]
      | _ => exact absurd ⟨_, hitem, by simp⟩ hsolid
    | _ => simp [hitem]

/-- A stretch of items that starts with a token stops where its last token stops. -/
theorem exists_lastStop {l : Located} (hl : l.IsSolid) (stretch : List Located) :
    ∃ last ∈ l :: stretch, last.IsSolid ∧ lastStop (l :: stretch) = last.stop := by
  induction stretch using List.reverseRecOn with
  | nil =>
    refine ⟨l, List.mem_cons_self, hl, ?_⟩
    rcases lastStop_append [] l with ⟨h, -⟩ | ⟨-, hnot⟩
    · exact h
    · exact absurd hl hnot
  | append_singleton stretch x ih =>
    rw [← List.cons_append]
    rcases lastStop_append (l :: stretch) x with ⟨h, hx⟩ | ⟨h, -⟩
    · exact ⟨x, by simp, hx, h⟩
    · obtain ⟨last, hlast, hsolid, hstop⟩ := ih
      exact ⟨last, List.mem_append_left _ hlast, hsolid, h.trans hstop⟩

theorem Taken.spans (h : Taken items imports) (hlies : ∀ l ∈ items, l.IsSolid → l.Lies cs)
    (hpairwise : items.Pairwise fun a b => a.IsSolid → b.IsSolid → a.stop ≤ b.start) {pos : Nat}
    (hpos : ∀ l ∈ items, l.IsSolid → pos ≤ l.start) : Spans cs pos imports := by
  induction h generalizing pos with
  | none => exact .nil pos
  | skip _ ih =>
    exact ih (fun l hl => hlies l (List.mem_cons_of_mem _ hl)) hpairwise.of_cons
      fun l hl => hpos l (List.mem_cons_of_mem _ hl)
  | @take l stretch rest statement imports keyword _ start stop _ ih =>
    have hsolid : l.IsSolid := ⟨_, keyword, statement.kind.token_ne_newline⟩
    have hl := hlies l List.mem_cons_self hsolid
    have hsplit : l :: (stretch ++ rest) = (l :: stretch) ++ rest := List.cons_append.symm
    rw [hsplit] at hlies hpairwise
    obtain ⟨hfirst, hrest, hcross⟩ := List.pairwise_append.1 hpairwise
    obtain ⟨last, hlast, hlastSolid, hlastStop⟩ := exists_lastStop hsolid stretch
    have hstop : statement.stop = last.stop := stop.trans hlastStop
    have hlies' := hlies last (List.mem_append_left _ hlast) hlastSolid
    have hle : l.start < last.stop := by
      rcases List.mem_cons.1 hlast with rfl | hmem
      · exact hl.lt
      · have hbehind := (List.pairwise_cons.1 hfirst).1 last hmem hsolid hlastSolid
        have hlt := hl.lt
        have hlt' := hlies'.lt
        omega
    refine .cons ?_ ?_ ?_ ?_ ?_ (ih ?_ hrest ?_)
    · rw [start]
      exact hpos l List.mem_cons_self hsolid
    · rw [start, hstop]
      exact hle
    · rw [start]
      exact hl.start
    · rw [hstop]
      exact hlies'.stop
    · rw [start]
      exact hl.keyword (ImportKind.item_of_token keyword)
    · exact fun x hx => hlies x (List.mem_append_right _ hx)
    · intro x hx hx'
      rw [hstop]
      exact hcross last hlast x hx hlastSolid hx'

/-- Each statement starts with its keyword, on the line of that, and it stops with a token. -/
theorem Taken.exists_keyword (h : Taken items imports) {statement : Import}
    (hm : statement ∈ imports) :
    ∃ l ∈ items, l.item = .token statement.kind.token ∧ statement.line = l.line ∧
      statement.start = l.start ∧ ∃ last ∈ items, last.IsSolid ∧ statement.stop = last.stop := by
  induction h with
  | none => cases hm
  | skip _ ih =>
    obtain ⟨l, hl, hitem, hline, hstart, last, hlast, hsolid, hstop⟩ := ih hm
    exact ⟨l, List.mem_cons_of_mem _ hl, hitem, hline, hstart, last, List.mem_cons_of_mem _ hlast,
      hsolid, hstop⟩
  | @take l stretch rest first imports keyword line start stop _ ih =>
    rcases List.mem_cons.1 hm with rfl | hm
    · obtain ⟨last, hlast, hsolid, hlastStop⟩ :=
        exists_lastStop ⟨_, keyword, statement.kind.token_ne_newline⟩ stretch
      refine ⟨l, List.mem_cons_self, keyword, line, start, last, ?_, hsolid, stop.trans hlastStop⟩
      rw [← List.cons_append]
      exact List.mem_append_left _ hlast
    · obtain ⟨l', hl', hitem, hline, hstart, last, hlast, hsolid, hstop⟩ := ih hm
      have hbehind : ∀ x ∈ rest, x ∈ l :: (stretch ++ rest) := fun x hx =>
        List.mem_cons_of_mem _ (List.mem_append_right _ hx)
      exact ⟨l', hbehind l' hl', hitem, hline, hstart, last, hbehind last hlast, hsolid, hstop⟩

/-- The import statements of a document lie in its text one behind the other. -/
theorem spans_of_parse {document : List Node} (h : parse cs = .ok document) :
    Spans cs 0 (Node.importsOfAll document) := by
  obtain ⟨items, htokens, hparse⟩ := bind_eq_ok h
  obtain ⟨n, hreads⟩ := parseItems_eq_ok_iff.1 hparse
  obtain ⟨hlies, hpairwise⟩ := tokens_of_tokenize htokens
  exact hreads.taken.spans (fun l hl => hlies l (List.mem_of_mem_take hl))
    (hpairwise.sublist (List.take_sublist _ _)) fun _ _ _ => Nat.zero_le _

/-- All of the statements start behind `pos`. -/
theorem Spans.le_start {pos : Nat} (h : Spans cs pos imports) {statement : Import}
    (hm : statement ∈ imports) : pos ≤ statement.start := by
  induction h with
  | nil => cases hm
  | cons le lt _ _ _ _ ih =>
    rcases List.mem_cons.1 hm with rfl | hm
    · exact le
    · have hrest := ih hm
      omega

theorem Spans.start_lt_stop {pos : Nat} (h : Spans cs pos imports) {statement : Import}
    (hm : statement ∈ imports) : statement.start < statement.stop := by
  induction h with
  | nil => cases hm
  | cons le lt _ _ _ _ ih =>
    rcases List.mem_cons.1 hm with rfl | hm
    · exact lt
    · exact ih hm

theorem Spans.pairwise {pos : Nat} (h : Spans cs pos imports) :
    imports.Pairwise fun a b => a.stop ≤ b.start ∧ a.start ≤ b.start := by
  induction h with
  | nil => exact List.Pairwise.nil
  | cons le lt _ _ _ others ih =>
    refine List.Pairwise.cons (fun b hb => ?_) ih
    have hstop := others.le_start hb
    exact ⟨hstop, by omega⟩

end Syntax

namespace Inline

/-- The imports of a document are in the order of its text. -/
theorem sitesInOrder_eq {cs : List Char} {document : List Node} (h : parse cs = .ok document)
    (table : Table) : sitesInOrder document table = importSites document table := by
  have hpairwise := (Syntax.spans_of_parse h).pairwise
  rw [← Node.statements_of_sitesOfAll table [] document, List.pairwise_map] at hpairwise
  refine List.mergeSort_of_pairwise (hpairwise.imp fun hab => ?_)
  simpa using hab.2

theorem statements_of_importSites (document : List Node) (table : Table) :
    (importSites document table).map ImportSite.statement = Node.importsOfAll document :=
  Node.statements_of_sitesOfAll table [] document

end Inline

end StyleWeave
