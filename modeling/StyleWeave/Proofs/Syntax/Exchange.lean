import StyleWeave.Proofs.Syntax.Comments
import StyleWeave.Proofs.Syntax.Pieces
import StyleWeave.Proofs.Syntax.RoundTrip
import StyleWeave.Proofs.Syntax.Spans

/-!
# Exchanging an import statement

The statements of a document are read by the items they take and the one behind them. So where the
items of an import statement are exchanged for others that are read as the same import statement,
the document stays as it is (`Reads.exchange`).
-/

namespace StyleWeave.Syntax

variable {n k : Nat} {xs ys ls ls' : List Located} {l l' : Located}

/-! ## Statements -/

/-- A statement as far as its items tell. -/
def Opening.unplaced : Opening → Opening
  | .complete node => .complete node.unplaced
  | .before selector close => .before selector close

theorem Same.importLength (h : Same (importLength ls + 1) ls ls') :
    importLength ls' = importLength ls := by
  unfold Syntax.importLength at h ⊢
  dsimp only at h ⊢
  have hlist : Same ((Syntax.expressions ls).2.2 + 1) ls ls' := h.mono (by omega)
  rw [hlist.expressions]
  generalize (Syntax.expressions ls).2.2 = n at h ⊢
  have hskipped : Same (Syntax.statementRest (ls.drop n) + 1) (ls.drop n) (ls'.drop n) :=
    Same.drop (h.mono (by omega))
  rw [hskipped.like.statementRest]
  have hend : Same (0 + 1) (ls.drop (n + Syntax.statementRest (ls.drop n)))
      (ls'.drop (n + Syntax.statementRest (ls.drop n))) := Same.drop (h.mono (by omega))
  rw [hend.count]

theorem importing_same (kind : ImportKind) (l l' : Located)
    (h : Same ((importing kind l ls).2 + 1) ls ls') :
    (importing kind l' ls').1.unplaced = (importing kind l ls).1.unplaced ∧
      (importing kind l' ls').2 = (importing kind l ls).2 := by
  rw [importing_eq] at h
  rw [importing_eq, importing_eq]
  dsimp only at h ⊢
  have hlength : Same (importLength ls + 1) ls ls' := h.mono (by omega)
  have hlist : Same ((expressions ls).2.2 + 1) ls ls' :=
    hlength.mono (Nat.succ_le_succ (expressions_le_importLength ls))
  have hcontinued : Same (continuationRest (expressions ls).2.1 (ls.drop (importLength ls)) + 1)
      (ls.drop (importLength ls)) (ls'.drop (importLength ls)) := Same.drop (h.mono (by omega))
  rw [hlength.importLength, hlist.expressions, hcontinued.continuationRest]
  exact ⟨rfl, rfl⟩

theorem assignment_same (name : String) (op : AssignOp)
    (h : Same ((assignment name op ls).2 + 1) ls ls') :
    assignment name op ls' = assignment name op ls := by
  unfold assignment at h ⊢
  dsimp only at h ⊢
  have hvalue : Same ((expression ls).2 + 1) ls ls' := h.mono (by omega)
  rw [same_expression ls ls' hvalue]
  have hskipped : Same (statementRest (ls.drop (expression ls).2) + 1)
      (ls.drop (expression ls).2) (ls'.drop (expression ls).2) := Same.drop (h.mono (by omega))
  rw [hskipped.like.statementRest]

theorem opening_same (hitem : l'.item = l.item) (h : Same ((opening l ls).2 + 1) ls ls') :
    (opening l' ls').1.unplaced = (opening l ls).1.unplaced ∧
      (opening l' ls').2 = (opening l ls).2 := by
  generalize hopening : opening l ls = read at h
  obtain ⟨start, n⟩ := read
  have hnext : Same (0 + 1) ls ls' := h.mono (by omega)
  have hheading : Headed l ls → Same ((heading 0 (l :: ls)).2.2 - 1 + 1) ls ls' →
      Headed l' ls' ∧ heading 0 (l' :: ls') = heading 0 (l :: ls) := by
    intro hheaded hmost
    have hwhole : Same ((heading 0 (l :: ls)).2.2 - 1 + 1 + 1) (l :: ls) (l' :: ls') :=
      Same.cons_iff.2 ⟨hitem.symm, hmost⟩
    exact ⟨hheaded.congr hitem hnext.head, (hwhole.mono (by omega)).heading⟩
  cases opening_eq_iff.1 hopening with
  | import_ kind hkeyword =>
    obtain ⟨hnode, hn⟩ := importing_same kind l l' h
    rw [opening_import kind ls' (hitem.trans hkeyword)]
    exact ⟨congrArg Opening.complete hnode, hn⟩
  | @assigns name op next others hname split hop =>
    subst split
    obtain ⟨next', others', rfl, hnext', hothers⟩ := hnext.cons
    have hvalue : Same ((assignment name op others).2 + 1) others others' :=
      (Same.cons_iff.1 (h.mono (by dsimp only; omega))).2
    rw [opening_assign others' (hitem.trans hname) (hnext' ▸ hop), assignment_same name op hvalue]
    exact ⟨rfl, rfl⟩
  | declaration hheaded hread =>
    obtain ⟨hheaded', hsame⟩ := hheading hheaded (by rw [hread]; exact h)
    rw [opening_eq_iff.2 (.declaration hheaded' (hsame.trans hread))]
    exact ⟨rfl, rfl⟩
  | block hheaded hread =>
    obtain ⟨hheaded', hsame⟩ := hheading hheaded (by rw [hread]; exact h)
    rw [opening_eq_iff.2 (.block hheaded' (hsame.trans hread))]
    exact ⟨rfl, rfl⟩

theorem complete_same {node : Node} (hitem : l'.item = l.item)
    (hopening : opening l ls = (.complete node, n)) (h : Same (n + 1) ls ls') :
    ∃ node', opening l' ls' = (.complete node', n) ∧ node'.unplaced = node.unplaced := by
  have hboth : (opening l' ls').1.unplaced = (opening l ls).1.unplaced ∧
      (opening l' ls').2 = (opening l ls).2 := opening_same hitem (by rw [hopening]; exact h)
  rw [hopening] at hboth
  generalize opening l' ls' = answer at hboth ⊢
  obtain ⟨read, n'⟩ := answer
  obtain ⟨hread, rfl⟩ : read.unplaced = .complete node.unplaced ∧ n' = n := hboth
  cases read with
  | complete node' => exact ⟨node', rfl, Opening.complete.inj hread⟩
  | before selector close => cases hread

theorem before_same {selector : String} {inner : BlockEnd} (hitem : l'.item = l.item)
    (hopening : opening l ls = (.before selector inner, n)) (h : Same (n + 1) ls ls') :
    opening l' ls' = (.before selector inner, n) := by
  have hboth : (opening l' ls').1.unplaced = (opening l ls).1.unplaced ∧
      (opening l' ls').2 = (opening l ls).2 := opening_same hitem (by rw [hopening]; exact h)
  rw [hopening] at hboth
  generalize opening l' ls' = answer at hboth ⊢
  obtain ⟨read, n'⟩ := answer
  obtain ⟨hread, rfl⟩ : read.unplaced = .before selector inner ∧ n' = n := hboth
  cases read with
  | complete node' => cases hread
  | before selector' close =>
    rw [Opening.unplaced] at hread
    rw [hread]

variable {close : BlockEnd} {items items' : List Located} {nodes : List Node}

/-- Statements are read by the items they take and the one behind them. -/
theorem Reads.same (h : Reads close items nodes n) (hsame : Same (n + 1) items items') :
    ∃ nodes', Reads close items' nodes' n ∧ Node.unplacedAll nodes' = Node.unplacedAll nodes := by
  induction h generalizing items' with
  | nothing open_ =>
    rw [hsame.nil]
    exact ⟨[], .nothing open_, rfl⟩
  | eof ls item open_ =>
    obtain ⟨l', ls', rfl, hitem, -⟩ := hsame.cons
    exact ⟨[], .eof ls' (hitem ▸ item) open_, rfl⟩
  | dedent ls item =>
    obtain ⟨l', ls', rfl, hitem, -⟩ := hsame.cons
    exact ⟨[], .dedent ls' (hitem ▸ item), rfl⟩
  | closeBrace ls item =>
    obtain ⟨l', ls', rfl, hitem, -⟩ := hsame.cons
    exact ⟨[], .closeBrace ls' (hitem ▸ item), rfl⟩
  | blank item _ ih =>
    obtain ⟨l', ls', rfl, hitem, hrest⟩ := hsame.cons
    obtain ⟨nodes', hreads, hnodes⟩ := ih hrest
    exact ⟨nodes', .blank (hitem ▸ item) hreads, hnodes⟩
  | block item _ _ ih ih' =>
    obtain ⟨l', ls', rfl, hitem, hrest⟩ := hsame.cons
    obtain ⟨children', hinner, hchildren⟩ := ih (hrest.mono (by omega))
    obtain ⟨nodes', hothers, hnodes⟩ := ih' (Same.drop (hrest.mono (by omega)))
    refine ⟨_, .block (hitem ▸ item) hinner hothers, ?_⟩
    rw [Node.unplacedAll, Node.unplacedAll, Node.unplaced, Node.unplaced, hchildren, hnodes]
  | @complete close l ls node nodes n m item statement _ ih =>
    obtain ⟨l', ls', rfl, hitem, hrest⟩ := hsame.cons
    obtain ⟨node', hopening, hnode⟩ := complete_same hitem.symm statement (hrest.mono (by omega))
    obtain ⟨nodes', hothers, hnodes⟩ := ih (Same.drop (hrest.mono (by omega)))
    refine ⟨_, .complete (hitem ▸ item) hopening hothers, ?_⟩
    rw [Node.unplacedAll, Node.unplacedAll, hnode, hnodes]
  | rule item statement _ _ ih ih' =>
    obtain ⟨l', ls', rfl, hitem, hrest⟩ := hsame.cons
    have hopening := before_same hitem.symm statement (hrest.mono (by omega))
    obtain ⟨children', hbody, hchildren⟩ := ih (Same.drop (hrest.mono (by omega)))
    obtain ⟨nodes', hothers, hnodes⟩ := ih' (Same.drop (hrest.mono (by omega)))
    refine ⟨_, .rule (hitem ▸ item) hopening hbody hothers, ?_⟩
    rw [Node.unplacedAll, Node.unplacedAll, Node.unplaced, Node.unplaced, hchildren, hnodes]

/-! ## Exchanging an import statement -/

/-- What comes behind a statement is what came there, perhaps without a line break. -/
def Resumes (xs ys : List Located) : Prop :=
  SameItems xs ys ∨ ∃ feed xs', xs = feed :: xs' ∧ feed.item = .token .newline ∧ SameItems xs' ys

theorem Reads.resumes (h : Reads close items nodes n) (hrest : Resumes items items') :
    ∃ nodes' n', Reads close items' nodes' n' ∧
      Node.unplacedAll nodes' = Node.unplacedAll nodes ∧
      SameItems (items.drop n) (items'.drop n') := by
  rcases hrest with hsame | ⟨feed, rest, rfl, hfeed, hsame⟩
  · obtain ⟨nodes', hreads, hnodes⟩ := h.same (Same.symm (hsame.same (n + 1)))
    exact ⟨nodes', n, hreads, hnodes, hsame.drop n⟩
  · have hblank : ∃ m, n = m + 1 ∧ Reads close rest nodes m := by
      cases h with
      | blank _ others => exact ⟨_, rfl, others⟩
      | eof _ item _ | dedent _ item | closeBrace _ item | block item _ _ =>
        rw [hfeed] at item
        simp at item
      | complete item _ _ | rule item _ _ _ =>
        rw [hfeed] at item
        cases item
    obtain ⟨m, rfl, hothers⟩ := hblank
    obtain ⟨nodes', hreads, hnodes⟩ := hothers.same (Same.symm (hsame.same (m + 1)))
    exact ⟨nodes', m, hreads, hnodes, hsame.drop m⟩

/-- The items behind one keyword are read as those behind the other. -/
structure Exchanged (kind : ImportKind) (keyword : Located) (rest : List Located)
    (keyword' : Located) (rest' : List Located) : Prop where
  item : keyword'.item = keyword.item
  node : (importing kind keyword' rest').1.unplaced = (importing kind keyword rest).1.unplaced
  rest : Resumes (rest.drop (importing kind keyword rest).2)
    (rest'.drop (importing kind keyword' rest').2)

/-- The statement is read among the items, and they are read alike if it is exchanged. -/
def Exchangeable (close : BlockEnd) (items : List Located) (nodes : List Node) (n : Nat)
    (statement : Import) : Prop :=
  ∃ front keyword rest, items = front ++ keyword :: rest ∧
    keyword.item = .token statement.kind.token ∧
    (importing statement.kind keyword rest).1 = .importing statement ∧
    ∀ front' keyword' rest', SameItems front front' →
      Exchanged statement.kind keyword rest keyword' rest' →
      ∃ nodes' n', Reads close (front' ++ keyword' :: rest') nodes' n' ∧
        Node.unplacedAll nodes' = Node.unplacedAll nodes ∧
        SameItems (items.drop n) ((front' ++ keyword' :: rest').drop n')

theorem Same.of_front {more more' : List Located} (h : SameItems xs ys) (hle : n ≤ xs.length) :
    Same n (xs ++ more) (ys ++ more') := by
  have hlength : (xs.map Located.item).length = xs.length := List.length_map ..
  unfold Same
  rw [List.map_append, List.map_append, ← h, List.take_append_of_le_length (by omega),
    List.take_append_of_le_length (by omega)]

/-- Items in front of the exchanged ones are read as before. -/
theorem exists_skipped {front front' rest : List Located} {keyword keyword' : Located}
    (rest' : List Located) (hdrop : ls.drop n = front ++ keyword :: rest)
    (hfront : SameItems (ls.take n ++ front) front')
    (hkeyword : keyword'.item = keyword.item) :
    Same (n + 1) ls (front' ++ keyword' :: rest') ∧
      ∃ back, SameItems front back ∧
        (front' ++ keyword' :: rest').drop n = back ++ keyword' :: rest' := by
  have hn : n < ls.length := by
    refine Nat.lt_of_not_le fun hle => ?_
    rw [List.drop_of_length_le hle] at hdrop
    simp at hdrop
  have htake : (ls.take n).length = n := List.length_take_of_le (Nat.le_of_lt hn)
  have hlength := congrArg List.length hfront
  rw [List.length_map, List.length_map, List.length_append, htake] at hlength
  refine ⟨?_, front'.drop n, ?_, ?_⟩
  · have hmore : SameItems (ls.take n ++ front ++ [keyword]) (front' ++ [keyword']) :=
      hfront.append (SameItems.cons_iff.2 ⟨hkeyword.symm, rfl⟩)
    have hall : ls = (ls.take n ++ front ++ [keyword]) ++ rest := by
      rw [List.append_assoc, List.append_assoc, List.singleton_append, ← hdrop,
        List.take_append_drop]
    have hsame : Same (n + 1) ((ls.take n ++ front ++ [keyword]) ++ rest)
        ((front' ++ [keyword']) ++ rest') := by
      refine .of_front hmore ?_
      rw [List.length_append, List.length_append, htake, List.length_singleton]
      omega
    rw [← hall] at hsame
    rwa [List.append_assoc, List.singleton_append] at hsame
  · have hdropped := hfront.drop n
    rwa [List.drop_left' htake] at hdropped
  · rw [List.drop_append_of_le_length (by omega)]

theorem exchangeable_cons {front rest : List Located} {keyword : Located} {statement : Import}
    (hls : ls = front ++ keyword :: rest) (hkeyword : keyword.item = .token statement.kind.token)
    (hnode : (importing statement.kind keyword rest).1 = .importing statement)
    (hexchange : ∀ l' front' keyword' rest', l'.item = l.item → SameItems front front' →
      Exchanged statement.kind keyword rest keyword' rest' →
      ∃ nodes' n', Reads close (l' :: (front' ++ keyword' :: rest')) nodes' n' ∧
        Node.unplacedAll nodes' = Node.unplacedAll nodes ∧
        SameItems ((l :: ls).drop n) ((l' :: (front' ++ keyword' :: rest')).drop n')) :
    Exchangeable close (l :: ls) nodes n statement := by
  subst hls
  refine ⟨l :: front, keyword, rest, rfl, hkeyword, hnode, ?_⟩
  intro front' keyword' rest' hfront hrest
  cases front' with
  | nil => cases hfront
  | cons l' front' =>
    obtain ⟨hitem, hfront⟩ := SameItems.cons_iff.1 hfront
    exact hexchange l' front' keyword' rest' hitem.symm hfront hrest

/-- A statement that is an import is exchanged itself. -/
theorem exchangeable_import {node : Node} {m : Nat} {statement : Import}
    (item : startsStatement l.item = true) (opens : opening l ls = (.complete node, n))
    (others : Reads close (ls.drop n) nodes m) (hs : statement ∈ node.imports) :
    Exchangeable close (l :: ls) (node :: nodes) (1 + n + m) statement := by
  have hkind : l.item = .token statement.kind.token ∧
      importing statement.kind l ls = (node, n) ∧ node = .importing statement := by
    rcases opening_complete opens with ⟨kind, hitem, himport⟩ | ⟨name, op, rfl⟩ | ⟨text, rfl⟩
    · obtain ⟨rfl, rfl⟩ := Prod.mk.inj himport
      obtain rfl := List.mem_singleton.1 hs
      exact ⟨hitem, rfl, rfl⟩
    · cases hs
    · cases hs
  obtain ⟨hkeyword, hread, rfl⟩ := hkind
  refine ⟨[], l, ls, rfl, hkeyword, congrArg Prod.fst hread, ?_⟩
  intro front' keyword' rest' hfront hrest
  obtain rfl := List.map_eq_nil_iff.1 (Eq.symm hfront)
  have hrest' := hrest.rest
  have hnode := hrest.node
  rw [hread] at hrest' hnode
  obtain ⟨nodes', m', hothers, hnodes, hleft⟩ := others.resumes hrest'
  have hopening := opening_import statement.kind rest' (hrest.item.trans hkeyword)
  refine ⟨_, _, .complete (hrest.item ▸ item) hopening hothers, ?_, ?_⟩
  · rw [Node.unplacedAll, Node.unplacedAll, hnode, hnodes]
  · rw [List.nil_append, drop_cons_add, drop_cons_add]
    exact hleft

/-- An import statement of a document can be exchanged. -/
theorem Reads.exchange (h : Reads close items nodes n) {statement : Import}
    (hs : statement ∈ Node.importsOfAll nodes) : Exchangeable close items nodes n statement := by
  induction h with
  | nothing | eof | dedent | closeBrace => cases hs
  | @blank close l ls nodes n item others ih =>
    obtain ⟨front, keyword, rest, hls, hkeyword, hnode, hexchange⟩ := ih hs
    refine exchangeable_cons hls hkeyword hnode
        fun l' front' keyword' rest' hitem hfront hrest => ?_
    obtain ⟨nodes', n', hreads, hnodes, hleft⟩ := hexchange front' keyword' rest' hfront hrest
    exact ⟨nodes', n' + 1, .blank (hitem ▸ item) hreads, hnodes, hleft⟩
  | @block close l ls children nodes n m item inner others ih ih' =>
    rcases List.mem_append.1 hs with hs | hs
    · obtain ⟨front, keyword, rest, hls, hkeyword, hnode, hexchange⟩ := ih hs
      refine exchangeable_cons hls hkeyword hnode
        fun l' front' keyword' rest' hitem hfront hrest => ?_
      obtain ⟨children', n', hinner', hchildren, hleft⟩ :=
        hexchange front' keyword' rest' hfront hrest
      obtain ⟨nodes', m', hothers', hnodes, hleft'⟩ := others.resumes (Or.inl hleft)
      refine ⟨_, _, .block (hitem ▸ item) hinner' hothers', ?_, ?_⟩
      · rw [Node.unplacedAll, Node.unplacedAll, Node.unplaced, Node.unplaced, hchildren, hnodes]
      · rw [drop_cons_add, drop_cons_add]
        exact hleft'
    · obtain ⟨front, keyword, rest, hdrop, hkeyword, hnode, hexchange⟩ := ih' hs
      have hls : ls = (ls.take n ++ front) ++ keyword :: rest := by
        rw [List.append_assoc, ← hdrop, List.take_append_drop]
      refine exchangeable_cons hls hkeyword hnode
        fun l' front' keyword' rest' hitem hfront hrest => ?_
      obtain ⟨hsame, back, hback, hdrop'⟩ := exists_skipped rest' hdrop hfront hrest.item
      obtain ⟨children', hinner', hchildren⟩ := inner.same hsame
      obtain ⟨nodes', m', hothers', hnodes, hleft⟩ := hexchange back keyword' rest' hback hrest
      rw [← hdrop'] at hothers' hleft
      refine ⟨_, _, .block (hitem ▸ item) hinner' hothers', ?_, ?_⟩
      · rw [Node.unplacedAll, Node.unplacedAll, Node.unplaced, Node.unplaced, hchildren, hnodes]
      · rw [drop_cons_add, drop_cons_add]
        exact hleft
  | @complete close l ls node nodes n m item opens others ih =>
    rcases List.mem_append.1 hs with hs | hs
    · exact exchangeable_import item opens others hs
    · obtain ⟨front, keyword, rest, hdrop, hkeyword, hnode, hexchange⟩ := ih hs
      have hls : ls = (ls.take n ++ front) ++ keyword :: rest := by
        rw [List.append_assoc, ← hdrop, List.take_append_drop]
      refine exchangeable_cons hls hkeyword hnode
        fun l' front' keyword' rest' hitem hfront hrest => ?_
      obtain ⟨hsame, back, hback, hdrop'⟩ := exists_skipped rest' hdrop hfront hrest.item
      obtain ⟨node', hopening, hnode'⟩ := complete_same hitem opens hsame
      obtain ⟨nodes', m', hothers', hnodes, hleft⟩ := hexchange back keyword' rest' hback hrest
      rw [← hdrop'] at hothers' hleft
      refine ⟨_, _, .complete (hitem ▸ item) hopening hothers', ?_, ?_⟩
      · rw [Node.unplacedAll, Node.unplacedAll, hnode', hnodes]
      · rw [drop_cons_add, drop_cons_add]
        exact hleft
  | @rule close inner l ls selector children nodes n k m item opens body others ih ih' =>
    rcases List.mem_append.1 hs with hs | hs
    · obtain ⟨front, keyword, rest, hdrop, hkeyword, hnode, hexchange⟩ := ih hs
      have hls : ls = (ls.take n ++ front) ++ keyword :: rest := by
        rw [List.append_assoc, ← hdrop, List.take_append_drop]
      refine exchangeable_cons hls hkeyword hnode
        fun l' front' keyword' rest' hitem hfront hrest => ?_
      obtain ⟨hsame, back, hback, hdrop'⟩ := exists_skipped rest' hdrop hfront hrest.item
      obtain ⟨children', k', hbody', hchildren, hleft⟩ := hexchange back keyword' rest' hback hrest
      rw [← hdrop'] at hbody' hleft
      rw [List.drop_drop, List.drop_drop] at hleft
      obtain ⟨nodes', m', hothers', hnodes, hleft'⟩ := others.resumes (Or.inl hleft)
      refine ⟨_, _, .rule (hitem ▸ item) (before_same hitem opens hsame) hbody' hothers', ?_, ?_⟩
      · rw [Node.unplacedAll, Node.unplacedAll, Node.unplaced, Node.unplaced, hchildren, hnodes]
      · rw [Nat.add_assoc 1 n k, Nat.add_assoc 1 n k', drop_cons_add, drop_cons_add]
        exact hleft'
    · obtain ⟨front, keyword, rest, hdrop, hkeyword, hnode, hexchange⟩ := ih' hs
      have hls : ls = (ls.take (n + k) ++ front) ++ keyword :: rest := by
        rw [List.append_assoc, ← hdrop, List.take_append_drop]
      refine exchangeable_cons hls hkeyword hnode
        fun l' front' keyword' rest' hitem hfront hrest => ?_
      obtain ⟨hsame, back, hback, hdrop'⟩ := exists_skipped rest' hdrop hfront hrest.item
      have hopening := before_same hitem opens (hsame.mono (by omega))
      have hrest' : Same (k + 1) (ls.drop n) _ := Same.drop (hsame.mono (by omega))
      obtain ⟨children', hbody', hchildren⟩ := body.same hrest'
      obtain ⟨nodes', m', hothers', hnodes, hleft⟩ := hexchange back keyword' rest' hback hrest
      rw [← hdrop'] at hothers' hleft
      refine ⟨_, _, .rule (hitem ▸ item) hopening hbody' hothers', ?_, ?_⟩
      · rw [Node.unplacedAll, Node.unplacedAll, Node.unplaced, Node.unplaced, hchildren, hnodes]
      · rw [Nat.add_assoc 1 n k, drop_cons_add, drop_cons_add]
        exact hleft

end StyleWeave.Syntax
