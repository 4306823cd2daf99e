import StyleWeave.Proofs.Syntax.Comments
import StyleWeave.Proofs.Syntax.Spans
import StyleWeave.Proofs.Token.Abreast

/-!
# Documents whose tokens have moved

The readers do not look at the texts of signs but to show them in headings (`expression_plain`). So
from a token stream whose tokens have moved and whose signs have other texts, the same statements
are read but for the texts of headings, and the imports among them have moved with their tokens
(`parse_crlf`).
-/

namespace StyleWeave

open Text (Near crlf moved)

/-! ## Texts of signs -/

/-- An item, without the text of a sign, where it is. -/
def Located.plain (l : Located) : Located :=
  { l with item := l.item.plain }

/-- Items without the texts of signs. -/
def plainAll (items : List Located) : List Located :=
  items.map Located.plain

@[simp] theorem plainAll_nil : plainAll [] = [] := rfl

@[simp] theorem plainAll_cons (l : Located) (ls : List Located) :
    plainAll (l :: ls) = l.plain :: plainAll ls := rfl

theorem plainAll_drop (items : List Located) (n : Nat) :
    (plainAll items).drop n = plainAll (items.drop n) :=
  List.map_drop.symm

/-- Only signs have other texts. -/
theorem plain_eq_iff {item shown : Item} (h : ∀ s, shown ≠ .token (.punct s)) :
    item.plain = shown ↔ item = shown := by
  cases item with
  | token t =>
    cases t with
    | punct s =>
      constructor
      · intro heq
        exact absurd heq.symm (h "")
      · intro heq
        exact absurd heq.symm (h s)
    | _ => exact Iff.rfl
  | _ => exact Iff.rfl

theorem Located.Moved.sign {source : List Char} {l l' : Located} (h : l.Moved source l')
    {s : String} (hitem : l.item = .token (.punct s)) : ∃ s', l'.item = .token (.punct s') := by
  have hplain := h.item
  rw [hitem] at hplain
  generalize l'.item = item' at hplain
  cases item' with
  | token t =>
    cases t with
    | punct s' => exact ⟨s', rfl⟩
    | _ => cases hplain
  | _ => cases hplain

theorem Located.Moved.item_iff {source : List Char} {l l' : Located} (h : l.Moved source l')
    {shown : Item} (hshown : ∀ s, shown ≠ .token (.punct s)) :
    l'.item = shown ↔ l.item = shown := by
  rw [← plain_eq_iff hshown, h.item, plain_eq_iff hshown]

theorem Located.Moved.item_eq {source : List Char} {l l' : Located} (h : l.Moved source l')
    {shown : Item} (hshown : ∀ s, shown ≠ .token (.punct s)) (hitem : l.item = shown) :
    l'.item = shown :=
  (h.item_iff hshown).2 hitem

namespace Syntax

variable {source : List Char} {items items' ls ls' : List Located} {l l' : Located}

theorem like_plain (n : Nat) (items : List Located) : Like n items (plainAll items) := by
  have hshape : ∀ item : Item, item.plain.shape = item.shape := by
    intro item
    cases item with
    | token t => cases t <;> rfl
    | _ => rfl
  unfold Like plainAll
  rw [List.map_map]
  congr 2
  funext l
  exact (hshape l.item).symm

theorem head_plain (items : List Located) (shown : Item)
    (h : ∀ s, shown ≠ .token (.punct s)) :
    (plainAll items).head?.map Located.item = some shown ↔
      items.head?.map Located.item = some shown := by
  cases items with
  | nil => exact Iff.rfl
  | cons l ls =>
    rw [plainAll_cons, List.head?_cons, List.head?_cons, Option.map_some, Option.map_some,
      Option.some_inj, Option.some_inj]
    exact plain_eq_iff h

mutual

theorem primary_plain (items : List Located) : primary (plainAll items) = primary items := by
  match items with
  | [] => rfl
  | l :: ls =>
    have hargs := arguments_plain (ls.drop 1)
    have hinner := expression_plain ls
    have hopen : startsWith .openParen (plainAll ls) = startsWith .openParen ls :=
      (like_plain 1 ls).startsWith told_openParen
    have hclose : ∀ n, startsWith .closeParen (plainAll (ls.drop n)) =
        startsWith .closeParen (ls.drop n) := fun n => (like_plain 1 _).startsWith told_closeParen
    have hcount : ∀ n, count .closeParen (plainAll (ls.drop n)) = count .closeParen (ls.drop n) :=
      fun n => (like_plain 1 _).count told_closeParen
    have hrest : ∀ n, exprRest 0 (plainAll (ls.drop n)) = exprRest 0 (ls.drop n) :=
      fun n => (like_plain _ _).exprRest
    rw [plainAll_cons, primary.eq_def, primary.eq_def]
    dsimp only [Located.plain]
    cases l.item with
    | token t =>
      cases t with
      | ident name =>
        dsimp only [Item.plain]
        rw [hopen, plainAll_drop, hargs, plainAll_drop, hcount]
      | openParen =>
        dsimp only [Item.plain]
        rw [hinner, plainAll_drop, hclose, hrest]
      | _ => rfl
    | _ => rfl
termination_by 4 * items.length
decreasing_by all_goals (simp only [List.length_cons, List.length_drop]; omega)

theorem sum_plain (left : Expr) (items : List Located) :
    sum left (plainAll items) = sum left items := by
  match items with
  | [] => rfl
  | l :: ls =>
    have hright := primary_plain ls
    have hmore := sum_plain (.concat left (primary ls).1) (ls.drop (primary ls).2)
    have hplus : l.plain.item = .token .plus ↔ l.item = .token .plus := plain_eq_iff (by simp)
    rw [plainAll_cons, sum.eq_def, sum.eq_def]
    dsimp only
    by_cases hl : l.item = .token .plus
    · rw [if_pos hl, if_pos (hplus.2 hl), hright, plainAll_drop, hmore]
    · rw [if_neg hl, if_neg fun hl' => hl (hplus.1 hl')]
termination_by 4 * items.length
decreasing_by all_goals (simp only [List.length_cons, List.length_drop]; omega)

/-- An expression is read without looking at the texts of signs. -/
theorem expression_plain (items : List Located) :
    expression (plainAll items) = expression items := by
  have hfirst := primary_plain items
  have hmore := sum_plain (primary items).1 (items.drop (primary items).2)
  rw [expression.eq_def, expression.eq_def]
  dsimp only
  rw [← plainAll_drop] at hmore
  rw [hfirst, hmore, plainAll_drop]
  generalize (primary items).2 + (sum (primary items).1 (items.drop (primary items).2)).2 = n
  rw [(like_plain 1 (items.drop n)).atEnd, (like_plain _ (items.drop n)).exprRest]
  split
  · rfl
  · cases items.drop n with
    | nil => rfl
    | cons l ls =>
      generalize (sum (primary items).1 (items.drop (primary items).2)).1 = e
      rw [plainAll_cons, List.head?_cons, List.head?_cons, Option.map_some, Option.map_some]
      dsimp only [Located.plain]
      cases l.item with
      | token t =>
        cases t with
        | punct s => cases e <;> rfl
        | _ => rfl
      | _ => rfl
termination_by 4 * items.length + 1
decreasing_by
  · omega
  · simp only [List.length_drop]; omega

theorem arguments_plain (items : List Located) : arguments (plainAll items) = arguments items := by
  match items with
  | [] => rfl
  | l :: ls =>
    have harg := expression_plain (l :: ls)
    have hmore := arguments_plain (ls.drop ((expression (l :: ls)).2 - 1))
    have hskip := arguments_plain ls
    rw [plainAll_cons] at harg
    rw [plainAll_cons, arguments.eq_def, arguments.eq_def]
    dsimp only
    rw [harg, plainAll_drop, hmore, hskip]
    dsimp only [Located.plain]
    cases l.item with
    | token t => cases t <;> rfl
    | _ => rfl
termination_by 4 * items.length + 2
decreasing_by all_goals (simp only [List.length_cons, List.length_drop]; omega)

end

theorem newlines_plain (items : List Located) : newlines (plainAll items) = newlines items := by
  unfold newlines plainAll
  rw [List.takeWhile_map, List.length_map]
  congr 2
  funext l
  have hnewline : l.plain.item = .token .newline ↔ l.item = .token .newline :=
    plain_eq_iff (by simp)
  exact decide_eq_decide.2 hnewline

theorem afterComma_plain (items : List Located) :
    afterComma (plainAll items) = afterComma items := by
  have hindent := head_plain (items.drop (newlines items)) .indent (by simp)
  unfold afterComma
  dsimp only
  rw [newlines_plain, plainAll_drop]
  by_cases h : (items.drop (newlines items)).head?.map Located.item = some .indent
  · rw [if_pos h, if_pos (hindent.2 h)]
  · rw [if_neg h, if_neg fun h' => h (hindent.1 h')]

/-- A list of expressions is read without looking at the texts of signs. -/
theorem expressions_plain (items : List Located) :
    expressions (plainAll items) = expressions items := by
  induction hlength : items.length using Nat.strongRecOn generalizing items with
  | ind length ih =>
    rw [expressions_eq, expressions_eq items, expression_plain, plainAll_drop]
    cases hrest : items.drop (expression items).2 with
    | nil => rfl
    | cons l ls =>
      have hshorter : ∀ n, (ls.drop n).length < length := by
        intro n
        have hlen := congrArg List.length hrest
        simp only [List.length_drop, List.length_cons] at hlen ⊢
        omega
      have hcomma : l.plain.item = .token .comma ↔ l.item = .token .comma :=
        plain_eq_iff (by simp)
      rw [plainAll_cons]
      dsimp only
      rw [afterComma_plain, plainAll_drop, ih _ (hshorter _) _ rfl]
      by_cases hl : l.item = .token .comma
      · rw [if_pos hl, if_pos (hcomma.2 hl)]
      · rw [if_neg hl, if_neg fun hl' => hl (hcomma.1 hl')]

theorem continuationRest_plain (indents : Nat) (items : List Located) :
    continuationRest indents (plainAll items) = continuationRest indents items := by
  induction indents generalizing items with
  | zero => rfl
  | succ indents ih =>
    have hdedent := head_plain (items.drop (newlines items)) .dedent (by simp)
    unfold continuationRest
    dsimp only
    rw [newlines_plain, plainAll_drop, plainAll_drop, ih]
    by_cases h : (items.drop (newlines items)).head?.map Located.item = some .dedent
    · rw [if_pos h, if_pos (hdedent.2 h)]
    · rw [if_neg h, if_neg fun h' => h (hdedent.1 h')]

/-- A heading leads where it leads whatever the texts of its signs are. -/
theorem heading_plain (depth : Nat) (items : List Located) :
    (heading depth (plainAll items)).2 = (heading depth items).2 := by
  induction items generalizing depth with
  | nil => rfl
  | cons l ls ih =>
    have hindent := head_plain ls .indent (by simp)
    have hmore : ∀ depth,
        ((heading depth (plainAll ls)).2.1, (heading depth (plainAll ls)).2.2 + 1) =
          ((heading depth ls).2.1, (heading depth ls).2.2 + 1) := by
      intro depth
      rw [ih]
    rw [plainAll_cons]
    unfold heading
    dsimp only [Located.plain]
    cases l.item with
    | eof | indent | dedent => rfl
    | token t =>
      cases t with
      | openBrace | semicolon | closeBrace =>
        dsimp only [Item.plain]
        by_cases hdepth : depth = 0
        · rw [if_pos hdepth, if_pos hdepth]
        · rw [if_neg hdepth, if_neg hdepth]
          exact hmore depth
      | newline =>
        dsimp only [Item.plain]
        by_cases hdepth : depth = 0
        · rw [if_pos hdepth, if_pos hdepth]
          by_cases h : ls.head?.map Located.item = some .indent
          · rw [if_pos h, if_pos (hindent.2 h)]
          · rw [if_neg h, if_neg fun h' => h (hindent.1 h')]
        · rw [if_neg hdepth, if_neg hdepth]
          exact hmore depth
      | openParen => exact hmore (depth + 1)
      | closeParen => exact hmore (depth - 1)
      | _ => exact hmore depth

end Syntax

/-! ## Statements -/

/-- An import statement has moved. -/
structure Import.Moved (source : List Char) (s s' : Import) : Prop where
  kind : s'.kind = s.kind
  exprs : s'.exprs = s.exprs
  line : s'.line = s.line
  start : s'.start = moved source s.start
  stop : Near source s.stop s'.stop

mutual

/-- Two statements are the same, but for the texts of headings, and the imports have moved. -/
inductive Node.Moved (source : List Char) : Node → Node → Prop where
  | block {children children' : List Node} (inner : Node.MovedAll source children children') :
      Node.Moved source (.block children) (.block children')
  | rule {selector selector' : String} {children children' : List Node}
      (inner : Node.MovedAll source children children') :
      Node.Moved source (.rule selector children) (.rule selector' children')
  | importing {statement statement' : Import} (here : statement.Moved source statement') :
      Node.Moved source (.importing statement) (.importing statement')
  | assign (name : String) (op : AssignOp) (value : Expr) :
      Node.Moved source (.assign name op value) (.assign name op value)
  | declaration {text text' : String} :
      Node.Moved source (.declaration text) (.declaration text')

/-- The same of consecutive statements. -/
inductive Node.MovedAll (source : List Char) : List Node → List Node → Prop where
  | nil : Node.MovedAll source [] []
  | cons {node node' : Node} {rest rest' : List Node} (first : Node.Moved source node node')
      (others : Node.MovedAll source rest rest') :
      Node.MovedAll source (node :: rest) (node' :: rest')

end

namespace Syntax

variable {source : List Char} {items items' ls ls' : List Located} {l l' : Located}

/-- How a statement starts, when its tokens have moved. -/
inductive Opening.Moved (source : List Char) : Opening → Opening → Prop where
  | complete {node node' : Node} (here : node.Moved source node') :
      Opening.Moved source (.complete node) (.complete node')
  | before {selector selector' : String} {close : BlockEnd} :
      Opening.Moved source (.before selector close) (.before selector' close)

theorem sameItems_of_moved (h : AllMoved source items items') :
    SameItems (plainAll items) (plainAll items') := by
  induction h with
  | nil => rfl
  | cons hl _ ih => exact SameItems.cons_iff.2 ⟨hl.item.symm, ih⟩

theorem AllMoved.drop (h : AllMoved source items items') (n : Nat) :
    AllMoved source (items.drop n) (items'.drop n) :=
  List.forall₂_drop n h

theorem AllMoved.expression (h : AllMoved source items items') :
    expression items' = expression items := by
  rw [← expression_plain, ← expression_plain items, (sameItems_of_moved h).expression]

theorem AllMoved.expressions (h : AllMoved source items items') :
    expressions items' = expressions items := by
  rw [← expressions_plain, ← expressions_plain items, (sameItems_of_moved h).expressions]

theorem AllMoved.statementRest (h : AllMoved source items items') :
    statementRest items' = statementRest items := by
  rw [← (like_plain _ items').statementRest, ← (like_plain _ items).statementRest,
    (sameItems_of_moved h).statementRest]

theorem AllMoved.continuationRest (h : AllMoved source items items') (indents : Nat) :
    continuationRest indents items' = continuationRest indents items := by
  rw [← continuationRest_plain, ← continuationRest_plain indents items,
    (sameItems_of_moved h).continuationRest]

theorem AllMoved.heading (h : AllMoved source items items') (depth : Nat) :
    (heading depth items').2 = (heading depth items).2 := by
  rw [← heading_plain, ← heading_plain depth items, (sameItems_of_moved h).heading]

theorem count_plain {t : Token} (ht : ¬ Lexeme.IsPunct t) (items : List Located) :
    count t (plainAll items) = count t items := by
  have hhead := head_plain items (.token t) fun s heq => ht ⟨s, Item.token.inj heq⟩
  unfold count startsWith
  rw [decide_eq_decide.2 hhead]

theorem AllMoved.count (h : AllMoved source items items') {t : Token} (ht : ¬ Lexeme.IsPunct t) :
    count t items' = count t items := by
  rw [← count_plain ht, ← count_plain ht items, (sameItems_of_moved h).count]

/-- A stretch of items stops near where it has moved. -/
theorem AllMoved.lastStop (h : AllMoved source items items') :
    Near source (lastStop items) (lastStop items') := by
  unfold Syntax.lastStop
  refine List.rel_foldl (P := Near source) ?_ (Text.near_zero source) h
  intro stop stop' hstop l l' hl
  dsimp only
  cases hitem : l.item with
  | eof | indent | dedent =>
    rw [hl.item_eq (by simp) hitem]
    exact hstop
  | token t =>
    cases t with
    | newline =>
      rw [hl.item_eq (by simp) hitem]
      exact hstop
    | punct s =>
      obtain ⟨s', hitem'⟩ := hl.sign hitem
      rw [hitem']
      exact hl.stop ⟨_, hitem, by simp⟩
    | _ =>
      rw [hl.item_eq (by simp) hitem]
      exact hl.stop ⟨_, hitem, by simp⟩

theorem importing_moved (kind : ImportKind) (hl : l.Moved source l')
    (hitem : l.item = .token kind.token) (h : AllMoved source ls ls') :
    (importing kind l ls).1.Moved source (importing kind l' ls').1 ∧
      (importing kind l' ls').2 = (importing kind l ls).2 := by
  have hsolid : l.IsSolid := ⟨_, hitem, kind.token_ne_newline⟩
  have hsemicolon : ¬ Lexeme.IsPunct .semicolon := by
    rintro ⟨s, heq⟩
    cases heq
  unfold importing
  dsimp only
  rw [AllMoved.expressions h, AllMoved.statementRest (AllMoved.drop h _),
    AllMoved.count (AllMoved.drop h _) hsemicolon,
    AllMoved.continuationRest (AllMoved.drop h _)]
  refine ⟨.importing ⟨rfl, rfl, hl.line, hl.start hsolid, ?_⟩, rfl⟩
  exact AllMoved.lastStop (.cons hl (List.forall₂_take _ h))

theorem assignment_moved (name : String) (op : AssignOp) (h : AllMoved source ls ls') :
    assignment name op ls' = assignment name op ls := by
  unfold assignment
  dsimp only
  rw [AllMoved.expression h, AllMoved.statementRest (AllMoved.drop h _)]

theorem assignOp?_moved (hl : l.Moved source l') : assignOp? l'.item = assignOp? l.item := by
  have hplain : ∀ item : Item, assignOp? item.plain = assignOp? item := by
    intro item
    cases item with
    | token t => cases t <;> rfl
    | _ => rfl
  rw [← hplain, hl.item, hplain]

theorem Headed.moved (h : Headed l ls) (hl : l.Moved source l') (hls : AllMoved source ls ls') :
    Headed l' ls' := by
  obtain ⟨hkind, hassign⟩ := h
  refine ⟨fun kind hitem => ?_, fun name hitem => ?_⟩
  · exact hkind kind ((hl.item_iff (by cases kind <;> nofun)).1 hitem)
  · have hnone := hassign name ((hl.item_iff (by simp)).1 hitem)
    cases hls with
    | nil => rfl
    | cons hnext _ =>
      rw [List.head?_cons, Option.bind_some] at hnone ⊢
      rw [assignOp?_moved hnext, hnone]

theorem opening_moved (hl : l.Moved source l') (h : AllMoved source ls ls') :
    (opening l ls).1.Moved source (opening l' ls').1 ∧ (opening l' ls').2 = (opening l ls).2 := by
  have hheading := AllMoved.heading (.cons hl h) 0
  generalize hopening : opening l ls = read
  obtain ⟨start, n⟩ := read
  cases opening_eq_iff.1 hopening with
  | import_ kind hkeyword =>
    obtain ⟨hnode, hn⟩ := importing_moved kind hl hkeyword h
    rw [opening_import kind ls' (hl.item_eq (by cases kind <;> nofun) hkeyword)]
    exact ⟨.complete hnode, hn⟩
  | assigns hname split hop =>
    subst split
    cases h with
    | cons hnext hothers =>
      rw [opening_assign _ (hl.item_eq (by simp) hname) ((assignOp?_moved hnext).trans hop),
        assignment_moved _ _ hothers]
      exact ⟨.complete (.assign _ _ _), rfl⟩
  | declaration hheaded hread =>
    have hread' := hheading.trans (congrArg Prod.snd hread)
    rw [opening_eq_iff.2 (.declaration (hheaded.moved hl h) (Prod.ext rfl hread'))]
    exact ⟨.complete .declaration, rfl⟩
  | block hheaded hread =>
    have hread' := hheading.trans (congrArg Prod.snd hread)
    rw [opening_eq_iff.2 (.block (hheaded.moved hl h) (Prod.ext rfl hread'))]
    exact ⟨.before, rfl⟩

/-- Moved statements, and as many items as they took. -/
def ReadAlike (source : List Char) (read read' : List Node × Nat) : Prop :=
  Node.MovedAll source read.1 read'.1 ∧ read'.2 = read.2

theorem together_bind_read {α : Type} {R : α → α → Prop}
    {x x' : Except ParseError (List Node × Nat)} {f f' : List Node × Nat → Except ParseError α}
    (h : Together (ReadAlike source) x x')
    (hf : ∀ {nodes nodes' : List Node} {n : Nat}, Node.MovedAll source nodes nodes' →
      Together R (f (nodes, n)) (f' (nodes', n))) :
    Together R (x >>= f) (x' >>= f') := by
  refine Together.bind h ?_
  rintro ⟨nodes, n⟩ ⟨nodes', n'⟩ ⟨hnodes, hn⟩
  obtain rfl : n' = n := hn
  exact hf hnodes

theorem startsStatement_moved (hl : l.Moved source l') :
    startsStatement l'.item = startsStatement l.item := by
  have hplain : ∀ item : Item, startsStatement item.plain = startsStatement item := by
    intro item
    cases item with
    | token t => cases t <;> rfl
    | _ => rfl
  rw [← hplain, hl.item, hplain]

theorem together_ite {α : Type} {R : α → α → Prop} {p : Prop} [Decidable p]
    {x y x' y' : Except ParseError α} (h : Together R x y) (h' : Together R x' y') :
    Together R (if p then x else x') (if p then y else y') := by
  by_cases hp : p
  · rw [if_pos hp, if_pos hp]
    exact h
  · rw [if_neg hp, if_neg hp]
    exact h'

/-- From items that have moved, the same statements are read, or there is the same error. -/
theorem statements_moved (lastLine : Nat) (close : BlockEnd) (h : AllMoved source items items') :
    Together (ReadAlike source) (statements lastLine close items)
      (statements lastLine close items') := by
  induction hlength : items.length using Nat.strongRecOn generalizing close items items' with
  | ind length ih =>
    cases h with
    | nil =>
      rw [statements_nil]
      exact together_ite rfl ⟨.nil, rfl⟩
    | @cons l l' ls ls' hl hls =>
      have hshorter : ∀ n, (ls.drop n).length < length := by
        intro n
        rw [← hlength, List.length_drop, List.length_cons]
        omega
      have hrest : ∀ close n, Together (ReadAlike source) (statements lastLine close (ls.drop n))
          (statements lastLine close (ls'.drop n)) :=
        fun close n => ih _ (hshorter n) close (AllMoved.drop hls n) rfl
      have hall : ∀ close, Together (ReadAlike source) (statements lastLine close ls)
          (statements lastLine close ls') := fun close => by simpa using hrest close 0
      have hsame : ∀ shown, (∀ s, shown ≠ .token (.punct s)) → l.item = shown →
          l'.item = shown := fun _ => hl.item_eq
      cases role l.item with
      | eof hitem =>
        rw [statements_of_eof ls hitem, statements_of_eof ls' (hsame _ (by simp) hitem), hl.line]
        exact together_ite rfl ⟨.nil, rfl⟩
      | dedent hitem =>
        rw [statements_of_dedent ls hitem, statements_of_dedent ls' (hsame _ (by simp) hitem),
          hl.line]
        exact together_ite ⟨.nil, rfl⟩ rfl
      | closeBrace hitem =>
        rw [statements_of_closeBrace ls hitem,
          statements_of_closeBrace ls' (hsame _ (by simp) hitem), hl.line]
        exact together_ite ⟨.nil, rfl⟩ rfl
      | blank hitem =>
        rw [statements_of_blank ls hitem,
          statements_of_blank ls' (hitem.imp (hsame _ (by simp)) (hsame _ (by simp)))]
        exact together_bind_read (hall close) fun hnodes => ⟨hnodes, rfl⟩
      | indent hitem =>
        rw [statements_of_indent ls hitem, statements_of_indent ls' (hsame _ (by simp) hitem)]
        exact together_bind_read (hall .dedent) fun hchildren =>
          together_bind_read (hrest close _) fun hnodes => ⟨.cons (.block hchildren) hnodes, rfl⟩
      | statement hstarts =>
        obtain ⟨hopening, hn⟩ := opening_moved hl hls
        rw [statements_of_starts ls hstarts,
          statements_of_starts ls' ((startsStatement_moved hl).trans hstarts)]
        generalize opening l ls = first at hopening hn ⊢
        generalize opening l' ls' = first' at hopening hn ⊢
        obtain ⟨start, n⟩ := first
        obtain ⟨start', n'⟩ := first'
        obtain rfl : n' = n := hn
        cases hopening with
        | complete hnode =>
          exact together_bind_read (hrest close _) fun hnodes => ⟨.cons hnode hnodes, rfl⟩
        | @before _ _ inner =>
          exact together_bind_read (hrest inner _) fun hchildren =>
            together_bind_read (hrest close _) fun hnodes => ⟨.cons (.rule hchildren) hnodes, rfl⟩

/-- With carriage returns in front of its line feeds, a text is read as the same statements but for
the texts of headings, and the imports have moved; or there is the same error. -/
theorem parse_crlf (source : List Char) :
    Together (Node.MovedAll source) (parse source) (parse (crlf source)) := by
  refine Together.bind (tokenize_crlf source) fun items items' hitems => ?_
  have hlast : items'.getLast?.map Located.line = items.getLast?.map Located.line := by
    have hlines : items'.map Located.line = items.map Located.line := by
      induction hitems with
      | nil => rfl
      | cons hl _ ih => rw [List.map_cons, List.map_cons, hl.line, ih]
    rw [← List.getLast?_map, hlines, List.getLast?_map]
  rw [parseItems, parseItems, hlast]
  exact Together.map (statements_moved _ .eof hitems) fun _ _ hread => hread.1

end Syntax

/-! ## Import statements -/

/-- The import has moved, and its names are the same. -/
structure ImportSite.Moved (source : List Char) (site site' : ImportSite) : Prop where
  statement : site.statement.Moved source site'.statement
  names : site'.names = site.names

namespace Node

variable {source : List Char}

mutual

theorem Moved.sites {node node' : Node} (table : Table) (scope : Scope)
    (h : node.Moved source node') :
    List.Forall₂ (ImportSite.Moved source) (node.sites table scope).1
        (node'.sites table scope).1 ∧
      (node'.sites table scope).2 = (node.sites table scope).2 :=
  match h with
  | .block inner | .rule inner => ⟨(inner.sitesOfAll table scope).1, rfl⟩
  | .importing here => ⟨.cons ⟨here, congrArg (List.map _) here.exprs⟩ .nil, rfl⟩
  | .assign _ _ _ | .declaration => ⟨.nil, rfl⟩

theorem MovedAll.sitesOfAll {nodes nodes' : List Node} (table : Table) (scope : Scope)
    (h : MovedAll source nodes nodes') :
    List.Forall₂ (ImportSite.Moved source) (Node.sitesOfAll table scope nodes).1
        (Node.sitesOfAll table scope nodes').1 ∧
      (Node.sitesOfAll table scope nodes').2 = (Node.sitesOfAll table scope nodes).2 :=
  match h with
  | .nil => ⟨.nil, rfl⟩
  | @MovedAll.cons _ node _ _ _ first others => by
    obtain ⟨hhere, hscope⟩ := first.sites table scope
    obtain ⟨hthere, hbehind⟩ := others.sitesOfAll table (node.sites table scope).2
    unfold Node.sitesOfAll
    dsimp only
    rw [hscope]
    exact ⟨List.rel_append hhere hthere, hbehind⟩

end

/-- The imports have the same names. -/
theorem MovedAll.importSites {nodes nodes' : List Node} (h : MovedAll source nodes nodes')
    (table : Table) :
    List.Forall₂ (ImportSite.Moved source) (importSites nodes table)
      (importSites nodes' table) :=
  (h.sitesOfAll table []).1

end Node

end StyleWeave
