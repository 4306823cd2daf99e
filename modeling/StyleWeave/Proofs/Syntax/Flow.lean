import StyleWeave.Proofs.Syntax.Locality
import StyleWeave.Proofs.Syntax.Pieces
import StyleWeave.Proofs.Syntax.Spans
import StyleWeave.Proofs.Token.Laying

/-!
# Token streams with and without their imports

Which imports a token stream has depends on its tokens alone, whatever its layout is. The tokens
between the import statements are read as the same statements wherever they stand (`Idle`), and
`Course` cuts the tokens of a stream accordingly.
-/

namespace StyleWeave

/-- The item, whatever sign it is if it is one. -/
def Item.bare : Item → Item
  | .token t => .token t.bare
  | item => item

namespace Syntax

/-- The import statements that are read from some items, whatever blocks they stand in. -/
def importsOf (items : List Located) : List Import :=
  match items with
  | [] => []
  | l :: ls =>
    if l.item = .eof then []
    else if startsStatement l.item then
      match opening l ls with
      | (.complete node, n) => node.imports ++ importsOf (ls.drop n)
      | (.before _ _, n) => importsOf (ls.drop n)
    else importsOf ls
termination_by items.length
decreasing_by all_goals (simp only [List.length_cons, List.length_drop]; omega)

variable {l : Located} {ls items : List Located}

theorem importsOf_nil : importsOf [] = [] := by
  rw [importsOf.eq_def]

theorem importsOf_eof (h : l.item = .eof) : importsOf (l :: ls) = [] := by
  rw [importsOf.eq_def]
  dsimp only
  rw [if_pos h]

theorem importsOf_between (heof : l.item ≠ .eof) (h : startsStatement l.item = false) :
    importsOf (l :: ls) = importsOf ls := by
  rw [importsOf.eq_def]
  dsimp only
  rw [if_neg heof, h]
  rfl

theorem importsOf_complete {node : Node} {n : Nat} (h : startsStatement l.item = true)
    (hopening : opening l ls = (.complete node, n)) :
    importsOf (l :: ls) = node.imports ++ importsOf (ls.drop n) := by
  rw [importsOf.eq_def]
  dsimp only
  rw [if_neg (not_eof_of_starts h), if_pos h, hopening]

theorem importsOf_before {selector : String} {close : BlockEnd} {n : Nat}
    (h : startsStatement l.item = true) (hopening : opening l ls = (.before selector close, n)) :
    importsOf (l :: ls) = importsOf (ls.drop n) := by
  rw [importsOf.eq_def]
  dsimp only
  rw [if_neg (not_eof_of_starts h), if_pos h, hopening]

/-- The imports of a block come first, and then those behind it. -/
theorem Reads.importsOf_eq {close : BlockEnd} {nodes : List Node} {n : Nat}
    (h : Reads close items nodes n) :
    importsOf items = Node.importsOfAll nodes ++ importsOf (items.drop n) := by
  induction h with
  | nothing open_ => rfl
  | eof ls item open_ => rfl
  | dedent ls item | closeBrace ls item =>
    rw [importsOf_between (by rw [item]; simp) (by rw [item]; rfl)]
    rfl
  | @blank close l ls nodes n item _ ih =>
    have hbetween : l.item ≠ .eof ∧ startsStatement l.item = false := by
      rcases item with item | item
      · rw [item]
        exact ⟨by simp, rfl⟩
      · rw [item]
        exact ⟨by simp, rfl⟩
    rw [importsOf_between hbetween.1 hbetween.2, ih]
    rfl
  | @block close l ls _ _ n m item _ _ ih ih' =>
    rw [importsOf_between (by rw [item]; simp) (by rw [item]; rfl), ih, ih', drop_cons_add,
      ← List.append_assoc]
    rfl
  | @complete close l ls _ _ n m item statement _ ih =>
    rw [importsOf_complete item statement, ih, drop_cons_add, ← List.append_assoc]
    rfl
  | @rule close inner l ls _ _ _ n k m item statement _ _ ih ih' =>
    rw [importsOf_before item statement, ih, List.drop_drop, ih', Nat.add_assoc 1 n k,
      drop_cons_add, ← List.append_assoc]
    rfl

/-- Behind the statements of a document there are no more. -/
theorem Reads.importsOf_rest {nodes : List Node} {n : Nat} (h : Reads .eof items nodes n) :
    importsOf (items.drop n) = [] := by
  generalize hclose : BlockEnd.eof = close at h
  induction h with
  | nothing open_ => exact importsOf_nil
  | eof ls item open_ => exact importsOf_eof item
  | dedent ls item | closeBrace ls item => cases hclose
  | blank item _ ih => exact ih hclose
  | @block close l ls _ _ n m item _ _ _ ih' =>
    rw [drop_cons_add]
    exact ih' hclose
  | @complete close l ls _ _ n m item statement _ ih =>
    rw [drop_cons_add]
    exact ih hclose
  | @rule close inner l ls _ _ _ n k m item statement _ _ _ ih' =>
    rw [Nat.add_assoc 1 n k, drop_cons_add]
    exact ih' hclose

theorem importsOf_of_parse {source : List Char} {document : List Node}
    (htokens : tokenize source = .ok items) (h : parse source = .ok document) :
    importsOf items = Node.importsOfAll document := by
  obtain ⟨items', htokens', hparse⟩ := bind_eq_ok h
  obtain rfl := Except.ok.inj (htokens.symm.trans htokens')
  obtain ⟨n, hreads⟩ := parseItems_eq_ok_iff.1 hparse
  rw [hreads.importsOf_eq, hreads.importsOf_rest, List.append_nil]

/-! ## Items and the tokens that they are -/

/-- The items are tokens, spelled like this. -/
def Bares (items : List Located) (ts : List Token) : Prop :=
  items.map (fun l => l.item.bare) = ts.map Item.token

variable {xs ys : List Located} {t : Token} {ts us : List Token}

theorem bares_nil_iff : Bares xs [] ↔ xs = [] := by
  unfold Bares
  rw [List.map_nil, List.map_eq_nil_iff]

theorem bares_cons_iff : Bares xs (t :: ts) ↔
    ∃ l ls, xs = l :: ls ∧ l.item.bare = .token t ∧ Bares ls ts := by
  unfold Bares
  rw [List.map_cons, List.map_eq_cons_iff]

theorem Bares.cons (hl : l.item.bare = .token t) (h : Bares xs ts) : Bares (l :: xs) (t :: ts) :=
  bares_cons_iff.2 ⟨l, xs, rfl, hl, h⟩

theorem Bares.append (h : Bares xs ts) (h' : Bares ys us) : Bares (xs ++ ys) (ts ++ us) := by
  unfold Bares at h h' ⊢
  rw [List.map_append, List.map_append, h, h']

theorem bares_append_iff : Bares xs (ts ++ us) ↔
    ∃ ys zs, xs = ys ++ zs ∧ Bares ys ts ∧ Bares zs us := by
  unfold Bares
  rw [List.map_append, List.map_eq_append_iff]

theorem Bares.length (h : Bares xs ts) : xs.length = ts.length := by
  have hlength := congrArg List.length h
  rwa [List.length_map, List.length_map] at hlength

/-- Items that are spelled the same have the same shapes. -/
theorem Bares.like (h : Bares xs ts) (h' : Bares ys ts) (more more' : List Located) :
    Like xs.length (xs ++ more) (ys ++ more') := by
  have hshape : ∀ item : Item, item.bare.shape = item.shape := by
    intro item
    cases item with
    | token t => cases t <;> rfl
    | _ => rfl
  have hsame : xs.map (fun l => l.item.shape) = ys.map fun l => l.item.shape := by
    have hmap : ∀ zs : List Located, zs.map (fun l => l.item.shape) =
        (zs.map fun l => l.item.bare).map Item.shape := by
      intro zs
      rw [List.map_map]
      exact List.map_congr_left fun l _ => (hshape l.item).symm
    rw [hmap, hmap, h, h']
  have hlength : (ys.map fun l => l.item.shape).length = xs.length := by
    rw [← hsame, List.length_map]
  unfold Like
  rw [List.map_append, List.map_append, List.take_left' (List.length_map _),
    List.take_left' hlength, hsame]

theorem startsStatement_bare (item : Item) : startsStatement item.bare = startsStatement item := by
  cases item with
  | token t => cases t <;> rfl
  | _ => rfl

theorem endsStatement_bare (item : Item) : endsStatement item.bare = endsStatement item := by
  cases item with
  | token t => cases t <;> rfl
  | _ => rfl

theorem assignOp?_bare (item : Item) : assignOp? item.bare = assignOp? item := by
  cases item with
  | token t => cases t <;> rfl
  | _ => rfl

/-- A token with a spelling of its own is told by it. -/
theorem eq_of_bare {item : Item} (h : item.bare = .token t) (ht : ∀ s, t ≠ .punct s) :
    item = .token t := by
  cases item with
  | token u =>
    cases u with
    | punct s => exact absurd (Item.token.inj h).symm (ht "")
    | _ => exact h
  | _ => cases h

/-! ## Stretches without indentation -/

/-- How many parentheses of its own a statement has open behind a token. -/
def depthBehind (g : Nat) : Token → Nat
  | .openParen => g + 1
  | .closeParen => g - 1
  | _ => g

/-- The tokens are on one line, but for line breaks in parentheses of their own. -/
inductive Runs : Nat → List Token → Nat → Prop where
  | nil {g : Nat} : Runs g [] g
  | cons {g g' : Nat} {t : Token} {ts : List Token} (inside : t = .newline → 0 < g)
      (others : Runs (depthBehind g t) ts g') : Runs g (t :: ts) g'

variable {p g g' : Nat} {fresh : Bool} {rest : List Located}

/-- Behind a token that is no line break, or in parentheses, there is no indentation. -/
theorem laid_behind (h : Laid p fresh (l :: ls)) (hl : l.item.bare = .token t) (hg : g ≤ p) :
    ∃ p' fresh', Laid p' fresh' ls ∧ depthBehind g t ≤ p' ∧
      ((t = .newline → 0 < g) → fresh' = false ∨ 0 < p') := by
  cases h with
  | eof item =>
    rw [item] at hl
    cases hl
  | layout item _ =>
    rcases item with item | item
    · rw [item] at hl
      cases hl
    · rw [item] at hl
      cases hl
  | newline item others =>
    rw [item] at hl
    obtain rfl : Token.newline = t := Item.token.inj hl
    exact ⟨p, true, others, hg, fun hinside => Or.inr (Nat.lt_of_lt_of_le (hinside rfl) hg)⟩
  | @token _ p' _ _ _ u item newline count others =>
    rw [item] at hl
    obtain rfl := Item.token.inj hl
    refine ⟨p', false, others, ?_, fun _ => Or.inl rfl⟩
    cases u with
    | openParen =>
      obtain rfl := Option.some.inj count
      exact Nat.succ_le_succ hg
    | closeParen =>
      have hcount : (if p = 0 then none else some (p - 1)) = some p' := count
      split at hcount
      · cases hcount
      · obtain rfl := Option.some.inj hcount
        exact Nat.sub_le_sub_right hg 1
    | _ =>
      obtain rfl := Option.some.inj count
      exact hg

theorem token_of_within (h : Laid p fresh items) (hwithin : fresh = false ∨ 0 < p) :
    ∃ l ls t, items = l :: ls ∧ l.item = .token t := by
  cases h with
  | eof | layout => simp at hwithin
  | newline item _ => exact ⟨_, _, _, rfl, item⟩
  | token item _ _ _ => exact ⟨_, _, _, rfl, item⟩

theorem tokens_cons {t : Token} (hl : l.item = .token t) : tokens (l :: ls) = l :: tokens ls := by
  unfold tokens
  rw [List.filter_cons_of_pos (by rw [hl]; rfl)]

theorem tokens_cons_of_not (hl : l.item.isToken = false) : tokens (l :: ls) = tokens ls :=
  List.filter_cons_of_neg (by simp [hl])

/-- Tokens that run on stand one right behind the other. -/
theorem Runs.split (h : Runs g ts g') (hbares : Bares xs ts) {last : Located}
    {others : List Located} (hlaid : Laid p fresh items) (hg : g ≤ p)
    (hstart : ∃ l ls t, items = l :: ls ∧ l.item = .token t)
    (htokens : tokens items = xs ++ last :: others) :
    ∃ rest p' fresh', items = xs ++ last :: rest ∧ tokens rest = others ∧
      Laid p' fresh' (last :: rest) := by
  induction h generalizing xs items p fresh with
  | nil =>
    obtain rfl := bares_nil_iff.1 hbares
    obtain ⟨l, ls, t, rfl, hl⟩ := hstart
    rw [tokens_cons hl] at htokens
    obtain ⟨rfl, hrest⟩ := List.cons.inj htokens
    exact ⟨ls, p, fresh, rfl, hrest, hlaid⟩
  | cons inside _ ih =>
    obtain ⟨x, xs, rfl, hx, hxs⟩ := bares_cons_iff.1 hbares
    obtain ⟨l, ls, t, rfl, hl⟩ := hstart
    rw [tokens_cons hl] at htokens
    obtain ⟨rfl, hmore⟩ := List.cons.inj htokens
    obtain ⟨p', fresh', hbehind, hdepth, hwithin⟩ := laid_behind hlaid hx hg
    obtain ⟨rest, p'', fresh'', rfl, hrest, hlast⟩ :=
      ih hxs hbehind hdepth (token_of_within hbehind (hwithin inside)) hmore
    exact ⟨rest, p'', fresh'', rfl, hrest, hlast⟩

/-! ## What is read the same everywhere -/

/-- No import is read of these tokens, whatever stands behind them. -/
def Passed (ts : List Token) : Prop :=
  ∀ xs rest, Bares xs ts → importsOf (xs ++ rest) = importsOf rest

/-- The tokens are statements other than imports, with what ends them. -/
inductive Idle : List Token → Prop where
  | nil : Idle []
  | unit {ts rest : List Token} {t : Token} {g : Nat} (runs : Runs 0 ts g)
      (passed : Passed (ts ++ [t])) (others : Idle rest) : Idle (ts ++ t :: rest)

theorem Idle.append (h : Idle ts) (h' : Idle us) : Idle (ts ++ us) := by
  induction h with
  | nil => exact h'
  | unit runs passed _ ih =>
    rw [List.append_assoc]
    exact .unit runs passed ih

theorem passed_between (ht : startsStatement (.token t) = false) : Passed [t] := by
  intro xs rest hbares
  obtain ⟨l, ls, rfl, hl, hls⟩ := bares_cons_iff.1 hbares
  obtain rfl := bares_nil_iff.1 hls
  have hstarts : startsStatement l.item = false := by
    rw [← startsStatement_bare, hl, ht]
  refine importsOf_between ?_ hstarts
  intro heof
  rw [heof] at hl
  cases hl

theorem Idle.single (ht : startsStatement (.token t) = false) (h : Idle ts) : Idle (t :: ts) :=
  @Idle.unit [] ts t 0 .nil (passed_between ht) h

/-- A line break in front may be left out. -/
theorem Idle.of_newline (h : Idle (.newline :: ts)) : Idle ts := by
  generalize hall : Token.newline :: ts = all at h
  cases h with
  | nil => cases hall
  | @unit ts' rest t g runs passed others =>
    cases ts' with
    | nil =>
      obtain ⟨-, rfl⟩ := List.cons.inj hall
      exact others
    | cons u us =>
      obtain ⟨rfl, -⟩ := List.cons.inj hall
      cases runs with
      | cons inside _ => exact absurd (inside rfl) (Nat.lt_irrefl 0)

/-- Indentation in front of a token stream makes no difference to its imports. -/
theorem exists_skip (h : Laid p fresh items) :
    ∃ items', Laid p fresh items' ∧ tokens items' = tokens items ∧
      importsOf items' = importsOf items ∧
      (tokens items = [] ∨ ∃ l ls t, items' = l :: ls ∧ l.item = .token t) := by
  induction h with
  | @eof l item =>
    refine ⟨[l], .eof item, rfl, rfl, Or.inl ?_⟩
    rw [tokens_cons_of_not (by rw [item]; rfl)]
    rfl
  | @layout l ls item _ ih =>
    obtain ⟨items', hlaid, htokens, himports, hstart⟩ := ih
    have hbetween : l.item.isToken = false ∧ l.item ≠ .eof ∧ startsStatement l.item = false := by
      rcases item with item | item
      · rw [item]
        exact ⟨rfl, by simp, rfl⟩
      · rw [item]
        exact ⟨rfl, by simp, rfl⟩
    rw [tokens_cons_of_not hbetween.1, importsOf_between hbetween.2.1 hbetween.2.2]
    exact ⟨items', hlaid, htokens, himports, hstart⟩
  | newline item others _ =>
    exact ⟨_, .newline item others, rfl, rfl, Or.inr ⟨_, _, _, rfl, item⟩⟩
  | token item newline count others _ =>
    exact ⟨_, .token item newline count others, rfl, rfl, Or.inr ⟨_, _, _, rfl, item⟩⟩

/-- Behind idle tokens the same imports are read as in front of them. -/
theorem Idle.imports (h : Idle ts) (hbares : Bares xs ts) (hlaid : Laid p fresh items)
    (htokens : tokens items = xs ++ rest) :
    ∃ items' p' fresh', Laid p' fresh' items' ∧ tokens items' = rest ∧
      importsOf items' = importsOf items := by
  induction h generalizing xs items p fresh with
  | nil =>
    obtain rfl := bares_nil_iff.1 hbares
    exact ⟨items, p, fresh, hlaid, htokens, rfl⟩
  | @unit ts more t g runs passed _ ih =>
    obtain ⟨first, second, rfl, hfirst, hsecond⟩ := bares_append_iff.1 hbares
    obtain ⟨last, behind, rfl, hlast, hbehind⟩ := bares_cons_iff.1 hsecond
    obtain ⟨items', hlaid', htokens', himports, hstart⟩ := exists_skip hlaid
    rw [htokens, List.append_assoc, List.cons_append] at htokens' hstart
    obtain ⟨others, p', fresh', rfl, hothers, hunit⟩ := runs.split hfirst hlaid' (Nat.zero_le _)
      (hstart.resolve_left (by simp)) htokens'
    obtain ⟨p'', fresh'', hrest, -⟩ := laid_behind hunit hlast (Nat.zero_le _)
    obtain ⟨items'', p₃, fresh₃, hlaid₃, htokens₃, himports₃⟩ := ih hbehind hrest hothers
    refine ⟨items'', p₃, fresh₃, hlaid₃, htokens₃, ?_⟩
    have hpassed := passed (first ++ [last]) others
      (hfirst.append (Bares.cons hlast (bares_nil_iff.2 rfl)))
    rw [List.append_assoc] at hpassed
    rw [himports₃, ← himports]
    exact hpassed.symm

/-! ## Headings -/

/-- A heading goes on over these tokens, and then has all of its parentheses closed. -/
inductive Heads : Nat → List Token → Prop where
  | nil : Heads 0 []
  | cons {g : Nat} {t : Token} {ts : List Token}
      (goes : endsStatement (.token t) = true → 0 < g) (others : Heads (depthBehind g t) ts) :
      Heads g (t :: ts)

theorem Heads.runs (h : Heads g ts) : Runs g ts 0 := by
  induction h with
  | nil => exact .nil
  | cons goes _ ih =>
    refine .cons (fun hnewline => goes ?_) ih
    rw [hnewline]
    rfl

/-- What a token adds to a heading that goes on over it. -/
theorem heading_cons (hl : l.item.bare = .token t)
    (hgoes : endsStatement (.token t) = true → 0 < g) (ls : List Located) :
    (heading g (l :: ls)).2 =
      ((heading (depthBehind g t) ls).2.1, (heading (depthBehind g t) ls).2.2 + 1) := by
  cases hitem : l.item with
  | token u =>
    rw [hitem] at hl
    obtain rfl := Item.token.inj hl
    rw [heading, hitem]
    dsimp only
    cases u with
    | openBrace | newline | semicolon | closeBrace =>
      have hpos : g ≠ 0 := Nat.ne_of_gt (hgoes rfl)
      dsimp only
      rw [if_neg hpos]
      rfl
    | _ => rfl
  | _ =>
    rw [hitem] at hl
    cases hl

theorem Heads.heading_eq (h : Heads g ts) (hbares : Bares xs ts) (rest : List Located) :
    (heading g (xs ++ rest)).2 =
      ((heading 0 rest).2.1, xs.length + (heading 0 rest).2.2) := by
  induction h generalizing xs with
  | nil =>
    obtain rfl := bares_nil_iff.1 hbares
    rw [List.nil_append, List.length_nil, Nat.zero_add]
  | cons goes _ ih =>
    obtain ⟨x, xs, rfl, hx, hxs⟩ := bares_cons_iff.1 hbares
    rw [List.cons_append, heading_cons hx goes, ih hxs, List.length_cons]
    dsimp only
    rw [Nat.add_right_comm]

/-- A heading ends with a line break, a semicolon or a brace. -/
theorem exists_heads (hlaid : Laid p fresh items) (hwithin : fresh = false ∨ 0 < p) (hg : g ≤ p) :
    ∃ xs last rest ts t p' fresh', items = xs ++ last :: rest ∧ Bares xs ts ∧ Heads g ts ∧
      last.item.bare = .token t ∧ endsStatement (.token t) = true ∧
      Laid p' fresh' (last :: rest) := by
  induction items generalizing p g fresh with
  | nil => cases hlaid
  | cons l ls ih =>
    obtain ⟨l', ls', u, heq, hl⟩ := token_of_within hlaid hwithin
    obtain ⟨rfl, rfl⟩ := List.cons.inj heq
    have hbare : l.item.bare = .token u.bare := by
      rw [hl]
      rfl
    by_cases hstop : endsStatement (.token u.bare) = true ∧ g = 0
    · obtain ⟨hends, rfl⟩ := hstop
      exact ⟨[], l, ls, [], u.bare, p, fresh, rfl, bares_nil_iff.2 rfl, .nil, hbare, hends, hlaid⟩
    · have hgoes : endsStatement (.token u.bare) = true → 0 < g :=
        fun hends => Nat.pos_of_ne_zero fun hzero => hstop ⟨hends, hzero⟩
      obtain ⟨p', fresh', hbehind, hdepth, hinside⟩ := laid_behind hlaid hbare hg
      have hwithin' : fresh' = false ∨ 0 < p' := by
        refine hinside fun hnewline => hgoes ?_
        rw [hnewline]
        rfl
      obtain ⟨xs, last, rest, ts, t, p'', fresh'', rfl, hxs, hheads, hlast, hends, hrest⟩ :=
        ih hbehind hwithin' hdepth
      exact ⟨l :: xs, last, rest, u.bare :: ts, t, p'', fresh'', rfl, hxs.cons hbare,
        .cons hgoes hheads, hlast, hends, hrest⟩

/-- A statement starts here that is neither an import nor an assignment. -/
def IsHeading (l : Located) (ls : List Located) : Prop :=
  startsStatement l.item = true ∧ Headed l ls

theorem importsOf_heading (h : IsHeading l ls) :
    importsOf (l :: ls) = importsOf ((l :: ls).drop (heading 0 (l :: ls)).2.2) := by
  obtain ⟨hstarts, hheaded⟩ := h
  have hpos := heading_pos ls 0 hstarts
  generalize hread : heading 0 (l :: ls) = read at hpos
  obtain ⟨parts, lead, n⟩ := read
  obtain ⟨n, rfl⟩ := Nat.exists_eq_add_of_lt hpos
  dsimp only
  rw [Nat.zero_add, List.drop_succ_cons]
  cases lead with
  | declaration =>
    rw [importsOf_complete hstarts (opening_eq_iff.2 (.declaration hheaded hread))]
    exact congrArg (fun n => importsOf (ls.drop n)) (Nat.zero_add n)
  | block close =>
    rw [importsOf_before hstarts (opening_eq_iff.2 (.block hheaded hread))]
    exact congrArg (fun n => importsOf (ls.drop n)) (Nat.zero_add n)

/-- Behind what ends a heading, imports are read as behind the heading. -/
theorem importsOf_ends {last : Located} (hlast : last.item.bare = .token t)
    (hends : endsStatement (.token t) = true) (rest : List Located) :
    importsOf ((last :: rest).drop (heading 0 (last :: rest)).2.2) = importsOf rest := by
  have hitem : last.item = .token t := by
    refine eq_of_bare hlast fun s hs => ?_
    rw [hs] at hends
    cases hends
  rw [heading, hitem]
  dsimp only
  cases t with
  | newline =>
    dsimp only
    rw [if_pos rfl]
    split
    · next hindent =>
      cases rest with
      | nil => cases hindent
      | cons l ls =>
        have hl : l.item = .indent := Option.some.inj hindent
        exact (importsOf_between (by rw [hl]; simp) (by rw [hl]; rfl)).symm
    · rfl
  | openBrace => rfl
  | semicolon | closeBrace =>
    exact importsOf_between (by rw [hitem]; simp) (by rw [hitem]; rfl)
  | _ => cases hends

theorem passed_brace : Passed [.openBrace] := by
  intro xs rest hbares
  obtain ⟨l, ls, rfl, hl, hls⟩ := bares_cons_iff.1 hbares
  obtain rfl := bares_nil_iff.1 hls
  have hitem : l.item = .token .openBrace := eq_of_bare hl (by simp)
  have hheading : IsHeading l rest := by
    refine ⟨by rw [hitem]; rfl, fun kind => ?_, fun name hname => ?_⟩
    · rw [hitem]
      cases kind <;> simp [ImportKind.token]
    · rw [hitem] at hname
      cases hname
  show importsOf (l :: rest) = _
  rw [importsOf_heading hheading]
  exact importsOf_ends hl rfl rest

/-- Behind what ends a statement, imports are read as in front of it. -/
theorem passed_ends (hends : endsStatement (.token t) = true) : Passed [t] := by
  cases t with
  | openBrace => exact passed_brace
  | newline | semicolon | closeBrace => exact passed_between rfl
  | _ => cases hends

theorem head?_of_bares (h : Bares xs ts) {last : Located} (hlast : last.item.bare = .token t)
    (rest : List Located) :
    ((xs ++ last :: rest).head?.bind fun next => assignOp? next.item) =
      (ts ++ [t]).head?.bind fun u => assignOp? (.token u) := by
  cases ts with
  | nil =>
    obtain rfl := bares_nil_iff.1 h
    show assignOp? last.item = assignOp? (.token t)
    rw [← assignOp?_bare, hlast]
  | cons u us =>
    obtain ⟨x, xs, rfl, hx, -⟩ := bares_cons_iff.1 h
    show assignOp? x.item = assignOp? (.token u)
    rw [← assignOp?_bare, hx]

/-- A heading is passed over wherever it stands. -/
theorem passed_heading {u : Token} (hl : l.item.bare = .token t)
    (hheading : IsHeading l (xs ++ items)) (hgoes : endsStatement (.token t) = false)
    (hxs : Bares xs ts) (hheads : Heads (depthBehind 0 t) ts) {last : Located}
    (hitems : items = last :: rest) (hlast : last.item.bare = .token u)
    (hends : endsStatement (.token u) = true) : Passed (t :: ts ++ [u]) := by
  intro zs more hzs
  obtain ⟨front, back, rfl, hfront, hback⟩ := bares_append_iff.1 hzs
  obtain ⟨first, ys, rfl, hfirst, hys⟩ := bares_cons_iff.1 hfront
  obtain ⟨final, others, rfl, hfinal, hothers⟩ := bares_cons_iff.1 hback
  obtain rfl := bares_nil_iff.1 hothers
  obtain ⟨hstarts, hkind, hassign⟩ := hheading
  have hsame : ∀ v, (∀ s, v ≠ .punct s) → first.item = .token v → l.item = .token v := by
    intro v hv hitem
    have hbare : first.item.bare = .token v.bare := by
      rw [hitem]
      rfl
    have hv' : v.bare = v := by
      cases v with
      | punct s => exact absurd rfl (hv s)
      | _ => rfl
    refine eq_of_bare ?_ hv
    rw [hl, ← hfirst, hbare, hv']
  have hfirst' : IsHeading first (ys ++ final :: more) := by
    refine ⟨?_, fun kind hitem => hkind kind (hsame _ (by cases kind <;> nofun) hitem),
      fun name hitem => ?_⟩
    · rw [← startsStatement_bare, hfirst, ← hl, startsStatement_bare]
      exact hstarts
    · have hnone := hassign name (hsame _ (by simp) hitem)
      rw [hitems, head?_of_bares hxs hlast] at hnone
      rw [head?_of_bares hys hfinal, hnone]
  have hall : Heads 0 (t :: ts) := .cons (fun h => by rw [hgoes] at h; cases h) hheads
  have hcount := hall.heading_eq (hys.cons hfirst) (final :: more)
  have hflat : first :: ys ++ [final] ++ more = first :: (ys ++ final :: more) := by simp
  rw [hflat, importsOf_heading hfirst', ← List.cons_append, hcount, List.drop_append,
    List.drop_of_length_le (Nat.le_add_right _ _), Nat.add_sub_cancel_left, List.nil_append]
  exact importsOf_ends hfinal hends more

/-! ## Assignments -/

/-- A line break as a brace, which expressions take in the same places. -/
def braced (l : Located) : Located :=
  if l.item = .token .newline then { l with item := .token .openBrace } else l

theorem like_braced (n : Nat) (items : List Located) : Like n items (items.map braced) := by
  have hshape : ∀ l : Located, (braced l).item.shape = l.item.shape := by
    intro l
    unfold braced
    split
    · next hitem =>
      rw [hitem]
      rfl
    · rfl
  unfold Like
  rw [List.map_map]
  exact congrArg (List.take n) (List.map_congr_left fun l _ => (hshape l).symm)

/-- What stays among its own parentheses runs on. -/
theorem runs_of_keeps {k k' : Nat} (h : Keeps false g k (brackets (xs.map braced)) g' k')
    (hlaid : Laid p fresh (xs ++ rest)) (hwithin : fresh = false ∨ 0 < p) (hg : g ≤ p) :
    ∃ ts p' fresh', Bares xs ts ∧ Runs g ts g' ∧ Laid p' fresh' rest ∧
      (fresh' = false ∨ 0 < p') := by
  induction xs generalizing g k p fresh with
  | nil =>
    cases h
    exact ⟨[], p, fresh, bares_nil_iff.2 rfl, .nil, hlaid, hwithin⟩
  | cons x xs ih =>
    obtain ⟨x', xs', u, heq, hx⟩ := token_of_within hlaid hwithin
    obtain ⟨rfl, -⟩ := List.cons.inj heq
    have hbare : x.item.bare = .token u.bare := by
      rw [hx]
      rfl
    obtain ⟨p', fresh', hbehind, hdepth, hinside⟩ := laid_behind hlaid hbare hg
    -- How many parentheses are open behind the token, and that a line break stands in some.
    have hstep : ∃ k'', Keeps false (depthBehind g u.bare) k'' (brackets (xs.map braced)) g' k' ∧
        (u.bare = .newline → 0 < g) := by
      rw [List.map_cons, brackets_cons] at h
      cases u with
      | newline =>
        have hitem : (braced x).item = .token .openBrace := by
          unfold braced
          rw [if_pos hx]
        rw [hitem] at h
        cases h with
        | brace _ inside rest => exact ⟨k, rest, fun _ => inside⟩
      | openParen =>
        have hitem : braced x = x := by
          unfold braced
          rw [if_neg (by simp [hx])]
        rw [hitem, hx] at h
        cases h with
        | openParen rest => exact ⟨k, rest, by simp [Token.bare]⟩
        | brace braces _ _ => cases braces
      | closeParen =>
        have hitem : braced x = x := by
          unfold braced
          rw [if_neg (by simp [hx])]
        rw [hitem, hx] at h
        cases h with
        | closeParen rest => exact ⟨k, rest, by simp [Token.bare]⟩
        | brace braces _ _ => cases braces
      | openBrace | closeBrace =>
        have hitem : braced x = x := by
          unfold braced
          rw [if_neg (by simp [hx])]
        rw [hitem, hx] at h
        cases h with
        | brace _ inside rest => exact ⟨k, rest, by simp [Token.bare]⟩
      | _ =>
        have hitem : braced x = x := by
          unfold braced
          rw [if_neg (by simp [hx])]
        rw [hitem, hx] at h
        exact ⟨k, h, by simp [Token.bare]⟩
    obtain ⟨k'', hkeeps, hnewline⟩ := hstep
    obtain ⟨ts, p'', fresh'', hxs, hruns, hrest, hwithin'⟩ :=
      ih hkeeps hbehind (hinside hnewline) hdepth
    exact ⟨u.bare :: ts, p'', fresh'', hxs.cons hbare, .cons hnewline hruns, hrest, hwithin'⟩

/-- How many items the value of an assignment takes, with what is left of the statement. -/
def valueLength (items : List Located) : Nat :=
  (expression items).2 + statementRest (items.drop (expression items).2)

theorem local_value (h : Like (valueLength xs + 1) xs ys) : valueLength ys = valueLength xs := by
  unfold valueLength at h ⊢
  have hvalue := local_expression xs ys (h.mono (by omega))
  rw [hvalue]
  have hrest : Like (statementRest (xs.drop (expression xs).2) + 1)
      (xs.drop (expression xs).2) (ys.drop (expression xs).2) := Like.drop h
  rw [hrest.statementRest]

/-- The value of an assignment runs on up to the end of the statement. -/
theorem exists_value (hlaid : Laid p fresh items) (hwithin : fresh = false ∨ 0 < p) :
    ∃ xs last rest ts t g p' fresh', items = xs ++ last :: rest ∧ xs.length = valueLength items ∧
      Bares xs ts ∧ Runs 0 ts g ∧ last.item.bare = .token t ∧ endsStatement (.token t) = true ∧
      Laid p' fresh' (last :: rest) := by
  have hlike := like_braced (valueLength items + 1) items
  obtain ⟨g₁, k₁, hfirst, -, -⟩ := kept_expression false (items.map braced) 0 0 (Nat.le_refl 0)
  obtain ⟨g₂, hsecond⟩ := keeps_statementRest false g₁ k₁
    ((items.map braced).drop (expression (items.map braced)).2)
  have hkeeps := hfirst.append hsecond
  have hlength : (expression (items.map braced)).2 +
      statementRest ((items.map braced).drop (expression (items.map braced)).2) =
        valueLength items := local_value hlike
  rw [← brackets_append, ← List.take_add, hlength, ← List.map_take] at hkeeps
  have hsplit : items = items.take (valueLength items) ++ items.drop (valueLength items) :=
    (List.take_append_drop _ _).symm
  obtain ⟨ts, p', fresh', hbares, hruns, hrest, hwithin'⟩ :=
    runs_of_keeps hkeeps (hsplit ▸ hlaid) hwithin (Nat.zero_le p)
  obtain ⟨last, rest, t, hdrop, hlast⟩ := token_of_within hrest hwithin'
  have hends : endsStatement last.item = true := by
    -- The rest of the statement would go on with it.
    rw [valueLength, ← List.drop_drop] at hdrop
    generalize items.drop (expression items).2 = tail at hdrop
    unfold statementRest at hdrop
    rw [Lexeme.drop_takeWhile] at hdrop
    have hhead := List.head_dropWhile_not (fun l : Located => !endsStatement l.item)
      (by rw [hdrop]; exact List.cons_ne_nil last rest)
    simpa [hdrop] using hhead
  have hbare : last.item.bare = .token t.bare := by
    rw [hlast]
    rfl
  refine ⟨items.take (valueLength items), last, rest, ts, t.bare, g₂, p', fresh', ?_, ?_, hbares,
    hruns, hbare, ?_, hdrop ▸ hrest⟩
  · rw [← hdrop]
    exact hsplit
  · have hlength' := congrArg List.length hdrop
    rw [List.length_drop, List.length_cons] at hlength'
    rw [List.length_take]
    omega
  · rw [← hbare, endsStatement_bare]
    exact hends

/-- An assignment is passed over wherever it stands. -/
theorem passed_assignment {name : String} {op : AssignOp} {u v : Token} {last : Located}
    (hop : assignOp? (.token u) = some op) (hxs : Bares xs ts)
    (hlength : xs.length = valueLength (xs ++ last :: rest)) (hlast : last.item.bare = .token v)
    (hends : endsStatement (.token v) = true) : Passed (.ident name :: u :: ts ++ [v]) := by
  intro zs more hzs
  obtain ⟨front, back, rfl, hfront, hback⟩ := bares_append_iff.1 hzs
  obtain ⟨first, others, rfl, hfirst, hothers⟩ := bares_cons_iff.1 hfront
  obtain ⟨sign, ys, rfl, hsign, hys⟩ := bares_cons_iff.1 hothers
  obtain ⟨final, none, rfl, hfinal, hnone⟩ := bares_cons_iff.1 hback
  obtain rfl := bares_nil_iff.1 hnone
  have hitem : first.item = .token (.ident name) := eq_of_bare hfirst (by simp)
  have hsign' : assignOp? sign.item = some op := by
    rw [← assignOp?_bare, hsign, hop]
  have hnil : Bares ([] : List Located) [] := bares_nil_iff.2 rfl
  have hlike := (hxs.append (hnil.cons hlast)).like (hys.append (hnil.cons hfinal)) rest more
  have hvalue : valueLength (ys ++ final :: more) = ys.length := by
    have hsame : valueLength (ys ++ final :: more) = valueLength (xs ++ last :: rest) := by
      refine local_value ?_
      rw [← hlength]
      simpa using hlike
    rw [hsame, ← hlength, hxs.length, hys.length]
  have hopening := opening_assign (ys ++ final :: more) hitem hsign'
  have hnone : (assignment name op (ys ++ final :: more)).1.imports = [] := rfl
  have hlong : (assignment name op (ys ++ final :: more)).2 = valueLength (ys ++ final :: more) :=
    rfl
  have hstarts : startsStatement first.item = true := by
    rw [hitem]
    rfl
  have hflat : first :: sign :: ys ++ [final] ++ more =
      first :: sign :: (ys ++ final :: more) := by simp
  rw [hflat, importsOf_complete hstarts hopening, hnone, hlong, hvalue, Nat.add_comm,
    List.drop_succ_cons, List.drop_left, List.nil_append]
  exact passed_ends hends [final] more (hnil.cons hfinal)

/-! ## Units -/

theorem not_ends_of_starts (h : startsStatement (.token t) = true) (hbrace : t ≠ .openBrace) :
    endsStatement (.token t) = false := by
  cases t <;> first | rfl | exact absurd rfl hbrace | cases h

/-- A statement that is no import takes tokens which are passed over wherever they stand. -/
theorem exists_unit (hlaid : Laid p fresh (l :: ls)) (hstarts : startsStatement l.item = true)
    (himport : l.item ≠ .token .atImport) (hrequire : l.item ≠ .token .atRequire) :
    ∃ xs last rest ts t g p' fresh', l :: ls = xs ++ last :: rest ∧
      Bares (xs ++ [last]) (ts ++ [t]) ∧ Runs 0 ts g ∧ Passed (ts ++ [t]) ∧
      Laid p' fresh' rest := by
  have hnil : Bares ([] : List Located) [] := bares_nil_iff.2 rfl
  obtain ⟨u, hu⟩ : ∃ u, l.item = .token u := by
    cases hitem : l.item with
    | token u => exact ⟨u, rfl⟩
    | _ =>
      rw [hitem] at hstarts
      cases hstarts
  have hl : l.item.bare = .token u.bare := by
    rw [hu]
    rfl
  have hstarts' : startsStatement (.token u.bare) = true := by
    rw [← hl, startsStatement_bare]
    exact hstarts
  obtain ⟨p₁, fresh₁, hbehind, hdepth, hinside⟩ := laid_behind hlaid hl (Nat.zero_le p)
  by_cases hbrace : u.bare = .openBrace
  · rw [hbrace] at hl
    exact ⟨[], l, ls, [], .openBrace, 0, p₁, fresh₁, rfl, hnil.cons hl, .nil, passed_brace, hbehind⟩
  have hgoes : endsStatement (.token u.bare) = false := not_ends_of_starts hstarts' hbrace
  have hline : u.bare ≠ .newline := by
    intro hnewline
    rw [hnewline] at hgoes
    cases hgoes
  have hwithin := hinside fun hnewline => absurd hnewline hline
  rcases headed_or l ls with ⟨kind, hkeyword⟩ | ⟨name, next, others, op, hname, rfl, hop⟩ | hheaded
  · cases kind with
    | import_ => exact absurd hkeyword himport
    | require => exact absurd hkeyword hrequire
  · obtain ⟨v, hv, hplain⟩ : ∃ v, next.item.bare = .token v ∧ v ≠ .newline ∧
        ∀ g, depthBehind g v = g := by
      unfold assignOp? at hop
      split at hop
      all_goals first
        | (next hitem => rw [hitem]; exact ⟨_, rfl, by simp [Token.bare], fun g => rfl⟩)
        | cases hop
    obtain ⟨p₂, fresh₂, hvalue, -, hinside'⟩ := laid_behind hbehind hv (Nat.zero_le p₁)
    obtain ⟨xs, last, rest, ts, t, g, p₃, fresh₃, rfl, hlength, hxs, hruns, hlast, hends, hrest⟩ :=
      exists_value hvalue (hinside' fun hnewline => absurd hnewline hplain.1)
    obtain ⟨p₄, fresh₄, hafter, -, -⟩ := laid_behind hrest hlast (Nat.zero_le p₃)
    have hop' : assignOp? (.token v) = some op := by
      rw [← hv, assignOp?_bare, hop]
    have hfirst : l.item.bare = .token (.ident name) := by
      rw [hname]
      rfl
    refine ⟨l :: next :: xs, last, rest, .ident name :: v :: ts, t, g, p₄, fresh₄, rfl, ?_, ?_,
      passed_assignment hop' hxs hlength hlast hends, hafter⟩
    · exact ((hxs.append (hnil.cons hlast)).cons hv).cons hfirst
    · refine .cons (by simp) (.cons (fun hnewline => absurd hnewline hplain.1) ?_)
      rw [hplain.2]
      exact hruns
  · have hheading : IsHeading l ls := ⟨hstarts, hheaded⟩
    obtain ⟨xs, last, rest, ts, t, p₂, fresh₂, rfl, hxs, hheads, hlast, hends, hrest⟩ :=
      exists_heads hbehind hwithin hdepth
    obtain ⟨p₃, fresh₃, hafter, -, -⟩ := laid_behind hrest hlast (Nat.zero_le p₂)
    refine ⟨l :: xs, last, rest, u.bare :: ts, t, 0, p₃, fresh₃, rfl, ?_, ?_,
      passed_heading hl hheading hgoes hxs hheads rfl hlast hends, hafter⟩
    · exact (hxs.append (hnil.cons hlast)).cons hl
    · exact .cons (fun hnewline => absurd hnewline hline) hheads.runs

/-! ## Courses -/

/-- The tokens are those of import statements, from their keywords to their last tokens, and idle
tokens between them. -/
inductive Course : List Located → List Import → Prop where
  | idle {xs : List Located} {ts : List Token} (bares : Bares xs ts) (idle : Idle ts) : Course xs []
  | statement {xs stretch rest : List Located} {ts : List Token} {l last : Located}
      {statement : Import} {imports : List Import} (bares : Bares xs ts) (idle : Idle ts)
      (keyword : l.item = .token .atImport ∨ l.item = .token .atRequire)
      (start : statement.start = l.start) (getLast : (l :: stretch).getLast? = some last)
      (solid : last.IsSolid) (stop : statement.stop = last.stop) (others : Course rest imports) :
      Course (xs ++ (l :: stretch ++ rest)) (statement :: imports)

variable {imports : List Import}

theorem Course.prepend (h : Course ys imports) (hxs : Bares xs ts) (hidle : Idle ts) :
    Course (xs ++ ys) imports := by
  cases h with
  | idle bares idle => exact .idle (hxs.append bares) (hidle.append idle)
  | statement bares idle keyword start getLast solid stop others =>
    rw [← List.append_assoc]
    exact .statement (hxs.append bares) (hidle.append idle) keyword start getLast solid stop others

theorem Course.newlines (h : Course ys imports) (hxs : ∀ x ∈ xs, x.item = .token .newline) :
    Course (xs ++ ys) imports := by
  induction xs with
  | nil => exact h
  | cons x xs ih =>
    have hrest := ih fun x' hx' => hxs x' (List.mem_cons_of_mem _ hx')
    have hx : x.item.bare = .token .newline := by
      rw [hxs x List.mem_cons_self]
      rfl
    have hbares : Bares [x] [.newline] := Bares.cons hx (bares_nil_iff.2 rfl)
    exact hrest.prepend hbares (.single rfl .nil)

/-- What a statement takes is its tokens up to the last that is no line break, and line breaks. -/
theorem exists_lastToken (hl : l.IsSolid) (stretch : List Located) :
    ∃ front back last, tokens stretch = front ++ back ∧ (l :: front).getLast? = some last ∧
      last.IsSolid ∧ lastStop (l :: stretch) = last.stop ∧
      ∀ x ∈ back, x.item = .token .newline := by
  induction stretch using List.reverseRecOn with
  | nil =>
    refine ⟨[], [], l, rfl, rfl, hl, ?_, by simp⟩
    rcases lastStop_append [] l with ⟨h, -⟩ | ⟨-, hnot⟩
    · exact h
    · exact absurd hl hnot
  | append_singleton stretch x ih =>
    obtain ⟨front, back, last, htokens, hlast, hsolid, hstop, hback⟩ := ih
    rw [tokens_append]
    rcases lastStop_append (l :: stretch) x with ⟨h, hx⟩ | ⟨h, hx⟩
    · obtain ⟨t, ht, hne⟩ := hx
      refine ⟨tokens stretch ++ [x], [], x, ?_, ?_, ⟨t, ht, hne⟩, h, by simp⟩
      · rw [tokens_cons ht, List.append_nil]
        rfl
      · rw [← List.cons_append, List.getLast?_concat]
    · cases hitem : x.item with
      | token t =>
        have hnewline : t = .newline := by
          by_contra hne
          exact hx ⟨t, hitem, hne⟩
        refine ⟨front, back ++ [x], last, ?_, hlast, hsolid, h.trans hstop, ?_⟩
        · rw [htokens, tokens_cons hitem, List.append_assoc]
          rfl
        · intro y hy
          rcases List.mem_append.1 hy with hy | hy
          · exact hback y hy
          · rw [List.mem_singleton.1 hy, hitem, hnewline]
      | _ =>
        refine ⟨front, back, last, ?_, hlast, hsolid, h.trans hstop, hback⟩
        rw [htokens, tokens_cons_of_not (by rw [hitem]; rfl)]
        exact List.append_nil _

theorem newlines_spec (items : List Located) :
    ∀ x ∈ items.take (newlines items), x.item = .token .newline := by
  intro x hx
  unfold newlines at hx
  rw [(List.prefix_iff_eq_take.1 (List.takeWhile_prefix _)).symm] at hx
  simpa using List.all_eq_true.1 (List.all_takeWhile (l := items)
    (p := fun l : Located => decide (l.item = .token .newline))) x hx

/-- To close a continued list takes line breaks and the ends of blocks. -/
theorem tokens_continuationRest (indents : Nat) (items : List Located) :
    ∀ x ∈ tokens (items.take (continuationRest indents items)), x.item = .token .newline := by
  induction indents generalizing items with
  | zero =>
    intro x hx
    cases hx
  | succ indents ih =>
    have hfirst : ∀ x ∈ tokens (items.take (newlines items)), x.item = .token .newline :=
      fun x hx => newlines_spec items x (List.mem_of_mem_filter hx)
    unfold continuationRest
    dsimp only
    split
    · next hdedent =>
      rw [List.take_add, tokens_append]
      intro x hx
      rcases List.mem_append.1 hx with hx | hx
      · rw [List.take_add, tokens_append] at hx
        rcases List.mem_append.1 hx with hx | hx
        · exact hfirst x hx
        · obtain ⟨hmem, htoken⟩ := List.mem_filter.1 hx
          cases hrest : items.drop (newlines items) with
          | nil =>
            rw [hrest] at hmem
            cases hmem
          | cons l ls =>
            rw [hrest] at hmem hdedent
            have hl : l.item = .dedent := Option.some.inj hdedent
            rw [List.take_succ_cons, List.take_zero, List.mem_singleton] at hmem
            rw [hmem, hl] at htoken
            cases htoken
      · exact ih _ x hx
    · exact hfirst

/-- The tokens of an import statement, and what is taken to close the indentation of its list. -/
theorem exists_importing (kind : ImportKind) (hl : l.IsSolid) (ls : List Located) :
    ∃ statement front back last, (importing kind l ls).1 = .importing statement ∧
      tokens (ls.take (importing kind l ls).2) = front ++ back ∧ statement.start = l.start ∧
      (l :: front).getLast? = some last ∧ last.IsSolid ∧ statement.stop = last.stop ∧
      ∀ x ∈ back, x.item = .token .newline := by
  rw [importing_eq]
  generalize importLength ls = n
  obtain ⟨front, back, last, htokens, hlast, hsolid, hstop, hback⟩ :=
    exists_lastToken hl (ls.take n)
  have hclosing := tokens_continuationRest (expressions ls).2.1 (ls.drop n)
  refine ⟨_, front, back ++ tokens ((ls.drop n).take
    (continuationRest (expressions ls).2.1 (ls.drop n))), last, rfl, ?_, rfl, hlast, hsolid, hstop,
    ?_⟩
  · rw [List.take_add, tokens_append, htokens, List.append_assoc]
  · intro x hx
    rcases List.mem_append.1 hx with hx | hx
    · exact hback x hx
    · exact hclosing x hx

theorem laid_drop (h : Laid p fresh items) (n : Nat) :
    items.drop n = [] ∨ ∃ p' fresh', Laid p' fresh' (items.drop n) := by
  induction n generalizing items p fresh with
  | zero => exact Or.inr ⟨p, fresh, h⟩
  | succ n ih =>
    cases h with
    | eof => exact Or.inl (by simp)
    | layout _ others | newline _ others | token _ _ _ others => exact ih others

theorem tokens_of_bares (h : Bares xs ts) : tokens xs = xs := by
  refine List.filter_eq_self.2 fun x hx => ?_
  have hmem : x.item.bare ∈ xs.map fun l => l.item.bare := List.mem_map_of_mem hx
  rw [h] at hmem
  obtain ⟨u, -, hu⟩ := List.mem_map.1 hmem
  cases hitem : x.item with
  | token v => rfl
  | _ =>
    rw [hitem] at hu
    cases hu

/-- Between statements a token is idle, and layout is nothing. -/
theorem Course.between (h : Course (tokens ls) (importsOf ls))
    (hstarts : startsStatement l.item = false) (heof : l.item ≠ .eof) :
    Course (tokens (l :: ls)) (importsOf (l :: ls)) := by
  rw [importsOf_between heof hstarts]
  cases hitem : l.item with
  | token t =>
    have hbare : l.item.bare = .token t.bare := by
      rw [hitem]
      rfl
    have hbetween : startsStatement (.token t.bare) = false := by
      rw [← hbare, startsStatement_bare, hstarts]
    rw [tokens_cons hitem]
    exact h.prepend (Bares.cons hbare (bares_nil_iff.2 rfl)) (Idle.nil.single hbetween)
  | _ =>
    rw [tokens_cons_of_not (by rw [hitem]; rfl)]
    exact h

/-- An import statement has its tokens, and line breaks that close its list. -/
theorem course_importing (hkeyword : l.item = .token .atImport ∨ l.item = .token .atRequire)
    (hothers : ∀ n, Course (tokens (ls.drop n)) (importsOf (ls.drop n))) :
    Course (tokens (l :: ls)) (importsOf (l :: ls)) := by
  obtain ⟨kind, hopening⟩ : ∃ kind, opening l ls =
      (.complete (importing kind l ls).1, (importing kind l ls).2) := by
    rcases hkeyword with hitem | hitem
    · exact ⟨.import_, by rw [opening, hitem]⟩
    · exact ⟨.require, by rw [opening, hitem]⟩
  obtain ⟨t, ht, hne⟩ : l.IsSolid := by
    rcases hkeyword with hitem | hitem
    · exact ⟨_, hitem, by simp⟩
    · exact ⟨_, hitem, by simp⟩
  have hstarts : startsStatement l.item = true := by
    rcases hkeyword with hitem | hitem
    · rw [hitem]
      rfl
    · rw [hitem]
      rfl
  obtain ⟨statement, front, back, last, hnode, htokens, hstart, hlast, hsolid, hstop, hback⟩ :=
    exists_importing kind ⟨t, ht, hne⟩ ls
  have hsplit : tokens (l :: ls) =
      [] ++ (l :: front ++ (back ++ tokens (ls.drop (importing kind l ls).2))) := by
    rw [tokens_cons ht, List.nil_append, List.cons_append, ← List.append_assoc, ← htokens,
      ← tokens_append, List.take_append_drop]
  rw [importsOf_complete hstarts hopening, hnode, hsplit]
  exact .statement (bares_nil_iff.2 rfl) .nil hkeyword hstart hlast hsolid hstop
    ((hothers _).newlines hback)

/-- Any other statement starts with a unit of idle tokens. -/
theorem course_unit (hlaid : Laid p fresh (l :: ls)) (hstarts : startsStatement l.item = true)
    (himport : l.item ≠ .token .atImport) (hrequire : l.item ≠ .token .atRequire)
    (hothers : ∀ rest p fresh, rest.length < (l :: ls).length → Laid p fresh rest →
      Course (tokens rest) (importsOf rest)) :
    Course (tokens (l :: ls)) (importsOf (l :: ls)) := by
  obtain ⟨xs, last, rest, ts, t, g, p', fresh', hitems, hbares, hruns, hpassed, hrest⟩ :=
    exists_unit hlaid hstarts himport hrequire
  have hless : rest.length < (l :: ls).length := by
    rw [hitems, List.length_append, List.length_cons]
    omega
  have hflat : xs ++ last :: rest = xs ++ [last] ++ rest := by simp
  rw [hitems, hflat, hpassed _ rest hbares, tokens_append, tokens_of_bares hbares]
  exact (hothers rest p' fresh' hless hrest).prepend hbares (.unit hruns hpassed .nil)

/-- A token stream is made up of its imports and idle tokens. -/
theorem course (h : items = [] ∨ ∃ p fresh, Laid p fresh items) :
    Course (tokens items) (importsOf items) := by
  induction hlength : items.length using Nat.strongRecOn generalizing items with
  | ind length ih =>
    have hnone : Course [] [] := .idle (bares_nil_iff.2 rfl) .nil
    rcases h with rfl | ⟨p, fresh, hlaid⟩
    · rw [importsOf_nil]
      exact hnone
    · cases items with
      | nil => cases hlaid
      | cons l ls =>
        have hothers : ∀ n, Course (tokens (ls.drop n)) (importsOf (ls.drop n)) := by
          intro n
          refine ih (ls.drop n).length ?_ (laid_drop hlaid (n + 1)) rfl
          rw [← hlength, List.length_cons, List.length_drop]
          omega
        cases hstarts : startsStatement l.item with
        | false =>
          by_cases heof : l.item = .eof
          · cases hlaid with
            | eof =>
              rw [importsOf_eof heof, tokens_cons_of_not (by rw [heof]; rfl)]
              exact hnone
            | layout item _ =>
              rw [heof] at item
              simp at item
            | newline item _ | token item _ _ _ =>
              rw [heof] at item
              cases item
          · exact (hothers 0).between hstarts heof
        | true =>
          by_cases himport : l.item = .token .atImport
          · exact course_importing (Or.inl himport) hothers
          · by_cases hrequire : l.item = .token .atRequire
            · exact course_importing (Or.inr hrequire) hothers
            · exact course_unit hlaid hstarts himport hrequire fun rest p' fresh' hless hrest =>
                ih rest.length (hlength ▸ hless) (Or.inr ⟨p', fresh', hrest⟩) rfl

end Syntax

end StyleWeave
