import StyleWeave.Proofs.Syntax.Following

/-!
# Statements read by descent

The call for the statements of a block ends wherever it starts, and comes to what the reader of
statements does (`parses_statements`).
-/

namespace StyleWeave.Syntax.Descent

open Parsing

variable {α : Type} {c : Cursor} {limit depth k : Nat} {l : Located} {ls : List Located}

/-! ## Headings -/

/-- What a heading comes to, told by the items behind it. -/
def readLead (lastLine : Nat) (parts : List String) (lead : Heading) (items : List Located) :
    Except ParseError (Node × Nat) :=
  match lead with
  | .declaration => .ok (.declaration (" ".intercalate parts), 0)
  | .block close =>
    (Syntax.statements lastLine close items).map fun read =>
      (.rule (" ".intercalate parts) read.1, read.2)

/-- What a heading comes to, told by the parts of it that were read, how many parentheses are open
behind those, and the other items. -/
def readHeading (read : List String × Nat) (lastLine : Nat) (items : List Located) :
    Except ParseError (Node × Nat) :=
  let (parts, lead, n) := Syntax.heading read.2 items
  (readLead lastLine (read.1 ++ parts) lead (items.drop n)).map fun read => (read.1, n + read.2)

/-- The call for a block reads the statements up to its end. -/
abbrev ParsesBlocks (block : BlockEnd → Parsing (List Node)) (k : Nat) : Prop :=
  ∀ close, Parses (block close) (fun lastLine items => Syntax.statements lastLine close items) k

theorem ends_headed {block : BlockEnd → Parsing (List Node)} (hblock : ParsesBlocks block k)
    (parts : List String) (lead : Heading) (hk : c.rest.length ≤ k) :
    ∃ r n, Ends (headed block parts lead) c r n ∧
      readLead c.lastLine parts lead c.rest = r.map fun node => (node, n) := by
  cases lead with
  | declaration => exact ⟨_, 0, .pure _ c, rfl⟩
  | block close =>
    obtain ⟨r, n, hends, -, heq⟩ := hblock close c hk
    dsimp only at heq
    refine ⟨_, n, hends.map _, ?_⟩
    unfold readLead
    dsimp only
    rw [heq]
    cases r <;> rfl

/-- The heading ends here, behind the first `n` items, and leads to `lead`. -/
theorem readHeading_of_ends {parts : List String} {d n : Nat} {lead : Heading}
    {items : List Located} (h : Syntax.heading d items = ([], lead, n)) (lastLine : Nat) :
    readHeading (parts, d) lastLine items =
      (readLead lastLine parts lead (items.drop n)).map fun read => (read.1, n + read.2) := by
  unfold readHeading
  dsimp only
  rw [h, List.append_nil]

/-- The heading goes on behind the item in front. -/
theorem readHeading_of_goes {parts text : List String} {d d' : Nat}
    (h : Syntax.heading d (l :: ls) =
      (text ++ (Syntax.heading d' ls).1, (Syntax.heading d' ls).2.1,
        (Syntax.heading d' ls).2.2 + 1)) (lastLine : Nat) :
    readHeading (parts, d) lastLine (l :: ls) =
      (readHeading (parts ++ text, d') lastLine ls).map fun read => (read.1, 1 + read.2) := by
  unfold readHeading
  dsimp only
  rw [h]
  generalize Syntax.heading d' ls = read
  obtain ⟨more, lead, n⟩ := read
  dsimp only
  rw [List.drop_succ_cons, List.append_assoc]
  cases readLead lastLine (parts ++ (text ++ more)) lead (ls.drop n) with
  | error e => rfl
  | ok read =>
    refine congrArg Except.ok (Prod.ext rfl ?_)
    dsimp only
    omega

section

variable {block : BlockEnd → Parsing (List Node)} {parts : List String} {d n : Nat}

/-- What a heading leads to is read behind the items that it takes itself. -/
theorem ends_leave {lead : Heading} {c' : Cursor} (hblock : ∀ j < k, ParsesBlocks block j)
    (hk : c.rest.length ≤ k) (h : Syntax.heading d c.rest = ([], lead, n)) (hpos : 0 < n)
    (hreaches : c.Reaches n c') :
    ∃ (r : Except ParseError Node) (m : Nat),
      Ends (do
        let node ← headed block parts lead
        return Next.leave (σ := List String × Nat) node) c' (r.map .leave) m ∧
      readHeading (parts, d) c.lastLine c.rest = r.map fun node => (node, n + m) := by
  have hlength := hreaches.length
  obtain ⟨r, m, hends, hread⟩ :=
    ends_headed (hblock c'.rest.length (by omega)) parts lead (Nat.le_refl _)
  rw [hreaches.lastLine, hreaches.rest] at hread
  refine ⟨r, m, hends.map _, ?_⟩
  rw [readHeading_of_ends h, hread]
  cases r <;> rfl

/-- Where a heading ends in front of an item, no statement starts. -/
theorem headingPass_ends (h : Syntax.heading d c.rest = ([], .declaration, 0))
    (hstarts : startsStatement c.item = false)
    (hpass : Ends (headingPass block (parts, d)) c
      (.ok (.leave (.declaration (" ".intercalate parts)))) 0) :
    PassParses (headingPass block) readHeading (parts, d) c := by
  refine Or.inl ⟨.ok _, 0, hpass, by simp [hstarts], ?_⟩
  rw [readHeading_of_ends h]
  rfl

theorem headingPass_goes (text : List String) (d' : Nat) (hrest : c.rest = l :: ls)
    (h : Syntax.heading d (l :: ls) =
      (text ++ (Syntax.heading d' ls).1, (Syntax.heading d' ls).2.1,
        (Syntax.heading d' ls).2.2 + 1))
    (hpass : Ends (headingPass block (parts, d)) c (.ok (.again (parts ++ text, d'))) 1) :
    PassParses (headingPass block) readHeading (parts, d) c := by
  refine Or.inr ⟨_, 1, Nat.one_pos, hpass, ?_⟩
  rw [hrest, readHeading_of_goes h]
  rfl

theorem headingPass_of_openBrace (hblock : ∀ j < k, ParsesBlocks block j)
    (hk : c.rest.length ≤ k) (hrest : c.rest = l :: ls) (hitem : c.item = .token .openBrace)
    (h : Syntax.heading 0 (l :: ls) = ([], .block .brace, 1)) :
    PassParses (headingPass block) readHeading (parts, 0) c := by
  obtain ⟨c', hreaches, hbehind⟩ := (Ends.takes hrest).behind
  obtain ⟨r, m, hends, heq⟩ := ends_leave hblock hk (hrest ▸ h) Nat.one_pos hreaches
  exact Or.inl ⟨r, 1 + m, .peek hitem (hbehind hends), fun _ => by omega, heq⟩

/-- Behind the line of a heading, its block is indented if it has one. -/
theorem headingPass_of_newline (hblock : ∀ j < k, ParsesBlocks block j) (hk : c.rest.length ≤ k)
    (hrest : c.rest = l :: ls) (hitem : c.item = .token .newline)
    (h : Syntax.heading 0 (l :: ls) =
      if ls.head?.map Located.item = some .indent then ([], .block .dedent, 2)
      else ([], .declaration, 1)) :
    PassParses (headingPass block) readHeading (parts, 0) c := by
  obtain ⟨c₁, h₁, hbehind₁⟩ := (Ends.takes hrest).behind
  have hrest₁ := h₁.rest_of_cons hrest
  rw [← hrest] at h
  by_cases hindent : ls.head?.map Located.item = some .indent
  · rw [if_pos hindent] at h
    obtain ⟨p, ps, rfl, hp⟩ := exists_of_head hindent
    obtain ⟨c₂, h₂, hbehind₂⟩ := (Ends.skip_true hrest₁ hp).behind
    obtain ⟨r, m, hends, heq⟩ := ends_leave hblock hk h Nat.two_pos (h₁.trans h₂)
    refine Or.inl ⟨r, 2 + m, .peek hitem ?_, fun _ => by omega, heq⟩
    exact (hbehind₁ (hbehind₂ hends)).count_eq (by omega)
  · rw [if_neg hindent] at h
    have hitem₁ : c₁.item ≠ .indent := Cursor.item_ne nofun (by rw [hrest₁]; exact hindent)
    obtain ⟨r, m, hends, heq⟩ := ends_leave hblock hk h Nat.one_pos h₁
    exact Or.inl ⟨r, 1 + m, .peek hitem (hbehind₁ (.skip_not hitem₁ hends)), fun _ => by omega, heq⟩

/-- A pass over a heading takes a token of it, or leaves with what the heading leads to. -/
theorem headingPass_parses (hblock : ∀ j < k, ParsesBlocks block j) (read : List String × Nat)
    (hk : c.rest.length ≤ k) : PassParses (headingPass block) readHeading read c := by
  obtain ⟨parts, d⟩ := read
  cases hrest : c.rest with
  | nil =>
    have hc := Cursor.item_of_nil hrest
    exact headingPass_ends (by rw [hrest]; rfl) (by rw [hc]; rfl) (.peek hc (.pure _ c))
  | cons l ls =>
    have hc := Cursor.item_of_cons hrest
    have hread := Syntax.heading.eq_def d (l :: ls)
    cases hitem : l.item with
    | eof | indent | dedent =>
      rw [hitem] at hc
      simp only [hitem] at hread
      exact headingPass_ends (by rw [hrest, hread]) (by rw [hc]; rfl) (.peek hc (.pure _ c))
    | token t =>
      rw [hitem] at hc
      simp only [hitem] at hread
      have hgoes : ∀ d', Syntax.heading d (l :: ls) =
          (t.text :: (Syntax.heading d' ls).1, (Syntax.heading d' ls).2.1,
            (Syntax.heading d' ls).2.2 + 1) →
          Ends (headingPass block (parts, d)) c (.ok (.again (parts ++ [t.text], d'))) 1 →
          PassParses (headingPass block) readHeading (parts, d) c :=
        fun d' => headingPass_goes [t.text] d' hrest
      cases t with
      | openBrace =>
        cases d with
        | zero => exact headingPass_of_openBrace hblock hk hrest hc hread
        | succ d => exact hgoes (d + 1) hread (.peek hc (.again hrest _))
      | newline =>
        cases d with
        | zero => exact headingPass_of_newline hblock hk hrest hc hread
        | succ d =>
          refine headingPass_goes [] (d + 1) hrest hread (.peek hc ?_)
          rw [List.append_nil]
          exact .again hrest _
      | semicolon | closeBrace =>
        cases d with
        | zero =>
          exact headingPass_ends (by rw [hrest, hread]; rfl) (by rw [hc]; rfl)
            (.peek hc (.pure _ c))
        | succ d => exact hgoes (d + 1) hread (.peek hc (.again hrest _))
      | openParen => exact hgoes (d + 1) hread (.peek hc (.again hrest _))
      | closeParen => exact hgoes (d - 1) hread (.peek hc (.again hrest _))
      | _ => exact hgoes d hread (.peek hc (.again hrest _))

end

theorem parses_heading (hblock : ∀ j < k, ParsesBlocks (statements limit depth) j)
    (hlimit : k < limit) :
    Parses (heading limit (depth + 1)) (readHeading ([], 0)) k :=
  Parses.loop (fun read c hk => headingPass_parses (c := c) hblock read hk) hlimit ([], 0)

/-! ## Statements -/

/-- Where an import stops is told by its own items, for it starts with a token. -/
theorem foldl_stopBehind {t : Token} (hl : l.item = .token t) (ht : t ≠ .newline)
    (items : List Located) (stop : Nat) :
    (l :: items).foldl stopBehind stop = lastStop (l :: items) := by
  have hstops : ∀ s, stopBehind s l = l.stop := by
    intro s
    unfold stopBehind
    rw [hl]
    cases t <;> first | rfl | exact absurd rfl ht
  have hfold : lastStop (l :: items) = (l :: items).foldl stopBehind 0 := rfl
  rw [hfold, List.foldl_cons, List.foldl_cons, hstops, hstops]

theorem ends_importing (kind : ImportKind)
    (hlist : Follows (expressions limit depth) (fun items =>
      (((Syntax.expressions items).1, (Syntax.expressions items).2.1),
        (Syntax.expressions items).2.2)) k)
    (hlimit : k < limit) (hdepth : 0 < depth) (h : c.rest = l :: ls)
    (hl : l.item = .token kind.token) (hk : ls.length ≤ k) :
    Ends (importing limit depth kind) c (.ok (Syntax.importing kind l ls).1)
      ((Syntax.importing kind l ls).2 + 1) := by
  refine .look _ (.look _ (.advance h fun c₁ h₁ hrest₁ => ?_))
  have hlength₁ := h₁.length
  have hread := hlist c₁ (by rw [hrest₁]; exact hk)
  dsimp only at hread
  rw [hrest₁] at hread
  unfold Syntax.importing
  dsimp only
  generalize Syntax.expressions ls = read at hread
  obtain ⟨exprs, indents, n⟩ := read
  dsimp only at hread ⊢
  obtain ⟨c₂, h₂, hbehind₂⟩ := hread.behind
  have hrest₂ : c₂.rest = ls.drop n := by rw [h₂.rest, hrest₁]
  have hend := follows_statementEnd hlimit hdepth c₂ (by rw [hrest₂, List.length_drop]; omega)
  dsimp only at hend
  rw [hrest₂] at hend
  generalize statementRest (ls.drop n) = e at hend ⊢
  obtain ⟨c₃, h₃, hbehind₃⟩ := hend.behind
  have hrest₃ : c₃.rest = ls.drop (n + e) := by rw [h₃.rest, hrest₂, List.drop_drop]
  obtain ⟨_, hskip⟩ := Ends.skip_token .semicolon c₃
  rw [hrest₃] at hskip
  generalize count .semicolon (ls.drop (n + e)) = s at hskip ⊢
  obtain ⟨c₄, h₄, hbehind₄⟩ := hskip.behind
  have hrest₄ : c₄.rest = ls.drop (n + e + s) := by rw [h₄.rest, hrest₃, List.drop_drop]
  have hcontinuation := follows_continuation hlimit hdepth indents c₄
    (by rw [hrest₄, List.length_drop]; omega)
  dsimp only at hcontinuation
  rw [hrest₄] at hcontinuation
  have hstop : c₄.stop = lastStop (l :: ls.take (n + e + s)) := by
    rw [← foldl_stopBehind hl (by cases kind <;> simp [ImportKind.token]) _ c.stop,
      (h₁.trans ((h₂.trans h₃).trans h₄)).stop, h, Nat.add_comm 1, List.take_succ_cons]
  rw [← hstop, ← Cursor.line_of_cons h, ← Cursor.start_of_cons h]
  refine (hbehind₂ (hbehind₃ (hbehind₄ (.look _ (hcontinuation.map _))))).count_eq ?_
  omega

theorem ends_assignment {p : Located} {ps : List Located} (name : String) (op : AssignOp)
    (hexpression : Follows (expression limit depth) Syntax.expression k)
    (hlimit : k < limit) (hdepth : 0 < depth) (h : c.rest = l :: p :: ps) (hk : ps.length ≤ k) :
    Ends (assignment limit depth name op) c (.ok (Syntax.assignment name op ps).1)
      ((Syntax.assignment name op ps).2 + 1 + 1) := by
  refine .advance h fun c₁ _ hrest₁ => .advance hrest₁ fun c₂ _ hrest₂ => ?_
  subst hrest₂
  refine (hexpression c₂ hk).bind fun c₃ h₃ => ?_
  have hlength := h₃.length
  rw [← h₃.rest]
  exact (follows_statementEnd hlimit hdepth c₃ (by omega)).map _

/-- What a call for a statement comes to. -/
def readStatement (lastLine : Nat) : List Located → Except ParseError (Node × Nat)
  | [] => readHeading ([], 0) lastLine []
  | l :: ls =>
    match l.item with
    | .token .atImport =>
      .ok ((Syntax.importing .import_ l ls).1, (Syntax.importing .import_ l ls).2 + 1)
    | .token .atRequire =>
      .ok ((Syntax.importing .require l ls).1, (Syntax.importing .require l ls).2 + 1)
    | .token (.ident name) =>
      match ls.head?.bind fun next => assignOp? next.item with
      | some op =>
        .ok ((Syntax.assignment name op (ls.drop 1)).1,
          (Syntax.assignment name op (ls.drop 1)).2 + 1 + 1)
      | none => readHeading ([], 0) lastLine (l :: ls)
    | _ => readHeading ([], 0) lastLine (l :: ls)

theorem parses_statement (hblock : ∀ j < k, ParsesBlocks (statements limit depth) j)
    (hlimit : k < limit) (hdepth : 2 * k ≤ depth) :
    Parses (statement limit (depth + 2)) readStatement k := by
  intro c hk
  have hheading : (∀ {r n}, Ends (heading limit (depth + 1)) c r n →
        Ends (statement limit (depth + 2)) c r n) →
      readStatement c.lastLine c.rest = readHeading ([], 0) c.lastLine c.rest →
      ∃ r n, Ends (statement limit (depth + 2)) c r n ∧ (startsStatement c.item = true → 0 < n) ∧
        readStatement c.lastLine c.rest = r.map fun node => (node, n) := by
    intro hcall heq
    obtain ⟨r, n, hends, hpos, hread⟩ := parses_heading hblock hlimit c hk
    exact ⟨r, n, hcall hends, hpos, heq.trans hread⟩
  cases hrest : c.rest with
  | nil =>
    rw [hrest] at hheading
    exact hheading (fun h => .peek (Cursor.item_of_nil hrest) h) rfl
  | cons l ls =>
    have hc := Cursor.item_of_cons hrest
    rw [hrest] at hheading hk
    rw [List.length_cons] at hk
    have hread := readStatement.eq_def c.lastLine (l :: ls)
    have hlist : Follows (expressions limit (depth + 1)) _ ls.length :=
      follows_expressions (follows_expression (by omega) (by omega)) (by omega)
    cases hitem : l.item with
    | eof | indent | dedent =>
      rw [hitem] at hc
      simp only [hitem] at hread
      exact hheading (fun h => .peek hc h) hread
    | token t =>
      rw [hitem] at hc
      simp only [hitem] at hread
      cases t with
      | atImport =>
        have hends := ends_importing .import_ hlist (by omega) (Nat.succ_pos _) hrest hitem
          (Nat.le_refl _)
        exact ⟨_, _, .peek hc hends, fun _ => Nat.succ_pos _, hread⟩
      | atRequire =>
        have hends := ends_importing .require hlist (by omega) (Nat.succ_pos _) hrest hitem
          (Nat.le_refl _)
        exact ⟨_, _, .peek hc hends, fun _ => Nat.succ_pos _, hread⟩
      | ident name =>
        dsimp only at hread
        have hnext : assignOp? c.next = ls.head?.bind fun next => assignOp? next.item := by
          rw [Cursor.next_of_cons hrest]
          cases ls <;> rfl
        cases hop : ls.head?.bind fun next => assignOp? next.item with
        | none =>
          rw [hop] at hread hnext
          refine hheading (fun h => .peek hc (.look _ ?_)) hread
          rw [hnext]
          exact h
        | some op =>
          rw [hop] at hread hnext
          cases ls with
          | nil => cases hop
          | cons p ps =>
            rw [List.length_cons] at hk
            have hexpression : Follows (expression limit (depth + 1)) Syntax.expression ps.length :=
              follows_expression (by omega) (by omega)
            refine ⟨.ok (Syntax.assignment name op ps).1, _, .peek hc (.look _ ?_),
              fun _ => Nat.succ_pos _, hread⟩
            rw [hnext]
            exact ends_assignment name op hexpression (by omega) (Nat.succ_pos _) hrest
              (Nat.le_refl _)
      | _ => exact hheading (fun h => .peek hc h) hread

/-- What a call for a statement comes to, told by how the statement starts. -/
def readOpening (lastLine : Nat) (ls : List Located) :
    Opening × Nat → Except ParseError (Node × Nat)
  | (.complete node, n) => .ok (node, n + 1)
  | (.before selector inner, n) =>
    (Syntax.statements lastLine inner (ls.drop n)).map fun read =>
      (.rule selector read.1, n + 1 + read.2)

theorem readStatement_of_starts (lastLine : Nat) (ls : List Located)
    (hstarts : startsStatement l.item = true) :
    readStatement lastLine (l :: ls) = readOpening lastLine ls (opening l ls) := by
  rcases headed_or l ls with ⟨kind, hitem⟩ | ⟨name, next, others, op, hitem, rfl, hop⟩ | hheaded
  · rw [opening_import kind ls hitem]
    unfold readStatement
    dsimp only
    rw [hitem]
    cases kind <;> rfl
  · rw [opening_assign others hitem hop]
    unfold readStatement
    dsimp only
    rw [hitem]
    dsimp only
    rw [List.head?_cons, Option.bind_some, hop]
    dsimp only [readOpening]
    rw [Nat.add_comm 1, List.drop_succ_cons, List.drop_zero]
  · have hread : readStatement lastLine (l :: ls) = readHeading ([], 0) lastLine (l :: ls) := by
      unfold readStatement
      dsimp only
      split
      · next hitem => exact absurd hitem (hheaded.1 .import_)
      · next hitem => exact absurd hitem (hheaded.1 .require)
      · next name hitem => rw [hheaded.2 name hitem]
      · rfl
    -- The item in front is counted by the heading and not by the opening.
    have hpos := heading_pos ls 0 hstarts
    rw [hread, hheaded.opening]
    unfold readHeading
    dsimp only
    generalize Syntax.heading 0 (l :: ls) = read at hpos ⊢
    obtain ⟨parts, lead, n⟩ := read
    obtain ⟨n, rfl⟩ := Nat.exists_eq_add_of_lt hpos
    rw [Nat.zero_add]
    cases lead with
    | declaration => rfl
    | block close =>
      dsimp only [readOpening, readLead]
      rw [List.nil_append, List.drop_succ_cons, Nat.add_sub_cancel]
      cases Syntax.statements lastLine close (ls.drop n) <;> rfl

/-- A statement comes in front of the statements behind it. -/
theorem statements_eq_read (lastLine : Nat) (close : BlockEnd) (ls : List Located)
    (hstarts : startsStatement l.item = true) :
    Syntax.statements lastLine close (l :: ls) = do
      let (node, n) ← readStatement lastLine (l :: ls)
      let (nodes, m) ← Syntax.statements lastLine close ((l :: ls).drop n)
      return (node :: nodes, n + m) := by
  rw [statements_of_starts ls hstarts, readStatement_of_starts lastLine ls hstarts]
  generalize opening l ls = opens
  obtain ⟨node | ⟨selector, inner⟩, n⟩ := opens
  · dsimp only [bind, Except.bind, readOpening]
    rw [Nat.add_comm 1, List.drop_succ_cons]
  · dsimp only [readOpening]
    cases Syntax.statements lastLine inner (ls.drop n) with
    | error e => rfl
    | ok read =>
      dsimp only [bind, Except.bind, Except.map]
      rw [Nat.add_comm 1, Nat.add_right_comm n 1, List.drop_succ_cons]

/-! ## Blocks -/

/-- What the statements of a block are read as behind the nodes that are read already. -/
def readOthers (close : BlockEnd) (nodes : List Node) (lastLine : Nat) (items : List Located) :
    Except ParseError (List Node × Nat) :=
  (Syntax.statements lastLine close items).map fun read => (nodes ++ read.1, read.2)

theorem readOthers_nil (close : BlockEnd) (lastLine : Nat) (items : List Located) :
    readOthers close [] lastLine items = Syntax.statements lastLine close items := by
  unfold readOthers
  cases Syntax.statements lastLine close items <;> rfl

theorem statements_at_eof (close : BlockEnd) (h : c.item = .eof) :
    Syntax.statements c.lastLine close c.rest =
      if close = .brace then .error (.unbalanced (c.line + 1)) else .ok ([], 0) := by
  cases hrest : c.rest with
  | nil => rw [Cursor.line_of_nil hrest, statements_nil]
  | cons l ls =>
    rw [Cursor.item_of_cons hrest] at h
    rw [Cursor.line_of_cons hrest, statements_of_eof ls h]

theorem ends_refuse (error : Nat → ParseError) (c : Cursor) :
    Ends (do refuse (α := α) (error ((← cursor).line + 1))) c (.error (error (c.line + 1))) 0 :=
  .look _ (.refuse _ c)

section

variable {statement : Parsing Node} {block : Parsing (List Node)} {close : BlockEnd}
  {nodes : List Node} {n : Nat}

/-- At the end of a block a pass leaves the loop or refuses the document. -/
theorem statementsPass_ends {r : Except ParseError Unit}
    (hends : Ends (statementsPass statement block close nodes) c (r.map fun () => .leave nodes) n)
    (hstarts : startsStatement c.item = false)
    (hread : Syntax.statements c.lastLine close c.rest = r.map fun () => ([], n)) :
    PassParses (statementsPass statement block close) (readOthers close) nodes c := by
  refine Or.inl ⟨r.map fun () => nodes, n, ?_, by simp [hstarts], ?_⟩
  · cases r <;> exact hends
  · unfold readOthers
    rw [hread]
    cases r with
    | error e => rfl
    | ok => exact congrArg (fun nodes => Except.ok (nodes, n)) (List.append_nil nodes)

/-- Elsewhere a pass adds a node to the others, or the document is refused within it. -/
theorem statementsPass_adds {r : Except ParseError Node}
    (hends : Ends (statementsPass statement block close nodes) c
      (r.map fun node => .again (nodes ++ [node])) n) (hpos : 0 < n)
    (hread : Syntax.statements c.lastLine close c.rest = do
      let node ← r
      let (others, m) ← Syntax.statements c.lastLine close (c.rest.drop n)
      return (node :: others, n + m)) :
    PassParses (statementsPass statement block close) (readOthers close) nodes c := by
  cases r with
  | error e =>
    refine Or.inl ⟨.error e, n, hends, fun _ => hpos, ?_⟩
    unfold readOthers
    rw [hread]
    rfl
  | ok node =>
    refine Or.inr ⟨nodes ++ [node], n, hpos, hends, ?_⟩
    unfold readOthers
    rw [hread]
    cases Syntax.statements c.lastLine close (c.rest.drop n) with
    | error e => rfl
    | ok read =>
      exact congrArg (fun nodes => Except.ok (nodes, n + read.2)) (List.append_cons _ _ _)

theorem statementsPass_of_eof (hitem : c.item = .eof) :
    PassParses (statementsPass statement block close) (readOthers close) nodes c := by
  have hread := statements_at_eof close hitem
  by_cases hclose : close = .brace
  · rw [if_pos hclose] at hread
    refine statementsPass_ends (r := .error _) (n := 0) (.peek hitem ?_) (by rw [hitem]; rfl) hread
    dsimp only
    rw [if_pos hclose]
    exact ends_refuse .unbalanced c
  · rw [if_neg hclose] at hread
    refine statementsPass_ends (r := .ok ()) (.peek hitem ?_) (by rw [hitem]; rfl) hread
    dsimp only
    rw [if_neg hclose]
    exact .pure _ c

/-- In front of the item that closes a block of the kind `e`, a pass leaves the loop if the block is
of that kind. -/
theorem statementsPass_closes {e : BlockEnd} (error : Nat → ParseError)
    (hitem : c.item = l.item) (hrest : c.rest = l :: ls) (hstarts : startsStatement l.item = false)
    (hpass : ∀ {r n}, Ends (if close = e then do
        advance
        return .leave nodes
      else do
        refuse (error ((← cursor).line + 1))) c r n →
      Ends (statementsPass statement block close nodes) c r n)
    (hread : Syntax.statements c.lastLine close (l :: ls) =
      if close = e then .ok ([], 1) else .error (error (l.line + 1))) :
    PassParses (statementsPass statement block close) (readOthers close) nodes c := by
  rw [← hitem] at hstarts
  rw [← hrest, ← Cursor.line_of_cons hrest] at hread
  by_cases hclose : close = e
  · rw [if_pos hclose] at hread hpass
    exact statementsPass_ends (r := .ok ()) (hpass ((Ends.takes hrest).map _)) hstarts hread
  · rw [if_neg hclose] at hread hpass
    exact statementsPass_ends (r := .error _) (hpass (ends_refuse error c)) hstarts hread

theorem statementsPass_of_dedent (hitem : c.item = .dedent) :
    PassParses (statementsPass statement block close) (readOthers close) nodes c := by
  obtain ⟨l, ls, hrest, hl⟩ := Cursor.exists_of_item hitem nofun
  exact statementsPass_closes (fun line => .unexpected line "dedent") (hitem.trans hl.symm) hrest
    (by rw [hl]; rfl) (fun h => .peek hitem h) (statements_of_dedent ls hl)

theorem statementsPass_of_closeBrace (hitem : c.item = .token .closeBrace) :
    PassParses (statementsPass statement block close) (readOthers close) nodes c := by
  obtain ⟨l, ls, hrest, hl⟩ := Cursor.exists_of_item hitem nofun
  exact statementsPass_closes .unbalanced (hitem.trans hl.symm) hrest (by rw [hl]; rfl)
    (fun h => .peek hitem h) (statements_of_closeBrace ls hl)

theorem statementsPass_of_blank (hitem : c.item = .token .newline ∨ c.item = .token .semicolon) :
    PassParses (statementsPass statement block close) (readOthers close) nodes c := by
  obtain ⟨l, ls, hrest, hl⟩ : ∃ l ls, c.rest = l :: ls ∧ l.item = c.item :=
    Cursor.exists_of_item rfl (by rcases hitem with hitem | hitem <;> rw [hitem] <;> nofun)
  have hl' : l.item = .token .newline ∨ l.item = .token .semicolon := by rwa [hl]
  have hpass : Ends (statementsPass statement block close nodes) c (.ok (.again nodes)) 1 := by
    rcases hitem with hitem | hitem <;> exact .peek hitem (.again hrest nodes)
  refine Or.inr ⟨nodes, 1, Nat.one_pos, hpass, ?_⟩
  unfold readOthers
  rw [hrest, statements_of_blank ls hl', List.drop_succ_cons, List.drop_zero]
  cases Syntax.statements c.lastLine close ls with
  | error e => rfl
  | ok read => exact congrArg (fun m => Except.ok (nodes ++ read.1, m)) (Nat.add_comm _ _)

theorem statementsPass_of_indent
    (hblock : ∀ j < k, Parses block (fun lastLine => Syntax.statements lastLine .dedent) j)
    (hitem : c.item = .indent) (hk : c.rest.length ≤ k) :
    PassParses (statementsPass statement block close) (readOthers close) nodes c := by
  obtain ⟨l, ls, hrest, hl⟩ := Cursor.exists_of_item hitem nofun
  have hread : Syntax.statements c.lastLine close (l :: ls) = _ := statements_of_indent ls hl
  rw [hrest, List.length_cons] at hk
  obtain ⟨c', hreaches, hbehind⟩ := (Ends.takes hrest).behind
  have hrest' := hreaches.rest_of_cons hrest
  obtain ⟨r, n, hends, -, heq⟩ :=
    hblock ls.length hk c' (Nat.le_of_eq (congrArg List.length hrest'))
  dsimp only at heq
  rw [hreaches.lastLine, hrest'] at heq
  rw [heq] at hread
  have hpass : Ends (statementsPass statement block close nodes) c
      ((r.map Node.block).map fun node => .again (nodes ++ [node])) (1 + n) := by
    have hadds := hends.map fun children => Next.again (α := List Node) (nodes ++ [.block children])
    refine .peek hitem (hbehind ?_)
    cases r <;> exact hadds
  refine statementsPass_adds hpass (by omega) ?_
  rw [hrest, hread, ← List.drop_drop]
  cases r <;> rfl

theorem statementsPass_of_starts (hstatement : Parses statement readStatement k)
    (hstarts : startsStatement c.item = true) (hk : c.rest.length ≤ k) :
    PassParses (statementsPass statement block close) (readOthers close) nodes c := by
  obtain ⟨l, ls, hrest, hl⟩ : ∃ l ls, c.rest = l :: ls ∧ l.item = c.item := by
    refine Cursor.exists_of_item rfl fun heof => ?_
    rw [heof] at hstarts
    cases hstarts
  obtain ⟨r, n, hends, hpos, heq⟩ := hstatement c hk
  have hcall := (hends.forStatement (hpos hstarts)).map fun node =>
    Next.again (α := List Node) (nodes ++ [node])
  have hpass : Ends (statementsPass statement block close nodes) c
      (r.map fun node => .again (nodes ++ [node])) n := by
    cases hitem : c.item with
    | eof | indent | dedent =>
      rw [hitem] at hstarts
      cases hstarts
    | token t =>
      cases t with
      | newline | semicolon | closeBrace =>
        rw [hitem] at hstarts
        cases hstarts
      | _ => exact .peek hitem hcall
  refine statementsPass_adds hpass (hpos hstarts) ?_
  rw [← hl] at hstarts
  rw [hrest, statements_eq_read c.lastLine close ls hstarts, ← hrest, heq]
  cases r <;> rfl

end

/-- A pass over the statements of a block takes a line break or a statement, or leaves the loop with
all of them. -/
theorem statementsPass_parses {statement : Parsing Node} {block : Parsing (List Node)}
    (hstatement : Parses statement readStatement k)
    (hblock : ∀ j < k, Parses block (fun lastLine => Syntax.statements lastLine .dedent) j)
    (close : BlockEnd) (nodes : List Node) (hk : c.rest.length ≤ k) :
    PassParses (statementsPass statement block close) (readOthers close) nodes c := by
  cases hitem : c.item with
  | eof => exact statementsPass_of_eof hitem
  | dedent => exact statementsPass_of_dedent hitem
  | indent => exact statementsPass_of_indent hblock hitem hk
  | token t =>
    cases t with
    | closeBrace => exact statementsPass_of_closeBrace hitem
    | newline => exact statementsPass_of_blank (Or.inl hitem)
    | semicolon => exact statementsPass_of_blank (Or.inr hitem)
    | _ => exact statementsPass_of_starts hstatement (by rw [hitem]; rfl) hk

/-- Three calls inside each other take an item at least. -/
theorem parses_statements (hlimit : k < limit) (hdepth : 3 * k + 3 ≤ depth) :
    ParsesBlocks (statements limit depth) k := by
  induction k using Nat.strongRecOn generalizing depth with
  | ind k ih =>
    intro close
    obtain ⟨depth, rfl⟩ := Nat.exists_eq_add_of_le' hdepth
    -- A block inside this one starts behind an item, so fewer items are left for it.
    have hstatement : Parses (statement limit (depth + 3 * k + 2)) readStatement k :=
      parses_statement (fun j hj => ih j hj (by omega) (by omega)) hlimit (by omega)
    have hblock : ∀ j < k, Parses (statements limit (depth + 3 * k + 2) .dedent) _ j :=
      fun j hj => ih j hj (by omega) (by omega) .dedent
    have hpass : ∀ nodes (c : Cursor), c.rest.length ≤ k →
        PassParses _ (readOthers close) nodes c :=
      fun nodes c hk => statementsPass_parses hstatement hblock close nodes hk
    have hloop : Parses (statements limit (depth + 3 * k + 3) close) (readOthers close []) k :=
      Parses.loop hpass hlimit []
    intro c hk
    obtain ⟨r, n, hends, hpos, heq⟩ := hloop c hk
    exact ⟨r, n, hends, hpos, (readOthers_nil ..).symm.trans heq⟩

end StyleWeave.Syntax.Descent
