import StyleWeave.Proofs.Token.Spelling

/-!
# Scanning a text piece by piece

What the layout pass does with a piece of text depends on little of where it stands (`Mark`). A
piece is scanned to items (`Scans`) token by token, and pieces are put together (`Scans.append`).
-/

namespace StyleWeave.Layout

open Lexeme (Delimited Spells delimited_cons ofText ofText_spells signs spells_sign)

/-- What the layout of a text depends on. Parentheses do not stay open over a line break. -/
structure Mark where
  fresh : Bool
  columns : List Nat
  braces : Nat
  parens : Nat

/-- Where the pass stands agrees with the mark; a line that is fresh starts where it stands. -/
structure Mark.Of (m : Mark) (s : State) : Prop where
  fresh : s.fresh = m.fresh
  columns : s.columns = m.columns
  braces : s.braces = m.braces
  parens : s.parens = m.parens
  lineStart : m.fresh = true → s.lineStart = s.offset

/-- From `m`, the text is scanned to these items in front of all that satisfies `B`, and the pass
comes to `m'`. -/
def Scans (m : Mark) (text : List Char) (items : List Item) (m' : Mark)
    (B : List Char → Prop) : Prop :=
  ∀ s, m.Of s → ∃ s' located, m'.Of s' ∧ located.map Located.item = items ∧
    ∀ size rest, B rest →
      run size s (ofText (text ++ rest)) = (run size s' (ofText rest)).map (located ++ ·)

variable {m m' m'' : Mark} {text text' : List Char} {items items' : List Item}
  {B B' : List Char → Prop}

theorem Scans.nil : Scans m [] [] m B := by
  intro s hs
  refine ⟨s, [], hs, rfl, fun size rest _ => ?_⟩
  rw [List.nil_append]
  cases run size s (ofText rest) <;> rfl

theorem Scans.append (h : Scans m text items m' B) (h' : Scans m' text' items' m'' B')
    (hB : ∀ rest, B' rest → B (text' ++ rest)) :
    Scans m (text ++ text') (items ++ items') m'' B' := by
  intro s hs
  obtain ⟨s', located, hs', hitems, hrun⟩ := h s hs
  obtain ⟨s'', located', hs'', hitems', hrun'⟩ := h' s' hs'
  refine ⟨s'', located ++ located', hs'', by rw [List.map_append, hitems, hitems'], ?_⟩
  intro size rest hrest
  rw [List.append_assoc, hrun size _ (hB rest hrest), hrun' size rest hrest]
  cases run size s'' (ofText rest) with
  | error e => rfl
  | ok ls => simp [Except.map]

theorem Scans.mono (h : Scans m text items m' B) (hB : ∀ rest, B' rest → B rest) :
    Scans m text items m' B' := by
  intro s hs
  obtain ⟨s', located, hs', hitems, hrun⟩ := h s hs
  exact ⟨s', located, hs', hitems, fun size rest hrest => hrun size rest (hB rest hrest)⟩

/-! ## Tokens -/

/-- The layout of a token in column `column`, from `m`. -/
inductive Indents (column : Nat) : Mark → List Item → Mark → Prop where
  /-- The token is not the first of its line. -/
  | within {m : Mark} (fresh : m.fresh = false) : Indents column m [] m
  | enclosed {m : Mark} (fresh : m.fresh = true) (braces : m.braces ≠ 0) :
      Indents column m [] { m with fresh := false }
  | deeper {m : Mark} (fresh : m.fresh = true) (braces : m.braces = 0) (parens : m.parens = 0)
      (lt : Layout.column m.columns < column) :
      Indents column m [.indent] { m with fresh := false, columns := column :: m.columns }
  /-- The blocks that are deeper than the line end. -/
  | back {m : Mark} {closed : List Nat} (fresh : m.fresh = true) (braces : m.braces = 0)
      (parens : m.parens = 0) {columns : List Nat} (split : m.columns = closed ++ columns)
      (deeper : ∀ c ∈ closed, column < c) (here : Layout.column columns = column) :
      Indents column m (List.replicate closed.length .dedent)
        { m with fresh := false, columns }

theorem laidOut_of_indents {column : Nat} (h : Indents column m items m') {s : State}
    (hs : m.Of s) :
    ∃ located s', LaidOut s (s.offset + column) located s' ∧
      located.map Located.item = items ∧ m'.Of s' ∧ m'.fresh = false := by
  cases h with
  | within fresh => exact ⟨[], s, .within (hs.fresh.trans fresh), rfl, hs, fresh⟩
  | enclosed fresh braces =>
    rw [← hs.braces] at braces
    exact ⟨[], _, .inside (hs.fresh.trans fresh) (Or.inl braces), rfl,
      ⟨rfl, hs.columns, hs.braces, hs.parens, fun h => by cases h⟩, rfl⟩
  | deeper fresh braces parens lt =>
    have hcolumn : s.offset + column - s.lineStart = column := by
      rw [hs.lineStart fresh]
      omega
    rw [← hs.columns] at lt
    exact ⟨_, _, .deeper (hs.fresh.trans fresh) (hs.braces.trans braces) (hs.parens.trans parens)
      hcolumn lt, rfl, ⟨rfl, congrArg _ hs.columns, hs.braces, hs.parens, fun h => by cases h⟩, rfl⟩
  | @back closed fresh braces parens columns split deeper here =>
    have hcolumn : s.offset + column - s.lineStart = column := by
      rw [hs.lineStart fresh]
      omega
    have hout : outdent column s.columns = columns := by
      have hstop : columns.dropWhile (column < ·) = columns := by
        cases columns with
        | nil => rfl
        | cons c cs =>
          have hc : c = column := here
          simp [hc]
      rw [outdent, hs.columns, split, List.dropWhile_append_of_pos (by simpa using deeper), hstop]
    have hle : column ≤ Layout.column s.columns := by
      rw [hs.columns, split]
      cases closed with
      | nil => exact Nat.le_of_eq here.symm
      | cons c cs => exact Nat.le_of_lt (deeper c List.mem_cons_self)
    have hcount : s.columns.length - columns.length = closed.length := by
      rw [hs.columns, split, List.length_append]
      omega
    refine ⟨_, _, .level (hs.fresh.trans fresh) (hs.braces.trans braces) (hs.parens.trans parens)
      hcolumn hle (by rw [hout, here]), ?_, ⟨rfl, hout, hs.braces, hs.parens, fun h => by cases h⟩,
      rfl⟩
    rw [hout, hcount, List.map_replicate]

/-- The token is counted: brackets change what is open. -/
inductive Counts : Mark → Token → Mark → Prop where
  | none {m : Mark} {t : Token} (plain : ∀ s : State, bracket s t = .ok s) : Counts m t m
  | openParen {m : Mark} : Counts m .openParen { m with parens := m.parens + 1 }
  | closeParen {m : Mark} : Counts { m with parens := m.parens + 1 } .closeParen m
  | openBrace {m : Mark} : Counts m .openBrace { m with braces := m.braces + 1 }
  | closeBrace {m : Mark} : Counts { m with braces := m.braces + 1 } .closeBrace m

theorem counted_of_counts {t : Token} (h : Counts m t m') {s : State} (hs : m.Of s) :
    ∃ s', Counted s t s' ∧ m'.Of s' ∧ m'.fresh = m.fresh := by
  obtain ⟨hfresh, hcolumns, hbraces, hparens, hstart⟩ := hs
  cases h with
  | none plain =>
    exact ⟨s, bracket_eq_ok.1 (plain s), ⟨hfresh, hcolumns, hbraces, hparens, hstart⟩, rfl⟩
  | openParen =>
    exact ⟨_, .openParen, ⟨hfresh, hcolumns, hbraces, congrArg (· + 1) hparens, hstart⟩, rfl⟩
  | closeParen =>
    exact ⟨_, .closeParen hparens, ⟨hfresh, hcolumns, hbraces, rfl, hstart⟩, rfl⟩
  | openBrace =>
    exact ⟨_, .openBrace, ⟨hfresh, hcolumns, congrArg (· + 1) hbraces, hparens, hstart⟩, rfl⟩
  | closeBrace =>
    exact ⟨_, .closeBrace hbraces, ⟨hfresh, hcolumns, rfl, hparens, hstart⟩, rfl⟩

theorem passGap_spaces (s : State) (n : Nat) : passGap s (List.replicate n ' ') = ([], s) := by
  have hcount : (List.replicate n ' ').count '\n' = 0 := by simp [List.count_replicate]
  simp [passGap, hcount]

/-- One token behind blanks. -/
theorem scans_token {t : Token} {column : Nat} (h : Spells text t B) (ht : t ≠ .newline)
    (hindents : Indents column m items m') (hcounts : Counts m' t m'') :
    Scans m (List.replicate column ' ' ++ text) (items ++ [.token t]) m'' B := by
  intro s hs
  obtain ⟨layout, s₁, hlaid, hitems, hs₁, hfresh₁⟩ := laidOut_of_indents hindents hs
  obtain ⟨s₂, hcounted, hs₂, hfresh₂⟩ := counted_of_counts hcounts hs₁
  have hnot : m''.fresh = false := hfresh₂.trans hfresh₁
  refine ⟨{ s₂ with offset := s.offset + column + Text.bytes text },
    layout ++ [⟨.token t, s₂.line, s.offset + column, s.offset + column + Text.bytes text⟩],
    ⟨hs₂.fresh, hs₂.columns, hs₂.braces, hs₂.parens, fun hyes => by rw [hnot] at hyes; cases hyes⟩,
    by rw [List.map_append, hitems]; rfl, fun size rest hrest => ?_⟩
  rw [List.append_assoc, ofText_spells h column hrest, run_token, passGap_spaces,
    Text.bytes_spaces, put_of ht hlaid hcounted]
  rfl

/-- A token in the middle of a line. -/
theorem scans_within {t : Token} (n : Nat) (h : Spells text t B) (ht : t ≠ .newline)
    (hfresh : m.fresh = false) (hcounts : Counts m t m') :
    Scans m (List.replicate n ' ' ++ text) [.token t] m' B :=
  scans_token h ht (Indents.within hfresh) hcounts

theorem scans_sign {text : List Char} {t : Token} {m m' : Mark} (n : Nat)
    (h : (text, t) ∈ signs) (ht : t ≠ .newline) (hfresh : m.fresh = false)
    (hcounts : Counts m t m') :
    Scans m (List.replicate n ' ' ++ text) [.token t] m' fun _ => True :=
  scans_within n (spells_sign h) ht hfresh hcounts

/-- Where the pass stands behind a line break that follows at once. -/
def State.nextLine (s : State) : State where
  offset := s.offset + 1
  line := s.line + 1
  lineStart := s.offset + 1
  fresh := true
  columns := s.columns
  braces := s.braces
  parens := s.parens

/-- The end of a line. -/
theorem scans_newline (hfresh : m.fresh = false) :
    Scans m ['\n'] [.token .newline] { m with fresh := true } fun _ => True := by
  intro s hs
  have hspells : Spells ['\n'] .newline fun _ => True := spells_sign (by decide)
  refine ⟨s.nextLine, [⟨.token .newline, s.line, s.offset, s.offset + 1⟩],
    ⟨rfl, hs.columns, hs.braces, hs.parens, fun _ => rfl⟩, rfl, fun size rest hrest => ?_⟩
  have hcut : ofText (['\n'] ++ rest) = ⟨[], .token .newline, ['\n']⟩ :: ofText rest :=
    ofText_spells hspells 0 hrest
  have hgap : passGap s [] = ([], s) := rfl
  have hwidth : Text.bytes ['\n'] = 1 := by decide
  have hput : put s s.offset (s.offset + 1) .newline =
      .ok ([⟨.token .newline, s.line, s.offset, s.offset + 1⟩], s.nextLine) := by
    simp [put, hs.fresh, hfresh, State.nextLine]
  rw [hcut, run_token, hgap, hwidth, Text.bytes_nil, Nat.add_zero, hput]
  rfl

/-! ## Lines -/

/-- A line of a document. -/
def printedLine (column : Nat) (text : List Char) : List Char :=
  List.replicate column ' ' ++ text ++ ['\n']

/-- Between two lines, with these blocks and braces open. -/
def Mark.line (columns : List Nat) (braces : Nat) : Mark :=
  ⟨true, columns, braces, 0⟩

/-- In a line, with these blocks and braces open. -/
def Mark.inLine (columns : List Nat) (braces : Nat) : Mark :=
  ⟨false, columns, braces, 0⟩

/-- A line is scanned to its layout, its first token, the items behind that and a line break. -/
theorem scans_line {column braces braces₁ braces₂ : Nat} {start columns : List Nat}
    {lead items : List Item} {text rest : List Char} {t : Token}
    (hindents : Indents column (Mark.line start braces) lead (Mark.inLine columns braces))
    (hspells : Spells text t Delimited) (ht : t ≠ .newline)
    (hcounts : Counts (Mark.inLine columns braces) t (Mark.inLine columns braces₁))
    (hrest : Scans (Mark.inLine columns braces₁) rest items (Mark.inLine columns braces₂) Delimited)
    (hdelimited : ∀ behind, Delimited behind → Delimited (rest ++ behind)) :
    Scans (Mark.line start braces) (printedLine column (text ++ rest))
      (lead ++ .token t :: (items ++ [.token .newline])) (Mark.line columns braces₂)
      fun _ => True := by
  have hfirst := scans_token hspells ht hindents hcounts
  have hbreak : Scans (Mark.inLine columns braces₂) ['\n'] [.token .newline]
      (Mark.line columns braces₂) fun _ => True := scans_newline rfl
  have hall := (hfirst.append hrest hdelimited).append hbreak
    fun _ _ => delimited_cons (by decide) (by decide)
  have htext : List.replicate column ' ' ++ text ++ rest ++ ['\n'] =
      printedLine column (text ++ rest) := by
    rw [printedLine, List.append_assoc (List.replicate column ' ')]
  have hitems : lead ++ [.token t] ++ items ++ [.token .newline] =
      lead ++ Item.token t :: (items ++ [.token .newline]) := by
    simp
  rwa [htext, hitems] at hall

/-- A piece of a document is laid out on lines of their own: from a line with the blocks of `start`
open, which is indented to `columns` by `lead`, it is scanned to the items. Blocks that are still
open behind it are closed by the line that follows. -/
def Lays (column braces : Nat) (start columns : List Nat) (lead : List Item) (text : List Char)
    (items : List Item) : Prop :=
  ∃ scanned opened, Scans (Mark.line start braces) text scanned
      (Mark.line (opened ++ columns) braces) (fun _ => True) ∧
    scanned ++ List.replicate opened.length .dedent = lead ++ items ∧
    (∀ c ∈ opened, column < c) ∧ (braces ≠ 0 → opened = [])

variable {column braces : Nat} {start columns : List Nat} {lead : List Item}

theorem Lays.of_line (h : Scans (Mark.line start braces) text (lead ++ items)
    (Mark.line columns braces) fun _ => True) :
    Lays column braces start columns lead text items :=
  ⟨lead ++ items, [], h, List.append_nil _, by simp, fun _ => rfl⟩

/-- Outside braces, a line starts in the column of the innermost block that is open on it. -/
theorem Indents.column_eq
    (h : Indents column (Mark.line start 0) lead (Mark.inLine columns 0)) :
    Layout.column columns = column := by
  cases h with
  | enclosed _ hne => exact absurd rfl hne
  | deeper _ _ _ _ => rfl
  | back _ _ _ _ _ here => exact here

/-- The line behind a piece starts where the piece does. -/
theorem Indents.next (h : Indents column (Mark.line start braces) lead (Mark.inLine columns braces))
    {opened : List Nat} (hdeeper : ∀ c ∈ opened, column < c) (hinside : braces ≠ 0 → opened = []) :
    Indents column (Mark.line (opened ++ columns) braces)
      (List.replicate opened.length .dedent) (Mark.inLine columns braces) := by
  by_cases hbraces : braces = 0
  · subst hbraces
    exact .back rfl rfl rfl rfl hdeeper h.column_eq
  · rw [hinside hbraces]
    exact .enclosed rfl hbraces

/-- What is laid out behind one another. -/
theorem Lays.append {text' : List Char} {items' : List Item}
    (hindents : Indents column (Mark.line start braces) lead (Mark.inLine columns braces))
    (h : Lays column braces start columns lead text items)
    (h' : ∀ {start' : List Nat} {lead' : List Item},
      Indents column (Mark.line start' braces) lead' (Mark.inLine columns braces) →
      Lays column braces start' columns lead' text' items') :
    Lays column braces start columns lead (text ++ text') (items ++ items') := by
  obtain ⟨scanned, opened, hscans, hitems, hdeeper, hinside⟩ := h
  obtain ⟨scanned', opened', hscans', hitems', hdeeper', hinside'⟩ :=
    h' (hindents.next hdeeper hinside)
  refine ⟨scanned ++ scanned', opened', hscans.append hscans' fun _ _ => trivial, ?_, hdeeper',
    hinside'⟩
  rw [List.append_assoc, hitems', ← List.append_assoc, hitems, List.append_assoc]

end StyleWeave.Layout
