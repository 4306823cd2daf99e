import StyleWeave.Proofs.Syntax.Statements
import StyleWeave.Proofs.Token.Scanning

/-!
# Printing trees

A tree of statements is printed one statement a line. A block is printed either as lines that are
indented two columns deeper or between braces, and inside braces all blocks have braces. What is
printed is scanned to the items of the tree (`scans_printed`).
-/

namespace StyleWeave

open Layout (Counts Indents Lays Mark Scans printedLine scans_line scans_sign)
open Lexeme (Delimited Spells delimited_cons)

/-! ## Expressions -/

/-- The expression can be printed: it is made of texts on one line, identifiers, sums, and calls of
functions other than `url`. -/
inductive Expr.Printable : Expr → Prop where
  | literal {text : String} (single : '\n' ∉ text.toList) : Printable (.literal text)
  | ident {name : String} (valid : isIdent name.toList = true) : Printable (.ident name)
  | concat {left right : Expr} (hleft : left.Printable) (hright : right.Printable) :
      Printable (.concat left right)
  | call {function : String} {args : List Expr} (valid : isIdent function.toList = true)
      (notUrl : function ≠ "url") (hargs : ∀ arg ∈ args, Printable arg) :
      Printable (.call function args)

namespace Expr

def isSum : Expr → Bool
  | .concat _ _ => true
  | _ => false

mutual

/-- An expression as a text. A sum is in parentheses if it is added to another expression. -/
def printed : Expr → List Char
  | .literal text => quoted text.toList
  | .ident name => name.toList
  | .concat left right =>
    left.printed ++ ' ' :: '+' :: ' ' ::
      (if right.isSum then '(' :: (right.printed ++ [')']) else right.printed)
  | .call function args => function.toList ++ '(' :: (printedAll args ++ [')'])
  | .unknown => []

/-- Expressions with commas between them. -/
def printedAll : List Expr → List Char
  | [] => []
  | e :: es => e.printed ++ printedRest es

/-- Expressions, each behind a comma. -/
def printedRest : List Expr → List Char
  | [] => []
  | e :: es => ',' :: ' ' :: (e.printed ++ printedRest es)

end

mutual

/-- The items of the printed expression. -/
def items : Expr → List Item
  | .literal text => [.token (.string text)]
  | .ident name => [.token (.ident name)]
  | .concat left right =>
    left.items ++ .token .plus ::
      (if right.isSum then .token .openParen :: (right.items ++ [.token .closeParen])
      else right.items)
  | .call function args =>
    .token (.ident function) :: .token .openParen :: (itemsOfAll args ++ [.token .closeParen])
  | .unknown => []

def itemsOfAll : List Expr → List Item
  | [] => []
  | e :: es => e.items ++ itemsOfRest es

def itemsOfRest : List Expr → List Item
  | [] => []
  | e :: es => .token .comma :: (e.items ++ itemsOfRest es)

end

end Expr

/-! ## Statements -/

/-- A heading of one word, which is an identifier or an at-rule. -/
inductive Word where
  | ident (name : String) (valid : isIdent name.toList = true)
  | atRule (name : String) (valid : isAtName name.toList = true)

namespace Word

def token : Word → Token
  | ident name _ => .ident name
  | atRule name _ => .atRule name

def printed : Word → List Char
  | ident name _ => name.toList
  | atRule name _ => '@' :: name.toList

end Word

/-- How a block is printed. Between braces its lines may be indented to any depth. -/
inductive Style where
  | indented
  | braced (deeper : Nat)
  deriving DecidableEq, Repr

def Style.deeper : Style → Nat
  | indented => 2
  | braced deeper => deeper

/-- A statement to be printed, with a style for each of its blocks. No block is empty. -/
inductive Stmt where
  | importing (kind : ImportKind) (first : { e : Expr // e.Printable })
      (others : List { e : Expr // e.Printable })
  | assign (name : { s : String // isIdent s.toList = true }) (op : AssignOp)
      (value : { e : Expr // e.Printable })
  | declaration (word : Word)
  | rule (selector : Word) (style : Style) (first : Stmt) (others : List Stmt)

def AssignOp.printed : AssignOp → List Char
  | .set => ['=']
  | .setLocal => [':', '=']
  | .default => ['?', '=']

def AssignOp.token : AssignOp → Token
  | .set => .assign
  | .setLocal => .assignLocal
  | .default => .assignDefault

namespace Stmt

mutual

/-- The node of the tree. -/
def node : Stmt → Node
  | importing kind first others =>
    .importing ⟨kind, first.1 :: others.map Subtype.val, 0, 0, 0⟩
  | assign name op value => .assign name.1 op value.1
  | declaration word => .declaration word.token.text
  | rule selector _ first others => .rule selector.token.text (first.node :: nodes others)

def nodes : List Stmt → List Node
  | [] => []
  | s :: rest => s.node :: nodes rest

end

mutual

/-- A statement whose lines start in `column`, `inside` braces or not. -/
def printed (inside : Bool) (column : Nat) : Stmt → List Char
  | importing kind first others =>
    printedLine column
      (kind.printed ++ ' ' :: Expr.printedAll (first.1 :: others.map Subtype.val))
  | assign name op value =>
    printedLine column (name.1.toList ++ ' ' :: (op.printed ++ ' ' :: value.1.printed))
  | declaration word => printedLine column word.printed
  | rule selector style first others =>
    if inside || style ≠ .indented then
      printedLine column (selector.printed ++ [' ', '\x7b']) ++
        (first.printed true (column + style.deeper) ++
          printedAll true (column + style.deeper) others) ++ printedLine column ['\x7d']
    else
      printedLine column selector.printed ++
        (first.printed false (column + 2) ++ printedAll false (column + 2) others)

def printedAll (inside : Bool) (column : Nat) : List Stmt → List Char
  | [] => []
  | s :: rest => s.printed inside column ++ printedAll inside column rest

end

mutual

/-- The items of the printed statement, with the end of its indentation. -/
def items (inside : Bool) : Stmt → List Item
  | importing kind first others =>
    .token kind.token :: (Expr.itemsOfAll (first.1 :: others.map Subtype.val) ++ [.token .newline])
  | assign name op value =>
    .token (.ident name.1) :: .token op.token :: (value.1.items ++ [.token .newline])
  | declaration word => [.token word.token, .token .newline]
  | rule selector style first others =>
    if inside || style ≠ .indented then
      .token selector.token :: .token .openBrace :: .token .newline ::
        (first.items true ++ itemsOfAll true others ++ [.token .closeBrace, .token .newline])
    else
      .token selector.token :: .token .newline :: .indent ::
        (first.items false ++ itemsOfAll false others ++ [.dedent])

def itemsOfAll (inside : Bool) : List Stmt → List Item
  | [] => []
  | s :: rest => s.items inside ++ itemsOfAll inside rest

end

end Stmt

/-- A document with these statements. -/
def print (tree : List Stmt) : List Char :=
  Stmt.printedAll false 0 tree

/-! ## Scanning expressions -/

theorem spells_name {name : String} (h : isIdent name.toList = true) :
    Spells name.toList (.ident name) Delimited := by
  have hspells := Lexeme.spells_ident h
  rw [String.ofList_toList] at hspells
  exact hspells.mono fun _ hrest => Delimited.endsIdent hrest _

/-- In front of a parenthesis, the name of a function is cut off unless it is `url`. -/
theorem spells_function {name : String} (h : isIdent name.toList = true) (hurl : name ≠ "url") :
    Spells name.toList (.ident name) fun rest => rest.head? = some '(' := by
  have hspells := Lexeme.spells_ident h
  rw [String.ofList_toList] at hspells
  refine hspells.mono fun rest hrest c hc => ?_
  obtain rfl := Option.some.inj (hrest.symm.trans hc)
  rw [String.ofList_toList]
  exact ⟨by decide, fun _ => hurl⟩

/-- In the middle of a line, the text is scanned to the items, whatever is open. -/
def ScansAnywhere (text : List Char) (items : List Item) : Prop :=
  ∀ (n : Nat) (m : Mark), m.fresh = false →
    Scans m (List.replicate n ' ' ++ text) items m Delimited

theorem ScansAnywhere.token {text : List Char} {t : Token} (h : Spells text t Delimited)
    (ht : t ≠ .newline) (hplain : ∀ s : Layout.State, Layout.bracket s t = .ok s) :
    ScansAnywhere text [.token t] :=
  fun n _ hfresh => Layout.scans_within n h ht hfresh (.none hplain)

theorem delimited_printedRest (es : List Expr) {rest : List Char} (h : Delimited rest) :
    Delimited (Expr.printedRest es ++ rest) := by
  cases es with
  | nil => exact h
  | cons e es => exact delimited_cons (by decide) (by decide)

/-- Expressions behind commas. -/
theorem scans_printedRest {es : List Expr} (h : ∀ e ∈ es, ScansAnywhere e.printed e.items)
    {m : Mark} (hfresh : m.fresh = false) :
    Scans m (Expr.printedRest es) (Expr.itemsOfRest es) m Delimited := by
  induction es with
  | nil => exact Scans.nil
  | cons e es ih =>
    have hcomma : Scans m [','] [.token .comma] m fun _ => True :=
      scans_sign 0 (by decide) (by decide) hfresh (.none fun _ => rfl)
    have he := h e List.mem_cons_self 1 m hfresh
    have hrest := ih fun e' he' => h e' (List.mem_cons_of_mem _ he')
    have hboth := he.append hrest fun _ => delimited_printedRest es
    exact hcomma.append hboth fun _ _ => trivial

theorem scans_printedAll {es : List Expr} (h : ∀ e ∈ es, ScansAnywhere e.printed e.items)
    (n : Nat) (hes : es ≠ [] ∨ n = 0) {m : Mark} (hfresh : m.fresh = false) :
    Scans m (List.replicate n ' ' ++ Expr.printedAll es) (Expr.itemsOfAll es) m Delimited := by
  cases es with
  | nil =>
    obtain rfl : n = 0 := hes.resolve_left fun hne => hne rfl
    exact Scans.nil
  | cons e es =>
    have he := h e List.mem_cons_self n m hfresh
    have hrest := scans_printedRest (fun e' he' => h e' (List.mem_cons_of_mem _ he')) hfresh
    have hboth := he.append hrest fun _ => delimited_printedRest es
    rwa [List.append_assoc] at hboth

/-- Something in parentheses. -/
theorem scans_parens {text : List Char} {items : List Item} {m : Mark} (n : Nat)
    (hfresh : m.fresh = false)
    (h : Scans { m with parens := m.parens + 1 } text items { m with parens := m.parens + 1 }
      Delimited) :
    Scans m (List.replicate n ' ' ++ '(' :: (text ++ [')']))
      (.token .openParen :: (items ++ [.token .closeParen])) m fun _ => True := by
  have hopen : Scans m (List.replicate n ' ' ++ ['(']) [.token .openParen]
      { m with parens := m.parens + 1 } fun _ => True :=
    scans_sign n (by decide) (by decide) hfresh .openParen
  have hclose : Scans { m with parens := m.parens + 1 } [')'] [.token .closeParen] m
      fun _ => True :=
    scans_sign 0 (by decide) (by decide) hfresh .closeParen
  have hinside := h.append hclose fun _ _ => delimited_cons (by decide) (by decide)
  have hall := hopen.append hinside fun _ _ => trivial
  rwa [List.append_assoc] at hall

theorem scans_expr {e : Expr} (h : e.Printable) : ScansAnywhere e.printed e.items := by
  induction h with
  | @literal text single =>
    have hspells : Spells (quoted text.toList) (.string text) Delimited := by
      have hquoted := Lexeme.spells_quoted single
      rw [String.ofList_toList] at hquoted
      exact hquoted.mono fun _ _ => trivial
    exact .token hspells (by simp) fun _ => rfl
  | @ident name valid =>
    exact .token (spells_name valid) (by simp) fun _ => rfl
  | @concat left right hleft hright ihLeft ihRight =>
    intro n m hfresh
    have hplus : Scans m [' ', '+'] [.token .plus] m fun _ => True :=
      scans_sign 1 (by decide) (by decide) hfresh (.none fun _ => rfl)
    have hoperand : Scans m
        (' ' :: (if right.isSum then '(' :: (right.printed ++ [')']) else right.printed))
        (if right.isSum then .token .openParen :: (right.items ++ [.token .closeParen])
          else right.items) m Delimited := by
      by_cases hsum : right.isSum = true
      · rw [if_pos hsum, if_pos hsum]
        have hinside := scans_parens 1 hfresh (ihRight 0 { m with parens := m.parens + 1 } hfresh)
        exact hinside.mono fun _ _ => trivial
      · rw [if_neg hsum, if_neg hsum]
        exact ihRight 1 m hfresh
    have hboth := (ihLeft n m hfresh).append (hplus.append hoperand fun _ _ => trivial)
      fun _ _ => delimited_cons (by decide) (by decide)
    rwa [List.append_assoc] at hboth
  | @call function args valid notUrl hargs ih =>
    intro n m hfresh
    have hname : Scans m (List.replicate n ' ' ++ function.toList) [.token (.ident function)] m
        fun rest => rest.head? = some '(' :=
      Layout.scans_within n (spells_function valid notUrl) (by simp) hfresh (.none fun _ => rfl)
    have hinside := scans_printedAll ih 0 (Or.inr rfl)
      (show ({ m with parens := m.parens + 1 } : Mark).fresh = false from hfresh)
    have hparens := scans_parens 0 hfresh hinside
    have hboth := hname.append hparens fun _ _ => rfl
    rw [List.append_assoc] at hboth
    exact hboth.mono fun _ _ => trivial

/-! ## Scanning statements -/

theorem Word.spells (word : Word) : Spells word.printed word.token Delimited := by
  cases word with
  | ident name valid => exact spells_name valid
  | atRule name valid =>
    have hspells := Lexeme.spells_atRule valid
    rw [String.ofList_toList] at hspells
    exact hspells.mono fun _ hrest => Delimited.endsName hrest

theorem Word.counts (word : Word) (m : Mark) : Counts m word.token m := by
  cases word <;> exact .none fun _ => rfl

theorem Word.token_ne_newline (word : Word) : word.token ≠ .newline := by
  cases word <;> simp [Word.token]

theorem ImportKind.spells (kind : ImportKind) : Spells kind.printed kind.token Delimited := by
  cases kind with
  | import_ => exact Lexeme.spells_import.mono fun _ hrest => Delimited.endsName hrest
  | require => exact Lexeme.spells_require.mono fun _ hrest => Delimited.endsName hrest

theorem AssignOp.mem_signs (op : AssignOp) : (op.printed, op.token) ∈ Lexeme.signs := by
  cases op <;> decide

namespace Stmt

variable {column braces : Nat} {start columns : List Nat} {lead : List Item}

theorem lays_importing (kind : ImportKind) (first : { e : Expr // e.Printable })
    (others : List { e : Expr // e.Printable }) (inside : Bool)
    (h : Indents column (Mark.line start braces) lead (Mark.inLine columns braces)) :
    Lays column braces start columns lead ((importing kind first others).printed inside column)
      ((importing kind first others).items inside) := by
  have hexprs : ∀ e ∈ first.1 :: others.map Subtype.val, ScansAnywhere e.printed e.items := by
    intro e he
    rcases List.mem_cons.1 he with rfl | he
    · exact scans_expr first.2
    · obtain ⟨e', -, rfl⟩ := List.mem_map.1 he
      exact scans_expr e'.2
  have hrest : Scans (Mark.inLine columns braces)
      (' ' :: Expr.printedAll (first.1 :: others.map Subtype.val))
      (Expr.itemsOfAll (first.1 :: others.map Subtype.val)) (Mark.inLine columns braces)
      Delimited :=
    scans_printedAll hexprs 1 (Or.inl (List.cons_ne_nil _ _)) rfl
  refine .of_line (scans_line h kind.spells ?_ (.none fun _ => ?_) hrest fun _ _ =>
    delimited_cons (by decide) (by decide))
  · cases kind <;> decide
  · cases kind <;> rfl

theorem lays_assign (name : { s : String // isIdent s.toList = true }) (op : AssignOp)
    (value : { e : Expr // e.Printable }) (inside : Bool)
    (h : Indents column (Mark.line start braces) lead (Mark.inLine columns braces)) :
    Lays column braces start columns lead ((assign name op value).printed inside column)
      ((assign name op value).items inside) := by
  have hop : Scans (Mark.inLine columns braces) (' ' :: op.printed) [.token op.token]
      (Mark.inLine columns braces) fun _ => True := by
    refine scans_sign 1 op.mem_signs ?_ rfl (.none fun _ => ?_)
    · cases op <;> decide
    · cases op <;> rfl
  have hvalue := scans_expr value.2 1 (Mark.inLine columns braces) rfl
  have hrest := hop.append hvalue fun _ _ => trivial
  exact .of_line (scans_line h (spells_name name.2) (by simp) (.none fun _ => rfl) hrest
    fun _ _ => delimited_cons (by decide) (by decide))

theorem lays_declaration (word : Word) (inside : Bool)
    (h : Indents column (Mark.line start braces) lead (Mark.inLine columns braces)) :
    Lays column braces start columns lead ((declaration word).printed inside column)
      ((declaration word).items inside) := by
  have hline := scans_line h word.spells word.token_ne_newline (word.counts _) Scans.nil
    fun _ hbehind => hbehind
  rw [List.append_nil] at hline
  exact .of_line hline

/-- A block between braces. Its lines start in any column. -/
theorem lays_braced (selector : Word) {inner : Nat} {text : List Char} {items : List Item}
    (hbody : Lays inner (braces + 1) columns columns [] text items)
    (h : Indents column (Mark.line start braces) lead (Mark.inLine columns braces)) :
    Lays column braces start columns lead
      (printedLine column (selector.printed ++ [' ', '\x7b']) ++ text ++
        printedLine column ['\x7d'])
      (.token selector.token :: .token .openBrace :: .token .newline ::
        (items ++ [.token .closeBrace, .token .newline])) := by
  have hopen : Scans (Mark.inLine columns braces) [' ', '\x7b'] [.token .openBrace]
      (Mark.inLine columns (braces + 1)) fun _ => True :=
    scans_sign 1 (by decide) (by decide) rfl .openBrace
  have hheading := scans_line h selector.spells selector.token_ne_newline (selector.counts _)
    (hopen.mono fun _ _ => trivial) fun _ _ => delimited_cons (by decide) (by decide)
  obtain ⟨scanned, opened, hscans, hitems, -, hclosed⟩ := hbody
  obtain rfl := hclosed (Nat.succ_ne_zero _)
  obtain rfl : scanned = items := by simpa using hitems
  have hspells : Spells ['\x7d'] .closeBrace Delimited :=
    (Lexeme.spells_sign (by decide)).mono fun _ _ => trivial
  have hcounts : Counts (Mark.inLine columns (braces + 1)) .closeBrace
      (Mark.inLine columns braces) :=
    .closeBrace (m := Mark.inLine columns braces)
  have hclose : Scans (Mark.line columns (braces + 1)) (printedLine column ['\x7d'])
      [.token .closeBrace, .token .newline] (Mark.line columns braces) fun _ => True :=
    scans_line (.enclosed rfl (Nat.succ_ne_zero _)) hspells (by decide) hcounts Scans.nil
      fun _ hbehind => hbehind
  have hall := (hheading.append hscans fun _ _ => trivial).append hclose fun _ _ => trivial
  refine .of_line ?_
  have hsame : lead ++ .token selector.token :: .token .openBrace :: .token .newline ::
      (scanned ++ [.token .closeBrace, .token .newline]) =
      lead ++ Item.token selector.token :: ([.token .openBrace] ++ [.token .newline]) ++ scanned ++
        [.token .closeBrace, .token .newline] := by
    simp
  rw [hsame]
  exact hall

/-- A block that is indented deeper than its heading. -/
theorem lays_indented (selector : Word) {text : List Char} {items : List Item}
    (hbody : Lays (column + 2) 0 columns ((column + 2) :: columns) [.indent] text items)
    (h : Indents column (Mark.line start 0) lead (Mark.inLine columns 0)) :
    Lays column 0 start columns lead (printedLine column selector.printed ++ text)
      (.token selector.token :: .token .newline :: .indent :: (items ++ [.dedent])) := by
  have hheading := scans_line h selector.spells selector.token_ne_newline (selector.counts _)
    Scans.nil fun _ hbehind => hbehind
  rw [List.append_nil] at hheading
  obtain ⟨scanned, opened, hscans, hitems, hdeeper, -⟩ := hbody
  have hall := hheading.append hscans fun _ _ => trivial
  refine ⟨lead ++ [.token selector.token, .token .newline] ++ scanned, opened ++ [column + 2],
    ?_, ?_, ?_, fun hne => absurd rfl hne⟩
  · rw [List.append_assoc opened]
    exact hall
  · calc lead ++ [.token selector.token, .token .newline] ++ scanned ++
          List.replicate (opened ++ [column + 2]).length .dedent
        = lead ++ [.token selector.token, .token .newline] ++
            (scanned ++ List.replicate opened.length .dedent) ++ [.dedent] := by
          rw [List.length_append, List.length_singleton, List.replicate_succ']
          simp
      _ = lead ++ .token selector.token :: .token .newline :: .indent :: (items ++ [.dedent]) := by
          rw [hitems]
          simp
  · intro c hc
    rcases List.mem_append.1 hc with hc | hc
    · have hlt := hdeeper c hc
      omega
    · rw [List.mem_singleton.1 hc]
      omega

mutual

theorem lays (s : Stmt) {column braces : Nat} {start columns : List Nat} {lead : List Item}
    (h : Indents column (Mark.line start braces) lead (Mark.inLine columns braces)) :
    Lays column braces start columns lead (s.printed (braces != 0) column)
      (s.items (braces != 0)) := by
  cases s with
  | importing kind first others => exact lays_importing kind first others _ h
  | assign name op value => exact lays_assign name op value _ h
  | declaration word => exact lays_declaration word _ h
  | rule selector style first others =>
    rw [printed, items]
    by_cases hbraced : (braces != 0 || style ≠ .indented) = true
    · rw [if_pos hbraced, if_pos hbraced]
      have hindents : Indents (column + style.deeper) (Mark.line columns (braces + 1)) []
          (Mark.inLine columns (braces + 1)) := .enclosed rfl (Nat.succ_ne_zero _)
      have hbody := lays_more others _ _ (fun h => first.lays h) hindents
      exact lays_braced selector hbody h
    · rw [if_neg hbraced, if_neg hbraced]
      rw [Bool.or_eq_true, not_or, bne_iff_ne, Decidable.not_not] at hbraced
      obtain ⟨rfl, -⟩ := hbraced
      have hdeeper : Layout.column columns < column + 2 := by
        rw [h.column_eq]
        omega
      have hindents : Indents (column + 2) (Mark.line columns 0) [.indent]
          (Mark.inLine ((column + 2) :: columns) 0) := .deeper rfl rfl rfl hdeeper
      have hbody := lays_more others _ _ (fun h => first.lays h) hindents
      exact lays_indented selector hbody h

theorem lays_more (tree : List Stmt) {column braces : Nat} {columns : List Nat}
    (text : List Char) (items : List Item)
    (h : ∀ {start : List Nat} {lead : List Item},
      Indents column (Mark.line start braces) lead (Mark.inLine columns braces) →
      Lays column braces start columns lead text items) {start : List Nat} {lead : List Item}
    (hindents : Indents column (Mark.line start braces) lead (Mark.inLine columns braces)) :
    Lays column braces start columns lead (text ++ printedAll (braces != 0) column tree)
      (items ++ itemsOfAll (braces != 0) tree) := by
  cases tree with
  | nil =>
    rw [printedAll, itemsOfAll, List.append_nil, List.append_nil]
    exact h hindents
  | cons s rest =>
    have hmore := lays_more rest (text ++ s.printed (braces != 0) column)
      (items ++ s.items (braces != 0))
      (fun hindents' => Lays.append hindents' (h hindents') fun hs => s.lays hs) hindents
    rwa [List.append_assoc, List.append_assoc] at hmore

end

end Stmt

/-- Where a document starts, nothing is open. -/
theorem indents_start : Indents 0 (Mark.line [] 0) [] (Mark.inLine [] 0) := by
  have hstart : Indents 0 (Mark.line [] 0) (List.replicate ([] : List Nat).length .dedent)
      (Mark.inLine [] 0) :=
    .back rfl rfl rfl rfl (by simp) rfl
  exact hstart

theorem lays_print (tree : List Stmt) :
    Lays 0 0 [] [] [] (print tree) (Stmt.itemsOfAll false tree) := by
  cases tree with
  | nil => exact .of_line Scans.nil
  | cons s rest => exact Stmt.lays_more rest _ _ (fun h => s.lays h) indents_start

/-- A printed tree is scanned to its items. -/
theorem scans_printed (tree : List Stmt) :
    ∃ located, tokenize (print tree) = .ok located ∧
      located.map Located.item = Stmt.itemsOfAll false tree ++ [.eof] := by
  obtain ⟨scanned, opened, hscans, hitems, -, -⟩ := lays_print tree
  have hstart : (Mark.line [] 0).Of {} := ⟨rfl, rfl, rfl, rfl, fun _ => rfl⟩
  obtain ⟨s, located, hs, hlocated, hrun⟩ := hscans {} hstart
  let size := Text.bytes (print tree)
  have hnil : Lexeme.ofText [] = [] := Lexeme.ofText_of_drop_nil List.drop_nil
  have htext : tokenize (print tree) = (Layout.run size s []).map (located ++ ·) := by
    have hwhole := hrun size [] trivial
    rwa [List.append_nil, hnil] at hwhole
  have hfinish : Layout.run size s [] =
      .ok (List.replicate opened.length ⟨.dedent, s.line, size, size⟩ ++
        [⟨.eof, s.line, size, size⟩]) := by
    have hcolumns : s.columns = opened ++ [] := hs.columns
    refine Layout.finish_eq_ok.2 ⟨hs.braces, hs.parens, ?_⟩
    rw [hs.fresh, hcolumns, List.append_nil]
    rfl
  refine ⟨_, htext.trans (congrArg _ hfinish), ?_⟩
  calc (located ++ (List.replicate opened.length (⟨.dedent, s.line, size, size⟩ : Located) ++
        [(⟨.eof, s.line, size, size⟩ : Located)])).map Located.item
      = scanned ++ List.replicate opened.length .dedent ++ [.eof] := by
        rw [List.map_append, List.map_append, hlocated, List.map_replicate, List.append_assoc]
        rfl
    _ = Stmt.itemsOfAll false tree ++ [.eof] := by rw [hitems, List.nil_append]

end StyleWeave
