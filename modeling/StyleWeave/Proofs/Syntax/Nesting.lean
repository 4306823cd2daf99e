import StyleWeave.Proofs.Syntax.Pieces
import StyleWeave.Proofs.Token.Nesting

/-!
# Which documents are read

The lexer counts parentheses and braces apart, and the reader of statements goes by the braces and
the indentation that no statement has taken. Neither sees whether parentheses and braces are nested
with each other: a document is read if and only if what its statements leave over is nested. That is
to say that all of its brackets are nested where no statement tears a pair of them apart; a document
whose brackets are nested is refused if and only if a statement leaves some of its own open
(`parse_ok_iff_nested`).
-/

namespace StyleWeave.Syntax

variable {deeper : Bool} {g g' k k' : Nat} {w rest : List Bracket}
variable {stack stack' : List Enclosure}
variable {items : List Located} {stretch : List Located} {ps : List Piece}

/-- What the reader of statements sees of the open brackets. -/
def seen (stack : List Enclosure) : List Enclosure :=
  stack.filter (· ∈ [.braces, .block])

@[simp] theorem seen_append (stack stack' : List Enclosure) :
    seen (stack ++ stack') = seen stack ++ seen stack' :=
  List.filter_append _ _

theorem walk_seen (h : walk stack w = some stack') :
    walk (seen stack) (only [.braces, .block] w) = some (seen stack') :=
  walk_only h _

/-! ## Walking past a statement -/

/-- Behind a statement the innermost is what it has opened, further out is what was open before,
perhaps without some parentheses, and the statement by itself leaves the same open. -/
theorem Keeps.walk_past (h : Keeps deeper g k w g' k') (inner outer : List Enclosure)
    (hg : g ≤ inner.count .parens) (hk : k ≤ inner.count .block)
    (hwalk : walk (inner ++ outer) w = some stack') :
    ∃ inner' outer', stack' = inner' ++ outer' ∧ seen outer' = seen outer ∧
      walk (seen inner) (only [.braces, .block] w) = some (seen inner') := by
  -- A brace or the end of a block is met only while `inner` has something, so `outer` loses nothing
  -- but parentheses.
  induction h generalizing inner outer with
  | done =>
    obtain rfl := Option.some.inj hwalk
    exact ⟨inner, outer, rfl, rfl, rfl⟩
  | openParen _ ih =>
    exact ih (.parens :: inner) outer (by rw [List.count_cons_self]; omega)
      (by rw [List.count_cons_of_ne (by simp)]; exact hk) hwalk
  | @closeParen parens blocks _ _ _ _ ih =>
    obtain ⟨below, hbelow, hrest⟩ := walk_closing.1 hwalk
    cases inner with
    | nil =>
      obtain rfl : outer = .parens :: below := hbelow
      exact ih [] below (Nat.le_trans (Nat.sub_le _ _) hg) hk hrest
    | cons e inner =>
      obtain ⟨rfl, rfl⟩ := List.cons.inj hbelow
      rw [List.count_cons_self] at hg
      rw [List.count_cons_of_ne (by simp)] at hk
      exact ih inner outer (by omega) hk hrest
  | @brace parens blocks _ _ b _ braces inside _ ih =>
    rw [only_cons_of_mem (by simp [braces])]
    match b, braces with
    | .opening .braces, _ =>
      exact ih (.braces :: inner) outer (by rw [List.count_cons_of_ne (by simp)]; exact hg)
        (by rw [List.count_cons_of_ne (by simp)]; exact hk) hwalk
    | .closing .braces, _ =>
      obtain ⟨below, hbelow, hrest⟩ := walk_closing.1 hwalk
      cases inner with
      | nil =>
        rw [List.count_nil] at hg
        omega
      | cons e inner =>
        obtain ⟨rfl, rfl⟩ := List.cons.inj hbelow
        rw [List.count_cons_of_ne (by simp)] at hg hk
        exact ih inner outer hg hk hrest
  | indent inside _ ih =>
    exact ih (.block :: inner) outer (by rw [List.count_cons_of_ne (by simp)]; exact hg)
      (by rw [List.count_cons_self]; omega) hwalk
  | dedent _ ih =>
    obtain ⟨below, hbelow, hrest⟩ := walk_closing.1 hwalk
    cases inner with
    | nil =>
      rw [List.count_nil] at hk
      omega
    | cons e inner =>
      obtain ⟨rfl, rfl⟩ := List.cons.inj hbelow
      rw [List.count_cons_of_ne (by simp)] at hg
      rw [List.count_cons_self] at hk
      exact ih inner outer hg (by omega) hrest

theorem Keeps.surplus_block (h : Keeps deeper g k w g' k') : surplus .block w = k' - k := by
  induction h with
  | done =>
    rw [surplus_nil]
    omega
  | openParen _ ih | closeParen _ ih =>
    rw [surplus_cons_of_ne (by simp [Bracket.enclosure]), ih]
  | brace braces _ _ ih => rw [surplus_cons_of_ne (by simp [braces]), ih]
  | indent _ _ ih =>
    rw [surplus_opening, ih]
    omega
  | dedent _ ih =>
    rw [surplus_closing, ih]
    omega

/-! ## Walking past the pieces -/

theorem only_leftOver (items : List Located) :
    only [.braces, .block] (brackets (leftOver items)) = brackets (leftOver items) :=
  List.filter_eq_self.2 fun b hb => decide_eq_true (enclosure_leftOver items b hb)

/-- Of brackets that are nested, those that statements leave over are nested too if the statements
close their own. -/
theorem walk_remainder
    (hkeeps : ∀ stretch, .taken stretch ∈ ps → ∃ g' k', Keeps true 0 0 (brackets stretch) g' k')
    (hnested : ∀ stretch, .taken stretch ∈ ps → Nested [.braces, .block] stretch)
    (hwalk : walk stack (brackets (ps.flatMap Piece.items)) = some stack') :
    walk (seen stack) (only [.braces, .block] (brackets (ps.flatMap Piece.remainder))) =
      some (seen stack') := by
  induction ps generalizing stack with
  | nil =>
    obtain rfl := Option.some.inj hwalk
    rfl
  | cons p ps ih =>
    rw [List.flatMap_cons, brackets_append] at hwalk
    obtain ⟨between, hfirst, hrest⟩ := walk_append.1 hwalk
    have hothers := ih (fun stretch hs => hkeeps stretch (List.mem_cons_of_mem _ hs))
      (fun stretch hs => hnested stretch (List.mem_cons_of_mem _ hs)) hrest
    rw [List.flatMap_cons, brackets_append, only_append]
    refine walk_append.2 ⟨seen between, ?_, hothers⟩
    cases p with
    | between l => exact walk_seen hfirst
    | taken stretch =>
      obtain ⟨g', k', hstretch⟩ := hkeeps stretch List.mem_cons_self
      obtain ⟨inner, outer, rfl, houter, hown⟩ := hstretch.walk_past [] stack (Nat.zero_le _)
        (Nat.zero_le _) hfirst
      have hclosed := Option.some.inj (hown.symm.trans (hnested stretch List.mem_cons_self))
      rw [seen_append, houter, hclosed]
      rfl

/-- Where no statement closes more than it opens, no more is left over than is open in all, and if
that much is left over, then every statement has closed what it has opened. -/
theorem surplus_remainder (e : Enclosure)
    (hown : ∀ stretch, .taken stretch ∈ ps → 0 ≤ surplus e (brackets stretch)) :
    surplus e (brackets (ps.flatMap Piece.remainder)) ≤
        surplus e (brackets (ps.flatMap Piece.items)) ∧
      (surplus e (brackets (ps.flatMap Piece.items)) ≤
          surplus e (brackets (ps.flatMap Piece.remainder)) →
        ∀ stretch, .taken stretch ∈ ps → surplus e (brackets stretch) = 0) := by
  induction ps with
  | nil => simp
  | cons p ps ih =>
    obtain ⟨hle, heq⟩ := ih fun stretch hs => hown stretch (List.mem_cons_of_mem _ hs)
    simp only [List.flatMap_cons, brackets_append, surplus_append]
    cases p with
    | between l =>
      show surplus e (brackets [l]) + _ ≤ surplus e (brackets [l]) + _ ∧
        (surplus e (brackets [l]) + _ ≤ surplus e (brackets [l]) + _ → _)
      refine ⟨by omega, fun hback stretch hs => ?_⟩
      rcases List.mem_cons.1 hs with hs | hs
      · cases hs
      · exact heq (by omega) stretch hs
    | taken stretch =>
      have hfirst := hown stretch List.mem_cons_self
      show (0 : Int) + _ ≤ surplus e (brackets stretch) + _ ∧
        (surplus e (brackets stretch) + _ ≤ (0 : Int) + _ → _)
      refine ⟨by omega, fun hback stretch' hs => ?_⟩
      rcases List.mem_cons.1 hs with hs | hs
      · obtain rfl := Piece.taken.inj hs
        omega
      · exact heq (by omega) stretch' hs

/-- Statements whose brackets are nested make no difference to the brackets around them. -/
theorem walk_items (hnested : ∀ stretch, .taken stretch ∈ ps →
      Nested [.parens, .braces, .block] stretch) :
    walk stack (brackets (ps.flatMap Piece.items)) = some stack' ↔
      walk stack (brackets (ps.flatMap Piece.remainder)) = some stack' := by
  have hstep : ∀ p ∈ ps, ∀ stack between, walk stack (brackets p.items) = some between ↔
      walk stack (brackets p.remainder) = some between := by
    intro p hp stack between
    cases p with
    | between l => exact Iff.rfl
    | taken stretch =>
      have hall : only [.parens, .braces, .block] (brackets stretch) = brackets stretch :=
        List.filter_eq_self.2 fun b _ => by cases h : b.enclosure <;> simp
      have hwalk := hnested stretch hp
      unfold Nested at hwalk
      rw [hall] at hwalk
      have hpast : walk stack (brackets stretch) = some stack := walk_below hwalk stack
      show walk stack (brackets stretch) = some between ↔ some stack = some between
      rw [hpast]
  induction ps generalizing stack with
  | nil => exact Iff.rfl
  | cons p ps ih =>
    simp only [List.flatMap_cons, brackets_append, walk_append]
    refine exists_congr fun between => and_congr (hstep p List.mem_cons_self stack between) ?_
    exact ih (fun stretch hs => hnested stretch (List.mem_cons_of_mem _ hs))
      (fun p hp => hstep p (List.mem_cons_of_mem _ hp))

/-! ## Documents -/

variable {source : List Char}

/-- All brackets of a document are in its pieces. -/
theorem brackets_pieces (h : tokenize source = .ok items) :
    brackets ((pieces items).flatMap Piece.items) = brackets items := by
  obtain ⟨tail, htail, hends⟩ := exists_tail items
  have hnone : brackets tail = [] := by
    cases tail with
    | nil => rfl
    | cons l ls =>
      have heof := hends l ls rfl
      obtain rfl := eof_last h ⟨_, htail.symm⟩ heof
      rw [brackets_cons_of_none (by rw [heof]; rfl)]
      rfl
  have hbrackets := congrArg brackets htail
  rw [brackets_append, hnone, List.append_nil] at hbrackets
  exact hbrackets.symm

/-- A document is read if and only if what its statements leave over is nested. -/
theorem parse_iff_leftOver (h : tokenize source = .ok items) :
    (∃ document, parse source = .ok document) ↔ Nested [.braces, .block] (leftOver items) := by
  have hparse : parse source = parseItems items := by
    unfold parse
    rw [h]
    rfl
  unfold Nested
  rw [hparse, parseItems_iff_fits, only_leftOver]
  constructor
  · rintro ⟨stack', hwalk, hbraces⟩
    -- Blocks may stay open up to the end, but all in all none does, and no statement closes one.
    have hblock : stack'.count .block = 0 := by
      have hown : ∀ stretch, .taken stretch ∈ pieces items →
          0 ≤ surplus .block (brackets stretch) := by
        intro stretch hs
        obtain ⟨g', k', hkeeps⟩ := keeps_pieces true items (Or.inl rfl) hs
        rw [hkeeps.surplus_block]
        omega
      have hle := (surplus_remainder .block hown).1
      rw [brackets_pieces h, (tallied_of_tokenize h).surplus_block] at hle
      have hcount := surplus_walk hwalk .block
      unfold leftOver at hcount
      rw [hcount, List.count_nil] at hle
      omega
    have hnil : stack' = [] := by
      refine List.eq_nil_iff_forall_not_mem.2 fun e he => ?_
      rw [← only_leftOver] at hwalk
      rcases List.mem_pair.1 (mem_of_walk_only hwalk he) with rfl | rfl
      · exact hbraces he
      · exact absurd (List.count_pos_iff.2 he) (by omega)
    rw [hnil] at hwalk
    exact hwalk
  · exact fun hwalk => ⟨[], hwalk, by simp⟩

/-- Of a nested document no statement closes more braces or blocks than it opens. -/
theorem exists_walk_stretch (hwalk : walk stack (brackets (ps.flatMap Piece.items)) = some stack')
    (hkeeps : ∀ stretch, .taken stretch ∈ ps → ∃ g' k', Keeps true 0 0 (brackets stretch) g' k')
    (hs : .taken stretch ∈ ps) :
    ∃ opened, walk [] (only [.braces, .block] (brackets stretch)) = some opened := by
  induction ps generalizing stack with
  | nil => cases hs
  | cons p ps ih =>
    rw [List.flatMap_cons, brackets_append] at hwalk
    obtain ⟨between, hfirst, hrest⟩ := walk_append.1 hwalk
    rcases List.mem_cons.1 hs with rfl | hs
    · obtain ⟨g', k', hstretch⟩ := hkeeps stretch List.mem_cons_self
      obtain ⟨inner, -, -, -, hown⟩ := hstretch.walk_past [] stack (Nat.zero_le _) (Nat.zero_le _)
        hfirst
      exact ⟨seen inner, hown⟩
    · exact ih hrest (fun stretch hs => hkeeps stretch (List.mem_cons_of_mem _ hs)) hs

/-- A nested document is read if and only if its statements close what they open. -/
theorem leftOver_iff_stretches (h : tokenize source = .ok items)
    (hnested : Nested [.parens, .braces] items) :
    Nested [.braces, .block] (leftOver items) ↔
      ∀ stretch ∈ stretches items, Nested [.braces, .block] stretch := by
  have hkeeps : ∀ stretch, .taken stretch ∈ pieces items →
      ∃ g' k', Keeps true 0 0 (brackets stretch) g' k' :=
    fun stretch hs => keeps_pieces true items (Or.inl rfl) hs
  have hwalk := (walk_of_tokenize h).1 hnested
  rw [← brackets_pieces h] at hwalk
  constructor
  · intro hleft stretch hmem
    have hs := mem_stretches.1 hmem
    have hwalks : ∀ stretch, .taken stretch ∈ pieces items →
        ∃ opened, walk [] (only [.braces, .block] (brackets stretch)) = some opened :=
      fun stretch hs => exists_walk_stretch hwalk hkeeps hs
    -- As much is left over as there is in all, so each statement has closed all of its own.
    have hzero : ∀ e ∈ [Enclosure.braces, .block], surplus e (brackets stretch) = 0 := by
      intro e he
      have hown : ∀ stretch, .taken stretch ∈ pieces items → 0 ≤ surplus e (brackets stretch) := by
        intro stretch hs
        obtain ⟨opened, hopened⟩ := hwalks stretch hs
        have hcount := surplus_walk hopened e
        rw [surplus_only he, List.count_nil] at hcount
        omega
      have htotal := surplus_walk hwalk e
      have hremainder := surplus_walk hleft e
      rw [surplus_only he] at hremainder
      unfold leftOver at hremainder
      refine (surplus_remainder e hown).2 ?_ stretch hs
      omega
    obtain ⟨opened, hopened⟩ := hwalks stretch hs
    have hnil : opened = [] := by
      refine List.eq_nil_iff_forall_not_mem.2 fun e he => ?_
      have hkind := mem_of_walk_only hopened he
      have hcount := surplus_walk hopened e
      rw [surplus_only hkind, hzero e hkind, List.count_nil] at hcount
      exact absurd (List.count_pos_iff.2 he) (by omega)
    rw [hnil] at hopened
    exact hopened
  · intro hstretches
    exact walk_remainder hkeeps (fun stretch hs => hstretches stretch (mem_stretches.2 hs)) hwalk

/-! ## Documents without braces in parentheses -/

/-- Where there are no braces in parentheses, a statement that opens no block outside parentheses
takes no brackets but parentheses. -/
theorem Keeps.only_parens (h : Keeps false g k w g' k') (hk : k = 0) {parens braces blocks : Nat}
    (hg : g ≤ parens) (htallied : Tallied parens braces blocks (w ++ rest))
    (houtside : bracesOutside parens (w ++ rest) = true) : ∀ b ∈ w, b.enclosure = .parens := by
  induction h generalizing parens with
  | done => simp
  | openParen _ ih =>
    rw [List.cons_append] at htallied
    cases htallied with
    | openParen hrest =>
      intro b hb
      rcases List.mem_cons.1 hb with rfl | hb
      · rfl
      · exact ih hk (Nat.succ_le_succ hg) hrest houtside b hb
  | closeParen _ ih =>
    rw [List.cons_append] at htallied
    cases htallied with
    | closeParen hrest =>
      intro b hb
      rcases List.mem_cons.1 hb with rfl | hb
      · rfl
      · exact ih hk (by omega) hrest houtside b hb
  | @brace _ _ _ _ b _ isBrace inside _ ih =>
    have hdepth : parens = 0 := by
      match b, isBrace with
      | .opening .braces, _ | .closing .braces, _ =>
        exact of_decide_eq_true (Bool.and_eq_true_iff.1 houtside).1
    omega
  | indent inside _ _ =>
    have hpos := inside.resolve_left Bool.false_ne_true
    rw [List.cons_append] at htallied
    cases htallied
    omega
  | dedent _ _ => cases hk

/-- The statements of a document without braces in parentheses, no list of which goes on with deeper
indentation, take no brackets but parentheses. -/
theorem nested_stretch (h : tokenize source = .ok items)
    (houtside : bracesOutside 0 (brackets items) = true) (hlevel : commasLevel items = true)
    (hmem : stretch ∈ stretches items) :
    Nested [.braces, .block] stretch := by
  have hs := mem_stretches.1 hmem
  obtain ⟨g', k', hkeeps⟩ := keeps_pieces false items (Or.inr hlevel) hs
  obtain ⟨before, behind, hpieces⟩ := List.append_of_mem hs
  have hcut : brackets items = brackets (before.flatMap Piece.items) ++
      (brackets stretch ++ brackets (behind.flatMap Piece.items)) := by
    rw [← brackets_pieces h, hpieces, List.flatMap_append, List.flatMap_cons, brackets_append,
      brackets_append]
    rfl
  have htallied := tallied_of_tokenize h
  rw [hcut] at htallied houtside
  obtain ⟨parens, braces, blocks, hrest, houtsideRest⟩ := htallied.behind houtside
  have hparens := hkeeps.only_parens rfl (Nat.zero_le parens) hrest houtsideRest
  have hnone : only [.braces, .block] (brackets stretch) = [] :=
    List.filter_eq_nil_iff.2 fun b hb => by simp [hparens b hb]
  unfold Nested
  rw [hnone]
  rfl

/-- A document without braces in parentheses, no list of which goes on with deeper indentation, is
read. -/
theorem exists_document (h : tokenize source = .ok items)
    (houtside : bracesOutside 0 (brackets items) = true) (hlevel : commasLevel items = true) :
    ∃ document, parse source = .ok document := by
  have hstretches : ∀ stretch ∈ stretches items, Nested [.braces, .block] stretch :=
    fun stretch hmem => nested_stretch h houtside hlevel hmem
  exact (parse_iff_leftOver h).2
    ((leftOver_iff_stretches h (nested_of_bracesOutside h houtside)).2 hstretches)

end Syntax

open Syntax

section

variable {ε α : Type} (answer : Except ε α) {P : α → Prop}

instance decidableOk : Decidable (∃ a, answer = .ok a) :=
  match answer with
  | .ok a => isTrue ⟨a, rfl⟩
  | .error _ => isFalse fun ⟨_, h⟩ => nomatch h

instance decidableOkAnd [DecidablePred P] : Decidable (∃ a, answer = .ok a ∧ P a) :=
  match answer with
  | .ok a => decidable_of_iff (P a) ⟨fun h => ⟨a, rfl, h⟩, fun ⟨_, ha, h⟩ => Except.ok.inj ha ▸ h⟩
  | .error _ => isFalse fun ⟨_, h, _⟩ => nomatch h

end

/-- A document is read if and only if it has a token stream in which the brackets that its
statements leave over are nested. In every token stream parentheses are nested among themselves and
braces are; whether they are nested together is the same question as whether the document is read if
no statement tears brackets apart. Of the documents in which they are nested together, those are
read whose statements close the braces and the indentation that they take. Where no brace stands in
parentheses and no line behind a comma is indented deeper, all is nested and read that has a token
stream. -/
theorem parse_ok_iff_nested (source : List Char) :
    ((∃ document, parse source = .ok document) ↔
      ∃ items, tokenize source = .ok items ∧ Nested [.braces, .block] (leftOver items)) ∧
    ∀ items, tokenize source = .ok items →
      (Nested [.parens] items ∧ Nested [.braces] items) ∧
      ((∀ stretch ∈ stretches items, Nested [.parens, .braces, .block] stretch) →
        ((∃ document, parse source = .ok document) ↔ Nested [.parens, .braces] items)) ∧
      (Nested [.parens, .braces] items →
        ((∃ document, parse source = .ok document) ↔
          ∀ stretch ∈ stretches items, Nested [.braces, .block] stretch)) ∧
      (bracesOutside 0 (brackets items) = true → commasLevel items = true →
        Nested [.parens, .braces] items ∧ ∃ document, parse source = .ok document) := by
  refine ⟨⟨?_, ?_⟩, fun items h => ⟨nested_of_tokenize h, fun hwhole => ?_, fun hnested => ?_,
    fun houtside hlevel => ?_⟩⟩
  · rintro ⟨document, hparse⟩
    obtain ⟨items, htokens, -⟩ := bind_eq_ok hparse
    exact ⟨items, htokens, (parse_iff_leftOver htokens).1 ⟨document, hparse⟩⟩
  · rintro ⟨items, htokens, hnested⟩
    exact (parse_iff_leftOver htokens).2 hnested
  · have hitems : walk [] (brackets items) = some [] ↔
        walk [] (brackets (leftOver items)) = some [] := by
      rw [← brackets_pieces h]
      exact walk_items fun stretch hs => hwhole stretch (mem_stretches.2 hs)
    rw [parse_iff_leftOver h, walk_of_tokenize h, hitems]
    unfold Nested
    rw [only_leftOver]
  · rw [parse_iff_leftOver h]
    exact leftOver_iff_stretches h hnested
  · exact ⟨nested_of_bracesOutside h houtside, exists_document h houtside hlevel⟩

/-- A call, and a block behind it. -/
theorem parse_ok_iff_nested_call :
    ∃ items, tokenize "f(a) \x7b\x7d\n".toList = .ok items ∧
      (∀ stretch ∈ stretches items, Nested [.parens, .braces, .block] stretch) ∧
      (bracesOutside 0 (brackets items) = true ∧ commasLevel items = true) ∧
      Nested [.parens, .braces] items ∧
      (∀ stretch ∈ stretches items, Nested [.braces, .block] stretch) ∧
      ∃ document, parse "f(a) \x7b\x7d\n".toList = .ok document := by
  have htokens : tokenize "f(a) \x7b\x7d\n".toList =
      .ok [⟨.token (.ident "f"), 0, 0, 1⟩, ⟨.token .openParen, 0, 1, 2⟩,
        ⟨.token (.ident "a"), 0, 2, 3⟩, ⟨.token .closeParen, 0, 3, 4⟩,
        ⟨.token .openBrace, 0, 5, 6⟩, ⟨.token .closeBrace, 0, 6, 7⟩,
        ⟨.token .newline, 0, 7, 8⟩, ⟨.eof, 1, 8, 8⟩] := by decide +kernel
  refine ⟨_, htokens, ?_⟩
  obtain ⟨-, hwhole, hclosed, hplain⟩ := (parse_ok_iff_nested "f(a) \x7b\x7d\n".toList).2 _ htokens
  obtain ⟨hnested, hread⟩ := hplain (by decide +kernel) (by decide +kernel)
  have hstretches := (hclosed hnested).1 hread
  have hdocument := (hwhole (by decide +kernel)).2 hnested
  exact ⟨by decide +kernel, ⟨by decide +kernel, by decide +kernel⟩, hnested, hstretches, hdocument⟩

/-- A document is read though a parenthesis is closed in front of a brace inside it, and one that is
nested is refused because a comma between the parentheses of an argument ends the call. -/
theorem parse_ok_not_iff_nested :
    ((∃ document, parse "x = (\x7b)\x7d\n".toList = .ok document) ∧
      ¬ ∃ items, tokenize "x = (\x7b)\x7d\n".toList = .ok items ∧ Nested [.parens, .braces] items) ∧
    (¬ ∃ document, parse "x = f(\x7b(a, b)\x7d)\n".toList = .ok document) ∧
      ∃ items, tokenize "x = f(\x7b(a, b)\x7d)\n".toList = .ok items ∧
        Nested [.parens, .braces] items := by
  decide +kernel

end StyleWeave
