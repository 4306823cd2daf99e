import StyleWeave.Proofs.Syntax.Lists
import StyleWeave.Proofs.Syntax.Nesting

/-!
# Texts one behind the other

A text of whole lines is lexed the same whatever follows it, and a line at the margin ends all
blocks. So the token stream of two texts, the second of which starts at the margin, is that of the
first without its end and that of the second (`tokenize_append`). Texts that stand alone
(`StandsAlone`) can be put one behind the other, and what they come to is well-formed.
-/

namespace StyleWeave

open Text (bytes bytes_append)

namespace Text

/-- The text ends with a line break, unless it is empty. -/
def WholeLines (cs : List Char) : Prop :=
  ∀ c ∈ cs.getLast?, c = '\n'

instance (cs : List Char) : Decidable (WholeLines cs) :=
  decidable_of_iff (cs.getLast?.all (· = '\n') = true) <| by
    unfold WholeLines
    cases cs.getLast? <;> simp

variable {cs ds : List Char}

theorem WholeLines.of_suffix (h : WholeLines cs) (hds : ds <:+ cs) : WholeLines ds := by
  obtain ⟨front, rfl⟩ := hds
  intro c hc
  rw [Option.mem_def] at hc
  refine h c ?_
  rw [Option.mem_def, List.getLast?_append, hc]
  rfl

theorem WholeLines.tail {c : Char} (h : WholeLines (c :: cs)) : WholeLines cs :=
  h.of_suffix (List.suffix_cons c cs)

theorem wholeLines_feed (cs : List Char) : WholeLines (cs ++ ['\n']) := by
  intro c hc
  rw [Option.mem_def, List.getLast?_concat] at hc
  exact (Option.some.inj hc).symm

theorem WholeLines.append (h : WholeLines cs) (h' : WholeLines ds) : WholeLines (cs ++ ds) := by
  intro c hc
  rw [Option.mem_def, List.getLast?_append, Option.or_eq_some_iff] at hc
  rcases hc with hc | ⟨-, hc⟩
  · exact h' c hc
  · exact h c hc

theorem WholeLines.ne_nil {c : Char} (h : WholeLines (c :: cs)) (hc : c ≠ '\n') : cs ≠ [] := by
  rintro rfl
  exact hc (h c rfl)

theorem WholeLines.exists_feed (h : WholeLines cs) (hne : cs ≠ []) : ∃ a, cs = a ++ ['\n'] := by
  have hlast := List.getLast?_eq_some_getLast hne
  obtain ⟨a, ha⟩ := List.getLast?_eq_some_iff.1 hlast
  rw [h _ hlast] at ha
  exact ⟨a, ha⟩

theorem WholeLines.dropWhile_ne_nil (h : WholeLines cs) (hne : cs ≠ []) :
    cs.dropWhile (· != '\n') ≠ [] := by
  obtain ⟨a, rfl⟩ := h.exists_feed hne
  rw [ne_eq, List.dropWhile_eq_nil_iff]
  exact fun hall => absurd (hall '\n' (by simp)) (by decide)

end Text

open Text (WholeLines)

/-! ## Lexing in front of more text -/

/-- The token in a text that goes on with `ds`. -/
def Spot.before (ds : List Char) (s : Spot) : Spot :=
  ⟨s.token, s.front ++ ds, s.back ++ ds⟩

namespace Lexeme

variable {m m' : Bool} {cs rest : List Char} {spots : List Spot}

/-- A comment does not end where the text does. -/
theorem Lexes.ne_nil (h : Lexes true cs spots false rest) : cs ≠ [] := by
  rintro rfl
  cases h

/-- A token that ends where the text does is the line break there. -/
theorem feed_of_token {c : Char} {u : List Char} {t : Token} (hlines : WholeLines (c :: u))
    (hkind : kindOf c u = (.token t, u.length)) : c = '\n' ∧ u = [] ∧ t = .newline := by
  cases hu : u with
  | nil =>
    rw [hu] at hlines hkind
    obtain rfl : c = '\n' := hlines c rfl
    rw [kindOf_feed] at hkind
    exact ⟨rfl, rfl, (Kind.token.inj (Prod.mk.inj hkind).1).symm⟩
  | cons d v =>
    -- A token with a line break at its end would not be on one line.
    exfalso
    obtain ⟨-, hone⟩ := oneLine_kindOf hkind
    rw [List.take_length] at hone
    obtain ⟨a, ha⟩ := hlines.tail.exists_feed (by rw [hu]; exact List.cons_ne_nil d v)
    exact hone (ha ▸ by simp)

/-- A token of whole lines is lexed the same in front of more text. -/
theorem token_before {c : Char} {u : List Char} {t : Token} (hlines : WholeLines (c :: (u ++ cs)))
    (hcomment : commentRest (c :: (u ++ cs)) = none)
    (hkind : kindOf c (u ++ cs) = (.token t, u.length)) (ds : List Char) :
    commentRest (c :: (u ++ (cs ++ ds))) = none ∧
      kindOf c (u ++ (cs ++ ds)) = (.token t, u.length) := by
  by_cases hcs : cs = []
  · subst hcs
    rw [List.append_nil] at hlines hkind
    obtain ⟨rfl, rfl, rfl⟩ := feed_of_token hlines hkind
    exact ⟨commentRest_of_ne (by decide) _, kindOf_feed _⟩
  · have hrest : WholeLines cs := hlines.of_suffix
      ((List.suffix_append u cs).trans (List.suffix_cons c _))
    obtain ⟨a, rfl⟩ := hrest.exists_feed hcs
    rw [List.append_assoc]
    have hahead : Ahead (a ++ ['\n']) (a ++ ('\n' :: ds)) :=
      Ahead.append (.edge (endsLine_feed []).clear.edge (endsLine_feed ds).clear) a
    refine ⟨commentRest_of_ahead (hahead.append u) hcomment hkind,
      kindOf_of_ahead hahead (fun _ _ hends => ?_) hkind⟩
    cases a with
    | nil => exact endsLine_feed ds
    | cons d a => exact fun e he => hends e he

/-- Whole lines are lexed the same in front of more text. -/
theorem Lexes.before (h : Lexes m cs spots m' rest) (hrest : rest = []) (hm' : m' = false)
    (hlines : WholeLines cs) (ds : List Char) :
    Lexes m (cs ++ ds) (spots.map (Spot.before ds)) m' ds := by
  induction h with
  | done =>
    subst hrest
    exact .done
  | gap hgap _ ih => exact .gap hgap (ih hrest hm' hlines.tail)
  | @token c u cs _ t spots _ hgap hcomment hkind others ih =>
    obtain ⟨hcomment', hkind'⟩ := token_before hlines hcomment hkind ds
    have hbehind := ih hrest hm'
      (hlines.of_suffix ((List.suffix_append u cs).trans (List.suffix_cons c _)))
    have hassoc : c :: (u ++ cs) ++ ds = c :: (u ++ (cs ++ ds)) := by simp
    rw [List.map_cons, Spot.before, hassoc]
    exact .token hgap hcomment' hkind' hbehind
  | @line cs _ spots _ _ ih =>
    have hrest' := hlines.tail.tail
    have hmore := ih hrest hm' (hrest'.of_suffix (List.dropWhile_suffix _))
    have hline := hrest'.dropWhile_ne_nil (hlines.tail.ne_nil (by decide))
    have hassoc : (cs ++ ds).dropWhile (· != '\n') = cs.dropWhile (· != '\n') ++ ds := by
      rw [List.dropWhile_append, if_neg (by simpa using hline)]
    rw [← hassoc] at hmore
    exact .line hmore
  | opens _ ih => exact .opens (ih hrest hm' hlines.tail.tail)
  | closes _ ih => exact .closes (ih hrest hm' hlines.tail.tail)
  | feed _ ih => exact .feed (ih hrest hm' hlines.tail)
  | within hfeed hopen others ih =>
    subst hm'
    refine .within hfeed (fun hc => ?_) (ih hrest rfl hlines.tail)
    show (_ ++ ds).head? ≠ some '/'
    rw [List.head?_append_of_ne_nil _ others.ne_nil]
    exact hopen hc

/-- The last token of whole lines is the line break at their end. -/
theorem Lexes.exists_feed (h : Lexes m cs spots m' rest) (hrest : rest = []) (hm' : m' = false)
    (hlines : WholeLines cs) (hne : cs ≠ []) :
    ∃ first, spots = first ++ [⟨.newline, ['\n'], []⟩] := by
  induction h with
  | done => exact absurd hrest hne
  | gap hgap _ ih =>
    refine ih hrest hm' hlines.tail (hlines.ne_nil ?_)
    rintro rfl
    exact absurd hgap (by decide)
  | @token c u cs _ t spots _ hgap hcomment hkind others ih =>
    by_cases hcs : cs = []
    · subst hcs hrest
      obtain ⟨rfl, -⟩ := others.eq_of_same rfl
      rw [List.append_nil] at hlines hkind
      obtain ⟨rfl, rfl, rfl⟩ := feed_of_token hlines hkind
      exact ⟨[], rfl⟩
    · have hsuffix := (List.suffix_append u cs).trans (List.suffix_cons c _)
      obtain ⟨first, rfl⟩ := ih hrest hm' (hlines.of_suffix hsuffix) hcs
      exact ⟨_ :: first, rfl⟩
  | line _ ih =>
    have hrest' := hlines.tail.tail
    exact ih hrest hm' (hrest'.of_suffix (List.dropWhile_suffix _))
      (hrest'.dropWhile_ne_nil (hlines.tail.ne_nil (by decide)))
  | opens others ih =>
    subst hm'
    exact ih hrest rfl hlines.tail.tail others.ne_nil
  | closes _ ih => exact ih hrest hm' hlines.tail.tail (hlines.tail.ne_nil (by decide))
  | feed others ih =>
    subst hm'
    obtain ⟨first, rfl⟩ := ih hrest rfl hlines.tail others.ne_nil
    exact ⟨_ :: first, rfl⟩
  | within _ _ others ih =>
    subst hm'
    exact ih hrest rfl hlines.tail others.ne_nil

end Lexeme

/-! ## Layout in front of more text -/

namespace Layout

variable {size d : Nat} {t t' : State} {spots first : List Spot} {items body : List Located}

/-- The tokens of a text of `size` bytes are put in turn. -/
inductive Puts (size : Nat) : State → List Spot → List Located → State → Prop where
  | nil {t : State} : Puts size t [] [] t
  | cons {t t₁ t' : State} {s : Spot} {spots : List Spot} {here items : List Located}
      (put : put t (size - bytes s.front) (size - bytes s.back) s.token = .ok (here, t₁))
      (others : Puts size t₁ spots items t') : Puts size t (s :: spots) (here ++ items) t'

theorem exists_puts (h : drive size t spots = .ok items) :
    ∃ body t' tail, Puts size t spots body t' ∧ finish t' size = .ok tail ∧
      items = body ++ tail := by
  induction spots generalizing t items with
  | nil => exact ⟨[], t, items, .nil, h, rfl⟩
  | cons s spots ih =>
    obtain ⟨here, t₁, others, hput, hothers, rfl⟩ := drive_cons h
    obtain ⟨body, t', tail, hputs, hfinish, rfl⟩ := ih hothers
    exact ⟨here ++ body, t', tail, .cons hput hputs, hfinish, (List.append_assoc _ _ _).symm⟩

theorem Puts.drive_append (h : Puts size t spots body t') (more : List Spot) :
    drive size t (spots ++ more) = (drive size t' more).map (body ++ ·) := by
  induction h with
  | @nil t =>
    show drive size t more = _
    cases drive size t more <;> rfl
  | @cons _ _ t' _ _ _ _ put _ ih =>
    rw [List.cons_append, drive_of_put put, ih]
    cases drive size t' more with
    | error e => rfl
    | ok others => exact congrArg _ (List.append_assoc _ _ _).symm

/-- In front of more text, the tokens are put at the same places. -/
theorem Puts.before (h : Puts size t spots body t') (ds : List Char) :
    Puts (size + bytes ds) t (spots.map (Spot.before ds)) body t' := by
  induction h with
  | nil => exact .nil
  | @cons _ _ _ s _ _ _ put _ ih =>
    have hplace : ∀ cs : List Char, size + bytes ds - bytes (cs ++ ds) = size - bytes cs := by
      intro cs
      rw [bytes_append, Nat.add_sub_add_right]
    rw [← hplace s.front, ← hplace s.back] at put
    exact .cons put ih

/-- A block is opened in a column behind the margin. -/
theorem Puts.columns_pos (h : Puts size t spots body t') (ht : ∀ c ∈ t.columns, 0 < c) :
    ∀ c ∈ t'.columns, 0 < c := by
  induction h with
  | nil => exact ht
  | cons hput _ ih =>
    refine ih ?_
    rcases put_cases hput with ⟨-, -, rfl⟩ | ⟨-, layout, s₁, s₂, hlaid, hcounted, -, rfl⟩
    · exact ht
    · show ∀ c ∈ s₂.columns, 0 < c
      rw [hcounted.frame.2.2.2.2]
      cases hlaid with
      | within | inside => exact ht
      | deeper _ _ _ _ lt => exact List.forall_mem_cons.2 ⟨Nat.zero_lt_of_lt lt, ht⟩
      | level => exact fun c hc => ht c ((List.dropWhile_suffix _).subset hc)

/-- Behind a line break, a line starts. -/
theorem Puts.behind_feed {front back : List Char}
    (h : Puts size t (first ++ [⟨.newline, front, back⟩]) body t') :
    t'.fresh = true ∧ t'.lineStart = size - bytes back := by
  induction first generalizing t body with
  | nil =>
    cases h with
    | cons put others =>
      cases others
      obtain ⟨-, rfl⟩ := Prod.mk.inj (Except.ok.inj ((put_newline t _ _).symm.trans put))
      exact ⟨rfl, rfl⟩
  | cons s first ih =>
    cases h with
    | cons _ others => exact ih others

/-- The same tokens, `d` bytes further on. -/
theorem moved_shift (h : ∀ s ∈ spots, bytes s.front ≤ size ∧ bytes s.back ≤ size) (d : Nat) :
    Lexeme.Moved (fun _ => none) size (size + d) d spots spots := by
  induction spots with
  | nil => exact .nil
  | cons s spots ih =>
    obtain ⟨hfront, hback⟩ := h s List.mem_cons_self
    exact .same rfl rfl (by omega) (by omega) (ih fun s' hs' => h s' (List.mem_cons_of_mem _ hs'))

end Layout

open Lexeme (Lexes)
open Syntax (SameItems commasLevel afterComma)

variable {cs ds : List Char} {items items' : List Located}

/-- What is lexed of a text is no longer than the text. -/
theorem Lexeme.Lexes.bytes_le {m m' : Bool} {rest : List Char} {spots : List Spot}
    (h : Lexes m cs spots m' rest) :
    ∀ s ∈ spots, bytes s.front ≤ bytes cs ∧ bytes s.back ≤ bytes cs := by
  intro s hs
  have hback := h.back_lt hs
  obtain ⟨hfront, -⟩ := h.exists_text hs
  exact ⟨Lexeme.bytes_le_of_suffix hfront, Nat.le_of_lt hback⟩

/-- The token stream of whole lines with lines behind them that start at the margin is theirs,
without its end, and that of the other lines. -/
theorem tokenize_append (hcs : tokenize cs = .ok items) (hds : tokenize ds = .ok items')
    (hlines : WholeLines cs) (hmargin : items'.head?.map Located.item ≠ some .indent) :
    ∃ all, tokenize (cs ++ ds) = .ok all ∧ SameItems (items.dropLast ++ items') all := by
  by_cases hne : cs = []
  · subst hne
    have hnone : tokenize [] = .ok [⟨.eof, 0, 0, 0⟩] := by decide +kernel
    obtain rfl := Except.ok.inj (hcs.symm.trans hnone)
    exact ⟨items', hds, rfl⟩
  obtain ⟨spots, hlexes⟩ := lexes_of_tokenize hcs
  obtain ⟨spots', hlexes'⟩ := lexes_of_tokenize hds
  obtain ⟨placed, hdrive, halike⟩ := drive_of_tokenize hlexes hcs
  obtain ⟨placed', hdrive', halike'⟩ := drive_of_tokenize hlexes' hds
  obtain ⟨body, t, tail, hputs, hfinish, rfl⟩ := Layout.exists_puts hdrive
  -- Behind the first text a line starts, and perhaps some blocks are open.
  obtain ⟨first, rfl⟩ := hlexes.exists_feed rfl rfl hlines hne
  obtain ⟨hfresh, hstart⟩ := hputs.behind_feed
  have hcolumns := hputs.columns_pos fun c hc => nomatch hc
  obtain ⟨hbraces, hparens, rfl⟩ := Layout.finish_eq_ok.1 hfinish
  rw [hfresh, if_pos rfl, List.nil_append] at halike
  have htracks : Layout.State.Tracks false {} t (bytes cs) t.columns := by
    refine ⟨hfresh, by simp, fun _ => ?_, (List.append_nil _).symm, hbraces, hparens⟩
    rw [hstart]
    exact (Nat.sub_zero _).trans (Nat.zero_add _).symm
  -- A line at the margin ends them.
  have hshallow : placed'.head?.map Located.item ≠ some .indent := by
    have hsame := Syntax.sameItems_of_alike halike'
    rwa [← hsame.head]
  obtain ⟨dedents, more, hmore, hdedents, hsame⟩ := Layout.drive_paid
    (Layout.moved_shift hlexes'.bytes_le (bytes cs)) htracks rfl rfl hcolumns hdrive'
    (fun _ _ _ => rfl) hshallow
  have hwhole := (hputs.before ds).drive_append spots'
  rw [Nat.add_comm, hmore] at hwhole
  have hall := (hlexes.before rfl rfl hlines ds).append hlexes'
  have hsize : bytes (cs ++ ds) = bytes ds + bytes cs := by rw [bytes_append, Nat.add_comm]
  rw [← hsize] at hwhole
  obtain ⟨all, htokens, hagree⟩ := tokenize_of_drive hall hwhole
  refine ⟨all, htokens, ?_⟩
  have hfirst := Syntax.sameItems_of_alike halike
  have hsecond := Syntax.sameItems_of_alike halike'
  have hjoined := Syntax.sameItems_of_alike hagree
  unfold SameItems at hfirst hsecond hsame hjoined ⊢
  have hinit : items.dropLast.map Located.item = (body ++ dedents).map Located.item := by
    rw [List.map_dropLast, hfirst, ← List.map_dropLast, ← List.append_assoc, List.dropLast_concat,
      List.map_append, List.map_append, List.map_replicate, hdedents]
  calc (items.dropLast ++ items').map Located.item
      = (body ++ dedents).map Located.item ++ more.map Located.item := by
        rw [List.map_append, hinit, hsecond, hsame]
    _ = (body ++ (dedents ++ more)).map Located.item := by
        rw [← List.map_append, List.append_assoc]
    _ = all.map Located.item := hjoined

/-! ## Texts that stand alone -/

namespace Syntax

variable {xs ys : List Located}

theorem SameItems.brackets_eq (h : SameItems xs ys) : brackets xs = brackets ys := by
  have hmap : ∀ zs : List Located, brackets zs = (zs.map Located.item).filterMap Item.bracket? := by
    intro zs
    rw [List.filterMap_map]
    rfl
  rw [hmap, hmap, h]

theorem SameItems.commasLevel_eq (h : SameItems xs ys) : commasLevel xs = commasLevel ys := by
  induction xs generalizing ys with
  | nil => rw [List.map_eq_nil_iff.1 (Eq.symm h)]
  | cons l ls ih =>
    cases ys with
    | nil => cases h
    | cons l' ls' =>
      obtain ⟨hitem, hrest⟩ := SameItems.cons_iff.1 h
      have hafter : afterComma ls = afterComma ls' := (hrest.same _).afterComma
      rw [commasLevel, commasLevel, hitem, hafter, ih hrest]

/-- Behind a comma a block is opened there only if it is in what stands behind the comma alone. -/
theorem afterComma_append {e : Located} (he : e.item = .eof)
    (hstart : ∀ l ∈ ys.head?, l.item ≠ .token .newline ∧ l.item ≠ .indent) (xs : List Located) :
    (afterComma (xs ++ ys)).2 = (afterComma (xs ++ [e])).2 := by
  induction xs with
  | nil =>
    have hend : ∀ l ∈ [e].head?, l.item ≠ .token .newline ∧ l.item ≠ .indent := by
      intro l hl
      obtain rfl := Option.some.inj hl
      simp [he]
    rw [List.nil_append, List.nil_append, afterComma_zero hstart, afterComma_zero hend]
  | cons x xs ih =>
    by_cases hx : x.item = .token .newline
    · rw [List.cons_append, List.cons_append, afterComma_newline hx, afterComma_newline hx]
      exact ih
    · have hzero : ∀ zs : List Located, newlines (x :: zs) = 0 := by
        intro zs
        refine newlines_zero fun l hl => ?_
        obtain rfl := Option.some.inj hl
        exact hx
      rw [List.cons_append, List.cons_append]
      unfold afterComma
      rw [hzero, hzero]
      rfl

theorem commasLevel_append {e : Located} (he : e.item = .eof)
    (hstart : ∀ l ∈ ys.head?, l.item ≠ .token .newline ∧ l.item ≠ .indent)
    (hxs : commasLevel (xs ++ [e]) = true) (hys : commasLevel ys = true) :
    commasLevel (xs ++ ys) = true := by
  induction xs with
  | nil => exact hys
  | cons x xs ih =>
    rw [List.cons_append, commasLevel, Bool.and_eq_true] at hxs ⊢
    rw [afterComma_append he hstart]
    exact ⟨hxs.1, ih hxs.2⟩

theorem bracesOutside_append {parens braces blocks : Nat} {w w' : List Bracket}
    (h : Tallied parens braces blocks w) (hw : bracesOutside parens w = true)
    (hw' : bracesOutside 0 w' = true) : bracesOutside parens (w ++ w') = true := by
  induction h with
  | done => exact hw'
  | openParen _ ih | closeParen _ ih | indent _ ih | dedent _ ih => exact ih hw
  | openBrace _ ih | closeBrace _ ih =>
    obtain ⟨hdepth, hrest⟩ := Bool.and_eq_true_iff.1 hw
    exact Bool.and_eq_true_iff.2 ⟨hdepth, ih hrest⟩

/-- No text is lexed as a line break first. -/
theorem head_ne_newline (h : tokenize cs = .ok items) :
    ∀ l ∈ items.head?, l.item ≠ .token .newline := by
  obtain ⟨spots, hlexes⟩ := lexes_of_tokenize h
  obtain ⟨hlaid, -⟩ := tokens_of_lexes hlexes h
  intro l hl
  cases hlaid with
  | eof item | token item newline =>
    obtain rfl := Option.some.inj hl
    simp [*]
  | layout item =>
    obtain rfl := Option.some.inj hl
    rcases item with item | item <;> simp [item]

/-- The text ends all it begins, and begins at the margin: it is of whole lines, no brace in it
stands in parentheses, and no line behind a comma is indented deeper. -/
def StandsAlone (cs : List Char) : Prop :=
  WholeLines cs ∧ ∃ items, tokenize cs = .ok items ∧
    items.head?.map Located.item ≠ some .indent ∧ bracesOutside 0 (brackets items) = true ∧
      commasLevel items = true

instance (cs : List Char) : Decidable (StandsAlone cs) :=
  inferInstanceAs (Decidable (_ ∧ _))

theorem StandsAlone.nil : StandsAlone [] := by
  decide +kernel

theorem StandsAlone.exists_document (h : StandsAlone cs) : ∃ document, parse cs = .ok document := by
  obtain ⟨-, items, htokens, -, houtside, hlevel⟩ := h
  exact Syntax.exists_document htokens houtside hlevel

theorem StandsAlone.append (h : StandsAlone cs) (h' : StandsAlone ds) : StandsAlone (cs ++ ds) := by
  obtain ⟨hlines, items, htokens, hmargin, houtside, hlevel⟩ := h
  obtain ⟨hlines', items', htokens', hmargin', houtside', hlevel'⟩ := h'
  obtain ⟨all, hall, hsame⟩ := tokenize_append htokens htokens' hlines hmargin'
  obtain ⟨body, last, rfl, heof, -⟩ := Layout.run_eof htokens
  rw [List.dropLast_concat] at hsame
  have hbrackets : brackets (body ++ [last]) = brackets body := by
    rw [brackets_append, brackets_cons_of_none (by rw [heof]; rfl)]
    exact List.append_nil _
  have htallied := tallied_of_tokenize htokens
  rw [hbrackets] at htallied houtside
  have hstart : ∀ l ∈ items'.head?, l.item ≠ .token .newline ∧ l.item ≠ .indent := fun l hl =>
    ⟨head_ne_newline htokens' l hl, fun heq => hmargin' (Option.map_eq_some_iff.2 ⟨l, hl, heq⟩)⟩
  refine ⟨hlines.append hlines', all, hall, ?_, ?_, ?_⟩
  · rw [← hsame.head]
    cases body with
    | nil => exact hmargin'
    | cons l body => exact hmargin
  · rw [← hsame.brackets_eq, brackets_append]
    exact bracesOutside_append htallied houtside houtside'
  · rw [← hsame.commasLevel_eq]
    exact commasLevel_append heof hstart hlevel hlevel'

end Syntax

end StyleWeave
