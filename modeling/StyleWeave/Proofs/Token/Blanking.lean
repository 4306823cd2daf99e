import Mathlib.Data.List.Forall2
import StyleWeave.Proofs.Token.Comments

/-!
# Line breaks in comments

The layout pass finds the line breaks of a comment in the gap in front of the next lexeme, while in
blank space they are lexemes themselves. It comes to the same lines either way, so a text and the
one with blank space in place of its comments have the same items, and all tokens but line breaks at
the same places (`tokenize_blankComments`).
-/

namespace StyleWeave

open Text (bytes bytes_append)
open Lexeme (Blanked behind behind_behind behind_nil ofText)

/-! ## Items -/

/-- Two items are the same, or they are the same layout at different places. -/
def Located.Alike (a b : Located) : Prop :=
  a.item = b.item ∧ (a.IsSolid → a = b)

/-- Two token streams have the same items, all tokens but line breaks at the same places. -/
abbrev AllAlike (items items' : List Located) : Prop :=
  List.Forall₂ Located.Alike items items'

theorem Located.Alike.refl (l : Located) : l.Alike l :=
  ⟨rfl, fun _ => rfl⟩

theorem Located.Alike.trans {a b c : Located} (h : a.Alike b) (h' : b.Alike c) : a.Alike c := by
  refine ⟨h.1.trans h'.1, fun hsolid => ?_⟩
  have hab := h.2 hsolid
  subst hab
  exact h'.2 hsolid

theorem Located.Alike.symm {a b : Located} (h : a.Alike b) : b.Alike a := by
  refine ⟨h.1.symm, ?_⟩
  rintro ⟨t, ht, hne⟩
  exact (h.2 ⟨t, h.1.trans ht, hne⟩).symm

theorem AllAlike.refl (items : List Located) : AllAlike items items :=
  List.forall₂_same.2 fun l _ => .refl l

theorem AllAlike.symm {xs ys : List Located} (h : AllAlike xs ys) : AllAlike ys xs := by
  induction h with
  | nil => exact .nil
  | cons hab _ ih => exact .cons hab.symm ih

theorem AllAlike.trans {xs ys zs : List Located} (h : AllAlike xs ys) (h' : AllAlike ys zs) :
    AllAlike xs zs := by
  induction h generalizing zs with
  | nil => exact h'
  | cons hab _ ih =>
    cases h' with
    | cons hbc hrest => exact .cons (hab.trans hbc) (ih hrest)

theorem AllAlike.append {xs xs' ys ys' : List Located} (h : AllAlike xs ys)
    (h' : AllAlike xs' ys') : AllAlike (xs ++ xs') (ys ++ ys') :=
  List.rel_append h h'

/-- Line breaks are alike wherever they are. -/
theorem allAlike_of_layout {xs ys : List Located} (h : xs.map Located.item = ys.map Located.item)
    (hlayout : ∀ l ∈ xs, ¬ l.IsSolid) : AllAlike xs ys := by
  induction xs generalizing ys with
  | nil =>
    rw [List.map_nil] at h
    rw [List.map_eq_nil_iff.1 h.symm]
    exact .nil
  | cons x xs ih =>
    obtain ⟨y, ys, rfl⟩ : ∃ y ys', ys = y :: ys' := by
      cases ys with
      | nil => cases h
      | cons y ys => exact ⟨y, ys, rfl⟩
    rw [List.map_cons, List.map_cons] at h
    obtain ⟨hitem, hrest⟩ := List.cons.inj h
    have hothers := ih hrest fun l hl => hlayout l (List.mem_cons_of_mem _ hl)
    refine .cons ⟨hitem, fun hsolid => ?_⟩ hothers
    exact absurd hsolid (hlayout x List.mem_cons_self)

/-- Both fail, or both succeed and what the first gives is alike to what is owed with the second. -/
def Agrees (owed : List Located) : Except ParseError (List Located) →
    Except ParseError (List Located) → Prop
  | .ok items, .ok items' => AllAlike items (owed ++ items')
  | .error _, .error _ => True
  | _, _ => False

/-- Both go on with more items. -/
theorem Agrees.map {owed owed' : List Located} {first second : Except ParseError (List Located)}
    {f g : List Located → List Located} (h : Agrees owed' first second)
    (hmore : ∀ items items', AllAlike items (owed' ++ items') →
      AllAlike (f items) (owed ++ g items')) :
    Agrees owed (first.map f) (second.map g) := by
  cases first with
  | error e =>
    cases second with
    | error e' => trivial
    | ok items' => cases h
  | ok items =>
    cases second with
    | error e' => cases h
    | ok items' => exact hmore items items' h

namespace Layout

variable {s t : State} {g b : List Char}

/-! ## Gaps -/

theorem passGap_of_no_feed (s : State) {gap : List Char} (h : '\n' ∉ gap) :
    passGap s gap = ([], s) := by
  unfold passGap
  rw [List.count_eq_zero.2 h]
  rfl

/-- The line on which a gap that ends with a line break ends. -/
theorem passGap_feed (s : State) (gap : List Char) :
    passGap s (gap ++ ['\n']) =
      (if s.fresh then []
        else [⟨.token .newline, s.line, s.offset + bytes gap, s.offset + bytes gap + 1⟩],
      { s with
        line := s.line + (gap.count '\n' + 1)
        lineStart := s.offset + bytes gap + 1
        fresh := true }) := by
  have hcount : (gap ++ ['\n']).count '\n' = gap.count '\n' + 1 := by
    rw [List.count_append]
    rfl
  have htail : ((gap ++ ['\n']).reverse.takeWhile (· != '\n')).reverse = [] := by
    rw [List.reverse_append]
    rfl
  have hbytes : bytes (gap ++ ['\n']) = bytes gap + 1 := by
    rw [bytes_append]
    rfl
  unfold passGap
  rw [hcount]
  dsimp only
  rw [htail, hbytes, Text.bytes_nil, Nat.sub_zero, ← Nat.add_assoc, Nat.add_sub_cancel]
  rfl

/-- Blanks at the end of a gap change nothing. -/
theorem passGap_append (s : State) (gap : List Char) {blanks : List Char} (h : '\n' ∉ blanks) :
    passGap s (gap ++ blanks) = passGap s gap := by
  have hcount : (gap ++ blanks).count '\n' = gap.count '\n' := by
    rw [List.count_append, List.count_eq_zero.2 h, Nat.add_zero]
  have htail : bytes ((gap ++ blanks).reverse.takeWhile (· != '\n')).reverse =
      bytes (gap.reverse.takeWhile (· != '\n')).reverse + bytes blanks := by
    have hblanks : ∀ c ∈ blanks.reverse, (c != '\n') = true := by
      intro c hc
      rw [bne_iff_ne]
      rintro rfl
      exact h (List.mem_reverse.1 hc)
    rw [List.reverse_append, List.takeWhile_append_of_pos hblanks, List.reverse_append,
      List.reverse_reverse, bytes_append]
  unfold passGap
  rw [hcount]
  dsimp only
  rw [htail, bytes_append]
  have hstart : s.offset + (bytes gap + bytes blanks) -
      (bytes (gap.reverse.takeWhile (· != '\n')).reverse + bytes blanks) =
      s.offset + bytes gap - bytes (gap.reverse.takeWhile (· != '\n')).reverse := by omega
  rw [hstart]

/-- What a gap does to the state, apart from where the line starts. -/
theorem passGap_state (s : State) (gap : List Char) :
    (passGap s gap).2.line = s.line + gap.count '\n' ∧
      (passGap s gap).2.fresh = (s.fresh || gap.contains '\n') ∧
      (passGap s gap).2.columns = s.columns ∧ (passGap s gap).2.braces = s.braces ∧
      (passGap s gap).2.parens = s.parens := by
  by_cases h : '\n' ∈ gap
  · have hcount := List.count_pos_iff.2 h
    unfold passGap
    split
    · omega
    · simp [h]
  · rw [passGap_of_no_feed s h]
    simp [List.count_eq_zero.2 h, h]

/-- The line that ends in a gap. -/
theorem passGap_items (s : State) (gap : List Char) :
    (passGap s gap).1.map Located.item =
      if s.fresh || !gap.contains '\n' then [] else [.token .newline] := by
  by_cases h : '\n' ∈ gap
  · have hcount := List.count_pos_iff.2 h
    unfold passGap
    split
    · omega
    · cases hfresh : s.fresh <;> simp [h]
  · rw [passGap_of_no_feed s h]
    simp [h]

/-! ## Placing -/

theorem indentation_offset (s : State) (offset start : Nat) :
    indentation { s with offset } start =
      (indentation s start).map fun answer => (answer.1, { answer.2 with offset }) := by
  unfold indentation
  split
  · rfl
  · split
    · rfl
    · dsimp only
      split
      · rfl
      · split <;> rfl

theorem bracket_map_offset (s : State) (offset : Nat) (t : Token) :
    bracket { s with offset } t = (bracket s t).map fun s => { s with offset } := by
  unfold bracket
  split
  · rfl
  · split <;> rfl
  · rfl
  · split <;> rfl
  · rfl

/-- Placing a token does not depend on where the lexeme before it stops. -/
theorem put_offset (s : State) (offset start stop : Nat) (t : Token) :
    put { s with offset } start stop t = put s start stop t := by
  unfold put
  split
  · rfl
  · rw [indentation_offset]
    cases indentation s start with
    | error e => rfl
    | ok answer =>
      obtain ⟨layout, s₁⟩ := answer
      simp only [bind, Except.bind, Except.map]
      rw [bracket_map_offset]
      cases bracket s₁ t with
      | error e => rfl
      | ok s₂ => rfl

/-! ## Two passes -/

/-- The pass stands in front of a gap with comments, and in the text with blank space instead of
them another pass stands in front of the blanks behind the last line break. -/
structure Passing (s : State) (gap : List Char) (t : State) (blanks : List Char) : Prop where
  state : (passGap s gap).2 = { t with offset := s.offset }
  place : s.offset + bytes gap = t.offset + bytes blanks
  feeds : '\n' ∉ blanks

theorem Passing.refl (s : State) : Passing s [] s [] :=
  ⟨rfl, rfl, List.not_mem_nil⟩

/-- Both go on over blanks. -/
theorem Passing.append (h : Passing s g t b) {front blanks : List Char} (hfront : '\n' ∉ front)
    (hblanks : '\n' ∉ blanks) (hbytes : bytes front = bytes blanks) :
    Passing s (g ++ front) t (b ++ blanks) := by
  refine ⟨?_, ?_, ?_⟩
  · rw [passGap_append s g hfront]
    exact h.state
  · have hplace := h.place
    rw [bytes_append, bytes_append]
    omega
  · rw [List.mem_append]
    rintro (hfeed | hfeed)
    · exact h.feeds hfeed
    · exact hblanks hfeed

/-- A line break in a comment is a lexeme of the blank space. -/
theorem Passing.feed (h : Passing s g t b) :
    ∃ (ended : List Located) (t' : State), Passing s (g ++ ['\n']) t' [] ∧
      AllAlike (passGap s (g ++ ['\n'])).1 ((passGap s g).1 ++ ended) ∧
      ∀ size lexemes, run size t (⟨b, .token .newline, ['\n']⟩ :: lexemes) =
        (run size t' lexemes).map (ended ++ ·) := by
  obtain ⟨hline, hfresh, hcolumns, hbraces, hparens⟩ := passGap_state s g
  rw [h.state] at hline hfresh hcolumns hbraces hparens
  dsimp only at hline hfresh hcolumns hbraces hparens
  have hwidth : bytes ['\n'] = 1 := rfl
  refine ⟨if t.fresh then [] else [⟨.token .newline, t.line, t.offset + bytes b,
      t.offset + bytes b + 1⟩],
    { t with
      offset := t.offset + bytes b + 1
      line := t.line + 1
      lineStart := t.offset + bytes b + 1
      fresh := true }, ⟨?_, ?_, List.not_mem_nil⟩, ?_, fun size lexemes => ?_⟩
  · rw [passGap_feed, h.place, hline, hcolumns, hbraces, hparens]
    rfl
  · have hplace := h.place
    rw [bytes_append, hwidth]
    show s.offset + (bytes g + 1) = t.offset + bytes b + 1 + 0
    omega
  · refine allAlike_of_layout ?_ fun l hl => (passGap_spec s _).2 l hl
    rw [List.map_append, passGap_items, passGap_items, hfresh]
    cases s.fresh <;> cases g.contains '\n' <;> simp
  · rw [run_token, passGap_of_no_feed t h.feeds, hwidth]
    rfl

theorem ofText_blanks (n : Nat) (cs : List Char) :
    ofText (List.replicate n ' ' ++ cs) = behind (List.replicate n ' ') (ofText cs) := by
  induction n with
  | zero => exact (behind_nil _).symm
  | succ n ih =>
    rw [List.replicate_succ, List.cons_append, Lexeme.ofText_gap (by decide), ih, behind_behind,
      List.singleton_append]

/-- One pass goes over a comment, the other over the blank space in its place. -/
theorem Passing.comment (h : Passing s g t b) (comment : List Char) :
    ∃ (ended : List Located) (t' : State) (b' : List Char), Passing s (g ++ comment) t' b' ∧
      AllAlike (passGap s (g ++ comment)).1 ((passGap s g).1 ++ ended) ∧
      ∀ size cs, run size t (behind b (ofText (blankOut comment ++ cs))) =
        (run size t' (behind b' (ofText cs))).map (ended ++ ·) := by
  induction comment generalizing g t b with
  | nil =>
    refine ⟨[], t, b, by rwa [List.append_nil], ?_, fun size cs => ?_⟩
    · rw [List.append_nil, List.append_nil]
      exact .refl _
    · show run size t (behind b (ofText cs)) = _
      cases run size t (behind b (ofText cs)) <;> rfl
  | cons c comment ih =>
    have hgap : g ++ c :: comment = (g ++ [c]) ++ comment := by simp
    have hblank : blankOut (c :: comment) = blankOut [c] ++ blankOut comment := by
      simp [blankOut]
    by_cases hfeed : c = '\n'
    · subst hfeed
      have hlexeme : ∀ cs, behind b (ofText ('\n' :: cs)) =
          ⟨b, .token .newline, ['\n']⟩ :: ofText cs := by
        intro cs
        rw [Lexeme.ofText_lexeme (by decide) rfl, behind, List.append_nil]
        rfl
      obtain ⟨ended₁, t₁, h₁, halike₁, hrun₁⟩ := h.feed
      obtain ⟨ended₂, t₂, b₂, h₂, halike₂, hrun₂⟩ := ih h₁
      refine ⟨ended₁ ++ ended₂, t₂, b₂, by rwa [hgap], ?_, fun size cs => ?_⟩
      · rw [hgap, ← List.append_assoc]
        exact halike₂.trans (halike₁.append (.refl ended₂))
      · have hrest := hrun₂ size cs
        rw [behind_nil] at hrest
        rw [hblank, List.append_assoc]
        show run size t (behind b (ofText ('\n' :: (blankOut comment ++ cs)))) = _
        rw [hlexeme, hrun₁, hrest]
        cases run size t₂ (behind b₂ (ofText cs)) with
        | error e => rfl
        | ok items => simp [Except.map]
    · have hspaces : blankOut [c] = List.replicate c.utf8Size ' ' := by
        simp [blankOut, hfeed]
      have hbytes : bytes [c] = bytes (List.replicate c.utf8Size ' ') := by
        rw [Text.bytes_spaces]
        rfl
      have hnot : '\n' ∉ [c] := by
        rw [List.mem_singleton]
        exact fun heq => hfeed heq.symm
      have hnot' : '\n' ∉ List.replicate c.utf8Size ' ' := by
        rw [List.mem_replicate]
        rintro ⟨-, heq⟩
        cases heq
      obtain ⟨ended, t', b', h', halike, hrun⟩ := ih (h.append hnot hnot' hbytes)
      refine ⟨ended, t', b', by rwa [hgap], ?_, fun size cs => ?_⟩
      · rw [hgap]
        rwa [passGap_append s g hnot] at halike
      · have hrest := hrun size cs
        rw [← behind_behind, ← ofText_blanks] at hrest
        rw [hblank, hspaces, List.append_assoc]
        exact hrest

/-! ## Whole texts -/

theorem agrees_finish (h : Passing s g t b) (size : Nat) :
    Agrees (passGap s g).1 (finish s size) (finish t size) := by
  obtain ⟨-, hfresh, hcolumns, hbraces, hparens⟩ := passGap_state s g
  rw [h.state] at hfresh hcolumns hbraces hparens
  dsimp only at hfresh hcolumns hbraces hparens
  by_cases hopen : (s.braces != 0 || s.parens != 0) = true
  · have hopen' : (t.braces != 0 || t.parens != 0) = true := by rwa [hbraces, hparens]
    rw [finish, finish, if_pos hopen, if_pos hopen']
    trivial
  · have hopen' : ¬ (t.braces != 0 || t.parens != 0) = true := by rwa [hbraces, hparens]
    cases hs : finish s size with
    | error e => exact absurd (inside_iff.2 (finish_error hs).1) hopen
    | ok items =>
      have hlayout := finish_spec hs
      obtain ⟨-, -, rfl⟩ := finish_eq_ok.1 hs
      rw [finish, if_neg hopen']
      refine allAlike_of_layout ?_ hlayout
      have howed := passGap_items s g
      simp only [List.map_append, howed, hfresh, hcolumns, List.map_replicate]
      cases s.fresh <;> cases g.contains '\n' <;> simp

theorem agrees_run {cs cs' : List Char} (hblanked : Blanked cs cs') (h : Passing s g t b)
    (size : Nat) :
    Agrees (passGap s g).1 (run size s (behind g (ofText cs)))
      (run size t (behind b (ofText cs'))) := by
  induction hblanked generalizing s g t b with
  | nil =>
    rw [Lexeme.ofText_nil]
    exact agrees_finish h size
  | @gap c cs cs' hgap _ ih =>
    have hnot : '\n' ∉ [c] := by
      rw [List.mem_singleton]
      rintro rfl
      cases hgap
    have hrest := ih (h.append hnot hnot rfl)
    rwa [passGap_append s g hnot, ← behind_behind, ← behind_behind, ← Lexeme.ofText_gap hgap,
      ← Lexeme.ofText_gap hgap] at hrest
  | @comment c rest cs' n hgap hcomment _ ih =>
    obtain ⟨ended, t', b', h', halike, hrun⟩ := h.comment (c :: rest.take n)
    have hrest := ih h'
    rw [hrun, Lexeme.ofText_comment hgap hcomment, behind_behind]
    have hmore : Agrees (passGap s g).1 _ _ :=
      hrest.map (f := id) (g := (ended ++ ·)) fun items items' hitems => by
        rw [← List.append_assoc]
        exact AllAlike.trans hitems (halike.append (.refl items'))
    rwa [Except.map_id] at hmore
  | @token c rest cs' token n hgap hcomment hkind hblanked ih =>
    have hfirst := Lexeme.ofText_lexeme hgap hcomment
    rw [hkind] at hfirst
    have hplaced := put_offset t s.offset (s.offset + bytes g)
      (s.offset + bytes g + bytes (c :: rest.take n)) token
    rw [hfirst, Lexeme.ofText_blanked hgap hcomment hkind hblanked, behind, behind,
      List.append_nil, List.append_nil, run_token, run_token, h.state, hplaced,
      passGap_of_no_feed t h.feeds, h.place]
    dsimp only
    cases put t (t.offset + bytes b) (t.offset + bytes b + bytes (c :: rest.take n)) token with
    | error e => trivial
    | ok placed =>
      obtain ⟨here, s'⟩ := placed
      have hrest := ih (Passing.refl s')
      rw [behind_nil, behind_nil] at hrest
      refine hrest.map fun items items' hitems => ?_
      rw [List.nil_append, ← List.append_assoc]
      exact (AllAlike.refl _).append hitems
  | @open_ c rest hgap hcomment hkind =>
    have hfails : ∀ (s : State) (gap : List Char), ∃ e,
        run size s (behind gap (ofText (c :: rest))) = .error e := by
      intro s gap
      rw [Lexeme.ofText_lexeme hgap hcomment, behind, run]
      cases hk : (Lexeme.kindOf c rest).1 with
      | token t => exact absurd hk (hkind t)
      | openString => exact ⟨_, rfl⟩
      | openComment => exact ⟨_, rfl⟩
    obtain ⟨e, he⟩ := hfails s g
    obtain ⟨e', he'⟩ := hfails t b
    rw [he, he']
    trivial

end Layout

/-! ## Token streams -/

theorem bytes_blankOut (comment : List Char) : bytes (blankOut comment) = bytes comment := by
  induction comment with
  | nil => rfl
  | cons c comment ih =>
    have hcons : blankOut (c :: comment) = blankOut [c] ++ blankOut comment := by
      simp [blankOut]
    have hone : bytes (blankOut [c]) = c.utf8Size := by
      by_cases hfeed : c = '\n'
      · subst hfeed
        rfl
      · have hspaces : blankOut [c] = List.replicate c.utf8Size ' ' := by
          simp [blankOut, hfeed]
        rw [hspaces, Text.bytes_spaces]
    rw [hcons, bytes_append, ih, hone, Text.bytes_cons]

theorem Lexeme.Blanked.bytes_eq {cs cs' : List Char} (h : Blanked cs cs') :
    bytes cs' = bytes cs := by
  induction h with
  | nil => rfl
  | gap _ _ ih => rw [Text.bytes_cons, Text.bytes_cons, ih]
  | @comment c rest cs' n _ _ _ ih =>
    have hsplit := congrArg bytes (List.take_append_drop n rest)
    rw [bytes_append] at hsplit
    rw [bytes_append, bytes_blankOut, ih, Text.bytes_cons, Text.bytes_cons]
    omega
  | @token c rest cs' t n _ _ _ _ ih =>
    have hsplit := congrArg bytes (List.take_append_drop n rest)
    rw [bytes_append] at hsplit
    rw [Text.bytes_cons, Text.bytes_cons, bytes_append, ih]
    omega
  | open_ => rfl

theorem bytes_blankComments (source : List Char) : bytes (blankComments source) = bytes source :=
  (Lexeme.blanked_blankComments source).bytes_eq

/-- Blank space in place of the comments leaves all items, and all tokens but line breaks at their
places. -/
theorem tokenize_blankComments (source : List Char) :
    Agrees [] (tokenize source) (tokenize (blankComments source)) := by
  have hrun := Layout.agrees_run (Lexeme.blanked_blankComments source) (Layout.Passing.refl {})
    (bytes source)
  rw [behind_nil, behind_nil] at hrun
  unfold tokenize
  rw [bytes_blankComments]
  exact hrun

end StyleWeave
