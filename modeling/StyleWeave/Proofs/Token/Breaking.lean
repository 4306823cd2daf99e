import StyleWeave.Proofs.Token.Laying

/-!
# Line breaks behind commas

`breakLines` puts line breaks, each with blanks behind it, into a text. Behind commas they leave the
tokens as they are, and move those that follow (`Lexes.breakLines`).
-/

namespace StyleWeave

open Text (bytes bytes_append)

/-- A line break with this text behind it. -/
def lineBreak : Option (List Char) → List Char
  | none => []
  | some blanks => '\n' :: blanks

/-- The text that starts at byte `n` of a document, with a line break behind each byte of the
document for which blanks are given. -/
def breakLines (breaks : Nat → Option (List Char)) (n : Nat) : List Char → List Char
  | [] => []
  | c :: cs =>
    c :: (lineBreak (breaks (n + c.utf8Size)) ++ breakLines breaks (n + c.utf8Size) cs)

variable {breaks : Nat → Option (List Char)} {n : Nat} {cs : List Char}

/-- No line break is put into a stretch of the text but behind it. -/
theorem breakLines_append {u : List Char} (hu : u ≠ [])
    (hwithin : ∀ k, n < k → k < n + bytes u → breaks k = none) :
    breakLines breaks n (u ++ cs) =
      u ++ (lineBreak (breaks (n + bytes u)) ++ breakLines breaks (n + bytes u) cs) := by
  induction u generalizing n with
  | nil => exact absurd rfl hu
  | cons c u ih =>
    have hc := c.utf8Size_pos
    by_cases hnil : u = []
    · subst hnil
      rfl
    · have hpos : 0 < bytes u := by
        refine Nat.pos_of_ne_zero fun hzero => hnil (Text.eq_nil_of_bytes hzero)
      have hplace : n + c.utf8Size + bytes u = n + bytes (c :: u) := Nat.add_assoc _ _ _
      have hrest := ih hnil (n := n + c.utf8Size) fun k hk hk' =>
        hwithin k (by omega) (by omega)
      rw [hplace] at hrest
      rw [List.cons_append, breakLines, hwithin (n + c.utf8Size) (by omega) (by omega), hrest]
      rfl

/-- No line break is put into a stretch of the text or behind it. -/
theorem breakLines_front {u : List Char} (h : ∀ k, n < k → k ≤ n + bytes u → breaks k = none) :
    breakLines breaks n (u ++ cs) = u ++ breakLines breaks (n + bytes u) cs := by
  by_cases hu : u = []
  · subst hu
    rfl
  · have hpos : 0 < bytes u :=
      Nat.pos_of_ne_zero fun hzero => hu (Text.eq_nil_of_bytes hzero)
    rw [breakLines_append hu fun k hk hk' => h k hk (Nat.le_of_lt hk'),
      h _ (by omega) (Nat.le_refl _)]
    rfl

theorem head?_breakLines (breaks : Nat → Option (List Char)) (n : Nat) (cs : List Char) :
    (breakLines breaks n cs).head? = cs.head? := by
  cases cs <;> rfl

namespace Lexeme

variable {m m' : Bool} {rest : List Char} {spots : List Spot} {s : Spot}

/-- A token has a text in front of what is behind it, and a comma is a comma. -/
theorem Lexes.exists_text (h : Lexes m cs spots m' rest) (hs : s ∈ spots) :
    s.front <:+ cs ∧ ∃ text, text ≠ [] ∧ s.front = text ++ s.back ∧
      (s.token = .comma → text = [',']) := by
  induction h with
  | done => cases hs
  | gap _ _ ih | within _ _ _ ih =>
    obtain ⟨hsuffix, htext⟩ := ih hs
    exact ⟨hsuffix.trans (List.suffix_cons _ _), htext⟩
  | opens _ ih | closes _ ih =>
    obtain ⟨hsuffix, htext⟩ := ih hs
    exact ⟨(hsuffix.trans (List.suffix_cons _ _)).trans (List.suffix_cons _ _), htext⟩
  | line _ ih =>
    obtain ⟨hsuffix, htext⟩ := ih hs
    have hline := hsuffix.trans (List.dropWhile_suffix _)
    exact ⟨(hline.trans (List.suffix_cons _ _)).trans (List.suffix_cons _ _), htext⟩
  | @token c u cs rest t spots _ _ _ hkind _ ih =>
    rcases List.mem_cons.1 hs with rfl | hs
    · refine ⟨List.suffix_refl _, c :: u, List.cons_ne_nil _ _, rfl, fun hcomma => ?_⟩
      obtain rfl : t = .comma := hcomma
      obtain rfl := kindOf_comma (congrArg Prod.fst hkind)
      have hlength : (kindOf ',' (u ++ cs)).2 = 0 := by
        cases u ++ cs <;> rfl
      rw [hkind] at hlength
      rw [List.eq_nil_of_length_eq_zero hlength]
    · obtain ⟨hsuffix, htext⟩ := ih hs
      exact ⟨(hsuffix.trans (List.suffix_append u cs)).trans (List.suffix_cons _ _), htext⟩
  | @feed cs _ _ _ _ ih =>
    rcases List.mem_cons.1 hs with rfl | hs
    · refine ⟨List.suffix_refl _, ['\n'], List.cons_ne_nil _ _, rfl, fun hcomma => ?_⟩
      cases hcomma
    · obtain ⟨hsuffix, htext⟩ := ih hs
      exact ⟨hsuffix.trans (List.suffix_cons _ _), htext⟩

theorem bytes_le_of_suffix {u v : List Char} (h : u <:+ v) : bytes u ≤ bytes v := by
  obtain ⟨w, rfl⟩ := h
  rw [bytes_append]
  omega

/-- What is behind a token is shorter than the text. -/
theorem Lexes.back_lt (h : Lexes m cs spots m' rest) (hs : s ∈ spots) :
    bytes s.back < bytes cs := by
  obtain ⟨hsuffix, text, htext, hfront, -⟩ := h.exists_text hs
  have hle := bytes_le_of_suffix hsuffix
  have hpos : 0 < bytes text :=
    Nat.pos_of_ne_zero fun hzero => htext (Text.eq_nil_of_bytes hzero)
  rw [hfront, bytes_append] at hle
  omega

/-! ## Breaks behind commas -/

/-- In a document of `size` bytes, the line breaks that are put behind byte `n` stand behind commas
among the tokens. -/
def BehindCommas (breaks : Nat → Option (List Char)) (size n : Nat) (spots : List Spot) : Prop :=
  ∀ k b, breaks k = some b → n < k → ∃ s ∈ spots, s.token = .comma ∧ k + bytes s.back = size

theorem BehindCommas.mono {size n' : Nat} (h : BehindCommas breaks size n spots) (hle : n ≤ n') :
    BehindCommas breaks size n' spots :=
  fun k b hb hk => h k b hb (Nat.lt_of_le_of_lt hle hk)

/-- A token with its breaks, in front of the others with theirs. -/
theorem BehindCommas.tail {size n' : Nat} (h : BehindCommas breaks size n (s :: spots))
    (hle : n ≤ n') (hplace : n' + bytes s.back = size) : BehindCommas breaks size n' spots := by
  intro k b hb hk
  obtain ⟨s', hs', htoken, hback⟩ := h k b hb (Nat.lt_of_le_of_lt hle hk)
  rcases List.mem_cons.1 hs' with rfl | hs'
  · omega
  · exact ⟨s', hs', htoken, hback⟩

/-- No line break is put where the text has no tokens. -/
theorem Lexes.breakLines_front {size size' d : Nat} {u : List Char}
    (h : Lexes m cs spots m' rest) (hbreaks : BehindCommas breaks size n spots)
    (hplace : n + bytes (u ++ cs) = size)
    (hplace' : n + d + bytes (breakLines breaks n (u ++ cs)) = size') :
    breakLines breaks n (u ++ cs) = u ++ breakLines breaks (n + bytes u) cs ∧
      BehindCommas breaks size (n + bytes u) spots ∧ n + bytes u + bytes cs = size ∧
      n + bytes u + d + bytes (breakLines breaks (n + bytes u) cs) = size' := by
  rw [bytes_append, ← Nat.add_assoc] at hplace
  have hcut : breakLines breaks n (u ++ cs) = u ++ breakLines breaks (n + bytes u) cs := by
    refine StyleWeave.breakLines_front fun k hk hle => ?_
    refine Option.eq_none_iff_forall_ne_some.2 fun b hb => ?_
    obtain ⟨s, hs, -, hback⟩ := hbreaks k b hb hk
    have hlt := h.back_lt hs
    omega
  rw [hcut, bytes_append] at hplace'
  exact ⟨hcut, hbreaks.mono (Nat.le_add_right _ _), hplace, by omega⟩

/-- Up to its first comma that is broken the text is as it was. -/
theorem ahead_breakLines (h : ∀ k b, breaks k = some b → n < k →
      ∃ v, ',' :: v <:+ cs ∧ k + bytes v = n + bytes cs) :
    Ahead cs (breakLines breaks n cs) := by
  induction cs generalizing n with
  | nil => exact .nil
  | cons c cs ih =>
    have hc := c.utf8Size_pos
    unfold breakLines
    cases hbreak : breaks (n + c.utf8Size) with
    | some b =>
      obtain ⟨v, hsuffix, hplace⟩ := h _ b hbreak (by omega)
      rw [Text.bytes_cons] at hplace
      rcases List.suffix_cons_iff.1 hsuffix with heq | hsuffix
      · obtain ⟨rfl, -⟩ := List.cons.inj heq
        exact .edge (clear_comma _).edge (clear_comma _)
      · have hle := bytes_le_of_suffix hsuffix
        rw [Text.bytes_cons] at hle
        have hpos : 0 < ','.utf8Size := by decide
        omega
    | none =>
      refine .cons c (ih fun k b hb hk => ?_)
      obtain ⟨v, hsuffix, hplace⟩ := h k b hb (by omega)
      rw [Text.bytes_cons] at hplace
      refine ⟨v, ?_, by omega⟩
      rcases List.suffix_cons_iff.1 hsuffix with heq | hsuffix
      · obtain ⟨rfl, rfl⟩ := List.cons.inj heq
        omega
      · exact hsuffix

theorem Lexes.ahead_breakLines {size : Nat} (h : Lexes m cs spots m' rest)
    (hbreaks : BehindCommas breaks size n spots) (hplace : n + bytes cs = size) :
    Ahead cs (breakLines breaks n cs) := by
  refine Lexeme.ahead_breakLines fun k b hb hk => ?_
  obtain ⟨s, hs, hcomma, hback⟩ := hbreaks k b hb hk
  obtain ⟨hsuffix, text, -, hfront, htext⟩ := h.exists_text hs
  rw [htext hcomma, List.singleton_append] at hfront
  exact ⟨s.back, hfront ▸ hsuffix, by omega⟩

/-! ## The tokens of the broken text -/

/-- The tokens of a text of `size` bytes and those of the broken text of `size'` bytes, where the
first of them is `d` bytes further on. -/
inductive Moved (breaks : Nat → Option (List Char)) (size size' : Nat) :
    Nat → List Spot → List Spot → Prop where
  | nil {d : Nat} : Moved breaks size size' d [] []
  | same {d : Nat} {s s' : Spot} {spots spots' : List Spot} (token : s'.token = s.token)
      (none : breaks (size - bytes s.back) = none)
      (start : size' - bytes s'.front = size - bytes s.front + d)
      (stop : size' - bytes s'.back = size - bytes s.back + d)
      (others : Moved breaks size size' d spots spots') :
      Moved breaks size size' d (s :: spots) (s' :: spots')
  | break_ {d : Nat} {s s' feed : Spot} {spots spots' : List Spot} {b : List Char}
      (token : s.token = .comma) (token' : s'.token = .comma)
      (some : breaks (size - bytes s.back) = some b)
      (start : size' - bytes s'.front = size - bytes s.front + d)
      (stop : size' - bytes s'.back = size - bytes s.back + d) (feed_token : feed.token = .newline)
      (feed_start : size' - bytes feed.front = size - bytes s.back + d)
      (feed_stop : size' - bytes feed.back = size - bytes s.back + d + 1)
      (others : Moved breaks size size' (d + 1 + bytes b) spots spots') :
      Moved breaks size size' d (s :: spots) (s' :: feed :: spots')

/-- A line break is put behind a token, if that is a comma, and none within it. -/
theorem Lexes.breakLines_token {size : Nat} {c : Char} {u : List Char} {t : Token}
    (others : Lexes m cs spots m' rest)
    (hbreaks : BehindCommas breaks size n (⟨t, c :: (u ++ cs), cs⟩ :: spots))
    (hplace : n + bytes (c :: u) + bytes cs = size) :
    breakLines breaks n (c :: (u ++ cs)) = c :: (u ++
        (lineBreak (breaks (n + bytes (c :: u))) ++ breakLines breaks (n + bytes (c :: u)) cs)) ∧
      ((∃ b, breaks (n + bytes (c :: u)) = some b) → t = .comma) := by
  have hpos := c.utf8Size_pos
  refine ⟨breakLines_append (List.cons_ne_nil c u) fun k hk hlt => ?_, ?_⟩
  · refine Option.eq_none_iff_forall_ne_some.2 fun b hb => ?_
    obtain ⟨s, hs, -, hback⟩ := hbreaks k b hb hk
    rcases List.mem_cons.1 hs with rfl | hs
    · dsimp only at hback
      omega
    · have hless := others.back_lt hs
      omega
  · rintro ⟨b, hb⟩
    obtain ⟨s, hs, hcomma, hback⟩ := hbreaks _ b hb (by rw [Text.bytes_cons]; omega)
    rcases List.mem_cons.1 hs with rfl | hs
    · exact hcomma
    · have hless := others.back_lt hs
      omega

theorem endsLine_dropWhile (cs : List Char) : EndsLine (cs.dropWhile (· != '\n')) := by
  induction cs with
  | nil => exact endsLine_nil
  | cons c cs ih =>
    by_cases hfeed : c = '\n'
    · subst hfeed
      exact endsLine_feed cs
    · rw [List.dropWhile_cons_of_pos (by simp [hfeed])]
      exact ih

theorem endsLine_breakLines (h : EndsLine cs) : EndsLine (breakLines breaks n cs) := by
  intro c hc
  rw [head?_breakLines] at hc
  exact h c hc

section

variable {size size' d : Nat} {cs' : List Char} {spots' : List Spot}

/-- A token without a line break behind it is lexed as it was. -/
theorem Lexes.token_moved {c : Char} {u : List Char} {t : Token} (h : Lexes false cs' spots' m' [])
    (hmoved : Moved breaks size size' d spots spots') (hgap : Text.isGap c = false)
    (hcomment : commentRest (c :: (u ++ cs)) = none)
    (hkind : kindOf c (u ++ cs) = (.token t, u.length)) (hahead : Ahead cs cs')
    (hends : EndsLine cs → EndsLine cs') (hnone : breaks (n + bytes (c :: u)) = none)
    (hplace : n + bytes (c :: u) + bytes cs = size)
    (hplace' : n + d + (bytes (c :: u) + bytes cs') = size') :
    ∃ spots₁, Lexes false (c :: (u ++ cs')) spots₁ m' [] ∧
      Moved breaks size size' d (⟨t, c :: (u ++ cs), cs⟩ :: spots) spots₁ := by
  have hwidth : ∀ v, bytes (c :: (u ++ v)) = bytes (c :: u) + bytes v := by
    intro v
    rw [← bytes_append]
    rfl
  have hkind' := kindOf_of_ahead hahead (fun _ _ => hends) hkind
  have hcomment' := commentRest_of_ahead (hahead.append u) hcomment hkind
  have hstop : size - bytes cs = n + bytes (c :: u) := by omega
  refine ⟨⟨t, c :: (u ++ cs'), cs'⟩ :: spots', .token hgap hcomment' hkind' h,
    .same rfl ?_ ?_ ?_ hmoved⟩
  · rw [hstop]
    exact hnone
  · show size' - bytes (c :: (u ++ cs')) = size - bytes (c :: (u ++ cs)) + d
    rw [hwidth, hwidth]
    omega
  · rw [hstop]
    show size' - bytes cs' = n + bytes (c :: u) + d
    omega

/-- A comma with a line break behind it has the line break as the next token. -/
theorem Lexes.comma_moved {b : List Char} (h : Lexes false cs' spots' m' [])
    (hmoved : Moved breaks size size' (d + 1 + bytes b) spots spots') (hb : Gaps b)
    (hsome : breaks (n + bytes [',']) = some b) (hplace : n + bytes [','] + bytes cs = size)
    (hplace' : n + d + (bytes [','] + (1 + bytes b + bytes cs')) = size') :
    ∃ spots₁, Lexes false (',' :: '\n' :: (b ++ cs')) spots₁ m' [] ∧
      Moved breaks size size' d (⟨.comma, ',' :: cs, cs⟩ :: spots) spots₁ := by
  have hline := (lexes_feed false (b ++ cs')).append (h.gaps hb)
  have hcomma : ∀ v, bytes (',' :: v) = bytes [','] + bytes v := fun v => rfl
  have hfeed : bytes ('\n' :: (b ++ cs')) = 1 + bytes b + bytes cs' := by
    rw [Text.bytes_cons, bytes_append]
    exact (Nat.add_assoc _ _ _).symm
  have hstop : size - bytes cs = n + bytes [','] := by omega
  refine ⟨⟨.comma, ',' :: '\n' :: (b ++ cs'), '\n' :: (b ++ cs')⟩ ::
    (⟨.newline, '\n' :: (b ++ cs'), b ++ cs'⟩ :: spots'), ?_,
    .break_ rfl rfl (b := b) ?_ ?_ ?_ rfl ?_ ?_ hmoved⟩
  · exact Lexes.token (u := []) (by decide) (commentRest_of_ne (by decide) _)
      (kindOf_of_comma _) hline
  · rw [hstop]
    exact hsome
  · show size' - bytes (',' :: '\n' :: (b ++ cs')) = size - bytes (',' :: cs) + d
    rw [hcomma ('\n' :: (b ++ cs')), hcomma cs, hfeed]
    omega
  · rw [hstop]
    show size' - bytes ('\n' :: (b ++ cs')) = _
    omega
  · rw [hstop]
    show size' - bytes ('\n' :: (b ++ cs')) = _
    omega
  · rw [hstop]
    show size' - bytes (b ++ cs') = _
    rw [bytes_append]
    omega

/-- A line break in a comment stays as it was. -/
theorem Lexes.feed_moved (h : Lexes true cs' spots' m' [])
    (hmoved : Moved breaks size size' d spots spots') (hnone : breaks (n + bytes ['\n']) = none)
    (hplace : n + bytes ['\n'] + bytes cs = size)
    (hplace' : n + d + (bytes ['\n'] + bytes cs') = size') :
    ∃ spots₁, Lexes true ('\n' :: cs') spots₁ m' [] ∧
      Moved breaks size size' d (⟨.newline, '\n' :: cs, cs⟩ :: spots) spots₁ := by
  have hwidth : ∀ v, bytes ('\n' :: v) = bytes ['\n'] + bytes v := fun v => rfl
  have hstop : size - bytes cs = n + bytes ['\n'] := by omega
  refine ⟨⟨.newline, '\n' :: cs', cs'⟩ :: spots', .feed h, .same rfl ?_ ?_ ?_ hmoved⟩
  · rw [hstop]
    exact hnone
  · show size' - bytes ('\n' :: cs') = size - bytes ('\n' :: cs) + d
    rw [hwidth cs', hwidth cs]
    omega
  · show size' - bytes cs' = size - bytes cs + d
    omega

end

/-- The broken text is lexed as the text is, but for the line breaks. -/
theorem Lexes.breakLines {size size' d : Nat} (h : Lexes m cs spots m' rest) (hrest : rest = [])
    (hgaps : ∀ k b, breaks k = some b → Gaps b) (hbreaks : BehindCommas breaks size n spots)
    (hplace : n + bytes cs = size)
    (hplace' : n + d + bytes (StyleWeave.breakLines breaks n cs) = size') :
    ∃ spots', Lexes m (StyleWeave.breakLines breaks n cs) spots' m' [] ∧
      Moved breaks size size' d spots spots' := by
  induction h generalizing n d with
  | done =>
    subst hrest
    exact ⟨[], .done, .nil⟩
  | @gap c cs rest spots _ hgap others ih =>
    obtain ⟨hcut, hmore, hplace₁, hplace₂⟩ :=
      others.breakLines_front (u := [c]) hbreaks hplace hplace'
    obtain ⟨spots', hlexes, hmoved⟩ := ih hrest hmore hplace₁ hplace₂
    rw [List.singleton_append] at hcut
    rw [hcut]
    exact ⟨spots', .gap hgap hlexes, hmoved⟩
  | @token c u cs rest t spots _ hgap hcomment hkind others ih =>
    have hplace₁ : n + bytes (c :: u) + bytes cs = size := by
      rw [← hplace, Nat.add_assoc, ← bytes_append]
      rfl
    have hmore : BehindCommas breaks size (n + bytes (c :: u)) spots :=
      hbreaks.tail (Nat.le_add_right _ _) hplace₁
    obtain ⟨hcut, hcomma⟩ := others.breakLines_token hbreaks hplace₁
    rw [hcut] at hplace' ⊢
    rw [← List.cons_append, bytes_append, bytes_append] at hplace'
    cases hbreak : breaks (n + bytes (c :: u)) with
    | none =>
      rw [hbreak, lineBreak, Text.bytes_nil, Nat.zero_add] at hplace'
      obtain ⟨spots', hlexes, hmoved⟩ := ih (d := d) hrest hmore hplace₁ (by omega)
      exact hlexes.token_moved hmoved hgap hcomment hkind (others.ahead_breakLines hmore hplace₁)
        endsLine_breakLines hbreak hplace₁ hplace'
    | some b =>
      obtain rfl := hcomma ⟨b, hbreak⟩
      obtain rfl := kindOf_comma (congrArg Prod.fst hkind)
      rw [kindOf_of_comma] at hkind
      obtain rfl := List.eq_nil_of_length_eq_zero (Prod.mk.inj hkind).2.symm
      have hfeed : bytes (lineBreak (some b)) = 1 + bytes b := rfl
      rw [hbreak, hfeed] at hplace'
      obtain ⟨spots', hlexes, hmoved⟩ :=
        ih (d := d + 1 + bytes b) hrest hmore hplace₁ (by omega)
      exact hlexes.comma_moved hmoved (hgaps _ b hbreak) hbreak hplace₁ hplace'
  | @line cs rest spots _ others ih =>
    have hsplit : '/' :: '/' :: cs =
        ('/' :: '/' :: cs.takeWhile (· != '\n')) ++ cs.dropWhile (· != '\n') := by
      rw [List.cons_append, List.cons_append, List.takeWhile_append_dropWhile]
    rw [hsplit] at hplace hplace' ⊢
    obtain ⟨hcut, hmore, hplace₁, hplace₂⟩ := others.breakLines_front hbreaks hplace hplace'
    obtain ⟨spots', hlexes, hmoved⟩ := ih hrest hmore hplace₁ hplace₂
    rw [hcut]
    refine ⟨spots', .line ?_, hmoved⟩
    show Lexes false ((cs.takeWhile (· != '\n') ++ _).dropWhile (· != '\n')) spots' _ []
    rw [dropWhile_line (no_feed_of_takeWhile (by decide)),
      (endsLine_breakLines (endsLine_dropWhile cs)).dropWhile]
    exact hlexes
  | @opens cs rest spots _ others ih =>
    obtain ⟨hcut, hmore, hplace₁, hplace₂⟩ :=
      others.breakLines_front (u := ['/', '*']) hbreaks hplace hplace'
    obtain ⟨spots', hlexes, hmoved⟩ := ih hrest hmore hplace₁ hplace₂
    have hcut' : StyleWeave.breakLines breaks n ('/' :: '*' :: cs) = _ := hcut
    rw [hcut']
    exact ⟨spots', .opens hlexes, hmoved⟩
  | @closes cs rest spots _ others ih =>
    obtain ⟨hcut, hmore, hplace₁, hplace₂⟩ :=
      others.breakLines_front (u := ['*', '/']) hbreaks hplace hplace'
    obtain ⟨spots', hlexes, hmoved⟩ := ih hrest hmore hplace₁ hplace₂
    have hcut' : StyleWeave.breakLines breaks n ('*' :: '/' :: cs) = _ := hcut
    rw [hcut']
    exact ⟨spots', .closes hlexes, hmoved⟩
  | @feed cs rest spots _ others ih =>
    have hplace₁ : n + bytes ['\n'] + bytes cs = size := by
      rw [← hplace]
      exact Nat.add_assoc _ _ _
    obtain ⟨hcut, hcomma⟩ := others.breakLines_token (u := []) hbreaks hplace₁
    have hnone : breaks (n + bytes ['\n']) = none := by
      refine Option.eq_none_iff_forall_ne_some.2 fun b hb => ?_
      cases hcomma ⟨b, hb⟩
    rw [hnone, lineBreak, List.nil_append, List.nil_append] at hcut
    rw [List.nil_append] at hcut
    rw [hcut] at hplace' ⊢
    have hwidth : ∀ v, bytes ('\n' :: v) = bytes ['\n'] + bytes v := fun v => rfl
    rw [hwidth] at hplace'
    obtain ⟨spots', hlexes, hmoved⟩ := ih (d := d) hrest
      (hbreaks.tail (Nat.le_add_right _ _) hplace₁) hplace₁ (by omega)
    exact hlexes.feed_moved hmoved hnone hplace₁ hplace'
  | @within c cs rest spots _ hfeed hopen others ih =>
    obtain ⟨hcut, hmore, hplace₁, hplace₂⟩ :=
      others.breakLines_front (u := [c]) hbreaks hplace hplace'
    obtain ⟨spots', hlexes, hmoved⟩ := ih hrest hmore hplace₁ hplace₂
    rw [List.singleton_append] at hcut
    rw [hcut]
    refine ⟨spots', .within hfeed (fun hc => ?_) hlexes, hmoved⟩
    show (StyleWeave.breakLines breaks (n + bytes [c]) cs).head? ≠ some '/'
    rw [head?_breakLines]
    exact hopen hc

end Lexeme

end StyleWeave
