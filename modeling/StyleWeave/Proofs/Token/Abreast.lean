import StyleWeave.Proofs.Token.LineEnds
import StyleWeave.Proofs.Token.Standing

/-!
# Layout of a text with carriage returns

The layout passes over a text without and with carriage returns go abreast (`State.Abreast`): behind
each lexeme both are on the same line, in the same column and in the same blocks. So the text has
the same token stream, each token where it has moved, or the same error (`tokenize_crlf`).
-/

namespace StyleWeave

open Text (Near bytes bytes_append count_crlf crlf crlf_append crlf_of_no_feed moved moved_bytes)
open Lexeme (IsPunct Relined Shaped ofText)

/-! ## Items -/

/-- An item without the text of a sign. -/
def Item.plain : Item → Item
  | .token (.punct _) => .token (.punct "")
  | item => item

/-- The items are the same, but for the text of a sign, and on the same line; a token lies where the
other has moved. -/
structure Located.Moved (source : List Char) (l l' : Located) : Prop where
  item : l'.item.plain = l.item.plain
  line : l'.line = l.line
  start : l.IsSolid → l'.start = moved source l.start
  stop : l.IsSolid → Near source l.stop l'.stop

/-- Two token streams have the same items, each token where it has moved. -/
abbrev AllMoved (source : List Char) (items items' : List Located) : Prop :=
  List.Forall₂ (Located.Moved source) items items'

/-- Both fail with the same error, or both succeed and their results are related. -/
def Together {α β : Type} (R : α → β → Prop) : Except ParseError α → Except ParseError β → Prop
  | .ok a, .ok b => R a b
  | .error e, .error e' => e = e'
  | _, _ => False

section

variable {α β γ δ : Type} {R : α → β → Prop} {S : γ → δ → Prop}
variable {x : Except ParseError α} {y : Except ParseError β}

theorem Together.error {e : ParseError} (h : Together R x y) (hx : x = .error e) :
    y = .error e := by
  subst hx
  cases y with
  | error e' => exact congrArg Except.error h.symm
  | ok b => cases h

theorem Together.ok {a : α} (h : Together R x y) (hx : x = .ok a) : ∃ b, y = .ok b ∧ R a b := by
  subst hx
  cases y with
  | error e' => cases h
  | ok b => exact ⟨b, rfl, h⟩

theorem Together.bind_ok {f : α → Except ParseError γ} {g : β → Except ParseError δ}
    (h : Together R x y)
    (hf : ∀ a b, x = .ok a → y = .ok b → R a b → Together S (f a) (g b)) :
    Together S (x >>= f) (y >>= g) := by
  cases x with
  | error e =>
    cases y with
    | error e' => exact h
    | ok b => cases h
  | ok a =>
    cases y with
    | error e' => cases h
    | ok b => exact hf a b rfl rfl h

theorem Together.bind {f : α → Except ParseError γ} {g : β → Except ParseError δ}
    (h : Together R x y) (hf : ∀ a b, R a b → Together S (f a) (g b)) :
    Together S (x >>= f) (y >>= g) :=
  h.bind_ok fun a b _ _ => hf a b

theorem Together.map {f : α → γ} {g : β → δ} (h : Together R x y)
    (hf : ∀ a b, R a b → S (f a) (g b)) : Together S (x.map f) (y.map g) := by
  cases x with
  | error e =>
    cases y with
    | error e' => exact h
    | ok b => cases h
  | ok a =>
    cases y with
    | error e' => cases h
    | ok b => exact hf a b h

end

variable {source : List Char}

/-- Layout has its place by the line alone. -/
theorem Located.Moved.of_layout {l l' : Located} (hitem : l'.item = l.item)
    (hline : l'.line = l.line) (hlayout : ¬ l.IsSolid) : l.Moved source l' :=
  ⟨congrArg Item.plain hitem, hline, fun hsolid => absurd hsolid hlayout,
    fun hsolid => absurd hsolid hlayout⟩

theorem allMoved_replicate (n : Nat) {l l' : Located} (h : l.Moved source l') :
    AllMoved source (List.replicate n l) (List.replicate n l') := by
  induction n with
  | zero => exact .nil
  | succ n ih => exact .cons h ih

namespace Layout

variable {s s' : State} {before before' gap gap' text text' : List Char}

/-! ## Places on a line -/

/-- Where the last line of a text starts is clear. -/
theorem within_unique {above within above' within' : List Char}
    (h : above ++ within = above' ++ within') (hwithin : '\n' ∉ within) (hwithin' : '\n' ∉ within')
    (habove : above = [] ∨ above.getLast? = some '\n')
    (habove' : above' = [] ∨ above'.getLast? = some '\n') : within = within' := by
  have hshort : ∀ {a b c d : List Char}, a ++ b = c ++ d → '\n' ∉ b →
      (c = [] ∨ c.getLast? = some '\n') → c.length ≤ a.length := by
    intro a b c d heq hb hc
    by_contra hlt
    rcases List.append_eq_append_iff.1 heq with ⟨e, rfl, rfl⟩ | ⟨e, rfl, rfl⟩
    · have he : e ≠ [] := by
        rintro rfl
        simp at hlt
      rcases hc with hnil | hlast
      · exact he (List.append_eq_nil_iff.1 hnil).2
      · rw [List.getLast?_append_of_ne_nil _ he] at hlast
        exact hb (List.mem_append_left _ (List.mem_of_getLast? hlast))
    · rw [List.length_append] at hlt
      omega
  have hlength := Nat.le_antisymm (hshort h.symm hwithin' habove) (hshort h hwithin habove')
  exact (List.append_inj h hlength).2

/-- Both passes are in the same column. -/
theorem column_crlf (h : s.OnLine before) (h' : s'.OnLine (crlf before)) :
    bytes (crlf before) - s'.lineStart = bytes before - s.lineStart := by
  obtain ⟨above, within, rfl, hwithin, hstart, habove⟩ := h.lineStart
  obtain ⟨above', within', hsplit, hwithin', hstart', habove'⟩ := h'.lineStart
  rw [crlf_append, crlf_of_no_feed hwithin] at hsplit
  have hcrlf : crlf above = [] ∨ (crlf above).getLast? = some '\n' := by
    rcases habove with rfl | hlast
    · exact Or.inl rfl
    · obtain ⟨front, rfl⟩ := List.getLast?_eq_some_iff.1 hlast
      right
      rw [crlf_append]
      exact List.getLast?_append_of_ne_nil _ (by simp)
  have hsame := within_unique hsplit hwithin hwithin' hcrlf habove'
  rw [crlf_append, crlf_of_no_feed hwithin, hsplit, hstart, hstart', bytes_append, bytes_append,
    hsame]
  omega

/-! ## Two passes -/

/-- Two passes are on lines with the same number, in the same blocks, behind two texts. -/
structure State.Abreast (before before' : List Char) (s s' : State) : Prop where
  onLine : s.OnLine before
  onLine' : s'.OnLine before'
  feeds : before'.count '\n' = before.count '\n'
  fresh : s'.fresh = s.fresh
  columns : s'.columns = s.columns
  braces : s'.braces = s.braces
  parens : s'.parens = s.parens

theorem State.Abreast.line (h : State.Abreast before before' s s') : s'.line = s.line := by
  rw [h.onLine'.line, h.onLine.line, h.feeds]

theorem State.Abreast.congr (h : State.Abreast before before' s s') {t t' : State}
    (hline : t.line = s.line) (hstart : t.lineStart = s.lineStart) (hline' : t'.line = s.line)
    (hstart' : t'.lineStart = s'.lineStart) (hfresh : t'.fresh = t.fresh)
    (hcolumns : t'.columns = t.columns) (hbraces : t'.braces = t.braces)
    (hparens : t'.parens = t.parens) : State.Abreast before before' t t' :=
  ⟨h.onLine.congr hline hstart, h.onLine'.congr (hline'.trans h.line.symm) hstart', h.feeds, hfresh,
    hcolumns, hbraces, hparens⟩

/-- More of the same line. -/
theorem State.Abreast.append (h : State.Abreast before before' s s') (htext : '\n' ∉ text)
    (htext' : '\n' ∉ text') : State.Abreast (before ++ text) (before' ++ text') s s' := by
  refine { h with onLine := h.onLine.append htext, onLine' := h.onLine'.append htext', feeds := ?_ }
  rw [List.count_append, List.count_append, List.count_eq_zero.2 htext,
    List.count_eq_zero.2 htext', h.feeds]

theorem State.Abreast.passGap (h : State.Abreast before before' s s')
    (hoffset : s.offset = bytes before) (hoffset' : s'.offset = bytes before')
    (hgap : gap'.count '\n' = gap.count '\n') :
    State.Abreast (before ++ gap) (before' ++ gap') (passGap s gap).2 (passGap s' gap').2 := by
  have honLine := passGap_onLine h.onLine hoffset gap
  have honLine' := passGap_onLine h.onLine' hoffset' gap'
  obtain ⟨-, hfresh, hcolumns, hbraces, hparens⟩ := passGap_state s gap
  obtain ⟨-, hfresh', hcolumns', hbraces', hparens'⟩ := passGap_state s' gap'
  have hfeed : gap'.contains '\n' = gap.contains '\n' := by
    rw [Bool.eq_iff_iff, List.contains_iff_mem, List.contains_iff_mem, ← List.count_pos_iff,
      ← List.count_pos_iff, hgap]
  refine ⟨honLine, honLine', ?_, ?_, ?_, ?_, ?_⟩
  · rw [List.count_append, List.count_append, h.feeds, hgap]
  · rw [hfresh, hfresh', h.fresh, hfeed]
  · rw [hcolumns, hcolumns', h.columns]
  · rw [hbraces, hbraces', h.braces]
  · rw [hparens, hparens', h.parens]

/-- The line that ends in a gap ends in both. -/
theorem State.Abreast.passGap_items (h : State.Abreast before before' s s')
    (hgap : gap'.count '\n' = gap.count '\n') :
    AllMoved source (Layout.passGap s gap).1 (Layout.passGap s' gap').1 := by
  rcases passGap_cases s gap with ⟨hfeed, heq⟩ | ⟨above, within, rfl, -, heq⟩
  · have hfeed' : '\n' ∉ gap' := by
      rw [← List.count_eq_zero, hgap, List.count_eq_zero]
      exact hfeed
    rw [heq, passGap_of_no_feed s' hfeed']
    exact .nil
  · rcases passGap_cases s' gap' with ⟨hfeed', -⟩ | ⟨above', within', rfl, -, heq'⟩
    · rw [← List.count_eq_zero, hgap] at hfeed'
      simp at hfeed'
    · rw [heq, heq']
      dsimp only
      rw [h.fresh]
      cases s.fresh with
      | true => exact .nil
      | false => exact .cons (.of_layout rfl h.line (not_solid_of_newline rfl)) .nil

/-- Results of the layout of a token, in passes that go on behind two texts. -/
def Ahead (source before before' : List Char) (placed placed' : List Located × State) : Prop :=
  AllMoved source placed.1 placed'.1 ∧ State.Abreast before before' placed.2 placed'.2

theorem State.Abreast.indentation (h : State.Abreast before before' s s') {start start' : Nat}
    (hcolumn : start' - s'.lineStart = start - s.lineStart) :
    Together (Ahead source before before') (indentation s start) (indentation s' start') := by
  unfold Layout.indentation
  dsimp only
  rw [h.fresh, h.braces, h.parens, h.columns, hcolumn, h.line]
  by_cases hfresh : (!s.fresh) = true
  · rw [if_pos hfresh, if_pos hfresh]
    exact ⟨.nil, h⟩
  · rw [if_neg hfresh, if_neg hfresh]
    by_cases hinside : (s.braces != 0 || s.parens != 0) = true
    · rw [if_pos hinside, if_pos hinside]
      exact ⟨.nil, h.congr rfl rfl rfl rfl rfl rfl rfl rfl⟩
    · rw [if_neg hinside, if_neg hinside]
      by_cases hdeep : column s.columns < start - s.lineStart
      · rw [if_pos hdeep, if_pos hdeep]
        refine ⟨.cons (.of_layout rfl rfl (not_solid_of_ne fun t ht => ?_)) .nil,
          h.congr rfl rfl rfl rfl rfl rfl rfl rfl⟩
        cases ht
      · rw [if_neg hdeep, if_neg hdeep]
        by_cases heven : start - s.lineStart = column (outdent (start - s.lineStart) s.columns)
        · rw [if_pos heven, if_pos heven]
          refine ⟨allMoved_replicate _ (.of_layout rfl rfl (not_solid_of_ne fun t ht => ?_)),
            h.congr rfl rfl rfl rfl rfl rfl rfl rfl⟩
          cases ht
        · rw [if_neg heven, if_neg heven]
          rfl

/-- The tokens are the same, or signs. -/
def AlikeTokens (t t' : Token) : Prop :=
  t' = t ∨ IsPunct t ∧ IsPunct t'

theorem AlikeTokens.plain {t t' : Token} (h : AlikeTokens t t') :
    (Item.token t').plain = (Item.token t).plain := by
  rcases h with rfl | ⟨⟨text, rfl⟩, ⟨text', rfl⟩⟩
  · rfl
  · rfl

theorem AlikeTokens.ne_newline {t t' : Token} (h : AlikeTokens t t') (ht : t ≠ .newline) :
    t' ≠ .newline := by
  rcases h with rfl | ⟨-, ⟨text', rfl⟩⟩
  · exact ht
  · intro heq
    cases heq

theorem State.Abreast.bracket (h : State.Abreast before before' s s') {t t' : Token}
    (halike : AlikeTokens t t') :
    Together (State.Abreast before before') (bracket s t) (bracket s' t') := by
  rcases halike with rfl | ⟨⟨text, rfl⟩, ⟨text', rfl⟩⟩
  · unfold Layout.bracket
    rw [h.braces, h.parens, h.line]
    cases t' with
    | openBrace | openParen => exact h.congr rfl rfl rfl rfl h.fresh h.columns rfl rfl
    | closeBrace =>
      by_cases hnone : s.braces = 0
      · dsimp only
        rw [if_pos hnone, if_pos hnone]
        rfl
      · dsimp only
        rw [if_neg hnone, if_neg hnone]
        exact h.congr rfl rfl rfl rfl h.fresh h.columns rfl rfl
    | closeParen =>
      by_cases hnone : s.parens = 0
      · dsimp only
        rw [if_pos hnone, if_pos hnone]
        rfl
      · dsimp only
        rw [if_neg hnone, if_neg hnone]
        exact h.congr rfl rfl rfl rfl h.fresh h.columns rfl rfl
    | _ => exact h
  · exact h

/-- A token other than a line break goes behind both texts. -/
theorem State.Abreast.put (h : State.Abreast before before' s s') {t t' : Token}
    (ht : t ≠ .newline) (halike : AlikeTokens t t') {start start' stop stop' : Nat}
    (hcolumn : start' - s'.lineStart = start - s.lineStart) (hstart : start' = moved source start)
    (hstop : Near source stop stop') (htext : '\n' ∉ text) (htext' : '\n' ∉ text') :
    Together (Ahead source (before ++ text) (before' ++ text')) (put s start stop t)
      (put s' start' stop' t') := by
  unfold Layout.put
  rw [if_neg ht, if_neg (halike.ne_newline ht)]
  refine Together.bind (R := Ahead source before before') (h.indentation hcolumn) ?_
  rintro ⟨layout, u₁⟩ ⟨layout', u₁'⟩ ⟨hlayout, hlaid⟩
  refine (hlaid.bracket halike).bind fun u u' hu => ?_
  refine ⟨List.rel_append hlayout (.cons ⟨halike.plain, hu.line, ?_, ?_⟩ .nil), ?_⟩
  · exact fun _ => hstart
  · exact fun _ => hstop
  · have hline := hu.append htext htext'
    exact hline.congr rfl rfl hline.line rfl hline.fresh hline.columns hline.braces hline.parens

section

variable {front rest : List Char}

/-- A token that has no carriage return in it goes behind both texts. -/
theorem State.Abreast.put_same (h : State.Abreast front (crlf front) s s') {t : Token}
    (ht : t ≠ .newline) (hcut : source = (front ++ text) ++ rest) (htext : '\n' ∉ text) :
    Together (Ahead source (front ++ text) (crlf front ++ text))
      (Layout.put s (bytes front) (bytes (front ++ text)) t)
      (Layout.put s' (bytes (crlf front)) (bytes (crlf front ++ text)) t) := by
  refine h.put ht (Or.inl rfl) (column_crlf h.onLine h.onLine') ?_ ?_ htext htext
  · rw [hcut, List.append_assoc, moved_bytes]
  · left
    rw [hcut, moved_bytes, crlf_append front, crlf_of_no_feed htext]

/-- A `url(` without its parenthesis goes behind both texts with the carriage return at its end. -/
theorem State.Abreast.put_openUrl (h : State.Abreast front (crlf front) s s') (url url' : String)
    (hcut : source = (front ++ text) ++ '\n' :: rest) (htext : '\n' ∉ text) (hne : text ≠ []) :
    Together (Ahead source (front ++ text) (crlf front ++ (text ++ ['\r'])))
      (Layout.put s (bytes front) (bytes (front ++ text)) (.punct url))
      (Layout.put s' (bytes (crlf front)) (bytes (crlf front ++ (text ++ ['\r'])))
        (.punct url')) := by
  have hreturn : '\n' ∉ text ++ ['\r'] := by
    rw [List.mem_append, not_or]
    exact ⟨htext, by decide⟩
  refine h.put (by simp) (Or.inr ⟨⟨url, rfl⟩, ⟨url', rfl⟩⟩) (column_crlf h.onLine h.onLine') ?_ ?_
    htext hreturn
  · rw [hcut, List.append_assoc, moved_bytes]
  · right
    refine ⟨?_, _, _, hcut, rfl, text.getLast hne, ?_, fun heq => ?_⟩
    · rw [hcut, moved_bytes, crlf_append front, crlf_of_no_feed htext, ← List.append_assoc,
        bytes_append _ ['\r']]
      rfl
    · rw [List.getLast?_append_of_ne_nil _ hne, List.getLast?_eq_some_getLast]
    · exact htext (heq ▸ List.getLast_mem hne)

end

/-- A line break ends the line in both. -/
theorem State.Abreast.put_feed (h : State.Abreast before before' s s') (start start' : Nat) :
    Together (Ahead source (before ++ ['\n']) (before' ++ ['\n']))
      (Layout.put s start (bytes (before ++ ['\n'])) .newline)
      (Layout.put s' start' (bytes (before' ++ ['\n'])) .newline) := by
  unfold Layout.put
  rw [if_pos rfl, if_pos rfl, h.fresh]
  refine ⟨?_, onLine_feed ?_ ?_, onLine_feed ?_ ?_, ?_, rfl, h.columns, h.braces, h.parens⟩
  · cases s.fresh with
    | true => exact .nil
    | false => exact .cons (.of_layout rfl h.line (not_solid_of_newline rfl)) .nil
  · exact congrArg (· + 1) h.onLine.line
  · exact bytes_append _ _
  · exact congrArg (· + 1) h.onLine'.line
  · exact bytes_append _ _
  · rw [List.count_append, List.count_append, h.feeds]

/-! ## Whole texts -/

variable {size size' : Nat} {ls ls' : List Lexeme}

/-- Passes that go abreast over a token go on abreast behind it. -/
theorem together_run_token {t t' : Token} (h : State.Abreast before before' s s')
    (hoffset : s.offset = bytes before) (hoffset' : s'.offset = bytes before')
    (hgap : gap'.count '\n' = gap.count '\n')
    (hput : State.Abreast (before ++ gap) (before' ++ gap') (passGap s gap).2 (passGap s' gap').2 →
      Together (Ahead source (before ++ gap ++ text) (before' ++ gap' ++ text'))
        (put (passGap s gap).2 (bytes (before ++ gap)) (bytes (before ++ gap ++ text)) t)
        (put (passGap s' gap').2 (bytes (before' ++ gap')) (bytes (before' ++ gap' ++ text')) t'))
    (hrest : ∀ u u', State.Abreast (before ++ gap ++ text) (before' ++ gap' ++ text') u u' →
      u.offset = bytes (before ++ gap ++ text) → u'.offset = bytes (before' ++ gap' ++ text') →
      Together (AllMoved source) (run size u ls) (run size' u' ls')) :
    Together (AllMoved source) (run size s (⟨gap, .token t, text⟩ :: ls))
      (run size' s' (⟨gap', .token t', text'⟩ :: ls')) := by
  have hplaced := hput (h.passGap hoffset hoffset' hgap)
  have hended : AllMoved source (passGap s gap).1 (passGap s' gap').1 := h.passGap_items hgap
  rw [run_token, run_token, hoffset, hoffset', ← bytes_append, ← bytes_append, ← bytes_append,
    ← bytes_append]
  refine hplaced.bind_ok fun placed placed' hfirst hsecond hahead => ?_
  obtain ⟨hitems, habreast⟩ := hahead
  have hothers := hrest placed.2 placed'.2 habreast (offset_of_put hfirst) (offset_of_put hsecond)
  exact hothers.map fun _ _ hmore => List.rel_append (List.rel_append hended hitems) hmore

theorem together_finish (h : State.Abreast before before' s s') :
    Together (AllMoved source) (finish s size) (finish s' size') := by
  have hlast : ∀ item : Item, (∀ t, item ≠ .token t) →
      Located.Moved source ⟨item, s.line, size, size⟩ ⟨item, s.line, size', size'⟩ :=
    fun item hitem => .of_layout rfl rfl (not_solid_of_ne hitem)
  unfold finish
  dsimp only
  rw [h.fresh, h.braces, h.parens, h.columns, h.line]
  by_cases hopen : (s.braces != 0 || s.parens != 0) = true
  · rw [if_pos hopen, if_pos hopen]
    rfl
  · rw [if_neg hopen, if_neg hopen]
    refine List.rel_append (List.rel_append ?_ (allMoved_replicate _ (hlast .dedent ?_)))
      (.cons (hlast .eof ?_) .nil)
    · cases s.fresh with
      | true => exact .nil
      | false => exact .cons (.of_layout rfl rfl (not_solid_of_newline rfl)) .nil
    · intro t ht
      cases ht
    · intro t ht
      cases ht

theorem relined_run (h : Relined ls ls') {tail : List Char}
    (habreast : State.Abreast before (crlf before) s s') (hoffset : s.offset = bytes before)
    (hoffset' : s'.offset = bytes (crlf before)) (hshaped : ∀ l ∈ ls, l.Shaped)
    (hsource : source = before ++ (textOf ls ++ tail)) :
    Together (AllMoved source) (run size s ls) (run size' s' ls') := by
  induction h generalizing before s s' with
  | nil => exact together_finish habreast
  | @broken gap text text' kind ls ls' hkind =>
    cases kind with
    | token t => exact absurd rfl (hkind t)
    | openString =>
      show ParseError.unterminatedString (s.line + 1) = .unterminatedString (s'.line + 1)
      rw [habreast.line]
    | openComment =>
      show ParseError.unterminatedComment (s.line + 1) = .unterminatedComment (s'.line + 1)
      rw [habreast.line]
  | @token gap text t ls ls' ht others ih =>
    have hl := hshaped _ List.mem_cons_self
    have hmore : ∀ l ∈ ls, l.Shaped := fun l hl => hshaped l (List.mem_cons_of_mem _ hl)
    have hcut : source = (before ++ gap ++ text) ++ (textOf ls ++ tail) := by
      rw [hsource, textOf_cons]
      simp only [List.append_assoc]
    have htext : '\n' ∉ text := hl.single t rfl ht
    have hnext : crlf before ++ crlf gap ++ text = crlf (before ++ gap ++ text) := by
      rw [crlf_append, crlf_append, crlf_of_no_feed htext]
    refine together_run_token habreast hoffset hoffset' (count_crlf (by decide) gap)
      (fun hgapped => ?_) fun u u' hu hplace hplace' => ?_
    · rw [← crlf_append] at hgapped ⊢
      exact hgapped.put_same ht hcut htext
    · rw [hnext] at hu hplace'
      exact ih hu hplace hplace' hmore hcut
  | @openUrl gap text url url' ls ls' others ih =>
    have hl := hshaped _ List.mem_cons_self
    have hmore : ∀ l ∈ ls, l.Shaped := fun l hl =>
      hshaped l (List.mem_cons_of_mem _ (List.mem_cons_of_mem _ hl))
    have hcut : source = (before ++ gap ++ text) ++ '\n' :: (textOf ls ++ tail) := by
      rw [hsource, textOf_cons, textOf_cons]
      simp only [List.append_assoc]
      rfl
    have htext : '\n' ∉ text := hl.single _ rfl (by simp)
    have hnext : crlf before ++ crlf gap ++ (text ++ ['\r']) ++ [] ++ ['\n'] =
        crlf (before ++ gap ++ text ++ [] ++ ['\n']) := by
      rw [List.append_nil, List.append_nil, crlf_append, crlf_append, crlf_append,
        crlf_of_no_feed htext]
      simp
    refine together_run_token habreast hoffset hoffset' (count_crlf (by decide) gap)
      (fun hgapped => ?_) fun u u' hu hplace hplace' => ?_
    · rw [← crlf_append] at hgapped ⊢
      exact hgapped.put_openUrl url url' hcut htext hl.ne_nil
    · refine together_run_token hu hplace hplace' rfl (fun hgapped => hgapped.put_feed _ _)
        fun v v' hv hbehind hbehind' => ?_
      rw [hnext] at hv hbehind'
      refine ih hv hbehind hbehind' hmore ?_
      rw [hcut]
      simp only [List.append_assoc, List.append_nil]
      rfl
  | @feed gap ls ls' others ih =>
    have hmore : ∀ l ∈ ls, l.Shaped := fun l hl => hshaped l (List.mem_cons_of_mem _ hl)
    have hgap : (crlf gap ++ ['\r']).count '\n' = gap.count '\n' := by
      rw [List.count_append, count_crlf (by decide)]
      rfl
    have hnext : crlf before ++ (crlf gap ++ ['\r']) ++ ['\n'] =
        crlf (before ++ gap ++ ['\n']) := by
      rw [crlf_append, crlf_append]
      simp
    refine together_run_token habreast hoffset hoffset' hgap (fun hgapped => hgapped.put_feed _ _)
      fun u u' hu hplace hplace' => ?_
    rw [hnext] at hu hplace'
    refine ih hu hplace hplace' hmore ?_
    rw [hsource, textOf_cons]
    simp only [List.append_assoc]

end Layout

/-- With carriage returns in front of its line feeds, a text has the same token stream, each token
where it has moved, or the same error. -/
theorem tokenize_crlf (source : List Char) :
    Together (AllMoved source) (tokenize source) (tokenize (crlf source)) := by
  obtain ⟨⟨tail, htail⟩, -⟩ := Lexeme.flatMap_ofText source
  have habreast : Layout.State.Abreast [] (crlf []) {} {} :=
    ⟨Layout.onLine_start, Layout.onLine_start, rfl, rfl, rfl, rfl, rfl⟩
  exact Layout.relined_run (Lexeme.relined_ofText source) habreast rfl rfl
    (fun l hl => Lexeme.shaped_of_mem_ofText hl) htail

end StyleWeave
