import StyleWeave.Proofs.Token.Blanking
import StyleWeave.Proofs.Token.Extent
import StyleWeave.Proofs.Token.Nesting
import StyleWeave.Proofs.Token.Rows

/-!
# Where the layout pass stands

Behind the lexemes that it has placed, the pass counts the line breaks of the text in front of it,
those in comments included, and knows where the last of them is (`State.OnLine`). A lexeme is laid
out on the line where it starts (`put_onLine`), for a token other than a line break has none in it
(`shaped_of_mem_ofText`).
-/

namespace StyleWeave

open Text (bytes bytes_append)

/-! ## Texts of lexemes -/

/-- The text that lexemes are cut from. -/
def textOf (lexemes : List Lexeme) : List Char :=
  lexemes.flatMap fun l => l.gap ++ l.text

@[simp] theorem textOf_nil : textOf [] = [] := rfl

@[simp] theorem textOf_cons (l : Lexeme) (ls : List Lexeme) :
    textOf (l :: ls) = l.gap ++ l.text ++ textOf ls := rfl

@[simp] theorem textOf_append (ls ls' : List Lexeme) :
    textOf (ls ++ ls') = textOf ls ++ textOf ls' :=
  List.flatMap_append

namespace Lexeme

/-- A line break is a line feed, and no other token has one in it. -/
structure Shaped (l : Lexeme) : Prop where
  ne_nil : l.text ≠ []
  newline : l.kind = .token .newline → l.text = ['\n']
  single : ∀ t, l.kind = .token t → t ≠ .newline → '\n' ∉ l.text

theorem kindOf_shaped (c : Char) (rest : List Char) (gap : List Char) :
    Shaped ⟨gap, (kindOf c rest).1, c :: rest.take (kindOf c rest).2⟩ := by
  refine ⟨List.cons_ne_nil _ _, fun hkind => ?_, fun t hkind hne => ?_⟩
  · have hc : c = '\n' := kindOf_newline hkind
    subst hc
    show '\n' :: rest.take (kindOf '\n' rest).2 = ['\n']
    rw [kindOf_feed, List.take_zero]
  · have hkind' : kindOf c rest = (.token t, (kindOf c rest).2) := Prod.ext hkind rfl
    have hrest := (oneLine_kindOf hkind').2
    have hc : c ≠ '\n' := by
      rintro rfl
      rw [kindOf_feed] at hkind
      exact hne (Kind.token.inj hkind).symm
    intro hmem
    rcases List.mem_cons.1 hmem with heq | hmem
    · exact hc heq.symm
    · exact hrest hmem

/-- Each lexeme of a text starts at some character of it. -/
theorem exists_kindOf {cs : List Char} {l : Lexeme} (hl : l ∈ ofText cs) :
    ∃ c rest, l.kind = (kindOf c rest).1 ∧ l.text = c :: rest.take (kindOf c rest).2 := by
  induction hlength : cs.length using Nat.strongRecOn generalizing cs with
  | ind length ih =>
    cases hdrop : cs.drop (gapLength cs) with
    | nil =>
      rw [ofText_of_drop_nil hdrop] at hl
      cases hl
    | cons c rest =>
      have hshorter : (rest.drop (kindOf c rest).2).length < length := by
        have hlen := congrArg List.length hdrop
        simp only [List.length_drop, List.length_cons] at hlen ⊢
        omega
      rw [ofText_of_drop_cons hdrop] at hl
      rcases List.mem_cons.1 hl with rfl | hl
      · exact ⟨c, rest, rfl, rfl⟩
      · exact ih _ hshorter hl rfl

theorem shaped_of_mem_ofText {cs : List Char} {l : Lexeme} (hl : l ∈ ofText cs) : l.Shaped := by
  obtain ⟨c, rest, hkind, htext⟩ := exists_kindOf hl
  obtain ⟨gap, kind, text⟩ := l
  obtain rfl : kind = (kindOf c rest).1 := hkind
  obtain rfl : text = c :: rest.take (kindOf c rest).2 := htext
  exact kindOf_shaped c rest gap

end Lexeme

/-! ## Lines -/

/-- A text with a line break has a last one. -/
theorem exists_last_feed {cs : List Char} (h : '\n' ∈ cs) :
    ∃ above within, cs = above ++ '\n' :: within ∧ '\n' ∉ within := by
  obtain ⟨front, back, hsplit, hfront⟩ := List.eq_append_cons_of_mem (List.mem_reverse.2 h)
  refine ⟨back.reverse, front.reverse, ?_, fun hmem => hfront (List.mem_reverse.1 hmem)⟩
  have hcs := congrArg List.reverse hsplit
  rw [List.reverse_reverse] at hcs
  rw [hcs]
  simp

namespace Layout

variable {s s' : State} {before gap text : List Char} {items : List Located}

/-- The pass is on the line that the text in front of it ends with, which starts at its beginning or
behind a line break. -/
structure State.OnLine (s : State) (before : List Char) : Prop where
  line : s.line = before.count '\n'
  lineStart : ∃ above within, before = above ++ within ∧ '\n' ∉ within ∧
    s.lineStart = bytes above ∧ (above = [] ∨ above.getLast? = some '\n')

theorem onLine_start : State.OnLine {} [] :=
  ⟨rfl, [], [], rfl, List.not_mem_nil, rfl, Or.inl rfl⟩

/-- Nothing but the line counts. -/
theorem State.OnLine.congr (h : s.OnLine before) (hline : s'.line = s.line)
    (hstart : s'.lineStart = s.lineStart) : s'.OnLine before :=
  ⟨hline.trans h.line, by rw [hstart]; exact h.lineStart⟩

/-- More of the same line. -/
theorem State.OnLine.append (h : s.OnLine before) (hsingle : '\n' ∉ text) :
    s.OnLine (before ++ text) := by
  obtain ⟨above, within, rfl, hwithin, hstart, habove⟩ := h.lineStart
  refine ⟨?_, above, within ++ text, by simp, ?_, hstart, habove⟩
  · rw [h.line, List.count_append, List.count_append, List.count_append,
      List.count_eq_zero.2 hsingle]
    omega
  · rw [List.mem_append]
    rintro (hmem | hmem)
    · exact hwithin hmem
    · exact hsingle hmem

/-- Behind a line break a new line starts. -/
theorem onLine_feed (hline : s.line = before.count '\n' + 1)
    (hstart : s.lineStart = bytes before + 1) : s.OnLine (before ++ ['\n']) := by
  refine ⟨?_, before ++ ['\n'], [], by simp, List.not_mem_nil, ?_, Or.inr (by simp)⟩
  · rw [hline, List.count_append]
    rfl
  · rw [hstart, bytes_append]
    rfl

/-- The line breaks in a gap end the line; the last of them is its line break. -/
theorem passGap_cases (s : State) (gap : List Char) :
    ('\n' ∉ gap ∧ passGap s gap = ([], s)) ∨
      ∃ above within, gap = above ++ '\n' :: within ∧ '\n' ∉ within ∧
        passGap s gap =
          (if s.fresh then []
            else [⟨.token .newline, s.line, s.offset + bytes above, s.offset + bytes above + 1⟩],
          { s with
            line := s.line + (above.count '\n' + 1)
            lineStart := s.offset + bytes above + 1
            fresh := true }) := by
  by_cases h : '\n' ∈ gap
  · obtain ⟨above, within, rfl, hwithin⟩ := exists_last_feed h
    refine Or.inr ⟨above, within, rfl, hwithin, ?_⟩
    have hgap : above ++ '\n' :: within = (above ++ ['\n']) ++ within := by simp
    rw [hgap, passGap_append s _ hwithin, passGap_feed]
  · exact Or.inl ⟨h, passGap_of_no_feed s h⟩

theorem passGap_onLine (h : s.OnLine before) (hoffset : s.offset = bytes before)
    (gap : List Char) : (passGap s gap).2.OnLine (before ++ gap) := by
  rcases passGap_cases s gap with ⟨hgap, heq⟩ | ⟨above, within, rfl, hwithin, heq⟩
  · rw [heq]
    exact h.append hgap
  · rw [heq]
    have hfeed : State.OnLine { s with
        line := s.line + (above.count '\n' + 1)
        lineStart := s.offset + bytes above + 1
        fresh := true } ((before ++ above) ++ ['\n']) := by
      refine onLine_feed ?_ ?_
      · show s.line + (above.count '\n' + 1) = _
        rw [h.line, List.count_append]
        omega
      · show s.offset + bytes above + 1 = _
        rw [hoffset, bytes_append]
    have hsplit : before ++ (above ++ '\n' :: within) =
        ((before ++ above) ++ ['\n']) ++ within := by
      simp
    rw [hsplit]
    exact hfeed.append hwithin

/-- The pass stays with the text. -/
theorem put_onLine {l : Lexeme} {t : Token} (h : s.OnLine before) (hl : l.Shaped)
    (hkind : l.kind = .token t)
    (hput : put s (bytes before) (bytes before + bytes l.text) t = .ok (items, s')) :
    s'.OnLine (before ++ l.text) ∧ s'.offset = bytes (before ++ l.text) := by
  have hoffset : bytes before + bytes l.text = bytes (before ++ l.text) := (bytes_append _ _).symm
  rcases put_cases hput with ⟨rfl, -, rfl⟩ | ⟨hne, layout, s₁, s₂, hlaid, hcounted, -, rfl⟩
  · have htext := hl.newline hkind
    rw [htext]
    refine ⟨onLine_feed ?_ rfl, by rw [bytes_append]⟩
    show s.line + 1 = _
    rw [h.line]
  · refine ⟨?_, hoffset⟩
    have hline := h.append (hl.single t hkind hne)
    obtain ⟨-, -, hline₁, hstart₁, -⟩ := hlaid.frame
    obtain ⟨-, -, hline₂, hstart₂, -⟩ := hcounted.frame
    exact hline.congr (hline₂.trans hline₁) (hstart₂.trans hstart₁)

/-- Where the pass stands behind some lexemes, if it can place them. -/
def advance (s : State) : List Lexeme → Except ParseError State
  | [] => .ok s
  | l :: ls => do
    let (_, s) ← place s l
    advance s ls

theorem onLine_of_place {l : Lexeme} (h : s.OnLine before)
    (hoffset : s.offset = bytes before) (hl : l.Shaped) (hplace : place s l = .ok (items, s')) :
    s'.OnLine (before ++ (l.gap ++ l.text)) ∧ s'.offset = bytes (before ++ (l.gap ++ l.text)) := by
  have hgap := passGap_onLine h hoffset l.gap
  obtain ⟨t, here, hkind, hput, -⟩ := place_ok hplace
  have hstart : s.offset + bytes l.gap = bytes (before ++ l.gap) := by rw [bytes_append, hoffset]
  rw [hstart] at hput
  rw [← List.append_assoc]
  exact put_onLine hgap hl hkind hput

/-- The pass knows its line behind all that it has placed. -/
theorem onLine_of_advance {lexemes : List Lexeme} (h : s.OnLine before)
    (hoffset : s.offset = bytes before) (hall : ∀ l ∈ lexemes, l.Shaped)
    (hadvance : advance s lexemes = .ok s') :
    s'.OnLine (before ++ textOf lexemes) ∧ s'.offset = bytes (before ++ textOf lexemes) := by
  induction lexemes generalizing s before with
  | nil =>
    obtain rfl := Except.ok.inj hadvance
    rw [textOf_nil, List.append_nil]
    exact ⟨h, hoffset⟩
  | cons l lexemes ih =>
    obtain ⟨⟨items, s₁⟩, hplace, hmore⟩ := bind_eq_ok hadvance
    obtain ⟨hline, hoffset₁⟩ := onLine_of_place h hoffset (hall l List.mem_cons_self) hplace
    rw [textOf_cons, ← List.append_assoc]
    exact ih hline hoffset₁ (fun l' hl' => hall l' (List.mem_cons_of_mem _ hl')) hmore

/-! ## Tokens -/

/-- The item is the token of a lexeme that stands behind `front`. -/
structure Stands (front : List Char) (l : Lexeme) (i : Located) : Prop where
  item : ∃ t, l.kind = .token t ∧ i.item = .token t
  start : i.start = bytes front
  stop : i.stop = bytes front + bytes l.text
  line : i.line = front.count '\n'

theorem stands_of_put {front : List Char} {l : Lexeme} {t : Token} (h : s.OnLine front)
    (hkind : l.kind = .token t)
    (hput : put s (bytes front) (bytes front + bytes l.text) t = .ok (items, s'))
    {i : Located} (hi : i ∈ items) (hsolid : i.IsSolid) : Stands front l i := by
  rcases put_cases hput with ⟨rfl, rfl, -⟩ | ⟨-, layout, s₁, s₂, hlaid, -, rfl, -⟩
  · obtain rfl := List.mem_singleton.1 (List.mem_ite_nil_left.1 hi).2
    exact absurd hsolid (not_solid_of_newline rfl)
  · rcases List.mem_append.1 hi with hi | hi
    · exact absurd hsolid (hlaid.not_solid i hi)
    · obtain rfl := List.mem_singleton.1 hi
      exact ⟨⟨t, hkind, rfl⟩, rfl, rfl, h.line⟩

theorem stands_of_run {size : Nat} {lexemes : List Lexeme} (h : s.OnLine before)
    (hoffset : s.offset = bytes before) (hall : ∀ l ∈ lexemes, l.Shaped)
    (hrun : run size s lexemes = .ok items) {i : Located} (hi : i ∈ items) (hsolid : i.IsSolid) :
    ∃ done l rest, lexemes = done ++ l :: rest ∧ Stands (before ++ textOf done ++ l.gap) l i := by
  induction lexemes generalizing s before items with
  | nil => exact absurd hsolid (finish_spec hrun i hi)
  | cons l lexemes ih =>
    obtain ⟨t, s₁, here, others, hkind, hput, hothers, rfl⟩ := run_cons hrun
    have hgap := passGap_onLine h hoffset l.gap
    have hstart : s.offset + bytes l.gap = bytes (before ++ l.gap) := by rw [bytes_append, hoffset]
    rw [hstart] at hput
    rcases List.mem_append.1 hi with hi | hi
    · rcases List.mem_append.1 hi with hi | hi
      · exact absurd hsolid ((passGap_spec s l.gap).2 i hi)
      · refine ⟨[], l, lexemes, rfl, ?_⟩
        rw [textOf_nil, List.append_nil]
        exact stands_of_put hgap hkind hput hi hsolid
    · obtain ⟨hline₁, hoffset₁⟩ := put_onLine hgap (hall l List.mem_cons_self) hkind hput
      obtain ⟨done, l', rest, hsplit, hstands⟩ := ih hline₁ hoffset₁
        (fun l' hl' => hall l' (List.mem_cons_of_mem _ hl')) hothers hi
      refine ⟨l :: done, l', rest, by rw [hsplit, List.cons_append], ?_⟩
      rw [textOf_cons, ← List.append_assoc, ← List.append_assoc]
      exact hstands

end Layout

/-- Each token of a text stands where its lexeme does, on the line that is in front of it. -/
theorem stands_of_tokenize {source : List Char} {items : List Located}
    (h : tokenize source = .ok items) {i : Located} (hi : i ∈ items) (hsolid : i.IsSolid) :
    ∃ front l behind, l ∈ Lexeme.ofText source ∧ source = front ++ (l.text ++ behind) ∧
      Layout.Stands front l i := by
  have hshaped : ∀ l ∈ Lexeme.ofText source, l.Shaped := fun l => Lexeme.shaped_of_mem_ofText
  obtain ⟨done, l, rest, hsplit, hstands⟩ :=
    Layout.stands_of_run Layout.onLine_start rfl hshaped h hi hsolid
  obtain ⟨⟨tail, htail⟩, -⟩ := Lexeme.flatMap_ofText source
  have hcut : source = textOf (Lexeme.ofText source) ++ tail := htail
  refine ⟨_, l, textOf rest ++ tail, ?_, ?_, hstands⟩
  · rw [hsplit]
    exact List.mem_append_right _ List.mem_cons_self
  · rw [hsplit] at hcut
    rw [hcut]
    simp

end StyleWeave
