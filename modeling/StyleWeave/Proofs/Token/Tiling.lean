import StyleWeave.Proofs.Token.Laying
import StyleWeave.Proofs.Token.Nesting
import StyleWeave.Proofs.Token.Standing

/-!
# Well-formed token streams

What the layout pass hands on is laid out (`wellLaid_of_tokenize`). Its items lie in the text one
behind the other (`lined_of_tokenize`), and between the tokens nothing stands but blanks, line
breaks and comments (`tiled_of_tokenize`). Its brackets are closed in the order of their counts,
indentation stands outside parentheses and braces, and no line is empty.
-/

namespace StyleWeave

open Text (Boundary bytes bytes_append)
open Lexeme (ofText gapLength commentRest commentTail)

variable {source : List Char} {items : List Located}

/-! ## Comments -/

/-- A comment in front of `rest`: up to the end of its line, or up to the first place where a block
comment can end. -/
inductive Comment : List Char → List Char → Prop where
  | line {body rest : List Char} (feed : '\n' ∉ body)
      (ends : rest = [] ∨ rest.head? = some '\n') :
      Comment ('/' :: '/' :: body) rest
  | block {body rest : List Char} (first : ¬ ['*', '/'] <:+: body) :
      Comment ('/' :: '*' :: (body ++ ['*', '/'])) rest

theorem exists_body_of_commentTail {cs : List Char} {n : Nat} (h : commentTail cs = some n) :
    ∃ body, cs = (body ++ ['*', '/']) ++ cs.drop n ∧ n = body.length + 2 ∧
      ¬ ['*', '/'] <:+: body := by
  induction cs using Lexeme.commentTail.induct generalizing n with
  | case1 cs =>
    obtain rfl := Option.some.inj h
    refine ⟨[], rfl, rfl, fun hinfix => ?_⟩
    exact absurd hinfix.length_le (by decide)
  | case2 c cs hnot ih =>
    rw [commentTail] at h
    · obtain ⟨k, hk, rfl⟩ := Option.map_eq_some_iff.1 h
      obtain ⟨body, hcs, rfl, hfirst⟩ := ih hk
      refine ⟨c :: body, ?_, by simp, fun hinfix => ?_⟩
      · rw [List.drop_succ_cons, List.cons_append, List.cons_append, ← hcs]
      · rcases List.infix_cons_iff.1 hinfix with hprefix | hinfix
        · obtain ⟨more, hmore⟩ := hprefix
          obtain ⟨rfl, hbody⟩ := List.cons.inj hmore
          refine hnot (more ++ ['*', '/'] ++ cs.drop (body.length + 2)) rfl ?_
          rw [← hbody] at hcs ⊢
          exact hcs
        · exact hfirst hinfix
    · exact hnot
  | case3 => cases h

theorem comment_of_commentRest {c : Char} {rest : List Char} {n : Nat}
    (h : commentRest (c :: rest) = some n) : Comment (c :: rest.take n) (rest.drop n) := by
  cases Lexeme.commentRest_eq_some.1 h with
  | line cs =>
    rw [List.take_succ_cons, List.drop_succ_cons, Lexeme.take_takeWhile, Lexeme.drop_takeWhile]
    refine .line (Lexeme.no_feed_of_takeWhile (by decide)) ?_
    cases hrest : cs.dropWhile (· != '\n') with
    | nil => exact Or.inl rfl
    | cons d ds =>
      have hne : cs.dropWhile (· != '\n') ≠ [] := by
        rw [hrest]
        exact List.cons_ne_nil d ds
      have hd := List.head_dropWhile_not (· != '\n') hne
      simp only [hrest, List.head_cons] at hd
      right
      simpa using hd
  | @block cs _ tail =>
    obtain ⟨body, hcs, rfl, hfirst⟩ := exists_body_of_commentTail tail
    have hlength : (body ++ ['*', '/']).length = body.length + 2 := by simp
    have htake : cs.take (body.length + 2) = body ++ ['*', '/'] := by
      rw [hcs, ← hlength, List.take_left' rfl]
    rw [List.take_succ_cons, List.drop_succ_cons, htake]
    exact .block hfirst

/-! ## What stands between tokens -/

/-- From byte `n` on the text consists of these tokens, one behind the other, of blanks, of line
breaks and of comments. -/
inductive Tiled : Nat → List Char → List Located → Prop where
  | done {n : Nat} : Tiled n [] []
  | layout {n : Nat} {cs : List Char} {l : Located} {ls : List Located} (item : ¬ l.IsSolid)
      (others : Tiled n cs ls) : Tiled n cs (l :: ls)
  | blank {n : Nat} {c : Char} {cs : List Char} {ls : List Located}
      (blank : Text.isGap c = true ∨ c = '\n') (others : Tiled (n + c.utf8Size) cs ls) :
      Tiled n (c :: cs) ls
  | comment {n : Nat} {here cs : List Char} {ls : List Located} (comment : Comment here cs)
      (others : Tiled (n + bytes here) cs ls) : Tiled n (here ++ cs) ls
  | token {n : Nat} {text cs : List Char} {l : Located} {ls : List Located} (item : l.IsSolid)
      (start : l.start = n) (stop : l.stop = n + bytes text) (others : Tiled l.stop cs ls) :
      Tiled n (text ++ cs) (l :: ls)

theorem Tiled.layouts {n : Nat} {cs : List Char} {layout ls : List Located}
    (hlayout : ∀ l ∈ layout, ¬ l.IsSolid) (h : Tiled n cs ls) : Tiled n cs (layout ++ ls) := by
  induction layout with
  | nil => exact h
  | cons l layout ih =>
    exact .layout (hlayout l List.mem_cons_self)
      (ih fun l' hl' => hlayout l' (List.mem_cons_of_mem _ hl'))

/-- A gap is made up of blanks and comments. -/
theorem Tiled.gap {n : Nat} {cs : List Char} {ls : List Located}
    (h : Tiled (n + bytes (cs.take (gapLength cs))) (cs.drop (gapLength cs)) ls) :
    Tiled n cs ls := by
  induction cs using Lexeme.gapLength.induct generalizing n with
  | case1 => simpa [gapLength] using h
  | case2 c rest hgap ih =>
    rw [Lexeme.gapLength_blank hgap, List.take_succ_cons, List.drop_succ_cons, Text.bytes_cons,
      ← Nat.add_assoc] at h
    exact .blank (Or.inl hgap) (ih h)
  | case3 c rest hgap k hcomment ih =>
    have hlength := Lexeme.gapLength_comment (Bool.eq_false_iff.2 hgap) hcomment
    have hcut : c :: rest = (c :: rest.take k) ++ rest.drop k := by
      rw [List.cons_append, List.take_append_drop]
    have htake : rest.take (k + gapLength (rest.drop k)) =
        rest.take k ++ (rest.drop k).take (gapLength (rest.drop k)) := List.take_add
    rw [hlength, List.take_succ_cons, List.drop_succ_cons, Nat.add_comm (gapLength _) k, htake,
      ← List.drop_drop, ← List.cons_append, bytes_append, ← Nat.add_assoc] at h
    rw [hcut]
    exact .comment (comment_of_commentRest hcomment) (ih h)
  | case4 c rest hgap hcomment =>
    have hlength := Lexeme.gapLength_none (Bool.eq_false_iff.2 hgap) hcomment
    simpa [hlength] using h

/-- Tokens start where the text does, or further on. -/
theorem Tiled.le_start {n : Nat} {cs : List Char} {ls : List Located} (h : Tiled n cs ls) :
    ∀ l ∈ ls, l.IsSolid → n ≤ l.start ∧ l.start ≤ l.stop := by
  induction h with
  | done => exact fun l hl => absurd hl List.not_mem_nil
  | layout item _ ih =>
    intro l hl hsolid
    rcases List.mem_cons.1 hl with rfl | hl
    · exact absurd hsolid item
    · exact ih l hl hsolid
  | blank _ _ ih | comment _ _ ih =>
    intro l hl hsolid
    obtain ⟨hstart, hstop⟩ := ih l hl hsolid
    exact ⟨by omega, hstop⟩
  | token _ start stop _ ih =>
    intro l hl hsolid
    rcases List.mem_cons.1 hl with rfl | hl
    · exact ⟨by omega, by omega⟩
    · obtain ⟨hstart, hstop⟩ := ih l hl hsolid
      exact ⟨by omega, hstop⟩

/-- A member of a list in two parts is in one of them. -/
theorem split_cases {α : Type} {first second front back : List α} {c : α}
    (h : first ++ second = front ++ c :: back) :
    (∃ more, front = first ++ more ∧ second = more ++ c :: back) ∨
      ∃ more, first = front ++ c :: more := by
  rcases List.append_eq_append_iff.1 h with ⟨more, hfront, hsecond⟩ | ⟨more, hfirst, hback⟩
  · exact Or.inl ⟨more, hfront, hsecond⟩
  · cases more with
    | nil =>
      rw [List.append_nil] at hfirst
      exact Or.inl ⟨[], by rw [hfirst, List.append_nil], hback.symm⟩
    | cons d more =>
      obtain ⟨rfl, -⟩ := List.cons.inj hback
      exact Or.inr ⟨more, hfirst⟩

/-- Byte `k` is in a comment that starts at byte `n` or later, and none of the tokens reaches into
that. -/
def InComment (source : List Char) (items : List Located) (n k : Nat) : Prop :=
  ∃ front here back, source = front ++ (here ++ back) ∧ Comment here back ∧ n ≤ bytes front ∧
    bytes front ≤ k ∧ k < bytes front + bytes here ∧
    ∀ l ∈ items, l.IsSolid → l.stop ≤ bytes front ∨ bytes front + bytes here ≤ l.start

theorem InComment.mono {m n k : Nat} (h : InComment source items m k) (hle : n ≤ m) :
    InComment source items n k := by
  obtain ⟨front, here, back, hcut, hhere, hstart, hmore⟩ := h
  exact ⟨front, here, back, hcut, hhere, Nat.le_trans hle hstart, hmore⟩

/-- A token in front of where the comment may start does not reach into it. -/
theorem InComment.cons {n k : Nat} {l : Located} (h : InComment source items n k)
    (hl : l.IsSolid → l.stop ≤ n) : InComment source (l :: items) n k := by
  obtain ⟨front, here, back, hcut, hhere, hle, hstart, hstop, hclear⟩ := h
  refine ⟨front, here, back, hcut, hhere, hle, hstart, hstop, fun l' hl' hsolid => ?_⟩
  rcases List.mem_cons.1 hl' with rfl | hl'
  · exact Or.inl (Nat.le_trans (hl hsolid) hle)
  · exact hclear l' hl' hsolid

/-- Character `c` at byte `k` is in a token, or it is a blank or a line break, or it is in a comment
that starts at byte `n` or later. -/
def Covered (source : List Char) (items : List Located) (n k : Nat) (c : Char) : Prop :=
  (∃ l ∈ items, l.IsSolid ∧ l.start ≤ k ∧ k + c.utf8Size ≤ l.stop) ∨
    Text.isGap c = true ∨ c = '\n' ∨ InComment source items n k

theorem Covered.mono {m n k : Nat} {c : Char} (h : Covered source items m k c) (hle : n ≤ m) :
    Covered source items n k c := by
  rcases h with hin | hgap | hfeed | hcomment
  · exact Or.inl hin
  · exact Or.inr (Or.inl hgap)
  · exact Or.inr (Or.inr (Or.inl hfeed))
  · exact Or.inr (Or.inr (Or.inr (hcomment.mono hle)))

theorem Covered.cons {n k : Nat} {c : Char} {l : Located} (h : Covered source items n k c)
    (hl : l.IsSolid → l.stop ≤ n) : Covered source (l :: items) n k c := by
  rcases h with ⟨l', hl', hin⟩ | hgap | hfeed | hcomment
  · exact Or.inl ⟨l', List.mem_cons_of_mem _ hl', hin⟩
  · exact Or.inr (Or.inl hgap)
  · exact Or.inr (Or.inr (Or.inl hfeed))
  · exact Or.inr (Or.inr (Or.inr (hcomment.cons hl)))

/-- Every character of a text that is tiled is covered. -/
theorem Tiled.covered {n : Nat} {cs before front back : List Char} {c : Char}
    {ls : List Located} (h : Tiled n cs ls) (hsource : source = before ++ cs)
    (hbefore : bytes before = n) (hsplit : cs = front ++ c :: back) :
    Covered source ls n (bytes (before ++ front)) c := by
  have hpos := c.utf8Size_pos
  induction h generalizing before front with
  | done => exact absurd hsplit (by simp)
  | layout item _ ih =>
    exact (ih hsource hbefore hsplit).cons fun hsolid => absurd hsolid item
  | @blank n d cs ls blank others ih =>
    cases front with
    | nil =>
      obtain ⟨rfl, -⟩ := List.cons.inj hsplit
      exact Or.inr (blank.imp_right Or.inl)
    | cons e front =>
      obtain ⟨rfl, hrest⟩ := List.cons.inj hsplit
      have hsource' : source = (before ++ [d]) ++ cs := by simpa using hsource
      have hbefore' : bytes (before ++ [d]) = n + d.utf8Size := by
        rw [bytes_append, hbefore]
        rfl
      have hin := ih hsource' hbefore' hrest
      rw [List.append_assoc] at hin
      exact hin.mono (Nat.le_add_right _ _)
  | @comment n comment cs ls hhere others ih =>
    have hsource' : source = (before ++ comment) ++ cs := by simpa using hsource
    have hbefore' : bytes (before ++ comment) = n + bytes comment := by rw [bytes_append, hbefore]
    rcases split_cases hsplit with ⟨more, rfl, hrest⟩ | ⟨more, rfl⟩
    · have hin := ih hsource' hbefore' hrest
      rw [List.append_assoc] at hin
      exact hin.mono (Nat.le_add_right _ _)
    · have hplace : bytes (before ++ front) + (c.utf8Size + bytes more) =
          bytes before + bytes (front ++ c :: more) := by
        rw [bytes_append, bytes_append, Text.bytes_cons, Nat.add_assoc]
      refine Or.inr (Or.inr (Or.inr ⟨before, front ++ c :: more, cs, hsource, hhere,
        by omega, by rw [bytes_append]; omega, by omega, fun l hl hsolid => Or.inr ?_⟩))
      have hstart := (others.le_start l hl hsolid).1
      omega
  | @token n text cs l ls item start stop others ih =>
    have hsource' : source = (before ++ text) ++ cs := by simpa using hsource
    have hbefore' : bytes (before ++ text) = l.stop := by rw [bytes_append, hbefore, stop]
    rcases split_cases hsplit with ⟨more, rfl, hrest⟩ | ⟨more, rfl⟩
    · have hin := ih hsource' hbefore' hrest
      rw [List.append_assoc] at hin
      exact (hin.cons fun _ => Nat.le_refl _).mono (by omega)
    · have hplace : bytes (before ++ front) + (c.utf8Size + bytes more) =
          bytes before + bytes (front ++ c :: more) := by
        rw [bytes_append, bytes_append, Text.bytes_cons, Nat.add_assoc]
      exact Or.inl ⟨l, List.mem_cons_self, item, by rw [bytes_append]; omega, by omega⟩

namespace Layout

variable {s s' : State}

theorem not_solid_of_put {start stop : Nat} (h : put s start stop .newline = .ok (items, s')) :
    (∀ l ∈ items, ¬ l.IsSolid) ∧ s'.offset = stop := by
  rcases put_cases h with ⟨-, rfl, rfl⟩ | ⟨hne, -⟩
  · refine ⟨fun l hl => ?_, rfl⟩
    rw [List.mem_singleton.1 (List.mem_ite_nil_left.1 hl).2]
    exact not_solid_of_newline rfl
  · exact absurd rfl hne

/-- The pass goes on behind each lexeme with the gap in front of the next one. -/
theorem tiled_run {size : Nat} {cs : List Char} (h : run size s (ofText cs) = .ok items) :
    Tiled s.offset cs items := by
  generalize hlexemes : ofText cs = lexemes at h
  induction lexemes generalizing s cs items with
  | nil =>
    have hdrop : cs.drop (gapLength cs) = [] := by
      cases hrest : cs.drop (gapLength cs) with
      | nil => rfl
      | cons c rest =>
        rw [Lexeme.ofText_of_drop_cons hrest] at hlexemes
        cases hlexemes
    refine .gap ?_
    rw [hdrop, ← List.append_nil items]
    exact Tiled.layouts (finish_spec h) .done
  | cons l lexemes ih =>
    obtain ⟨c, rest, hdrop⟩ : ∃ c rest, cs.drop (gapLength cs) = c :: rest := by
      cases hrest : cs.drop (gapLength cs) with
      | nil =>
        rw [Lexeme.ofText_of_drop_nil hrest] at hlexemes
        cases hlexemes
      | cons c rest => exact ⟨c, rest, rfl⟩
    rw [Lexeme.ofText_of_drop_cons hdrop] at hlexemes
    obtain ⟨rfl, hbehind⟩ := List.cons.inj hlexemes
    obtain ⟨t, s₁, here, others, hkind, hput, hrun, rfl⟩ := run_cons h
    dsimp only at hkind hput
    have hoffset := offset_of_put hput
    have hothers := ih hbehind hrun
    obtain ⟨-, hended⟩ := passGap_spec s (cs.take (gapLength cs))
    refine .gap ?_
    rw [hdrop, List.append_assoc]
    refine Tiled.layouts hended ?_
    by_cases hnewline : t = .newline
    · subst hnewline
      obtain rfl : c = '\n' := Lexeme.kindOf_newline hkind
      rw [Lexeme.kindOf_feed, List.take_zero] at hput hoffset
      rw [Lexeme.kindOf_feed, List.drop_zero] at hothers
      refine Tiled.layouts (not_solid_of_put hput).1 (.blank (Or.inr rfl) ?_)
      rw [hoffset] at hothers
      exact hothers
    · rcases put_cases hput with ⟨hfeed, -⟩ | ⟨-, layout, s₂, s₃, hlaid, -, rfl, -⟩
      · exact absurd hfeed hnewline
      · have hcut : c :: rest = (c :: rest.take (Lexeme.kindOf c rest).2) ++
            rest.drop (Lexeme.kindOf c rest).2 := by
          rw [List.cons_append, List.take_append_drop]
        rw [hcut, List.append_assoc]
        refine Tiled.layouts hlaid.not_solid (.token ⟨t, rfl, hnewline⟩ rfl rfl ?_)
        rw [hoffset] at hothers
        exact hothers

end Layout

/-- Between the tokens of a text nothing stands but blanks, line breaks and comments. -/
theorem tiled_of_tokenize (h : tokenize source = .ok items) : Tiled 0 source items :=
  Layout.tiled_run h

/-! ## The order of items -/

/-- The items lie one behind the other between two offsets, with characters around them. -/
structure Lined (source : List Char) (m n : Nat) (items : List Located) : Prop where
  le : m ≤ n
  within : ∀ l ∈ items, m ≤ l.start ∧ l.start ≤ l.stop ∧ l.stop ≤ n ∧
    Boundary source l.start ∧ Boundary source l.stop
  apart : items.Pairwise fun a b => a.stop ≤ b.start

theorem Lined.nil {m n : Nat} (h : m ≤ n) : Lined source m n [] :=
  ⟨h, fun _ hl => absurd hl List.not_mem_nil, .nil⟩

theorem Lined.single {m n : Nat} {l : Located} (hstart : m ≤ l.start) (hle : l.start ≤ l.stop)
    (hstop : l.stop ≤ n) (hfrom : Boundary source l.start) (hto : Boundary source l.stop) :
    Lined source m n [l] := by
  refine ⟨by omega, fun l' hl' => ?_, List.pairwise_singleton _ _⟩
  rw [List.mem_singleton.1 hl']
  exact ⟨hstart, hle, hstop, hfrom, hto⟩

theorem Lined.append {k m n : Nat} {xs ys : List Located} (hx : Lined source k m xs)
    (hy : Lined source m n ys) : Lined source k n (xs ++ ys) := by
  have hkm := hx.le
  have hmn := hy.le
  refine ⟨by omega, fun l hl => ?_,
    List.pairwise_append.2 ⟨hx.apart, hy.apart, fun a ha b hb => ?_⟩⟩
  · rcases List.mem_append.1 hl with hl | hl
    · obtain ⟨hstart, hle, hstop, hboth⟩ := hx.within l hl
      exact ⟨hstart, hle, by omega, hboth⟩
    · obtain ⟨hstart, hle, hstop, hboth⟩ := hy.within l hl
      exact ⟨by omega, hle, hstop, hboth⟩
  · have hstop := (hx.within a ha).2.2.1
    have hstart := (hy.within b hb).1
    omega

/-- Layout has a place but no width. -/
theorem Lined.layouts {n : Nat} {layout : List Located} (hn : Boundary source n)
    (h : ∀ l ∈ layout, l.start = n ∧ l.stop = n) : Lined source n n layout := by
  induction layout with
  | nil => exact .nil (Nat.le_refl n)
  | cons l layout ih =>
    obtain ⟨hstart, hstop⟩ := h l List.mem_cons_self
    have hfirst : Lined source n n [l] :=
      .single (by omega) (by omega) (by omega) (hstart ▸ hn) (hstop ▸ hn)
    exact hfirst.append (ih fun l' hl' => h l' (List.mem_cons_of_mem _ hl'))

namespace Layout

variable {s s' : State} {before behind gap text : List Char}

theorem lined_passGap (hsource : source = before ++ (gap ++ behind))
    (hoffset : bytes before = s.offset) :
    Lined source s.offset (s.offset + bytes gap) (passGap s gap).1 := by
  rcases passGap_cases s gap with ⟨-, heq⟩ | ⟨above, within, rfl, -, heq⟩
  · rw [heq]
    exact .nil (by omega)
  · rw [heq]
    dsimp only
    have hwidth : bytes (above ++ '\n' :: within) = bytes above + (1 + bytes within) := by
      rw [bytes_append]
      rfl
    split
    · exact .nil (by omega)
    · refine .single ?_ ?_ ?_ ?_ ?_
      · show s.offset ≤ s.offset + bytes above
        omega
      · show s.offset + bytes above ≤ s.offset + bytes above + 1
        omega
      · show s.offset + bytes above + 1 ≤ _
        omega
      · refine ⟨before ++ above, '\n' :: within ++ behind, by rw [hsource]; simp, ?_⟩
        rw [bytes_append, hoffset]
      · refine ⟨before ++ above ++ ['\n'], within ++ behind, by rw [hsource]; simp, ?_⟩
        rw [bytes_append, bytes_append, hoffset]
        rfl

theorem lined_put {start stop : Nat} {t : Token} (h : put s start stop t = .ok (items, s'))
    (hle : start ≤ stop) (hstart : Boundary source start) (hstop : Boundary source stop) :
    Lined source start stop items := by
  rcases put_cases h with ⟨-, rfl, -⟩ | ⟨-, layout, s₁, s₂, hlaid, -, rfl, -⟩
  · split
    · exact .nil hle
    · exact .single (Nat.le_refl _) hle (Nat.le_refl _) hstart hstop
  · exact (Lined.layouts hstart fun l hl => (hlaid.items_spec l hl).2).append
      (.single (Nat.le_refl _) hle (Nat.le_refl _) hstart hstop)

theorem lined_run {lexemes : List Lexeme} {tail : List Char}
    (h : run (bytes source) s lexemes = .ok items)
    (hsource : source = before ++ (textOf lexemes ++ tail)) (hoffset : bytes before = s.offset) :
    Lined source s.offset (bytes source) items := by
  have hwhole : Boundary source (bytes source) := ⟨source, [], by simp, rfl⟩
  induction lexemes generalizing s items before with
  | nil =>
    have hle : s.offset ≤ bytes source := by
      rw [hsource, ← hoffset, bytes_append]
      omega
    exact (Lined.nil hle).append (Lined.layouts hwhole fun l hl => (finish_items h l hl).2)
  | cons l lexemes ih =>
    obtain ⟨t, s₁, here, others, -, hput, hrun, rfl⟩ := run_cons h
    have hgap : source = before ++ (l.gap ++ (l.text ++ (textOf lexemes ++ tail))) := by
      rw [hsource]
      simp
    have htext : source = (before ++ l.gap) ++ (l.text ++ (textOf lexemes ++ tail)) := by
      rw [hsource]
      simp
    have hrest : source = (before ++ l.gap ++ l.text) ++ (textOf lexemes ++ tail) := by
      rw [hsource]
      simp
    have hstart : bytes (before ++ l.gap) = s.offset + bytes l.gap := by
      rw [bytes_append, hoffset]
    have hstop : bytes (before ++ l.gap ++ l.text) = s.offset + bytes l.gap + bytes l.text := by
      rw [bytes_append, hstart]
    have hs₁ := offset_of_put hput
    have hothers := ih hrun hrest (hstop.trans hs₁.symm)
    rw [hs₁] at hothers
    exact ((lined_passGap hgap hoffset).append
      (lined_put hput (by omega) ⟨_, _, htext, hstart⟩ ⟨_, _, hrest, hstop⟩)).append hothers

end Layout

/-- The items of a text lie in it one behind the other. -/
theorem lined_of_tokenize (h : tokenize source = .ok items) :
    Lined source 0 (bytes source) items := by
  obtain ⟨⟨tail, htail⟩, -⟩ := Lexeme.flatMap_ofText source
  have hcut : source = [] ++ (textOf (ofText source) ++ tail) := htail
  exact Layout.lined_run h hcut rfl

/-! ## Layout -/

/-- Each indentation has the token behind it that starts its line. -/
def Indented (items : List Located) : Prop :=
  ∀ before l after, items = before ++ l :: after → l.item = .indent →
    ∃ next rest, after = next :: rest ∧ next.IsSolid

theorem indented_of_none (h : ∀ l ∈ items, l.item ≠ .indent) : Indented items := by
  rintro before l after rfl hl
  exact absurd hl (h l (List.mem_append_right _ List.mem_cons_self))

theorem Indented.append {xs ys : List Located} (hx : Indented xs) (hy : Indented ys) :
    Indented (xs ++ ys) := by
  intro before l after hsplit hl
  rcases split_cases hsplit with ⟨more, -, hys⟩ | ⟨more, hxs⟩
  · exact hy more l after hys hl
  · obtain ⟨next, rest, rfl, hnext⟩ := hx before l more hxs hl
    rw [hxs, List.append_assoc] at hsplit
    have hafter := List.append_cancel_left hsplit
    obtain ⟨-, rfl⟩ := List.cons.inj hafter
    exact ⟨next, rest ++ ys, rfl, hnext⟩

namespace Layout

variable {s s' : State}

theorem indented_put {start stop : Nat} {t : Token} (h : put s start stop t = .ok (items, s')) :
    Indented items := by
  rcases put_cases h with ⟨-, rfl, -⟩ | ⟨hne, layout, s₁, s₂, hlaid, -, rfl, -⟩
  · refine indented_of_none fun l hl => ?_
    rw [List.mem_singleton.1 (List.mem_ite_nil_left.1 hl).2]
    simp
  · have htoken : Indented [⟨.token t, s.line, start, stop⟩] :=
      indented_of_none fun l hl => by
        rw [List.mem_singleton.1 hl]
        simp
    cases hlaid with
    | within | inside => exact htoken
    | deeper =>
      rintro before l after hsplit hl
      cases before with
      | nil =>
        obtain ⟨-, rfl⟩ := List.cons.inj hsplit
        exact ⟨_, [], rfl, t, rfl, hne⟩
      | cons first before =>
        obtain ⟨-, hrest⟩ := List.cons.inj hsplit
        exact htoken before l after hrest hl
    | level =>
      refine Indented.append (indented_of_none fun l hl => ?_) htoken
      rw [List.eq_of_mem_replicate hl]
      simp

theorem indented_run {size : Nat} {lexemes : List Lexeme} (h : run size s lexemes = .ok items) :
    Indented items := by
  induction lexemes generalizing s items with
  | nil =>
    refine indented_of_none fun l hl => ?_
    rcases (finish_items h l hl).1 with hitem | hitem | hitem
    · simp [hitem]
    · simp [hitem]
    · simp [hitem]
  | cons l lexemes ih =>
    obtain ⟨t, s₁, here, others, -, hput, hrun, rfl⟩ := run_cons h
    have hended : Indented (passGap s l.gap).1 := indented_of_none fun i hi => by
      simp [passGap_newline s l.gap i hi]
    exact (hended.append (indented_put hput)).append (ih hrun)

end Layout

/-- At the start of a line no line ends. -/
theorem Laid.not_newline {parens : Nat} {l : Located} {ls : List Located}
    (h : Laid parens true (l :: ls)) : l.item ≠ .token .newline := by
  intro hl
  cases h with
  | eof item => rw [hl] at item; cases item
  | layout item _ => rw [hl] at item; simp at item
  | token item newline _ _ =>
    rw [hl] at item
    exact newline (Item.token.inj item).symm

/-- No line is empty. -/
theorem Laid.broken {parens : Nat} {fresh : Bool} (h : Laid parens fresh items)
    {before after : List Located} {a b : Located} (hsplit : items = before ++ a :: b :: after)
    (ha : a.item = .token .newline) : b.item ≠ .token .newline := by
  induction h generalizing before with
  | eof item =>
    have hlength := congrArg List.length hsplit
    simp only [List.length_append, List.length_cons, List.length_nil] at hlength
    omega
  | layout item others ih =>
    cases before with
    | nil =>
      obtain ⟨rfl, -⟩ := List.cons.inj hsplit
      rw [ha] at item
      simp at item
    | cons first before => exact ih (List.cons.inj hsplit).2
  | newline item others ih =>
    cases before with
    | nil =>
      obtain ⟨-, rfl⟩ := List.cons.inj hsplit
      exact others.not_newline
    | cons first before => exact ih (List.cons.inj hsplit).2
  | token item newline count others ih =>
    cases before with
    | nil =>
      obtain ⟨rfl, -⟩ := List.cons.inj hsplit
      rw [ha] at item
      exact absurd (Item.token.inj item).symm newline
    | cons first before => exact ih (List.cons.inj hsplit).2

/-- Behind some of the brackets as many are open as they leave open. -/
theorem Tallied.surplus_append {parens braces blocks : Nat} {w w' : List Bracket}
    (h : Tallied parens braces blocks (w ++ w')) :
    ∃ parens' braces' blocks' : Nat, Tallied parens' braces' blocks' w' ∧
      (parens' : Int) = parens + surplus .parens w ∧ (braces' : Int) = braces + surplus .braces w ∧
      (blocks' : Int) = blocks + surplus .block w := by
  induction w generalizing parens braces blocks with
  | nil => exact ⟨parens, braces, blocks, h, by simp, by simp, by simp⟩
  | cons b w ih =>
    rw [List.cons_append] at h
    cases h with
    | openParen rest =>
      obtain ⟨p, b, k, htallied, hp, hb, hk⟩ := ih rest
      rw [surplus_opening, surplus_cons_of_ne (by simp [Bracket.enclosure]),
        surplus_cons_of_ne (by simp [Bracket.enclosure])]
      exact ⟨p, b, k, htallied, by omega, by omega, by omega⟩
    | closeParen rest =>
      obtain ⟨p, b, k, htallied, hp, hb, hk⟩ := ih rest
      rw [surplus_closing, surplus_cons_of_ne (by simp [Bracket.enclosure]),
        surplus_cons_of_ne (by simp [Bracket.enclosure])]
      exact ⟨p, b, k, htallied, by omega, by omega, by omega⟩
    | openBrace rest =>
      obtain ⟨p, b, k, htallied, hp, hb, hk⟩ := ih rest
      rw [surplus_cons_of_ne (by simp [Bracket.enclosure]), surplus_opening,
        surplus_cons_of_ne (by simp [Bracket.enclosure])]
      exact ⟨p, b, k, htallied, by omega, by omega, by omega⟩
    | closeBrace rest =>
      obtain ⟨p, b, k, htallied, hp, hb, hk⟩ := ih rest
      rw [surplus_cons_of_ne (by simp [Bracket.enclosure]), surplus_closing,
        surplus_cons_of_ne (by simp [Bracket.enclosure])]
      exact ⟨p, b, k, htallied, by omega, by omega, by omega⟩
    | indent rest =>
      obtain ⟨p, b, k, htallied, hp, hb, hk⟩ := ih rest
      rw [surplus_cons_of_ne (by simp [Bracket.enclosure]),
        surplus_cons_of_ne (by simp [Bracket.enclosure]), surplus_opening]
      exact ⟨p, b, k, htallied, by omega, by omega, by omega⟩
    | dedent rest =>
      obtain ⟨p, b, k, htallied, hp, hb, hk⟩ := ih rest
      rw [surplus_cons_of_ne (by simp [Bracket.enclosure]),
        surplus_cons_of_ne (by simp [Bracket.enclosure]), surplus_closing]
      exact ⟨p, b, k, htallied, by omega, by omega, by omega⟩

/-- A token stream with layout that is well-formed. -/
structure WellLaid (source : List Char) (items : List Located) : Prop where
  /-- The end of the document is the last item, and no other. -/
  ends : ∃ body last, items = body ++ [last] ∧ last.item = .eof ∧ ∀ l ∈ body, l.item ≠ .eof
  /-- No bracket is closed, and no block ends, before it is opened. -/
  opened : ∀ before after, items = before ++ after → ∀ e, 0 ≤ surplus e (brackets before)
  closed : ∀ e, surplus e (brackets items) = 0
  /-- Layout stands outside parentheses and braces. -/
  outside : ∀ before l after, items = before ++ l :: after →
    l.item = .indent ∨ l.item = .dedent ∨ l.item = .eof →
    surplus .parens (brackets before) = 0 ∧ surplus .braces (brackets before) = 0
  indented : Indented items
  broken : ∀ before a b after, items = before ++ a :: b :: after →
    ¬ (a.item = .token .newline ∧ b.item = .token .newline)
  lined : Lined source 0 (bytes source) items
  /-- What is in no token is blank, ends a line or is in a comment. -/
  covered : ∀ front c back, source = front ++ c :: back →
    (∃ l ∈ items, l.IsSolid ∧ l.start ≤ bytes front ∧ bytes front + c.utf8Size ≤ l.stop) ∨
      Text.isGap c = true ∨ c = '\n' ∨ InComment source items 0 (bytes front)

/-- A text that is cut into tokens has a well-formed token stream. -/
theorem wellLaid_of_tokenize (h : tokenize source = .ok items) : WellLaid source items := by
  have htallied := tallied_of_tokenize h
  have hprefix : ∀ before after, items = before ++ after →
      ∃ parens braces blocks : Nat, Tallied parens braces blocks (brackets after) ∧
        (parens : Int) = surplus .parens (brackets before) ∧
        (braces : Int) = surplus .braces (brackets before) ∧
        (blocks : Int) = surplus .block (brackets before) := by
    rintro before after rfl
    rw [brackets_append] at htallied
    simpa using htallied.surplus_append
  obtain ⟨spots, hlexes⟩ := lexes_of_tokenize h
  have hlaid := (tokens_of_lexes hlexes h).1
  refine ⟨Layout.run_eof h, ?_, ?_, ?_, Layout.indented_run h, ?_, lined_of_tokenize h, ?_⟩
  · intro before after hsplit e
    obtain ⟨parens, braces, blocks, -, hparens, hbraces, hblocks⟩ := hprefix before after hsplit
    cases e with
    | parens => omega
    | braces => omega
    | block => omega
  · intro e
    obtain ⟨parens, braces, blocks, hdone, hparens, hbraces, hblocks⟩ :=
      hprefix items [] (by simp)
    cases hdone with
    | done =>
      cases e with
      | parens => omega
      | braces => omega
      | block => omega
  · intro before l after hsplit hl
    obtain ⟨parens, braces, blocks, hrest, hparens, hbraces, -⟩ := hprefix before _ hsplit
    rcases hl with hl | hl | hl
    · rw [brackets_cons_of_some (b := .opening .block) (by rw [hl]; rfl)] at hrest
      cases hrest with
      | indent _ => exact ⟨by omega, by omega⟩
    · rw [brackets_cons_of_some (b := .closing .block) (by rw [hl]; rfl)] at hrest
      cases hrest with
      | dedent _ => exact ⟨by omega, by omega⟩
    · have hsuffix : l :: after <:+ items := ⟨before, hsplit.symm⟩
      obtain rfl := eof_last h hsuffix hl
      rw [brackets_cons_of_none (by rw [hl]; rfl)] at hrest
      cases hrest with
      | done => exact ⟨by omega, by omega⟩
  · rintro before a b after hsplit ⟨ha, hb⟩
    exact hlaid.broken hsplit ha hb
  · intro front c back hsplit
    have hwhole : source = [] ++ source := rfl
    exact (tiled_of_tokenize h).covered hwhole rfl hsplit

/-- A block between two comments. -/
theorem wellLaid_of_tokenize_block :
    ∃ items, tokenize "a // b\n  c/*\n*/d".toList = .ok items ∧
      WellLaid "a // b\n  c/*\n*/d".toList items := by
  have htokens : tokenize "a // b\n  c/*\n*/d".toList =
      .ok [⟨.token (.ident "a"), 0, 0, 1⟩, ⟨.token .newline, 0, 6, 7⟩, ⟨.indent, 1, 9, 9⟩,
        ⟨.token (.ident "c"), 1, 9, 10⟩, ⟨.token .newline, 1, 12, 13⟩,
        ⟨.token (.ident "d"), 2, 15, 16⟩, ⟨.token .newline, 2, 16, 16⟩, ⟨.dedent, 2, 16, 16⟩,
        ⟨.eof, 2, 16, 16⟩] := by
    decide +kernel
  exact ⟨_, htokens, wellLaid_of_tokenize htokens⟩

end StyleWeave
