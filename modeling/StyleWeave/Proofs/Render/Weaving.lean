import StyleWeave.Proofs.Render.Passages
import StyleWeave.Proofs.Render.Rules

/-!
# Lines of the output are read as what they were written for

The output is made of lines that were written for silent text and of rules (`Woven`). It is lexed
passage by passage and rule by rule, and the imports that are read of it are its rules
(`Woven.isReread`).
-/

namespace StyleWeave

open Text (bytes bytes_append row rows)
open Lexeme (Gaps Lexes Spaced bares kept squeezed stream)

namespace Lexeme

/-- Behind a line break, places are kept as at the start of a line. -/
theorem kept_append {fresh : Bool} {spots : List Spot}
    (h : squeezed fresh (bares spots ++ [.newline]) = squeezed fresh (bares spots))
    (others : List Spot) :
    kept fresh (spots ++ others) = kept fresh spots ++ kept true others := by
  induction spots generalizing fresh with
  | nil =>
    cases fresh with
    | true => rfl
    | false => cases h
  | cons s spots ih =>
    rw [bares_cons, List.cons_append, squeezed, squeezed] at h
    rw [List.cons_append, kept, kept]
    by_cases hnewline : s.token = .newline
    · have hbare : s.token.bare = .newline := by
        rw [hnewline]
        rfl
      rw [if_pos hbare, if_pos hbare] at h
      rw [if_pos hnewline, if_pos hnewline, ih (List.append_cancel_left h), List.append_assoc]
    · have hbare : s.token.bare ≠ .newline := fun heq => hnewline (eq_newline_of_bare heq)
      rw [if_neg hbare, if_neg hbare] at h
      rw [if_neg hnewline, if_neg hnewline, ih (List.cons.inj h).2, List.cons_append]

end Lexeme

namespace Syntax

/-- No import is read where no token is. -/
theorem importsOf_of_no_tokens {p : Nat} {fresh : Bool} {items : List Located}
    (h : Laid p fresh items) (hnone : tokens items = []) : importsOf items = [] := by
  have hcourse := course (Or.inr ⟨p, fresh, h⟩)
  rw [hnone] at hcourse
  generalize importsOf items = imports at hcourse ⊢
  generalize hxs : ([] : List Located) = xs at hcourse
  cases hcourse with
  | idle => rfl
  | statement => simp at hxs

theorem silent_nil : Silent [] :=
  ⟨[], .nil, .nil⟩

end Syntax

namespace Inline

open Syntax (Idle Silent importsOf silent_nil)

/-! ## Lines and their marks -/

theorem flatMap_split {α β : Type} {f : α → List β} {as : List α} {bs cs : List β}
    (hshort : ∀ a ∈ as, (f a).length ≤ 1) (h : as.flatMap f = bs ++ cs) :
    ∃ first second, as = first ++ second ∧ first.flatMap f = bs ∧ second.flatMap f = cs := by
  induction as generalizing bs with
  | nil =>
    obtain ⟨rfl, rfl⟩ := List.append_eq_nil_iff.1 h.symm
    exact ⟨[], [], rfl, rfl, rfl⟩
  | cons a as ih =>
    have hothers := fun a' ha' => hshort a' (List.mem_cons_of_mem _ ha')
    have hone := hshort a List.mem_cons_self
    rw [List.flatMap_cons] at h
    cases hfa : f a with
    | nil =>
      rw [hfa, List.nil_append] at h
      obtain ⟨first, second, rfl, hfirst, hsecond⟩ := ih hothers h
      refine ⟨a :: first, second, rfl, ?_, hsecond⟩
      rw [List.flatMap_cons, hfa, hfirst, List.nil_append]
    | cons b more =>
      rw [hfa, List.length_cons] at hone
      obtain rfl : more = [] := List.length_eq_zero_iff.1 (by omega)
      rw [hfa] at h
      cases bs with
      | nil =>
        refine ⟨[], a :: as, rfl, rfl, ?_⟩
        rw [List.flatMap_cons, hfa]
        exact h
      | cons b' bs =>
        obtain ⟨rfl, hmore⟩ := List.cons.inj h
        obtain ⟨first, second, rfl, hfirst, hsecond⟩ := ih hothers hmore
        refine ⟨a :: first, second, rfl, ?_, hsecond⟩
        rw [List.flatMap_cons, hfa, hfirst]
        rfl

def Write.IsMapped : Write → Prop
  | .rule _ _ => False
  | .mapped _ _ _ => True

/-- The lines were written for silent text, or are rules that can be read. -/
inductive Woven (options : Options) : List Write → Prop where
  | nil : Woven options []
  | passage {writes rest : List Write} (mapped : ∀ w ∈ writes, w.IsMapped)
      (silent : Silent (writes.flatMap fun w => row w.line.toList))
      (others : Woven options rest) : Woven options (writes ++ rest)
  | rule {indent s : String} {expr : Expr} {writes : List Write}
      (readable : Readable options s expr) (others : Woven options writes) :
      Woven options (.rule indent s :: writes)

variable {options : Options} {writes others : List Write} {w : Write}

theorem Write.IsStable.marks (h : w.IsStable) (hmapped : w.IsMapped) :
    w.marks = (row w.line.toList).map .inl := by
  cases w with
  | rule indent s => cases hmapped
  | mapped s source number => rw [Write.marks, Text.rows_single h.1, Write.line]

theorem Write.IsStable.marks_length (h : w.IsStable) : w.marks.length ≤ 1 := by
  cases w with
  | rule indent s => exact Nat.le_refl 1
  | mapped s source number =>
    rw [h.marks trivial, List.length_map, row]
    split <;> simp

/-- Lines that show rows only were written for text, which has these rows. -/
theorem rows_of_marks {texts : List (List Char)} (hstable : ∀ w ∈ writes, w.IsStable)
    (h : writes.flatMap Write.marks = texts.map .inl) :
    (∀ w ∈ writes, w.IsMapped) ∧ (writes.flatMap fun w => row w.line.toList) = texts := by
  have hmapped : ∀ w ∈ writes, w.IsMapped := by
    intro w hw
    cases w with
    | mapped s source number => trivial
    | rule indent s =>
      have hmem : Sum.inr s ∈ writes.flatMap Write.marks :=
        List.mem_flatMap.2 ⟨_, hw, List.mem_cons_self⟩
      rw [h] at hmem
      obtain ⟨_, -, heq⟩ := List.mem_map.1 hmem
      cases heq
  have hinj : Function.Injective (Sum.inl : List Char → List Char ⊕ String) :=
    fun _ _ => Sum.inl.inj
  refine ⟨hmapped, List.map_injective_iff.2 hinj ?_⟩
  rw [← h, List.map_flatMap]
  exact List.flatMap_congr fun w hw => ((hstable w hw).marks (hmapped w hw)).symm

/-- Lines that show nothing change nothing. -/
theorem Woven.blank (h : Woven options others) (hstable : ∀ w ∈ writes, w.IsStable)
    (hnone : writes.flatMap Write.marks = []) : Woven options (writes ++ others) := by
  have hmarks : writes.flatMap Write.marks = ([] : List (List Char)).map .inl := hnone
  obtain ⟨hmapped, hrows⟩ := rows_of_marks hstable hmarks
  refine .passage hmapped ?_ h
  rw [hrows]
  exact silent_nil

/-- Of lines that show a rule, one is the rule. -/
theorem Woven.rule_of_marks {s : String} {expr : Expr} (h : Woven options others)
    (hreadable : Readable options s expr) (hstable : ∀ w ∈ writes, w.IsStable)
    (hmarks : writes.flatMap Write.marks = [.inr s]) : Woven options (writes ++ others) := by
  induction writes with
  | nil => cases hmarks
  | cons w writes ih =>
    have hothers := fun w' hw' => hstable w' (List.mem_cons_of_mem _ hw')
    rw [List.flatMap_cons] at hmarks
    cases w with
    | rule indent s' =>
      obtain ⟨heq, hrest⟩ := List.cons.inj hmarks
      obtain rfl := Sum.inr.inj heq
      exact .rule hreadable (h.blank hothers hrest)
    | mapped line source number =>
      have hmapped : (Write.mapped line source number).IsMapped := trivial
      have hhere := (hstable _ List.mem_cons_self).marks hmapped
      cases hrow : row (Write.mapped line source number).line.toList with
      | nil =>
        rw [hrow, List.map_nil] at hhere
        rw [hhere, List.nil_append] at hmarks
        have hblank : [Write.mapped line source number].flatMap Write.marks = [] := by
          rw [List.flatMap_singleton, hhere]
        have hone : ∀ w' ∈ [Write.mapped line source number], w'.IsStable := fun w' hw' =>
          hstable w' (by rw [List.mem_singleton.1 hw']; exact List.mem_cons_self)
        exact (ih hothers hmarks).blank hone hblank
      | cons r more =>
        rw [hhere, hrow] at hmarks
        cases (List.cons.inj hmarks).1

/-- The piece can be read again as what it is. -/
def Piece.IsLegible (options : Options) : Piece → Prop
  | .kept cs => Silent (rows cs)
  | .rule s => ∃ expr, Readable options s expr

/-- Lines that show legible pieces are woven of them. -/
theorem woven_of_marks {pieces : List Piece} (hlegible : ∀ piece ∈ pieces, piece.IsLegible options)
    (hstable : ∀ w ∈ writes, w.IsStable)
    (h : writes.flatMap Write.marks = pieces.flatMap Piece.marks) : Woven options writes := by
  induction pieces generalizing writes with
  | nil =>
    have hnil : Woven options [] := .nil
    have hblank := hnil.blank hstable h
    rwa [List.append_nil] at hblank
  | cons piece pieces ih =>
    rw [List.flatMap_cons] at h
    obtain ⟨first, second, rfl, hfirst, hsecond⟩ :=
      flatMap_split (fun w hw => (hstable w hw).marks_length) h
    have hothers := ih (fun other hother => hlegible other (List.mem_cons_of_mem _ hother))
      (fun w hw => hstable w (List.mem_append_right _ hw)) hsecond
    have hhere := hlegible piece List.mem_cons_self
    have hstable' := fun w hw => hstable w (List.mem_append_left _ hw)
    cases piece with
    | kept cs =>
      obtain ⟨hmapped, hrows⟩ := rows_of_marks hstable' hfirst
      refine .passage hmapped ?_ hothers
      rw [hrows]
      exact hhere
    | rule s =>
      obtain ⟨expr, hreadable⟩ := hhere
      exact hothers.rule_of_marks hreadable hstable' hfirst

/-! ## Reading the lines -/

/-- The blanks of the line are such that the lexer takes them for blanks. In a rule, only those in
front of it matter. -/
def Write.IsSpaced : Write → Prop
  | .rule indent _ => Gaps indent.toList
  | .mapped s _ _ => Spaced s.toList

@[simp] theorem texts_append (writes others : List Write) :
    Write.texts (writes ++ others) = Write.texts writes ++ Write.texts others :=
  List.flatMap_append

/-- Lines that are no rules have no statement. -/
theorem Restated.mapped_append {pos : Nat} {imports : List Import}
    (hmapped : ∀ w ∈ writes, w.IsMapped)
    (h : Restated options (pos + bytes (Write.texts writes)) others imports) :
    Restated options pos (writes ++ others) imports := by
  induction writes generalizing pos with
  | nil => exact h
  | cons w writes ih =>
    cases w with
    | rule indent s => exact absurd (hmapped _ List.mem_cons_self) id
    | mapped s source number =>
      refine .mapped (ih (fun w hw => hmapped w (List.mem_cons_of_mem _ hw)) ?_)
      have hwidth : bytes (Write.texts (.mapped s source number :: writes)) =
          bytes s.toList + 1 + bytes (Write.texts writes) := by
        show bytes ((s.toList ++ ['\n']) ++ Write.texts writes) = _
        rw [bytes_append, bytes_append]
        rfl
      rw [hwidth, ← Nat.add_assoc, ← Nat.add_assoc] at h
      exact h

/-- Rows that stand on lines of their own are lexed, and no import is read of them. -/
theorem lexes_passage {lines : List (List Char)} (h : Silent (lines.flatMap row))
    (hlines : ∀ line ∈ lines, '\n' ∉ line ∧ Spaced line) (rest : List Char) :
    ∃ spots, Lexes false (lines.flatMap (· ++ ['\n']) ++ rest) spots false rest ∧
      (∀ others, kept true (spots ++ others) = kept true spots ++ kept true others) ∧
      Idle (bares (kept true spots)) := by
  obtain ⟨tss, hrows, hidle⟩ := h
  obtain ⟨spots, hlexes, hsame⟩ := hrows.lines hlines rest
  have hstream : squeezed true (bares spots) = stream tss := by
    have hnone := hsame []
    rwa [List.append_nil, squeezed, List.append_nil] at hnone
  have hends : squeezed true (bares spots ++ [.newline]) = squeezed true (bares spots) := by
    rw [hsame, hstream]
    exact List.append_nil _
  refine ⟨spots, hlexes, Lexeme.kept_append hends, ?_⟩
  rw [Lexeme.bares_kept, hstream]
  exact hidle

/-- Behind a passage the same imports are read as in front of it. -/
theorem imports_behind {size p : Nat} {fresh : Bool} {items : List Located}
    {spots others : List Spot} (hidle : Idle (bares spots)) (hlaid : Laid p fresh items)
    (hitems : List.Forall₂ (Spot.IsItem size) (spots ++ others) (tokens items)) :
    ∃ items' p' fresh', Laid p' fresh' items' ∧
      List.Forall₂ (Spot.IsItem size) others (tokens items') ∧
      importsOf items' = importsOf items := by
  obtain ⟨here, rest, htokens, hhere, hrest⟩ := forall₂_split hitems.flip
  obtain ⟨items', p', fresh', hlaid', rfl, himports⟩ :=
    hidle.imports (Syntax.bares_of_items hhere.flip) hlaid htokens
  exact ⟨items', p', fresh', hlaid', hrest.flip, himports⟩

/-- The text of the lines is lexed, and wherever it is read its import statements are the rules
among the lines. -/
def IsReread (options : Options) (writes : List Write) : Prop :=
  ∃ spots, Lexes false (Write.texts writes) spots false [] ∧
    ∀ (pos p : Nat) (fresh : Bool) (items : List Located), Laid p fresh items →
      List.Forall₂ (Spot.IsItem (pos + bytes (Write.texts writes)))
        (kept true (spots ++ [.ending])) (tokens items) →
      Restated options pos writes (importsOf items)

theorem isReread_nil : IsReread options [] := by
  refine ⟨[], .done, fun pos p fresh items hlaid hitems => ?_⟩
  have hnone : tokens items = [] := List.forall₂_nil_left_iff.1 hitems
  rw [Syntax.importsOf_of_no_tokens hlaid hnone]
  exact .nil

theorem IsReread.passage (h : IsReread options others) (hmapped : ∀ w ∈ writes, w.IsMapped)
    (hsilent : Silent (writes.flatMap fun w => row w.line.toList))
    (hstable : ∀ w ∈ writes, w.IsStable) (hspaced : ∀ w ∈ writes, w.IsSpaced) :
    IsReread options (writes ++ others) := by
  obtain ⟨spots', hlexes', hrest⟩ := h
  have hlines : ∀ line ∈ writes.map fun w => w.line.toList, '\n' ∉ line ∧ Spaced line := by
    intro line hline
    obtain ⟨w, hw, rfl⟩ := List.mem_map.1 hline
    refine ⟨(hstable w hw).single, ?_⟩
    cases w with
    | rule indent s => exact (hmapped _ hw).elim
    | mapped s source number => exact hspaced _ hw
  rw [← List.flatMap_map] at hsilent
  obtain ⟨spots, hlexes, hkept, hidle⟩ := lexes_passage hsilent hlines (Write.texts others)
  refine ⟨spots ++ spots', ?_, fun pos p fresh items hlaid hitems => ?_⟩
  · rw [texts_append]
    rw [List.flatMap_map] at hlexes
    exact hlexes.append hlexes'
  · rw [List.append_assoc, hkept] at hitems
    obtain ⟨items', p', fresh', hlaid', hitems', himports⟩ := imports_behind hidle hlaid hitems
    rw [← himports]
    rw [texts_append, bytes_append, ← Nat.add_assoc] at hitems'
    exact .mapped_append hmapped (hrest _ p' fresh' items' hlaid' hitems')

theorem IsReread.rule {indent s : String} {expr : Expr} (h : IsReread options writes)
    (hreadable : Readable options s expr) (hindent : Gaps indent.toList) :
    IsReread options (.rule indent s :: writes) := by
  obtain ⟨spots', hlexes', hrest⟩ := h
  obtain ⟨t, u, v, w, x, hargument, hrule⟩ := hreadable.lexes (Write.texts writes)
  have htext : Write.texts (.rule indent s :: writes) =
      indent.toList ++ (s.toList ++ '\n' :: Write.texts writes) := by
    show ((indent ++ s).toList ++ ['\n']) ++ Write.texts writes = _
    rw [String.toList_append]
    simp
  have hwidth : bytes (s.toList ++ '\n' :: Write.texts writes) =
      bytes s.toList + bytes ('\n' :: Write.texts writes) := bytes_append _ _
  have hfeed : bytes ('\n' :: Write.texts writes) = 1 + bytes (Write.texts writes) := rfl
  have hwhole : bytes (Write.texts (.rule indent s :: writes)) =
      bytes indent.toList + bytes (s.toList ++ '\n' :: Write.texts writes) := by
    rw [htext, bytes_append]
  have hall := (hrule.gaps hindent).append hlexes'
  rw [← htext] at hall
  refine ⟨_, hall, fun pos p fresh items hlaid hitems => ?_⟩
  simp only [List.cons_append, List.nil_append, kept, reduceCtorEq, hargument.ne_newline, if_false,
    if_true, Bool.false_eq_true] at hitems
  -- The four tokens of the line, and what is read behind them.
  obtain ⟨x₁, xs₁, h₁, hmore₁, htokens⟩ := List.forall₂_cons_left_iff.1 hitems
  obtain ⟨x₂, xs₂, h₂, hmore₂, rfl⟩ := List.forall₂_cons_left_iff.1 hmore₁
  obtain ⟨x₃, xs₃, h₃, hmore₃, rfl⟩ := List.forall₂_cons_left_iff.1 hmore₂
  obtain ⟨x₄, xs₄, h₄, hmore₄, rfl⟩ := List.forall₂_cons_left_iff.1 hmore₃
  obtain ⟨statement, items', p', fresh', hlaid', rfl, himports, hexprs, hstart, hstop⟩ :=
    Syntax.importsOf_rule hlaid htokens h₁.item h₂.item hargument h₃.item h₄.item
  have hstart' : statement.start = pos + bytes indent.toList := by
    rw [hstart, (h₁.place (by simp)).1]
    dsimp only
    omega
  have hstop' : statement.stop = statement.start + bytes s.toList := by
    rw [hstart', hstop, (h₃.place (by simp)).2]
    dsimp only
    omega
  have hsize : pos + bytes (Write.texts (.rule indent s :: writes)) =
      statement.stop + 1 + bytes (Write.texts writes) := by omega
  rw [hsize] at hmore₄
  rw [himports]
  exact .rule hstart' hstop' (hreadable.denotes hexprs) (hrest _ p' fresh' items' hlaid' hmore₄)

theorem Woven.isReread (h : Woven options writes) (hstable : ∀ w ∈ writes, w.IsStable)
    (hspaced : ∀ w ∈ writes, w.IsSpaced) : IsReread options writes := by
  induction h with
  | nil => exact isReread_nil
  | passage mapped silent _ ih =>
    have hrest := ih (fun w hw => hstable w (List.mem_append_right _ hw))
      fun w hw => hspaced w (List.mem_append_right _ hw)
    exact hrest.passage mapped silent (fun w hw => hstable w (List.mem_append_left _ hw))
      fun w hw => hspaced w (List.mem_append_left _ hw)
  | rule readable _ ih =>
    have hrest := ih (fun w hw => hstable w (List.mem_cons_of_mem _ hw))
      fun w hw => hspaced w (List.mem_cons_of_mem _ hw)
    exact hrest.rule readable (hspaced _ List.mem_cons_self)

end Inline

end StyleWeave
