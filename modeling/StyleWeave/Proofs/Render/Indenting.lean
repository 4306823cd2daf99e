import StyleWeave.Proofs.Render.Lockstep

/-!
# Indentation distributes over inlining

A pass through a document with an indentation does what the pass without it does, and has the
indentation in front of every line that is not empty (`inline_indented`). So each imported document
can be rendered by itself, and indented like its import statement afterwards (`inlineApart`).
-/

namespace StyleWeave.Inline

open Step (exec)

variable {σ α : Type}

/-! ## Indenting what was written -/

theorem indentLine_indentLine (i j line : String) :
    indentLine i (indentLine j line) = indentLine (i ++ j) line := by
  by_cases hline : line = ""
  · rw [hline]
    rfl
  · rw [indentLine_of_ne hline, indentLine_of_ne hline, indentLine_of_ne (append_ne_empty hline),
      String.append_assoc]

/-- The pass with its lines behind the first `n` indented. -/
def Pass.indentFrom (n : Nat) (i : String) (p : Pass σ) : Pass σ :=
  { p with
    lines := (p.lines.toList.take n ++ (p.lines.toList.drop n).map (indentLine i)).toArray }

theorem Pass.indentFrom_empty (n : Nat) (p : Pass σ) : p.indentFrom n "" = p := by
  have hid : indentLine "" = id := funext empty_indentLine
  unfold indentFrom
  rw [hid, List.map_id, List.take_append_drop]

theorem Pass.indentFrom_indentFrom (n : Nat) (i j : String) (p : Pass σ) :
    (p.indentFrom n j).indentFrom n i = p.indentFrom n (i ++ j) := by
  have hcomp : indentLine i ∘ indentLine j = indentLine (i ++ j) :=
    funext (indentLine_indentLine i j)
  unfold indentFrom
  dsimp only
  rcases Nat.le_total n p.lines.toList.length with hle | hle
  · have hlen : (p.lines.toList.take n).length = n := List.length_take_of_le hle
    rw [List.take_left' hlen, List.drop_left' hlen, List.map_map, hcomp]
  · rw [List.drop_of_length_le hle]
    simp [List.take_of_length_le hle, List.drop_of_length_le hle]

/-- A step whose lines are indented once it is done, whether or not it halts. -/
def indented (i : String) (x : Step σ α) : Step σ α :=
  ExceptT.mk fun p => ((exec x p).1, (exec x p).2.indentFrom p.lines.size i)

theorem exec_indented (i : String) (x : Step σ α) (p : Pass σ) :
    exec (indented i x) p = ((exec x p).1, (exec x p).2.indentFrom p.lines.size i) := rfl

theorem Step.ext {x y : Step σ α} (h : ∀ p, exec x p = exec y p) : x = y :=
  funext h

theorem indented_empty (x : Step σ α) : indented "" x = x := by
  refine Step.ext fun p => ?_
  rw [exec_indented, Pass.indentFrom_empty]

theorem indented_indented (i j : String) (x : Step σ α) :
    indented i (indented j x) = indented (i ++ j) x := by
  refine Step.ext fun p => ?_
  rw [exec_indented, exec_indented, exec_indented, Pass.indentFrom_indentFrom]

/-- Indenting again and again is indenting by all of it, the last in front. -/
theorem foldr_indented (indents : List String) (x : Step σ α) :
    indents.foldr indented x = indented (String.join indents) x := by
  induction indents with
  | nil => exact (indented_empty x).symm
  | cons i rest ih =>
    rw [List.foldr_cons, ih, indented_indented, String.join_cons]

/-! ## Two passes that differ by an indentation -/

/-- The first pass is the second one with the lines behind `before` indented. -/
def IndentedBehind (i : String) (before : List String) (p q : Pass σ) : Prop :=
  ∃ new, q.lines.toList = before ++ new ∧
    p = { q with lines := (before ++ new.map (indentLine i)).toArray }

theorem IndentedBehind.refl (i : String) (p : Pass σ) :
    IndentedBehind i p.lines.toList p p :=
  ⟨[], by rw [List.append_nil], by simp⟩

theorem IndentedBehind.eq_indentFrom {i : String} {before : List String} {p q : Pass σ}
    (h : IndentedBehind i before p q) : p = q.indentFrom before.length i := by
  obtain ⟨new, hlines, rfl⟩ := h
  unfold Pass.indentFrom
  rw [hlines, List.take_left, List.drop_left]

theorem IndentedBehind.write {i : String} {before : List String} {p q : Pass σ} {w w' : Write}
    (h : IndentedBehind i before p q) (hw : w.Shifted i Eq w') :
    IndentedBehind i before (p.write [w]) (q.write [w']) := by
  obtain ⟨new, hlines, rfl⟩ := h
  have hsize : q.lines.size = (before ++ new.map (indentLine i)).toArray.size := by
    rw [← Array.length_toList, hlines]
    simp
  have hmappings : ∀ n, Write.mappings n [w] = Write.mappings n [w'] := by
    intro n
    cases hw with
    | rule indent h => rfl
    | mapped h line number => rw [h]; rfl
  refine ⟨new ++ [w'.line], ?_, ?_⟩
  · simp [Pass.write, hlines]
  · unfold Pass.write
    rw [hsize]
    simp [hmappings, hw.line_eq]

theorem lockstep_indentedBehind (env : Setting σ) (i : String) (before : List String) :
    Lockstep (fun _ => False) i Eq .any [] [] (IndentedBehind i before) env env where
  options := rfl
  write h hw := h.write hw
  parse source h := by
    obtain ⟨new, hlines, rfl⟩ := h
    exact ⟨rfl, new, hlines, rfl⟩
  asks _ _ _ _ _ _ _ := trivial
  number file h := by
    obtain ⟨new, hlines, rfl⟩ := h
    unfold sourceIndex
    dsimp only
    split <;> exact ⟨rfl, new, hlines, rfl⟩
  judge stack h _ := by
    obtain ⟨new, -, rfl⟩ := h
    exact Or.inr rfl
  including file h := by
    obtain ⟨new, hlines, rfl⟩ := h
    exact ⟨new, hlines, rfl⟩
  locate h _ := by
    obtain ⟨new, hlines, rfl⟩ := h
    exact ⟨rfl, ⟨new, hlines, rfl⟩, fun _ _ _ _ => trivial⟩
  read h _ := by
    obtain ⟨new, hlines, rfl⟩ := h
    exact ⟨rfl, ⟨new, hlines, rfl⟩, fun _ _ => trivial⟩

/-- A pass with a further indentation does the same, and the lines behind those that were there are
indented. -/
theorem exec_inline_append (env : Setting σ) (depth : Nat) (stack : List Path) (file : Path)
    (source i indent : String) (p : Pass σ) :
    (exec (inline env depth stack file source (i ++ indent)) p).1 =
        (exec (inline env depth stack file source indent) p).1 ∧
      IndentedBehind i p.lines.toList
        (exec (inline env depth stack file source (i ++ indent)) p).2
        (exec (inline env depth stack file source indent) p).2 := by
  have hdocument : Reach.any.document file source := trivial
  have hsteps := lockstep_inline (lockstep_indentedBehind env i p.lines.toList) depth stack indent
    hdocument p p (.refl i p)
  rw [List.append_nil] at hsteps
  rcases hsteps with ⟨_, _, hfalse⟩ | hsame
  · exact hfalse.elim
  · exact hsame

theorem inline_eq_indented (env : Setting σ) (depth : Nat) (stack : List Path) (file : Path)
    (source i : String) :
    inline env depth stack file source i = indented i (inline env depth stack file source "") := by
  refine Step.ext fun p => ?_
  obtain ⟨hresult, hlines⟩ := exec_inline_append env depth stack file source i "" p
  rw [String.append_empty] at hresult hlines
  rw [exec_indented, ← hresult, ← Array.length_toList, ← hlines.eq_indentFrom]

/-! ## Documents by themselves -/

/-- The pass that renders every document by itself: without an indentation first, and then its lines
are indented like the import that leads to it. -/
def inlineApart (env : Setting σ) : Nat → Inliner σ
  | 0 => fun _ _ _ _ => throw .tooDeep
  | depth + 1 => fun stack file source indent =>
    indented indent (renderSheet env (inlineApart env depth) stack file source "")

theorem inline_eq_inlineApart (env : Setting σ) (depth : Nat) :
    inline env depth = inlineApart env depth := by
  induction depth with
  | zero => rfl
  | succ depth ih =>
    funext stack file source indent
    rw [inline_eq_indented]
    unfold inlineApart
    rw [← ih]
    rfl

/-- With an indentation, the pass through a document ends in the same way and in the same state, the
mappings included, but that the lines it has written are indented, empty ones left out. So it is the
pass in which each document is rendered by itself and then indented like its import; and indenting
by the imports that lead to a document, from the innermost on, is indenting by all of them. -/
theorem inline_indented (env : Setting σ) (depth : Nat) (stack : List Path) (file : Path)
    (source : String) :
    (∀ (i : String) (p : Pass σ),
      let plain := exec (inline env depth stack file source "") p
      let shifted := exec (inline env depth stack file source i) p
      shifted.1 = plain.1 ∧
        ∃ new : List String, plain.2.lines.toList = p.lines.toList ++ new ∧
          shifted.2 = { plain.2 with
            lines := (p.lines.toList ++ new.map (indentLine i)).toArray }) ∧
      (∀ i, inline env depth stack file source i = inlineApart env depth stack file source i) ∧
      ∀ (indents : List String),
        indents.foldr indented (inline env depth stack file source "") =
          inline env depth stack file source (String.join indents) := by
  refine ⟨fun i p => ?_, fun i => ?_, fun indents => ?_⟩
  · have hindented := exec_inline_append env depth stack file source i "" p
    rw [String.append_empty] at hindented
    exact hindented
  · rw [inline_eq_inlineApart]
  · rw [foldr_indented, ← inline_eq_indented]

end StyleWeave.Inline
