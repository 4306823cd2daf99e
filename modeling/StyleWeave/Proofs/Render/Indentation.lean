import StyleWeave.Proofs.Render.Cover

/-!
# Indentation is blank

Whatever a pass puts in front of a line is made of blanks that break no line.
-/

namespace StyleWeave.Inline

/-- The text can stand in front of a line without a trace: it is blank, and on one line. -/
def IsIndent (s : String) : Prop :=
  ∀ c ∈ s.toList, Text.isBlank c = true ∧ c ≠ '\n'

theorem IsIndent.empty : IsIndent "" := by
  intro c hc
  cases hc

theorem IsIndent.append {s t : String} (hs : IsIndent s) (ht : IsIndent t) : IsIndent (s ++ t) := by
  intro c hc
  rw [String.toList_append] at hc
  rcases List.mem_append.1 hc with hc | hc
  · exact hs c hc
  · exact ht c hc

theorem IsIndent.solid {s : String} (h : IsIndent s) : Text.solid s.toList = [] :=
  Text.solid_eq_nil_iff.2 fun c hc => (h c hc).1

theorem eq_space_of_mem_levels {n : Nat} {c : Char} (h : c ∈ (levels n).toList) : c = ' ' := by
  simp only [levels, Text.repeated, String.toList_join, List.mem_flatMap, List.mem_replicate] at h
  obtain ⟨s, ⟨-, rfl⟩, hc⟩ := h
  simpa using hc

theorem isIndent_levels (n : Nat) : IsIndent (levels n) := by
  intro c hc
  obtain rfl := eq_space_of_mem_levels hc
  exact ⟨rfl, by decide⟩

theorem isIndent_lineBase {indent : String} {line : Text.Line} (hindent : IsIndent indent)
    (hsingle : '\n' ∉ line.text) : IsIndent (lineBase indent line) := by
  refine hindent.append fun c hc => ?_
  rw [String.toList_ofList] at hc
  have hblank : Text.isBlank c = true :=
    List.all_eq_true.1 (List.all_takeWhile (l := line.text)) c hc
  have hmem : c ∈ line.text := (List.takeWhile_prefix _).subset hc
  refine ⟨hblank, ?_⟩
  rintro rfl
  exact hsingle hmem

def Act.Indented : Act → Prop
  | .line _ => True
  | .fragment base _ _ _ => IsIndent base
  | .site indent _ => IsIndent indent

theorem Act.Fits.indented {indent : String} {line : Text.Line} {act : Act}
    (h : act.Fits indent line) (hindent : IsIndent indent) (hsingle : '\n' ∉ line.text) :
    act.Indented := by
  have hbase := isIndent_lineBase hindent hsingle
  cases act with
  | line l => trivial
  | fragment base text opened number =>
    obtain ⟨rfl, -, -⟩ := h
    exact hbase
  | site indent' site =>
    obtain ⟨n, rfl⟩ := h
    exact hbase.append (isIndent_levels n)

end StyleWeave.Inline
