import StyleWeave.Dialect

/-!
# Requests with the extension of the dialect

A dialect is closed if a request with its extension is complete, so that nothing more is added to
it. Dialects with a plain extension are closed. In a closed dialect the candidates of a request are
their own candidates.
-/

namespace StyleWeave

namespace Text

theorem splitLastDot_eq_none {cs : List Char} (h : '.' ∉ cs) : splitLastDot cs = none := by
  induction cs with
  | nil => rfl
  | cons c cs ih =>
    obtain ⟨hc, hrest⟩ := not_or.1 (mt List.mem_cons.2 h)
    rw [splitLastDot, ih hrest]
    exact if_neg fun hdot => hc hdot.symm

theorem splitLastDot_append {b : List Char} (hb : '.' ∉ b) (a : List Char) :
    splitLastDot (a ++ '.' :: b) = some (a, b) := by
  induction a with
  | nil => simp [splitLastDot, splitLastDot_eq_none hb]
  | cons c a ih => rw [List.cons_append, splitLastDot, ih]

theorem dropEndWhile_append_singleton {p : Char → Bool} {c : Char} (h : p c = false)
    (cs : List Char) : dropEndWhile p (cs ++ [c]) = cs ++ [c] := by
  simp [dropEndWhile, h]

@[simp] theorem equalFold_self (s : String) : equalFold s s = true := by
  simp [equalFold]

end Text

namespace Dialect

variable {d : Dialect}

/-- The extension is not empty, and has no dots, slashes or quotes. -/
def PlainExtension (d : Dialect) : Prop :=
  d.extension ≠ "" ∧ ∀ c ∈ d.extension.toList, c ≠ '.' ∧ c ≠ '/' ∧ c ≠ '"' ∧ c ≠ '\''

-- Decided over the characters of the extension, not over all characters that there are.
instance (d : Dialect) : Decidable d.PlainExtension :=
  @instDecidableAnd _ _ inferInstance (List.decidableBAll _ _)

/-- Requests with the extension of the dialect are complete. -/
def Closed (d : Dialect) : Prop :=
  ∀ request, d.isLiteralRequest (d.withExtension request) = true

theorem PlainExtension.closed (h : d.PlainExtension) : d.Closed := by
  intro request
  obtain ⟨hne, hplain⟩ := h
  have hdot : '.' ∉ d.extension.toList := fun hm => (hplain _ hm).1 rfl
  have hslash : '/' ∉ d.extension.toList := fun hm => (hplain _ hm).2.1 rfl
  have htext : (d.withExtension request).toList =
      request.toList ++ '.' :: d.extension.toList := by
    simp [withExtension, String.toList_append]
  have htrim : Text.trimQuotes (d.withExtension request) = d.withExtension request := by
    have hne' : d.extension.toList ≠ [] := by rwa [Ne, String.toList_eq_nil_iff]
    have hsplit := List.dropLast_concat_getLast hne'
    have hquote := (hplain _ (List.getLast_mem hne')).2.2
    rw [← String.toList_inj, Text.trimQuotes, Text.trimEndWhile, String.toList_ofList, htext,
      ← hsplit, ← List.cons_append, ← List.append_assoc]
    exact Text.dropEndWhile_append_singleton (by simpa using hquote) _
  unfold isLiteralRequest
  rw [htrim, Text.afterLastDot?, htext, Text.splitLastDot_append hdot]
  simp [hslash]

theorem withExtension_inj {request request' : String}
    (h : d.withExtension request = d.withExtension request') : request = request' := by
  rw [← String.toList_inj] at h ⊢
  simpa [withExtension, String.toList_append] using h

/-- In a closed dialect, each candidate of a request is the only candidate of itself. -/
theorem Closed.candidates (h : d.Closed) {request candidate : String}
    (hc : candidate ∈ d.candidates request) : d.candidates candidate = [candidate] := by
  have hlit : d.isLiteralRequest candidate = true := by
    unfold Dialect.candidates at hc
    split at hc
    · next hr => rwa [List.mem_singleton.1 hc]
    · rcases List.mem_cons.1 hc with rfl | hc
      · exact h request
      · rw [List.mem_singleton.1 hc]
        exact h _
  rw [Dialect.candidates, if_pos hlit]

end Dialect

end StyleWeave
