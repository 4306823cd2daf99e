import Mathlib.Data.List.TakeWhile
import StyleWeave.Text.Blank

/-!
# Texts without their blanks
-/

namespace StyleWeave.Text

/-- The characters of a text that are not blank. -/
def solid (cs : List Char) : List Char :=
  cs.filter fun c => !isBlank c

variable {cs : List Char}

@[simp] theorem solid_append (as bs : List Char) : solid (as ++ bs) = solid as ++ solid bs :=
  List.filter_append as bs

theorem solid_eq_nil_iff : solid cs = [] ↔ ∀ c ∈ cs, isBlank c = true := by
  simp [solid]

theorem solid_dropWhile (cs : List Char) : solid (cs.dropWhile isBlank) = solid cs := by
  have hfront : solid (cs.takeWhile isBlank) = [] :=
    solid_eq_nil_iff.2 fun c hc => List.all_eq_true.1 (List.all_takeWhile (l := cs)) c hc
  have hall : solid (cs.takeWhile isBlank) ++ solid (cs.dropWhile isBlank) = solid cs := by
    rw [← solid_append, List.takeWhile_append_dropWhile]
  rw [hfront, List.nil_append] at hall
  exact hall

@[simp] theorem solid_trim (cs : List Char) : solid (trim cs) = solid cs := by
  have hreverse : ∀ ds : List Char, solid ds.reverse = (solid ds).reverse :=
    fun ds => List.filter_reverse
  rw [trim, dropEndWhile, hreverse, solid_dropWhile, hreverse, List.reverse_reverse, trimStart,
    solid_dropWhile]

/-- Nothing is left of a text by trimming it if and only if it is blank. -/
theorem trim_isEmpty_iff : (trim cs).isEmpty = true ↔ solid cs = [] := by
  rw [List.isEmpty_iff]
  constructor
  · intro h
    rw [← solid_trim, h]
    rfl
  · intro h
    have hstart : trimStart cs = [] := by
      rw [trimStart, List.dropWhile_eq_nil_iff]
      exact solid_eq_nil_iff.1 h
    rw [trim, hstart]
    rfl

/-- A trimmed text is a part of the text. -/
theorem trim_infix (cs : List Char) : trim cs <:+: cs := by
  have hstart : trimStart cs <:+: cs := (List.dropWhile_suffix isBlank).isInfix
  have hend : trim cs <:+: trimStart cs := by
    have hsuffix := List.dropWhile_suffix (l := (trimStart cs).reverse) isBlank
    have hfront := List.reverse_prefix.2 hsuffix
    rw [List.reverse_reverse] at hfront
    exact hfront.isInfix
  exact hend.trans hstart

end StyleWeave.Text
