import Mathlib.Data.List.DropRight
import StyleWeave.Dialect
import StyleWeave.Proofs.Path.Join
import StyleWeave.Reference

/-!
# Completing paths

Requests are completed by an extension, or by the index file of a directory, and so are the names
that a search of the tree starts from. A completed path starts where the path did (`KeepsStart`). So
a relative path with `./` in front leads to the same place as without it, completed or not.
-/

namespace StyleWeave

namespace Text

theorem exists_trimSlashes (s : String) :
    ∃ k, s.toList = (trimSlashes s).toList ++ List.replicate k '/' := by
  refine ⟨(s.toList.reverse.takeWhile (· = '/')).length, ?_⟩
  have hslashes : s.toList.reverse.takeWhile (· = '/') =
      List.replicate (s.toList.reverse.takeWhile (· = '/')).length '/' :=
    List.eq_replicate_of_mem fun c hc => by simpa using List.mem_takeWhile_imp hc
  have hsplit : s.toList.reverse.takeWhile (· = '/') ++ s.toList.reverse.dropWhile (· = '/') =
      s.toList.reverse := List.takeWhile_append_dropWhile
  rw [trimSlashes, trimEndWhile, String.toList_ofList, dropEndWhile, ← List.reverse_replicate,
    ← hslashes, ← List.reverse_append, hsplit, List.reverse_reverse]

theorem trimSlashes_append (a : String) {b : String} (h : trimSlashes b ≠ "") :
    trimSlashes (a ++ b) = a ++ trimSlashes b := by
  have hne : b.toList.reverse.dropWhile (· = '/') ≠ [] := by
    intro hnil
    refine h ?_
    rw [trimSlashes, trimEndWhile, dropEndWhile, hnil]
    rfl
  rw [← String.toList_inj, String.toList_append, trimSlashes, trimSlashes, trimEndWhile,
    trimEndWhile, String.toList_ofList, String.toList_ofList, dropEndWhile, dropEndWhile,
    String.toList_append, List.reverse_append, List.dropWhile_append, if_neg (by simpa using hne),
    List.reverse_append, List.reverse_reverse]

theorem trimSlashes_trimSlashes (s : String) : trimSlashes (trimSlashes s) = trimSlashes s := by
  rw [trimSlashes, trimEndWhile, trimSlashes, trimEndWhile, String.toList_ofList, dropEndWhile,
    dropEndWhile, List.reverse_reverse, List.dropWhile_idempotent]

end Text

namespace Reference

theorem isRelative_iff {name : String} :
    isRelative name = true ↔
      ['.'] ++ ['/'] <+: name.toList ∨ ['.', '.'] ++ ['/'] <+: name.toList := by
  unfold isRelative
  constructor
  · intro h
    split at h
    · next rest hname => exact Or.inl (by simp [hname])
    · next rest hname => exact Or.inr (by simp [hname])
    · cases h
  · rintro (⟨rest, hname⟩ | ⟨rest, hname⟩)
    · simp [← hname]
    · simp [← hname]

end Reference

/-- A way to complete a path by what it ends with, after which it still starts where it did. -/
structure KeepsStart (complete : String → String) : Prop where
  relative : ∀ path, Reference.isRelative path = true →
    Reference.isRelative (complete path) = true
  absolute : ∀ path, path ≠ "" → Path.isAbsolute ⟨complete path⟩ = Path.isAbsolute ⟨path⟩
  here : ∀ path, path ≠ "" → Path.isAbsolute ⟨path⟩ = false →
    complete ("./" ++ path) = "./" ++ complete path

theorem keepsStart_id : KeepsStart id where
  relative _ h := h
  absolute _ _ := rfl
  here _ _ _ := rfl

theorem keepsStart_withExtension (d : Dialect) : KeepsStart d.withExtension where
  relative path h := by
    have hstart : path.toList <+: (d.withExtension path).toList := by
      simp [Dialect.withExtension, String.toList_append]
    rw [Reference.isRelative_iff] at h ⊢
    exact h.imp (·.trans hstart) (·.trans hstart)
  absolute path hne := by
    have hnonempty : path.toList ≠ [] := by rwa [Ne, String.toList_eq_nil_iff]
    simp only [Path.isAbsolute, Dialect.withExtension, String.toList_append, List.append_assoc]
    rw [List.head?_append_of_ne_nil _ hnonempty]
  here path _ _ := by
    simp only [Dialect.withExtension, String.append_assoc]

/-- What starts with a step up or down still does when the slashes at its end become one. -/
theorem prefix_of_prefix_replicate {l t rest : List Char} {k : Nat} (hl : '/' ∉ l)
    (h : l ++ ['/'] <+: t ++ List.replicate k '/') : l ++ ['/'] <+: t ++ '/' :: rest := by
  induction l generalizing t with
  | nil =>
    cases t with
    | nil => simp
    | cons c t =>
      obtain ⟨hc, -⟩ := List.cons_prefix_cons.1 h
      simp [← hc]
  | cons a l ih =>
    obtain ⟨ha, hl⟩ := not_or.1 (mt List.mem_cons.2 hl)
    cases t with
    | nil =>
      cases k with
      | zero => simp at h
      | succ k =>
        obtain ⟨hslash, -⟩ := List.cons_prefix_cons.1 h
        exact absurd hslash.symm ha
    | cons c t =>
      obtain ⟨rfl, hrest⟩ := List.cons_prefix_cons.1 h
      exact List.cons_prefix_cons.2 ⟨rfl, ih hl hrest⟩

theorem indexRequest_toList (d : Dialect) (path : String) : ∃ rest,
    (d.indexRequest path).toList = (Text.trimSlashes path).toList ++ '/' :: rest := by
  refine ⟨(d.indexFile ++ "." ++ d.extension).toList, ?_⟩
  simp [Dialect.indexRequest, String.toList_append]

theorem keepsStart_indexRequest (d : Dialect) : KeepsStart d.indexRequest where
  relative path h := by
    obtain ⟨k, hpath⟩ := Text.exists_trimSlashes path
    obtain ⟨rest, hindex⟩ := indexRequest_toList d path
    rw [Reference.isRelative_iff, hpath] at h
    rw [Reference.isRelative_iff, hindex]
    exact h.imp (prefix_of_prefix_replicate (by decide))
      (prefix_of_prefix_replicate (by decide))
  absolute path hne := by
    obtain ⟨k, hpath⟩ := Text.exists_trimSlashes path
    obtain ⟨rest, hindex⟩ := indexRequest_toList d path
    simp only [Path.isAbsolute]
    rw [hindex, hpath]
    cases htrim : (Text.trimSlashes path).toList with
    | cons c t => rfl
    | nil =>
      cases k with
      | zero =>
        rw [htrim] at hpath
        exact absurd (String.toList_eq_nil_iff.1 hpath) hne
      | succ k => rfl
  here path hne habs := by
    have htrim : Text.trimSlashes path ≠ "" := by
      intro hempty
      obtain ⟨k, hpath⟩ := Text.exists_trimSlashes path
      rw [hempty] at hpath
      cases k with
      | zero => exact hne (String.toList_eq_nil_iff.1 hpath)
      | succ k => simp [Path.isAbsolute, hpath, List.replicate_succ] at habs
    simp only [Dialect.indexRequest, Text.trimSlashes_append "./" htrim, String.append_assoc]

end StyleWeave
