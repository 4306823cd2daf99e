import StyleWeave.Proofs.Text.Lines
import StyleWeave.Proofs.Text.Solid

/-!
# Rows of a text

The rows of a text are its lines without the blanks around them, blank lines left out.
-/

namespace StyleWeave.Text

/-- A line by itself as rows: one, or none if it is blank. -/
def row (cs : List Char) : List (List Char) :=
  if (trim cs).isEmpty then [] else [trim cs]

def rows (cs : List Char) : List (List Char) :=
  (chunks cs).flatMap row

variable {a b cs : List Char}

/-! ## Trimming -/

theorem trim_blank_append (hb : ∀ c ∈ b, isBlank c = true) (cs : List Char) :
    trim (b ++ cs) = trim cs := by
  rw [trim, trimStart, List.dropWhile_append_of_pos hb]
  rfl

theorem dropEndWhile_append {p : Char → Bool} (hb : ∀ c ∈ b, p c = true) (cs : List Char) :
    dropEndWhile p (cs ++ b) = dropEndWhile p cs := by
  rw [dropEndWhile, List.reverse_append, List.dropWhile_append_of_pos]
  · rfl
  · intro c hc
    exact hb c (List.mem_reverse.1 hc)

theorem trim_append_blank (hb : ∀ c ∈ b, isBlank c = true) (cs : List Char) :
    trim (cs ++ b) = trim cs := by
  by_cases hcs : ∀ c ∈ cs, isBlank c = true
  · have hall : ∀ ds : List Char, (∀ c ∈ ds, isBlank c = true) → trim ds = [] := by
      intro ds hds
      have hsolid := solid_eq_nil_iff.2 hds
      simpa using trim_isEmpty_iff.2 hsolid
    rw [hall cs hcs, hall]
    intro c hc
    exact (List.mem_append.1 hc).elim (hcs c) (hb c)
  · have hstart : trimStart (cs ++ b) = trimStart cs ++ b := by
      have hne : (cs.dropWhile isBlank).isEmpty = false := by
        rw [Bool.eq_false_iff]
        intro hempty
        exact hcs (List.dropWhile_eq_nil_iff.1 (List.isEmpty_iff.1 hempty))
      rw [trimStart, List.dropWhile_append, hne]
      rfl
    rw [trim, hstart, dropEndWhile_append hb]
    rfl

/-- A text is what is left of it by trimming, between blanks. -/
theorem exists_trim (cs : List Char) :
    ∃ front back, cs = front ++ (trim cs ++ back) ∧ (∀ c ∈ front, isBlank c = true) ∧
      ∀ c ∈ back, isBlank c = true := by
  have hback := congrArg List.reverse
    (List.takeWhile_append_dropWhile (l := (trimStart cs).reverse) (p := isBlank))
  rw [List.reverse_append, List.reverse_reverse] at hback
  refine ⟨leading cs, ((trimStart cs).reverse.takeWhile isBlank).reverse, ?_, ?_, ?_⟩
  · rw [trim, dropEndWhile, hback, leading_append_trimStart]
  · exact fun c hc => List.all_eq_true.1 (List.all_takeWhile (l := cs)) c hc
  · intro c hc
    exact List.all_eq_true.1 (List.all_takeWhile (l := (trimStart cs).reverse)) c
      (List.mem_reverse.1 hc)

/-! ## Rows -/

theorem row_blank_append (hb : ∀ c ∈ b, isBlank c = true) (cs : List Char) :
    row (b ++ cs) = row cs := by
  rw [row, trim_blank_append hb, row]

theorem row_append_blank (hb : ∀ c ∈ b, isBlank c = true) (cs : List Char) :
    row (cs ++ b) = row cs := by
  rw [row, trim_append_blank hb, row]

theorem row_blank (hb : ∀ c ∈ b, isBlank c = true) : row b = [] := by
  have hrow := row_append_blank hb []
  rw [List.nil_append] at hrow
  rw [hrow]
  rfl

theorem chunks_line (ha : '\n' ∉ a) (b : List Char) :
    chunks (a ++ '\n' :: b) = (a ++ ['\n']) :: chunks b := by
  induction a with
  | nil => rfl
  | cons c a ih =>
    have hc : c ≠ '\n' := fun heq => ha (heq ▸ List.mem_cons_self)
    have hrest := ih fun hmem => ha (List.mem_cons_of_mem _ hmem)
    rw [List.cons_append, chunks, if_neg hc, hrest]
    rfl

theorem chunks_single (ha : '\n' ∉ a) (hne : a ≠ []) : chunks a = [a] := by
  induction a with
  | nil => exact (hne rfl).elim
  | cons c a ih =>
    have hc : c ≠ '\n' := fun heq => ha (heq ▸ List.mem_cons_self)
    rw [chunks, if_neg hc]
    cases a with
    | nil => rfl
    | cons d a => rw [ih (fun hmem => ha (List.mem_cons_of_mem _ hmem)) (List.cons_ne_nil _ _)]

theorem rows_line (ha : '\n' ∉ a) (b : List Char) : rows (a ++ '\n' :: b) = row a ++ rows b := by
  have hfeed : row (a ++ ['\n']) = row a :=
    row_append_blank (fun c hc => by rw [List.mem_singleton.1 hc]; rfl) a
  rw [rows, chunks_line ha, List.flatMap_cons, hfeed]
  rfl

theorem rows_single (ha : '\n' ∉ a) : rows a = row a := by
  cases a with
  | nil => rfl
  | cons c a =>
    rw [rows, chunks_single ha (List.cons_ne_nil _ _), List.flatMap_singleton]

/-- A text is one line, or a line and what follows it. -/
theorem exists_line (cs : List Char) :
    '\n' ∉ cs ∨ ∃ a b, '\n' ∉ a ∧ cs = a ++ '\n' :: b := by
  induction cs with
  | nil => exact Or.inl (by simp)
  | cons c cs ih =>
    by_cases hc : c = '\n'
    · exact Or.inr ⟨[], cs, by simp, by rw [hc]; rfl⟩
    · rcases ih with hno | ⟨a, b, ha, rfl⟩
      · left
        rw [List.mem_cons]
        exact fun hmem => hmem.elim (fun heq => hc heq.symm) hno
      · refine Or.inr ⟨c :: a, b, ?_, rfl⟩
        rw [List.mem_cons]
        exact fun hmem => hmem.elim (fun heq => hc heq.symm) ha

/-- The rows of a text that is cut at a line break. -/
theorem rows_append_feed (a b : List Char) : rows (a ++ '\n' :: b) = rows a ++ rows b := by
  induction hlength : a.length using Nat.strongRecOn generalizing a with
  | ind length ih =>
    rcases exists_line a with hno | ⟨first, rest, hfirst, rfl⟩
    · rw [rows_line hno, rows_single hno]
    · have hshorter : rest.length < length := by
        rw [← hlength, List.length_append, List.length_cons]
        omega
      rw [List.append_assoc, List.cons_append, rows_line hfirst, rows_line hfirst,
        ih _ hshorter rest rfl, List.append_assoc]

theorem rows_blank (hb : ∀ c ∈ b, isBlank c = true) : rows b = [] := by
  refine List.flatMap_eq_nil_iff.2 fun chunk hchunk => row_blank fun c hc => hb c ?_
  rw [← flatten_chunks b]
  exact List.mem_flatten.2 ⟨chunk, hchunk, hc⟩

theorem rows_blank_append (hb : ∀ c ∈ b, isBlank c = true) (cs : List Char) :
    rows (b ++ cs) = rows cs := by
  induction hlength : b.length using Nat.strongRecOn generalizing b with
  | ind length ih =>
    rcases exists_line b with hno | ⟨first, rest, hfirst, rfl⟩
    · rcases exists_line cs with hnone | ⟨a, more, ha, rfl⟩
      · have hboth : '\n' ∉ b ++ cs := fun hmem => (List.mem_append.1 hmem).elim hno hnone
        rw [rows_single hboth, rows_single hnone, row_blank_append hb]
      · have hboth : '\n' ∉ b ++ a := fun hmem => (List.mem_append.1 hmem).elim hno ha
        rw [← List.append_assoc, rows_line hboth, rows_line ha, row_blank_append hb]
    · have hshorter : rest.length < length := by
        rw [← hlength, List.length_append, List.length_cons]
        omega
      have hblank : ∀ c ∈ first, isBlank c = true := fun c hc => hb c (List.mem_append_left _ hc)
      rw [List.append_assoc, List.cons_append, rows_line hfirst, row_blank hblank,
        ih _ hshorter (fun c hc => hb c (List.mem_append_right _ (List.mem_cons_of_mem _ hc))) rfl]
      rfl

theorem rows_append_blank (hb : ∀ c ∈ b, isBlank c = true) (cs : List Char) :
    rows (cs ++ b) = rows cs := by
  induction hlength : cs.length using Nat.strongRecOn generalizing cs with
  | ind length ih =>
    rcases exists_line cs with hno | ⟨first, rest, hfirst, rfl⟩
    · rcases exists_line b with hnone | ⟨a, more, ha, rfl⟩
      · have hboth : '\n' ∉ cs ++ b := fun hmem => (List.mem_append.1 hmem).elim hno hnone
        rw [rows_single hboth, rows_single hno, row_append_blank hb]
      · have hboth : '\n' ∉ cs ++ a := fun hmem => (List.mem_append.1 hmem).elim hno ha
        have hfront : ∀ c ∈ a, isBlank c = true := fun c hc => hb c (List.mem_append_left _ hc)
        have hback : ∀ c ∈ more, isBlank c = true :=
          fun c hc => hb c (List.mem_append_right _ (List.mem_cons_of_mem _ hc))
        rw [← List.append_assoc, rows_line hboth, row_append_blank hfront, rows_blank hback,
          rows_single hno, List.append_nil]
    · have hshorter : rest.length < length := by
        rw [← hlength, List.length_append, List.length_cons]
        omega
      rw [List.append_assoc, List.cons_append, rows_line hfirst, rows_line hfirst,
        ih _ hshorter rest rfl]

@[simp] theorem rows_trim (cs : List Char) : rows (trim cs) = rows cs := by
  obtain ⟨front, back, hsplit, hfront, hback⟩ := exists_trim cs
  calc rows (trim cs) = rows (front ++ (trim cs ++ back)) := by
        rw [rows_blank_append hfront, rows_append_blank hback]
    _ = rows cs := by rw [← hsplit]

/-- The line in front of the text ends there. -/
def Breaks (b : List Char) : Prop :=
  (∀ c ∈ b, isBlank c = true) ∨
    ∃ front rest, b = front ++ '\n' :: rest ∧ ∀ c ∈ front, isBlank c = true

theorem rows_append_of_breaks (h : Breaks b) (a : List Char) :
    rows (a ++ b) = rows a ++ rows b := by
  rcases h with hblank | ⟨front, rest, rfl, hfront⟩
  · rw [rows_append_blank hblank, rows_blank hblank, List.append_nil]
  · rw [← List.append_assoc, rows_append_feed, rows_append_feed, rows_append_blank hfront,
      rows_blank hfront, List.nil_append]

/-- A line break up to the next line, or to the end of the text, ends a line. -/
theorem breaks_of_lineBreak (hbreak : ∀ c ∈ a, c = '\r' ∨ c = '\n') (h : '\n' ∈ a ∨ b = []) :
    Breaks (a ++ b) := by
  have hblank : ∀ c ∈ a, isBlank c = true := by
    intro c hc
    rcases hbreak c hc with rfl | rfl <;> rfl
  rcases h with hfeed | rfl
  · obtain ⟨front, rest, rfl⟩ := List.append_of_mem hfeed
    refine Or.inr ⟨front, rest ++ b, by simp, fun c hc => hblank c (List.mem_append_left _ hc)⟩
  · rw [List.append_nil]
    exact Or.inl hblank

/-- Each row is a row by itself. -/
theorem rows_of_mem {r : List Char} (h : r ∈ rows cs) : rows r = [r] := by
  obtain ⟨chunk, hchunk, hrow⟩ := List.mem_flatMap.1 h
  obtain ⟨front, back, hsplit, hfront, hback⟩ := exists_trim chunk
  have hsame : row chunk = row (trim chunk) := by
    calc row chunk = row (front ++ (trim chunk ++ back)) := by rw [← hsplit]
      _ = row (trim chunk) := by rw [row_blank_append hfront, row_append_blank hback]
  have hline : '\n' ∉ trim chunk := by
    obtain ⟨tail, htail, hfeeds⟩ := dropLastIf_append '\n' chunk
    have hblank : ∀ c ∈ tail, isBlank c = true := by
      intro c hc
      rw [hfeeds c hc]
      rfl
    rw [htail, trim_append_blank hblank]
    have hpart := trim_infix (dropLastIf '\n' chunk)
    exact fun hmem => no_feed_of_mem_chunks hchunk (hpart.subset hmem)
  have hone : row chunk = [trim chunk] := by
    unfold row at hrow ⊢
    split at hrow
    · cases hrow
    · next hsolid => rw [if_neg hsolid]
  rw [hone, List.mem_singleton] at hrow
  rw [hrow, rows_single hline, ← hsame, hone]

theorem solid_rows (cs : List Char) : (rows cs).flatMap solid = solid cs := by
  have hrow : ∀ chunk : List Char, (row chunk).flatMap solid = solid chunk := by
    intro chunk
    unfold row
    split
    · next hblank => rw [trim_isEmpty_iff.1 hblank, List.flatMap_nil]
    · rw [List.flatMap_singleton, solid_trim]
  have hchunks : ∀ parts : List (List Char),
      (parts.flatMap row).flatMap solid = solid parts.flatten := by
    intro parts
    induction parts with
    | nil => rfl
    | cons chunk rest ih =>
      rw [List.flatMap_cons, List.flatMap_append, hrow, ih, List.flatten_cons, solid_append]
  rw [rows, hchunks, flatten_chunks]

end StyleWeave.Text
