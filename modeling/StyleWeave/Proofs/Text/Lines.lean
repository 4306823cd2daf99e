import StyleWeave.Proofs.Text.Offset
import StyleWeave.Text.Lines

/-!
# Where lines lie

The lines of a text follow one another from its start to its end, and between two of them there is
nothing but a line break.
-/

namespace StyleWeave.Text

variable {cs : List Char}

/-- The lines lie in the text from byte `pos` to its end and have numbers from `number` on. -/
inductive LinesAt (cs : List Char) : Nat → Nat → List Line → Prop where
  | nil {number : Nat} : LinesAt cs number (bytes cs) []
  | cons {next : Nat} {line : Line} {rest : List Line} (start : Boundary cs line.start)
      (stop : Boundary cs line.stop) (behind : Boundary cs next) (start_le : line.start ≤ line.stop)
      (stop_le : line.stop ≤ next) (text : slice cs line.start line.stop = line.text)
      (single : '\n' ∉ line.text)
      (lineBreak : ∀ c ∈ slice cs line.stop next, c = '\r' ∨ c = '\n')
      (broken : '\n' ∈ slice cs line.stop next ∨ next = bytes cs)
      (others : LinesAt cs (line.number + 1) next rest) :
      LinesAt cs line.number line.start (line :: rest)

/-- No line is broken. -/
theorem LinesAt.single_of_mem {number pos : Nat} {lines : List Line}
    (h : LinesAt cs number pos lines) {line : Line} (hm : line ∈ lines) : '\n' ∉ line.text := by
  induction h with
  | nil => cases hm
  | cons _ _ _ _ _ _ single _ _ _ ih =>
    rcases List.mem_cons.1 hm with rfl | hm
    · exact single
    · exact ih hm

/-- Each line lies between characters of the text. -/
theorem LinesAt.between_of_mem {number pos : Nat} {lines : List Line}
    (h : LinesAt cs number pos lines) {line : Line} (hm : line ∈ lines) :
    line.start ≤ line.stop ∧ Boundary cs line.start ∧ Boundary cs line.stop ∧
      slice cs line.start line.stop = line.text := by
  induction h with
  | nil => cases hm
  | cons start stop _ start_le _ text _ _ _ _ ih =>
    rcases List.mem_cons.1 hm with rfl | hm
    · exact ⟨start_le, start, stop, text⟩
    · exact ih hm

theorem LinesAt.eq_bytes {number pos : Nat} (h : LinesAt cs number pos []) : pos = bytes cs := by
  cases h
  rfl

/-- Behind a line that is the only one there is nothing but its line break. -/
theorem LinesAt.single_line {number pos : Nat} {line : Line} (h : LinesAt cs number pos [line]) :
    line.start = pos ∧ ∀ c ∈ slice cs line.stop (bytes cs), c = '\r' ∨ c = '\n' := by
  obtain - | ⟨-, -, -, -, -, -, -, lineBreak, -, others⟩ := h
  rw [← others.eq_bytes]
  exact ⟨rfl, lineBreak⟩

theorem LinesAt.le_number {number pos : Nat} {lines : List Line}
    (h : LinesAt cs number pos lines) {line : Line} (hm : line ∈ lines) : number ≤ line.number := by
  induction h with
  | nil => cases hm
  | cons _ _ _ _ _ _ _ _ _ _ ih =>
    rcases List.mem_cons.1 hm with rfl | hm
    · exact Nat.le_refl _
    · exact Nat.le_of_succ_le (ih hm)

/-- A line is told by its number. -/
theorem LinesAt.eq_of_number {number pos : Nat} {lines : List Line}
    (h : LinesAt cs number pos lines) {a b : Line} (ha : a ∈ lines) (hb : b ∈ lines)
    (heq : a.number = b.number) : a = b := by
  induction h with
  | nil => cases ha
  | cons _ _ _ _ _ _ _ _ _ others ih =>
    rcases List.mem_cons.1 ha with rfl | ha'
    · rcases List.mem_cons.1 hb with rfl | hb'
      · rfl
      · have hbehind := others.le_number hb'
        omega
    · rcases List.mem_cons.1 hb with rfl | hb'
      · have hbehind := others.le_number ha'
        omega
      · exact ih ha' hb'

theorem dropLastIf_append (c : Char) (cs : List Char) :
    ∃ tail, cs = dropLastIf c cs ++ tail ∧ ∀ d ∈ tail, d = c := by
  unfold dropLastIf
  split
  · next h =>
    have hne : cs ≠ [] := by
      rintro rfl
      cases h
    have hlast : cs.getLast hne = c := by
      rw [List.getLast?_eq_some_getLast hne] at h
      exact Option.some.inj h
    refine ⟨[c], ?_, by simp⟩
    rw [← hlast, List.dropLast_concat_getLast]
  · exact ⟨[], by simp, by simp⟩

/-- A chunk is its line and a line break. -/
theorem lineBody_append (chunk : List Char) :
    ∃ tail, chunk = lineBody chunk ++ tail ∧ ∀ c ∈ tail, c = '\r' ∨ c = '\n' := by
  obtain ⟨feed, hfeed, hfeed'⟩ := dropLastIf_append '\n' chunk
  obtain ⟨cr, hcr, hcr'⟩ := dropLastIf_append '\r' (dropLastIf '\n' chunk)
  refine ⟨cr ++ feed, ?_, fun c hc => ?_⟩
  · rw [lineBody, ← List.append_assoc, ← hcr, ← hfeed]
  · rcases List.mem_append.1 hc with hc | hc
    · exact Or.inl (hcr' c hc)
    · exact Or.inr (hfeed' c hc)

theorem ne_nil_of_mem_chunks {chunk : List Char} (h : chunk ∈ chunks cs) : chunk ≠ [] := by
  induction cs generalizing chunk with
  | nil => cases h
  | cons c cs ih =>
    unfold chunks at h
    split at h
    · rcases List.mem_cons.1 h with rfl | h
      · exact List.cons_ne_nil _ _
      · exact ih h
    · split at h
      · rw [List.mem_singleton.1 h]
        exact List.cons_ne_nil _ _
      · next first rest heq =>
        rcases List.mem_cons.1 h with rfl | h
        · exact List.cons_ne_nil _ _
        · exact ih (heq ▸ List.mem_cons_of_mem _ h)

/-- A chunk has a line feed at its end or none at all. -/
theorem no_feed_of_mem_chunks {chunk : List Char} (h : chunk ∈ chunks cs) :
    '\n' ∉ dropLastIf '\n' chunk := by
  induction cs generalizing chunk with
  | nil => cases h
  | cons c cs ih =>
    unfold chunks at h
    split at h
    · rcases List.mem_cons.1 h with rfl | h
      · next hc => simp [dropLastIf, hc]
      · exact ih h
    · next hc =>
      have hsame : ∀ d : List Char, d ≠ [] → dropLastIf '\n' (c :: d) = c :: dropLastIf '\n' d := by
        intro d hd
        obtain ⟨e, d, rfl⟩ := List.exists_cons_of_ne_nil hd
        simp only [dropLastIf, List.getLast?_cons_cons, List.dropLast_cons_cons]
        split <;> rfl
      split at h
      · rw [List.mem_singleton.1 h]
        have hfeed : ¬ '\n' = c := fun heq => hc heq.symm
        simp [dropLastIf, hc, hfeed]
      · next first rest heq =>
        rcases List.mem_cons.1 h with rfl | h
        · have hfirst : first ∈ chunks cs := heq ▸ List.mem_cons_self
          rw [hsame first (ne_nil_of_mem_chunks hfirst)]
          intro hm
          rcases List.mem_cons.1 hm with hfeed | hm
          · exact hc hfeed.symm
          · exact ih hfirst hm
        · exact ih (heq ▸ List.mem_cons_of_mem _ h)

/-- Each chunk but the last has a line feed. -/
theorem feed_of_mem_dropLast {chunk : List Char} (h : chunk ∈ (chunks cs).dropLast) :
    '\n' ∈ chunk := by
  induction cs generalizing chunk with
  | nil => cases h
  | cons c cs ih =>
    unfold chunks at h
    split at h
    · next hc =>
      cases hrest : chunks cs with
      | nil =>
        rw [hrest] at h
        cases h
      | cons first rest =>
        rw [List.dropLast_cons_of_ne_nil (by rw [hrest]; exact List.cons_ne_nil _ _)] at h
        rcases List.mem_cons.1 h with rfl | h
        · rw [hc]
          exact List.mem_cons_self
        · exact ih h
    · split at h
      · cases h
      · next first rest heq =>
        rw [heq] at ih
        by_cases hrest : rest = []
        · rw [hrest] at h
          cases h
        · rw [List.dropLast_cons_of_ne_nil hrest] at h ih
          rcases List.mem_cons.1 h with rfl | h
          · exact List.mem_cons_of_mem _ (ih List.mem_cons_self)
          · exact ih (List.mem_cons_of_mem _ h)

theorem linesAt_linesFrom (before : List Char) (parts : List (List Char)) (number : Nat)
    (hcs : cs = before ++ parts.flatten)
    (hparts : ∀ chunk ∈ parts, '\n' ∉ dropLastIf '\n' chunk)
    (hfeeds : ∀ chunk ∈ parts.dropLast, '\n' ∈ chunk) :
    LinesAt cs number (bytes before) (linesFrom number (bytes before) parts) := by
  induction parts generalizing before number with
  | nil =>
    have hall : before = cs := by simp [hcs]
    rw [hall]
    exact .nil
  | cons chunk rest ih =>
    obtain ⟨tail, hchunk, htail⟩ := lineBody_append chunk
    have hcut : cs = before ++ (lineBody chunk ++ (tail ++ rest.flatten)) := by
      rw [← List.append_assoc (lineBody chunk), ← hchunk, hcs, List.flatten_cons]
    have hnext : bytes before + bytes chunk = bytes (before ++ chunk) := (bytes_append _ _).symm
    have hbreak : slice cs (bytes before + bytes (lineBody chunk)) (bytes (before ++ chunk)) =
        tail := by
      have hbytes : bytes (before ++ chunk) =
          bytes (before ++ lineBody chunk) + bytes tail := by
        rw [← bytes_append, List.append_assoc, ← hchunk]
      rw [hcut, ← List.append_assoc, ← bytes_append, hbytes, slice_of_append]
    have hsingle : '\n' ∉ lineBody chunk := by
      obtain ⟨cr, hcr, -⟩ := dropLastIf_append '\r' (dropLastIf '\n' chunk)
      have hchunk' := hparts chunk List.mem_cons_self
      rw [hcr] at hchunk'
      exact fun hm => hchunk' (List.mem_append_left _ hm)
    have hothers : ∀ c ∈ rest.dropLast, '\n' ∈ c := by
      intro c hc
      cases rest with
      | nil => cases hc
      | cons first more => exact hfeeds c (List.mem_cons_of_mem _ hc)
    have hrest := ih (before ++ chunk) (number + 1) (by simp [hcs])
      (fun c hc => hparts c (List.mem_cons_of_mem _ hc)) hothers
    have hbroken : '\n' ∈ tail ∨ bytes (before ++ chunk) = bytes cs := by
      cases rest with
      | nil =>
        right
        rw [hcs, List.flatten_cons, List.flatten_nil, List.append_nil]
      | cons first more =>
        have hfeed := hfeeds chunk List.mem_cons_self
        rw [hchunk] at hfeed
        exact Or.inl ((List.mem_append.1 hfeed).resolve_left hsingle)
    unfold linesFrom
    rw [hnext]
    refine @LinesAt.cons _ _ ⟨number, bytes before, bytes before + bytes (lineBody chunk),
      lineBody chunk⟩ _ ?_ ?_ ?_ ?_ ?_ ?_ hsingle ?_ ?_ hrest
    · exact ⟨before, _, hcut, rfl⟩
    · exact ⟨before ++ lineBody chunk, tail ++ rest.flatten, by rw [hcut, List.append_assoc],
        bytes_append _ _⟩
    · exact ⟨before ++ chunk, rest.flatten, by simp [hcs], rfl⟩
    · exact Nat.le_add_right _ _
    · have hbytes := congrArg bytes hchunk
      rw [bytes_append] at hbytes
      show bytes before + bytes (lineBody chunk) ≤ bytes (before ++ chunk)
      rw [bytes_append, hbytes]
      omega
    · show slice cs (bytes before) (bytes before + bytes (lineBody chunk)) = lineBody chunk
      rw [hcut, slice_of_append]
    · show ∀ c ∈ slice cs (bytes before + bytes (lineBody chunk)) _, _
      rw [hbreak]
      exact htail
    · show '\n' ∈ slice cs (bytes before + bytes (lineBody chunk)) _ ∨ _
      rw [hbreak]
      exact hbroken

theorem linesAt_lines (cs : List Char) : LinesAt cs 0 0 (lines cs) :=
  linesAt_linesFrom [] (chunks cs) 0 (by rw [flatten_chunks]; rfl)
    (fun _ => no_feed_of_mem_chunks) fun _ => feed_of_mem_dropLast

end StyleWeave.Text
