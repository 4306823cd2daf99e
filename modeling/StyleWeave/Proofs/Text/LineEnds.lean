import Mathlib.Data.List.Forall2
import StyleWeave.Proofs.Text.Lines
import StyleWeave.Text.Blank

/-!
# Line ends

With a carriage return in front of each line feed (`crlf`), what stands in a text moves by one byte
for each line feed in front of it (`moved`). The text has the same lines at other places
(`lines_crlf`), and between two places it has the same characters and more line ends (`slice_near`).
-/

namespace StyleWeave.Text

/-- A text with a carriage return in front of each line feed. -/
def crlf : List Char → List Char
  | [] => []
  | c :: cs => if c = '\n' then '\r' :: '\n' :: crlf cs else c :: crlf cs

variable {cs : List Char} {m n n' : Nat}

@[simp] theorem crlf_nil : crlf [] = [] := rfl

@[simp] theorem crlf_feed (cs : List Char) : crlf ('\n' :: cs) = '\r' :: '\n' :: crlf cs := rfl

theorem crlf_cons {c : Char} (h : c ≠ '\n') (cs : List Char) : crlf (c :: cs) = c :: crlf cs :=
  if_neg h

@[simp] theorem crlf_append (u v : List Char) : crlf (u ++ v) = crlf u ++ crlf v := by
  induction u with
  | nil => rfl
  | cons c u ih =>
    by_cases hc : c = '\n'
    · subst hc
      rw [List.cons_append, crlf_feed, crlf_feed, ih]
      rfl
    · rw [List.cons_append, crlf_cons hc, crlf_cons hc, ih]
      rfl

theorem crlf_of_no_feed (h : '\n' ∉ cs) : crlf cs = cs := by
  induction cs with
  | nil => rfl
  | cons c cs ih =>
    rw [List.mem_cons, not_or] at h
    rw [crlf_cons (Ne.symm h.1), ih h.2]

theorem bytes_crlf (cs : List Char) : bytes (crlf cs) = bytes cs + cs.count '\n' := by
  induction cs with
  | nil => rfl
  | cons c cs ih =>
    by_cases hc : c = '\n'
    · subst hc
      have hwidth : Char.utf8Size '\r' = 1 := rfl
      rw [crlf_feed, bytes_cons, bytes_cons, bytes_cons, ih, hwidth, List.count_cons_self]
      omega
    · rw [crlf_cons hc, bytes_cons, bytes_cons, ih, List.count_cons_of_ne hc]
      omega

/-- Of other characters there are as many as before. -/
theorem count_crlf {c : Char} (h : c ≠ '\r') (cs : List Char) : (crlf cs).count c = cs.count c := by
  induction cs with
  | nil => rfl
  | cons d cs ih =>
    by_cases hd : d = '\n'
    · subst hd
      rw [crlf_feed, List.count_cons_of_ne h.symm, List.count_cons, List.count_cons, ih]
    · rw [crlf_cons hd, List.count_cons, List.count_cons, ih]

/-! ## Places -/

/-- Where the place `n` of a text is once its line feeds have carriage returns. -/
def moved (cs : List Char) (n : Nat) : Nat :=
  n + (takeBytes cs n).count '\n'

theorem moved_bytes (u v : List Char) : moved (u ++ v) (bytes u) = bytes (crlf u) := by
  rw [moved, takeBytes_bytes_append, bytes_crlf]

theorem takeBytes_mono (cs : List Char) (h : m ≤ n) : takeBytes cs m <+: takeBytes cs n := by
  induction cs generalizing m n with
  | nil => exact List.prefix_rfl
  | cons c cs ih =>
    by_cases hm : m = 0
    · rw [hm, takeBytes_zero]
      exact List.nil_prefix
    · have hn : n ≠ 0 := by omega
      rw [takeBytes, takeBytes, if_neg hm, if_neg hn, List.cons_prefix_cons]
      exact ⟨rfl, ih (by omega)⟩

theorem moved_lt_moved (cs : List Char) (h : m < n) : moved cs m < moved cs n := by
  have hcount := (takeBytes_mono cs (Nat.le_of_lt h)).sublist.count_le '\n'
  unfold moved
  omega

theorem moved_lt_iff (cs : List Char) : moved cs m < moved cs n ↔ m < n := by
  constructor
  · intro h
    by_contra hle
    rcases Nat.lt_or_eq_of_le (Nat.not_lt.1 hle) with hlt | heq
    · have hback := moved_lt_moved cs hlt
      omega
    · rw [heq] at h
      omega
  · exact moved_lt_moved cs

theorem moved_le_iff (cs : List Char) : moved cs m ≤ moved cs n ↔ m ≤ n := by
  rw [← Nat.not_lt, moved_lt_iff, Nat.not_lt]

/-- A line that is not empty ends at the place. -/
def EndsRow (cs : List Char) (n : Nat) : Prop :=
  ∃ before behind, cs = before ++ '\n' :: behind ∧ bytes before = n ∧
    ∃ c, before.getLast? = some c ∧ c ≠ '\n'

/-- A line starts at the place. -/
def StartsRow (cs : List Char) (n : Nat) : Prop :=
  ∃ before behind, cs = before ++ behind ∧ bytes before = n ∧
    ∀ c, before.getLast? = some c → c = '\n'

/-- The place is where `n` has moved, or behind the carriage return that was put there. -/
def Near (cs : List Char) (n n' : Nat) : Prop :=
  n' = moved cs n ∨ n' = moved cs n + 1 ∧ EndsRow cs n

theorem EndsRow.moved_add (h : EndsRow cs n) (hlt : n < m) : moved cs n + 2 ≤ moved cs m := by
  obtain ⟨before, behind, rfl, rfl, -⟩ := h
  have hnext : moved (before ++ '\n' :: behind) (bytes before + 1) = bytes (crlf before) + 2 := by
    have hmoved := moved_bytes (before ++ ['\n']) behind
    rw [List.append_assoc, bytes_append, crlf_append, bytes_append] at hmoved
    exact hmoved
  rw [moved_bytes, ← hnext, moved_le_iff]
  omega

/-- No line starts where one ends that is not empty. -/
theorem EndsRow.not_starts (h : EndsRow cs n) : ¬ StartsRow cs n := by
  rintro ⟨before', behind', hcs, hbytes, hlast'⟩
  obtain ⟨before, behind, rfl, rfl, c, hlast, hne⟩ := h
  have hsame : before' = before := by
    rw [← takeBytes_bytes_append before' behind', ← hcs, hbytes, takeBytes_bytes_append]
  rw [hsame] at hlast'
  exact hne (hlast' c hlast)

theorem Near.lt_iff (h : Near cs n n') (m : Nat) : n' < moved cs m ↔ n < m := by
  rcases h with rfl | ⟨rfl, hends⟩
  · exact moved_lt_iff cs
  · constructor
    · intro hlt
      rw [← moved_lt_iff cs]
      omega
    · intro hlt
      have hfar := hends.moved_add hlt
      omega

/-- Places keep their order to the starts of lines. -/
theorem Near.le_iff (h : Near cs n n') (hm : StartsRow cs m) : n' ≤ moved cs m ↔ n ≤ m := by
  rcases h with rfl | ⟨rfl, hends⟩
  · exact moved_le_iff cs
  · have hne : n ≠ m := by
      rintro rfl
      exact hends.not_starts hm
    constructor
    · intro hle
      rw [← moved_le_iff cs]
      omega
    · intro hle
      have hfar := hends.moved_add (Nat.lt_of_le_of_ne hle hne)
      omega

theorem near_moved (cs : List Char) (n : Nat) : Near cs n (moved cs n) :=
  Or.inl rfl

theorem near_zero (cs : List Char) : Near cs 0 0 := by
  left
  rw [moved, takeBytes_zero]
  rfl

theorem Near.moved_le (h : Near cs n n') : moved cs n ≤ n' := by
  rcases h with rfl | ⟨rfl, -⟩ <;> omega

theorem Near.max {m' : Nat} (h : Near cs n n') (hm : Near cs m m') :
    Near cs (max n m) (max n' m') := by
  have hn' := h.moved_le
  have hm' := hm.moved_le
  rcases Nat.lt_trichotomy n m with hlt | rfl | hlt
  · have hlt' := (h.lt_iff m).2 hlt
    rw [Nat.max_eq_right (by omega), Nat.max_eq_right (by omega)]
    exact hm
  · rw [Nat.max_self]
    rcases Nat.le_total n' m' with hle | hle
    · rwa [Nat.max_eq_right hle]
    · rwa [Nat.max_eq_left hle]
  · have hlt' := (hm.lt_iff n).2 hlt
    rw [Nat.max_eq_left (by omega), Nat.max_eq_left (by omega)]
    exact h

theorem Near.min_stop (h : Near cs n n') (m : Nat) : Near cs (min n m) (min n' (moved cs m)) := by
  by_cases hlt : n < m
  · have hlt' := (h.lt_iff m).2 hlt
    rw [Nat.min_eq_left (by omega), Nat.min_eq_left (by omega)]
    exact h
  · have hlt' : ¬ n' < moved cs m := fun hlt' => hlt ((h.lt_iff m).1 hlt')
    rw [Nat.min_eq_right (by omega), Nat.min_eq_right (by omega)]
    exact Or.inl rfl

/-! ## Parts of texts -/

/-- The text has more line ends than another; the carriage return of one may be cut off in front. -/
def Recut (u u' : List Char) : Prop :=
  u' = crlf u ∨ '\r' :: u' = crlf u

theorem slice_of_le (h : n ≤ m) : slice cs m n = [] := by
  rw [slice, Nat.sub_eq_zero_of_le h, takeBytes_zero]

/-- Between two places, the text has the same characters as before, and more line ends. -/
theorem slice_near (h : Near cs n n') (hn : Boundary cs n) (hm : Boundary cs m) :
    Recut (slice cs n m) (slice (crlf cs) n' (moved cs m)) := by
  by_cases hlt : n < m
  · obtain ⟨a, b, c, rfl, rfl, rfl⟩ := hn.split hm (Nat.le_of_lt hlt)
    have hto : moved (a ++ (b ++ c)) (bytes a + bytes b) = bytes (crlf a) + bytes (crlf b) := by
      have hmoved := moved_bytes (a ++ b) c
      rwa [List.append_assoc, bytes_append, crlf_append, bytes_append] at hmoved
    rw [slice_of_append, hto]
    rcases h with rfl | ⟨rfl, before, behind, hcs, hbytes, -⟩
    · left
      rw [moved_bytes, crlf_append, crlf_append, slice_of_append]
    · -- The text between the places starts with a line feed, whose carriage return is cut off.
      right
      have hrest : b ++ c = '\n' :: behind := by
        rw [← dropBytes_bytes_append a (b ++ c), hcs, ← hbytes, dropBytes_bytes_append]
      obtain ⟨b', rfl⟩ : ∃ b', b = '\n' :: b' := by
        cases b with
        | nil => simp at hlt
        | cons d b' =>
          obtain ⟨rfl, -⟩ := List.cons.inj hrest
          exact ⟨b', rfl⟩
      have hwhole : crlf (a ++ ('\n' :: b' ++ c)) =
          (crlf a ++ ['\r']) ++ (('\n' :: crlf b') ++ crlf c) := by
        simp
      have hfrom : bytes (crlf a) + 1 = bytes (crlf a ++ ['\r']) := by
        rw [bytes_append]
        rfl
      have hstop : bytes (crlf a) + bytes (crlf ('\n' :: b')) =
          bytes (crlf a ++ ['\r']) + bytes ('\n' :: crlf b') := by
        rw [bytes_append, crlf_feed, Nat.add_assoc]
        rfl
      rw [moved_bytes, hwhole, hfrom, hstop, slice_of_append, crlf_feed]
  · have hle' : moved cs m ≤ n' := by
      have hnot := mt (h.lt_iff m).1 hlt
      omega
    left
    rw [slice_of_le hle', slice_of_le (Nat.not_lt.1 hlt), crlf_nil]

theorem Recut.count {u u' : List Char} (h : Recut u u') {c : Char} (hc : c ≠ '\r') :
    u'.count c = u.count c := by
  rw [← count_crlf hc u]
  rcases h with rfl | heq
  · rfl
  · rw [← heq, List.count_cons_of_ne hc.symm]

theorem Recut.trim {u u' : List Char} (h : Recut u u') (hu : '\n' ∉ u) : trim u' = trim u := by
  rw [← crlf_of_no_feed hu]
  rcases h with rfl | heq
  · rw [crlf_of_no_feed hu]
  · rw [← heq]
    rfl

/-! ## Lines -/

theorem chunks_crlf (cs : List Char) : chunks (crlf cs) = (chunks cs).map crlf := by
  induction cs with
  | nil => rfl
  | cons c cs ih =>
    by_cases hc : c = '\n'
    · subst hc
      rw [crlf_feed, chunks, if_neg (by decide), chunks, if_pos rfl, ih, chunks, if_pos rfl]
      rfl
    · rw [crlf_cons hc, chunks, if_neg hc, ih, chunks, if_neg hc]
      cases chunks cs with
      | nil => rw [List.map_nil, List.map_singleton, crlf_cons hc, crlf_nil]
      | cons chunk rest => rw [List.map_cons, List.map_cons, crlf_cons hc]

theorem dropLastIf_of_ne {c : Char} (h : cs.getLast? ≠ some c) : dropLastIf c cs = cs :=
  if_neg h

theorem dropLastIf_concat (c : Char) (cs : List Char) : dropLastIf c (cs ++ [c]) = cs := by
  unfold dropLastIf
  rw [List.getLast?_concat, if_pos rfl, List.dropLast_concat]

/-- A chunk is a line with a line feed behind it, or the last line. -/
theorem chunk_cases {chunk : List Char} (h : '\n' ∉ dropLastIf '\n' chunk) :
    '\n' ∉ chunk ∨ ∃ line, chunk = line ++ ['\n'] ∧ '\n' ∉ line := by
  by_cases hlast : chunk.getLast? = some '\n'
  · obtain ⟨line, rfl⟩ := List.getLast?_eq_some_iff.1 hlast
    rw [dropLastIf_concat] at h
    exact Or.inr ⟨line, rfl, h⟩
  · rw [dropLastIf_of_ne hlast] at h
    exact Or.inl h

theorem lineBody_crlf {chunk : List Char} (h : '\n' ∉ dropLastIf '\n' chunk)
    (hreturn : '\r' ∉ chunk) : lineBody (crlf chunk) = lineBody chunk := by
  rcases chunk_cases h with hfeed | ⟨line, rfl, hfeed⟩
  · rw [crlf_of_no_feed hfeed]
  · have hline : '\r' ∉ line := fun hmem => hreturn (List.mem_append_left _ hmem)
    have hcrlf : crlf (line ++ ['\n']) = (line ++ ['\r']) ++ ['\n'] := by
      rw [crlf_append, crlf_of_no_feed hfeed, List.append_assoc]
      rfl
    have hkept : dropLastIf '\r' line = line :=
      dropLastIf_of_ne fun hlast => hline (List.mem_of_getLast? hlast)
    rw [lineBody, lineBody, hcrlf, dropLastIf_concat, dropLastIf_concat, dropLastIf_concat, hkept]

/-- The lines have the same number and text, and the second lies where the first has moved. -/
structure Line.Moved (cs : List Char) (line line' : Line) : Prop where
  number : line'.number = line.number
  text : line'.text = line.text
  start : line'.start = Text.moved cs line.start
  stop : line'.stop = Text.moved cs line.stop
  begins : StartsRow cs line.start

theorem linesFrom_crlf (before : List Char) (parts : List (List Char)) (number : Nat)
    (hcs : cs = before ++ parts.flatten) (hbegins : ∀ c, before.getLast? = some c → c = '\n')
    (hreturn : '\r' ∉ cs) (hparts : ∀ chunk ∈ parts, '\n' ∉ dropLastIf '\n' chunk)
    (hfeeds : ∀ chunk ∈ parts.dropLast, '\n' ∈ chunk) :
    List.Forall₂ (Line.Moved cs) (linesFrom number (bytes before) parts)
      (linesFrom number (bytes (crlf before)) (parts.map crlf)) := by
  induction parts generalizing before number with
  | nil => exact .nil
  | cons chunk rest ih =>
    have hchunk := hparts chunk List.mem_cons_self
    have hclean : '\r' ∉ chunk := by
      intro hmem
      apply hreturn
      rw [hcs, List.flatten_cons]
      exact List.mem_append_right _ (List.mem_append_left _ hmem)
    obtain ⟨tail, hbody, -⟩ := lineBody_append chunk
    have hsingle : '\n' ∉ lineBody chunk := by
      obtain ⟨cr, hcr, -⟩ := dropLastIf_append '\r' (dropLastIf '\n' chunk)
      rw [hcr] at hchunk
      exact fun hmem => hchunk (List.mem_append_left _ hmem)
    have hstart : moved cs (bytes before) = bytes (crlf before) := by
      rw [hcs, moved_bytes]
    have hstop : moved cs (bytes before + bytes (lineBody chunk)) =
        bytes (crlf before) + bytes (lineBody chunk) := by
      have hcut : cs = (before ++ lineBody chunk) ++ (tail ++ rest.flatten) := by
        rw [hcs, List.flatten_cons, List.append_assoc, ← List.append_assoc (lineBody chunk),
          ← hbody]
      rw [hcut, ← bytes_append, moved_bytes, crlf_append, crlf_of_no_feed hsingle, bytes_append]
    rw [List.map_cons, linesFrom, linesFrom, lineBody_crlf hchunk hclean]
    refine .cons ⟨rfl, rfl, hstart.symm, hstop.symm, before, _, hcs, rfl, hbegins⟩ ?_
    rw [← bytes_append, ← bytes_append, ← crlf_append]
    cases rest with
    | nil => exact .nil
    | cons next more =>
      -- There is a line behind this one, so it has a line feed at its end.
      have hfeed : '\n' ∈ chunk := hfeeds chunk List.mem_cons_self
      obtain ⟨line, rfl, -⟩ := (chunk_cases hchunk).resolve_left (not_not_intro hfeed)
      refine ih (before ++ (line ++ ['\n'])) (number + 1) ?_ ?_ ?_ ?_
      · rw [hcs, List.flatten_cons, ← List.append_assoc before]
      · intro c hc
        rw [← List.append_assoc, List.getLast?_concat] at hc
        exact (Option.some.inj hc).symm
      · exact fun c hc => hparts c (List.mem_cons_of_mem _ hc)
      · exact fun c hc => hfeeds c (List.mem_cons_of_mem _ hc)

/-- With carriage returns, a text that had none has the same lines, and they have moved. -/
theorem lines_crlf (h : '\r' ∉ cs) :
    List.Forall₂ (Line.Moved cs) (lines cs) (lines (crlf cs)) := by
  rw [lines, lines, chunks_crlf]
  refine linesFrom_crlf [] (chunks cs) 0 ?_ ?_ h (fun _ => no_feed_of_mem_chunks)
    fun _ => feed_of_mem_dropLast
  · rw [flatten_chunks]
    rfl
  · intro c hc
    cases hc

end StyleWeave.Text
