import StyleWeave.Proofs.Render.Plan
import StyleWeave.Proofs.Render.Substitution
import StyleWeave.Proofs.Text.Rows

/-!
# What is planned covers the text

Row by row, what is planned for the lines of a document is the text itself, with each import
statement in its place (`atoms_planLines`). The induction is on the lines; behind each of them the
text is done up to the start of the next line, or up to the end of a statement if that is further.
-/

namespace StyleWeave

open Text (Boundary LinesAt slice dropBytes rows)

/-- No statement starts in a line break. -/
theorem Syntax.Spans.behind_break {cs : List Char} {imports : List Import} {stop next pos : Nat}
    (h : Spans cs pos imports) (hstop : Boundary cs stop) (hnext : Boundary cs next)
    (hbreak : ∀ c ∈ slice cs stop next, c = '\r' ∨ c = '\n') (hle : stop ≤ pos) :
    Spans cs (max pos next) imports := by
  cases h with
  | nil => exact .nil _
  | @cons _ statement rest le lt start stop' head others =>
    refine .cons (Nat.max_le.2 ⟨le, ?_⟩) lt start stop' head others
    by_contra hlt
    have hat : '@' ∈ slice cs stop next :=
      Text.mem_slice_of_head? hstop start hnext (Nat.le_trans hle le) (by omega) head
    rcases hbreak '@' hat with h | h <;> cases h

namespace Inline

/-! ## Rows of parts -/

/-- The rows of a part, or the statement that it is. -/
def Part.atoms : Part → List Part
  | .text cs => (rows cs).map .text
  | .site _ s => [.site [] s]

/-- Parts without the blanks around their lines, cut into rows. -/
def atoms (ps : List Part) : List Part :=
  ps.flatMap Part.atoms

@[simp] theorem atoms_nil : atoms [] = [] := rfl

@[simp] theorem atoms_cons (p : Part) (ps : List Part) : atoms (p :: ps) = p.atoms ++ atoms ps :=
  rfl

@[simp] theorem atoms_append (ps ps' : List Part) : atoms (ps ++ ps') = atoms ps ++ atoms ps' :=
  List.flatMap_append

/-- Blank text in front of the first statement can be cut off. -/
theorem atoms_parts_blank {cs : List Char} {pos next : Nat} {sites : List ImportSite}
    (h : Syntax.Spans cs next (sites.map ImportSite.statement)) (hpos : Boundary cs pos)
    (hnext : Boundary cs next) (hle : pos ≤ next)
    (hblank : ∀ c ∈ slice cs pos next, Text.isBlank c = true) :
    atoms (parts cs pos sites) = atoms (parts cs next sites) := by
  cases sites with
  | nil =>
    simp only [parts, atoms_cons, Part.atoms]
    rw [← Text.slice_append_dropBytes hpos hnext hle, Text.rows_blank_append hblank]
  | cons site rest =>
    obtain - | ⟨hstart, -, hboundary, -, -, -⟩ := h
    simp only [parts, atoms_cons, Part.atoms]
    rw [← Text.slice_append_slice hpos hnext hboundary hle hstart, Text.rows_blank_append hblank]

/-- Text in front of the first statement can be cut where a line ends. -/
theorem atoms_parts_cut {cs : List Char} {pos stop next : Nat} {sites : List ImportSite}
    (h : Syntax.Spans cs next (sites.map ImportSite.statement)) (hpos : Boundary cs pos)
    (hstop : Boundary cs stop) (hnext : Boundary cs next) (hle : pos ≤ stop) (hle' : stop ≤ next)
    (hbreak : ∀ c ∈ slice cs stop next, c = '\r' ∨ c = '\n')
    (hbroken : '\n' ∈ slice cs stop next ∨ next = Text.bytes cs) :
    atoms (parts cs pos sites) =
      (Part.text (slice cs pos stop)).atoms ++ atoms (parts cs stop sites) := by
  cases sites with
  | nil =>
    have hbreaks : Text.Breaks (dropBytes cs stop) := by
      rw [← Text.slice_append_dropBytes hstop hnext hle']
      refine Text.breaks_of_lineBreak hbreak (hbroken.imp_right fun hend => ?_)
      have hsplit := Text.dropBytes_bytes_append cs []
      rw [hend]
      rwa [List.append_nil] at hsplit
    simp only [parts, atoms_cons, atoms_nil, List.append_nil, Part.atoms]
    rw [← Text.slice_append_dropBytes hpos hstop hle, Text.rows_append_of_breaks hbreaks,
      List.map_append]
  | cons site rest =>
    obtain - | ⟨hstart, hlt, hboundary, hend, -, -⟩ := h
    have hbreaks : Text.Breaks (slice cs stop site.statement.start) := by
      rw [← Text.slice_append_slice hstop hnext hboundary hle' hstart]
      refine Text.breaks_of_lineBreak hbreak (hbroken.imp_right fun heq => ?_)
      have hfar := hend.le
      omega
    simp only [parts, atoms_cons, Part.atoms]
    rw [← Text.slice_append_slice hpos hstop hboundary hle (Nat.le_trans hle' hstart),
      Text.rows_append_of_breaks hbreaks, List.map_append, List.append_assoc]

/-- What an act puts into the output. -/
def Act.part : Act → Part
  | .line l => .text l.text
  | .fragment _ cs _ _ => .text cs
  | .site _ s => .site [] s

/-- The rows of a plan. -/
def planned (acts : List Act) : List Part :=
  atoms (acts.map Act.part)

@[simp] theorem planned_nil : planned [] = [] := rfl

@[simp] theorem planned_cons (act : Act) (acts : List Act) :
    planned (act :: acts) = act.part.atoms ++ planned acts := rfl

@[simp] theorem planned_append (acts acts' : List Act) :
    planned (acts ++ acts') = planned acts ++ planned acts' := by
  simp only [planned, List.map_append, atoms_append]

/-! ## One line -/

/-- The act is done with a line of a document that is indented as given. -/
def Act.Fits (indent : String) (line : Text.Line) : Act → Prop
  | .line l => l = line
  | .fragment base text _ number =>
    base = lineBase indent line ∧ number = line.number ∧ text <:+: line.text
  | .site indent' _ => ∃ n, indent' = lineBase indent line ++ levels n

/-- A line is written as it is. -/
def Act.IsLine : Act → Prop
  | .line _ => True
  | .fragment _ _ _ _ | .site _ _ => False

variable {cs : List Char} {indent : String} {line : Text.Line}

/-- The texts of a plan are cut out of the document between characters. -/
structure Cuts (cs : List Char) (cuts : List (Nat × Nat)) (acts : List Act) : Prop where
  between : ∀ cut ∈ cuts, cut.1 ≤ cut.2 ∧ Boundary cs cut.1 ∧ Boundary cs cut.2
  texts : acts.filterMap Act.text? = cuts.map fun cut => slice cs cut.1 cut.2

theorem Cuts.nil : Cuts cs [] [] :=
  ⟨fun _ hcut => absurd hcut List.not_mem_nil, rfl⟩

theorem Cuts.append {cuts cuts' : List (Nat × Nat)} {acts acts' : List Act}
    (h : Cuts cs cuts acts) (h' : Cuts cs cuts' acts') :
    Cuts cs (cuts ++ cuts') (acts ++ acts') := by
  refine ⟨fun cut hcut => ?_, ?_⟩
  · rcases List.mem_append.1 hcut with hcut | hcut
    · exact h.between cut hcut
    · exact h'.between cut hcut
  · rw [List.filterMap_append, h.texts, h'.texts, List.map_append]

theorem Cuts.single {m n : Nat} {act : Act} (hle : m ≤ n) (hm : Boundary cs m) (hn : Boundary cs n)
    (htext : act.text? = some (slice cs m n)) : Cuts cs [(m, n)] [act] := by
  refine ⟨fun cut hcut => ?_, ?_⟩
  · rw [List.mem_singleton.1 hcut]
    exact ⟨hle, hm, hn⟩
  · rw [List.filterMap_cons, htext]
    rfl

theorem Cuts.site {cuts : List (Nat × Nat)} {acts : List Act} (h : Cuts cs cuts acts)
    (indent : String) (site : ImportSite) :
    Cuts cs cuts (.site indent site :: acts) :=
  ⟨h.between, h.texts⟩

/-- What is planned for the statements `here` of a line, from `pos` to `pos'`. -/
structure SitesDone (cs : List Char) (indent : String) (line : Text.Line)
    (here there : List ImportSite) (pos pos' : Nat) (acts : List Act) : Prop where
  boundary : Boundary cs pos'
  le : pos ≤ pos'
  spans : Syntax.Spans cs pos' (there.map ImportSite.statement)
  covers : atoms (parts cs pos (here ++ there)) = planned acts ++ atoms (parts cs pos' there)
  fits : ∀ act ∈ acts, act.Fits indent line ∧ ¬ act.IsLine
  stops : ∀ site ∈ here, site.statement.stop ≤ pos'
  stopped : pos' = pos ∨ ∃ site ∈ here, site.statement.stop = pos'
  cuts : Cuts cs (cutSites here pos) acts

theorem sitesDone_planSites (indent : String) (hstart : Boundary cs line.start)
    (hstop : Boundary cs line.stop) (htext : slice cs line.start line.stop = line.text)
    (here there : List ImportSite)
    (hhere : ∀ site ∈ here, site.statement.start < line.stop) {pos : Nat} (opened : Nat)
    (hpos : Boundary cs pos) (hle : line.start ≤ pos)
    (h : Syntax.Spans cs pos ((here ++ there).map ImportSite.statement)) :
    let plan := planSites cs (lineBase indent line) line.number here pos opened
    SitesDone cs indent line here there pos plan.2.1 plan.1 := by
  induction here generalizing pos opened with
  | nil =>
    exact ⟨hpos, Nat.le_refl pos, h, rfl, by simp [planSites], by simp, Or.inl rfl, .nil⟩
  | cons site rest ih =>
    obtain - | ⟨hbefore, hlt, hfrom, hto, -, hothers⟩ := h
    have hon := hhere site List.mem_cons_self
    have hrest := ih (fun s hs => hhere s (List.mem_cons_of_mem _ hs))
      (fragmentOpen opened (slice cs pos site.statement.start)) hto (by omega) hothers
    show SitesDone cs indent line _ there pos (planSites cs (lineBase indent line) line.number rest
      site.statement.stop _).2.1 (_ :: _ :: (planSites cs (lineBase indent line) line.number rest
      site.statement.stop _).1)
    generalize planSites cs (lineBase indent line) line.number rest site.statement.stop
      (fragmentOpen opened (slice cs pos site.statement.start)) = plan at hrest ⊢
    have hle' := hrest.le
    refine ⟨hrest.boundary, by omega, hrest.spans, ?_, ?_, ?_, ?_,
      (Cuts.single hbefore hpos hfrom rfl).append (hrest.cuts.site _ site)⟩
    · simp only [List.cons_append, parts, atoms_cons, planned_cons, Act.part]
      rw [hrest.covers]
      simp only [Part.atoms, List.append_assoc]
    · intro act hact
      rcases List.mem_cons.1 hact with rfl | hact
      · have hpart := Text.slice_infix hstart hpos hfrom hstop hle hbefore (Nat.le_of_lt hon)
        rw [htext] at hpart
        exact ⟨⟨rfl, rfl, hpart⟩, fun hline => hline⟩
      · rcases List.mem_cons.1 hact with rfl | hact
        · exact ⟨⟨_, rfl⟩, fun hline => hline⟩
        · exact hrest.fits act hact
    · intro s hs
      rcases List.mem_cons.1 hs with rfl | hs
      · exact hle'
      · exact hrest.stops s hs
    · right
      rcases hrest.stopped with hsame | ⟨s, hs, hstopped⟩
      · exact ⟨site, List.mem_cons_self, hsame.symm⟩
      · exact ⟨s, List.mem_cons_of_mem _ hs, hstopped⟩

/-- The statements behind those on a line start behind the line. -/
theorem sitesOn_split (cs : List Char) (line : Text.Line) (sites : List ImportSite) :
    ∃ there, sites = sitesOn line sites ++ there ∧
      sites.drop (sitesOn line sites).length = there ∧
      ∀ {pos : Nat}, Syntax.Spans cs pos (there.map ImportSite.statement) →
        Syntax.Spans cs (max pos line.stop) (there.map ImportSite.statement) := by
  have hsplit : sitesOn line sites ++ sites.dropWhile
      (fun site => decide (site.statement.start < line.stop)) = sites :=
    List.takeWhile_append_dropWhile
  refine ⟨_, hsplit.symm, ?_, ?_⟩
  · calc sites.drop (sitesOn line sites).length
        = (sitesOn line sites ++ sites.dropWhile
            (fun site => decide (site.statement.start < line.stop))).drop
              (sitesOn line sites).length := by rw [hsplit]
      _ = sites.dropWhile (fun site => decide (site.statement.start < line.stop)) :=
          List.drop_left
  · intro pos hspans
    cases hthere : sites.dropWhile (fun site => decide (site.statement.start < line.stop)) with
    | nil => exact .nil _
    | cons site rest =>
      have hhead := List.head_dropWhile_not
        (fun site : ImportSite => decide (site.statement.start < line.stop))
        (by rw [hthere]; exact List.cons_ne_nil _ _)
      simp only [hthere, List.head_cons, decide_eq_false_iff_not, Nat.not_lt] at hhead
      rw [hthere] at hspans
      obtain - | ⟨hle, hlt, hstart, hstop, hat, hothers⟩ := hspans
      exact .cons (Nat.max_le.2 ⟨hle, hhead⟩) hlt hstart hstop hat hothers

theorem start_lt_of_mem_sitesOn {sites : List ImportSite} {site : ImportSite}
    (h : site ∈ sitesOn line sites) : site.statement.start < line.stop := by
  have hall := List.all_eq_true.1 (List.all_takeWhile (l := sites)
    (p := fun site : ImportSite => decide (site.statement.start < line.stop))) site h
  exact of_decide_eq_true hall

/-- What is planned for one line, in front of the line that starts at `next`: the statements
`here` are carried out, and `there` are left. -/
structure LineDone (cs : List Char) (indent : String) (line : Text.Line) (next cursor : Nat)
    (here there : List ImportSite) (acts : List Act) (cuts : List (Nat × Nat)) (cursor' : Nat) :
    Prop where
  boundary : Boundary cs cursor'
  cuts : Cuts cs cuts acts
  spans : Syntax.Spans cs (max cursor' next) (there.map ImportSite.statement)
  covers : atoms (parts cs (max cursor line.start) (here ++ there)) =
    planned acts ++ atoms (parts cs (max cursor' next) there)
  fits : ∀ act ∈ acts, act.Fits indent line
  started : ∀ site ∈ here, site.statement.start < line.stop
  stops : ∀ site ∈ here, site.statement.stop ≤ cursor'
  le : cursor ≤ cursor'
  stopped : cursor' = cursor ∨ cursor' ≤ next ∨ ∃ site ∈ here, site.statement.stop = cursor'
  whole : (cursor ≤ line.start ∧ here = [] ∧ acts = [.line line]) ∨
    ((line.start < cursor ∨ here ≠ []) ∧ ∀ act ∈ acts, ¬ act.IsLine)

theorem boundary_max {m n : Nat} (hm : Boundary cs m) (hn : Boundary cs n) :
    Boundary cs (max m n) := by
  rcases Nat.le_total m n with hle | hle
  · rwa [Nat.max_eq_right hle]
  · rwa [Nat.max_eq_left hle]

section

variable {next cursor : Nat} (indent) (rest : List Text.Line) {sites : List ImportSite}
  (start : Boundary cs line.start) (stop : Boundary cs line.stop) (behind : Boundary cs next)
  (start_le : line.start ≤ line.stop) (stop_le : line.stop ≤ next)
  (text : slice cs line.start line.stop = line.text)
  (lineBreak : ∀ c ∈ slice cs line.stop next, c = '\r' ∨ c = '\n')
  (broken : '\n' ∈ slice cs line.stop next ∨ next = Text.bytes cs)

include start stop behind stop_le text lineBreak broken in
/-- Behind its statements, the rest of a line is a fragment if there is any. -/
theorem planTail_done {pos : Nat} (opened : Nat) {there : List ImportSite} (hpos : Boundary cs pos)
    (hle : line.start ≤ pos)
    (hspans : Syntax.Spans cs (max pos line.stop) (there.map ImportSite.statement)) :
    planned (planTail cs (lineBase indent line) line pos opened) ++
        atoms (parts cs (max pos line.stop) there) = atoms (parts cs pos there) ∧
      (∀ act ∈ planTail cs (lineBase indent line) line pos opened,
        act.Fits indent line ∧ ¬ act.IsLine) ∧
      Cuts cs (cutTail line pos) (planTail cs (lineBase indent line) line pos opened) := by
  unfold planTail cutTail
  by_cases hlt : pos < line.stop
  · rw [if_pos hlt]
    have hmaxStop : max pos line.stop = line.stop := Nat.max_eq_right (Nat.le_of_lt hlt)
    rw [hmaxStop] at hspans ⊢
    refine ⟨?_, ?_, ?_⟩
    · have hfar := hspans.behind_break stop behind lineBreak (Nat.le_refl _)
      rw [Nat.max_eq_right stop_le] at hfar
      rw [atoms_parts_cut hfar hpos stop behind (Nat.le_of_lt hlt) stop_le lineBreak broken,
        planned_cons, planned_nil, List.append_nil]
      rfl
    · intro act hact
      have hpart := Text.slice_infix start hpos stop stop hle (Nat.le_of_lt hlt) (Nat.le_refl _)
      rw [text] at hpart
      rw [List.mem_singleton.1 hact]
      exact ⟨⟨rfl, rfl, hpart⟩, fun hline => hline⟩
    · rw [if_pos hlt]
      exact .single (Nat.le_of_lt hlt) hpos stop rfl
  · rw [if_neg hlt, if_neg hlt]
    refine ⟨?_, ?_, .nil⟩
    · rw [Nat.max_eq_left (by omega), planned_nil, List.nil_append]
    · intro act hact
      cases hact

include stop behind lineBreak

/-- The line break behind a line holds neither solid characters nor the start of a statement. -/
theorem atoms_parts_break {pos : Nat} {there : List ImportSite} (hpos : Boundary cs pos)
    (hle : line.stop ≤ pos) (h : Syntax.Spans cs pos (there.map ImportSite.statement)) :
    Syntax.Spans cs (max pos next) (there.map ImportSite.statement) ∧
      atoms (parts cs pos there) = atoms (parts cs (max pos next) there) := by
  have hfar := h.behind_break stop behind lineBreak hle
  refine ⟨hfar, ?_⟩
  rcases Nat.le_total next pos with hnext | hnext
  · rw [Nat.max_eq_left hnext]
  · rw [Nat.max_eq_right hnext] at hfar ⊢
    have hblank : ∀ c ∈ slice cs pos next, Text.isBlank c = true := by
      intro c hc
      have hpart := Text.slice_infix stop hpos behind behind hle hnext (Nat.le_refl next)
      rcases lineBreak c (hpart.subset hc) with rfl | rfl <;> rfl
    exact atoms_parts_blank hfar hpos behind hnext hblank

include start in
/-- Of a line that ends inside what is done, nothing is left to plan. -/
theorem lineDone_behind (hcursor : Boundary cs cursor)
    (hbehind : line.stop ≤ max cursor line.start)
    (hspans : Syntax.Spans cs (max cursor line.start) (sites.map ImportSite.statement))
    (hpart : line.start < cursor) :
    LineDone cs indent line next cursor [] sites [] [] (max cursor line.stop) := by
  obtain ⟨hnext, hatoms⟩ := atoms_parts_break stop behind lineBreak
    (boundary_max hcursor start) hbehind hspans
  have hcursor' : max (max cursor line.stop) next = max (max cursor line.start) next := by
    omega
  refine ⟨boundary_max hcursor stop, .nil, hcursor' ▸ hnext, ?_, by simp, by simp, by simp,
    Nat.le_max_left _ _, by omega, Or.inr ⟨Or.inl hpart, by simp⟩⟩
  rw [hcursor', ← hatoms]
  rfl

include start start_le stop_le text broken

/-- A line without statements that starts behind what is done is planned as a whole. -/
theorem lineDone_whole (hle : cursor ≤ line.start) (hcursor : Boundary cs cursor)
    (hspans : Syntax.Spans cs line.stop (sites.map ImportSite.statement)) :
    LineDone cs indent line next cursor [] sites [.line line] [(line.start, line.stop)]
      cursor := by
  obtain ⟨hnext, hatoms⟩ := atoms_parts_break stop behind lineBreak stop (Nat.le_refl _) hspans
  have hcursor' : max cursor next = max line.stop next := by omega
  refine ⟨hcursor, .single start_le start stop (congrArg some text.symm), hcursor' ▸ hnext, ?_, ?_,
    by simp, by simp, Nat.le_refl cursor, Or.inl rfl, Or.inl ⟨hle, rfl, rfl⟩⟩
  · rw [Nat.max_eq_right stop_le] at hnext
    rw [hcursor', ← hatoms, Nat.max_eq_right hle, List.nil_append,
      atoms_parts_cut hnext start stop behind start_le stop_le lineBreak broken, text, planned_cons,
      planned_nil, List.append_nil]
    rfl
  · intro act hact
    rw [List.mem_singleton.1 hact]
    exact rfl

/-- A line that goes on behind what is done is planned in parts. -/
theorem lineDone_partly {there : List ImportSite} (hcursor : Boundary cs cursor)
    (hgoes : max cursor line.start ≤ line.stop) (hsplit : sites = sitesOn line sites ++ there)
    (hfar : ∀ {pos : Nat}, Syntax.Spans cs pos (there.map ImportSite.statement) →
      Syntax.Spans cs (max pos line.stop) (there.map ImportSite.statement))
    (hspans : Syntax.Spans cs (max cursor line.start) (sites.map ImportSite.statement))
    (hpart : line.start < cursor ∨ sitesOn line sites ≠ []) :
    let plan := planSites cs (lineBase indent line) line.number (sitesOn line sites)
      (max cursor line.start) 0
    LineDone cs indent line next cursor (sitesOn line sites) there
      (plan.1 ++ planTail cs (lineBase indent line) line plan.2.1 plan.2.2)
      (cutSites (sitesOn line sites) (max cursor line.start) ++ cutTail line plan.2.1)
      (max cursor plan.2.1) := by
  intro plan
  have hon : ∀ site ∈ sitesOn line sites, site.statement.start < line.stop :=
    fun site => start_lt_of_mem_sitesOn
  have hplan : SitesDone cs indent line (sitesOn line sites) there (max cursor line.start)
      plan.2.1 plan.1 :=
    sitesDone_planSites indent start stop text (sitesOn line sites) there hon 0
      (boundary_max hcursor start) (Nat.le_max_right _ _) (hsplit ▸ hspans)
  have hle := hplan.le
  have hstop := hfar hplan.spans
  obtain ⟨hnext, hatoms⟩ := atoms_parts_break stop behind lineBreak
    (boundary_max hplan.boundary stop) (Nat.le_max_right _ _) hstop
  obtain ⟨htail, htailFits, htailCuts⟩ := planTail_done indent start stop behind stop_le text
    lineBreak broken plan.2.2 hplan.boundary (by omega) hstop
  have hcursor' : max (max cursor plan.2.1) next = max (max plan.2.1 line.stop) next := by
    omega
  have hfits : ∀ act ∈ plan.1 ++ planTail cs (lineBase indent line) line plan.2.1 plan.2.2,
      act.Fits indent line ∧ ¬ act.IsLine := by
    intro act hact
    rcases List.mem_append.1 hact with hact | hact
    · exact hplan.fits act hact
    · exact htailFits act hact
  refine ⟨boundary_max hcursor hplan.boundary, hplan.cuts.append htailCuts, hcursor' ▸ hnext, ?_,
    fun act hact => (hfits act hact).1, hon, ?_, Nat.le_max_left _ _, ?_,
    Or.inr ⟨hpart, fun act hact => (hfits act hact).2⟩⟩
  · rw [hplan.covers, planned_append, List.append_assoc, hcursor', ← hatoms, htail]
  · intro site hsite
    have hbefore := hplan.stops site hsite
    omega
  · rcases hplan.stopped with hsame | ⟨site, hsite, hstopped⟩
    · omega
    · right
      right
      exact ⟨site, hsite, by omega⟩

/-- One line of a document is planned, and then the lines behind it. -/
theorem lineDone_planLines (hcursor : Boundary cs cursor)
    (hspans : Syntax.Spans cs (max cursor line.start) (sites.map ImportSite.statement)) :
    ∃ here there acts cuts cursor', sites = here ++ there ∧
      LineDone cs indent line next cursor here there acts cuts cursor' ∧
      planLines cs indent (line :: rest) cursor sites =
        acts ++ planLines cs indent rest cursor' there ∧
      cutLines (line :: rest) cursor sites = cuts ++ cutLines rest cursor' there := by
  obtain ⟨there, hsplit, hdrop, hfar⟩ := sitesOn_split cs line sites
  rw [planLines, cutLines]
  by_cases hwhole : (decide (cursor ≤ line.start) && (sitesOn line sites).isEmpty) = true
  · rw [if_pos hwhole, if_pos hwhole]
    simp only [Bool.and_eq_true, decide_eq_true_eq, List.isEmpty_iff] at hwhole
    obtain ⟨hle, hnone⟩ := hwhole
    rw [hnone, List.nil_append] at hsplit
    subst hsplit
    have hline := hfar hspans
    have hstop : max (max cursor line.start) line.stop = line.stop := by omega
    rw [hstop] at hline
    exact ⟨[], sites, [.line line], [(line.start, line.stop)], cursor, rfl, lineDone_whole indent
      start stop behind start_le stop_le text lineBreak broken hle hcursor hline, rfl, rfl⟩
  · rw [if_neg hwhole, if_neg hwhole]
    dsimp only
    rw [hdrop]
    have hpart : line.start < cursor ∨ sitesOn line sites ≠ [] := by
      by_contra hboth
      simp only [not_or, Nat.not_lt, not_not] at hboth
      apply hwhole
      simp [hboth.1, hboth.2]
    rcases Nat.le_total (max cursor line.start) line.stop with hgoes | hbehind
    · have hrest : lineRest cursor line = max cursor line.start := Nat.min_eq_left hgoes
      rw [hrest]
      refine ⟨sitesOn line sites, there, _, _, _, hsplit, lineDone_partly indent start stop behind
        start_le stop_le text lineBreak broken hcursor hgoes hsplit hfar hspans hpart,
        (List.append_assoc _ _ _).symm, ?_⟩
      rw [planSites_behind, List.append_assoc]
    · -- A statement takes up the rest of the line, so no other starts on it.
      have hrest : lineRest cursor line = line.stop := Nat.min_eq_right hbehind
      have hnone : sitesOn line sites = [] := by
        refine List.eq_nil_iff_forall_not_mem.2 fun site hmem => ?_
        have hbefore := start_lt_of_mem_sitesOn hmem
        have hsite : site ∈ sites := by
          rw [hsplit]
          exact List.mem_append_left _ hmem
        have hfrom := hspans.le_start (List.mem_map_of_mem hsite)
        omega
      rw [hnone, List.nil_append] at hsplit
      subst hsplit
      have hlt : line.start < cursor := hpart.resolve_right fun hne => hne hnone
      refine ⟨[], sites, [], [], max cursor line.stop, rfl, lineDone_behind indent start stop behind
        lineBreak hcursor hbehind hspans hlt, ?_, ?_⟩
      · rw [hnone, hrest]
        simp only [planSites, planTail, Nat.lt_irrefl, if_false, List.nil_append]
      · rw [hnone, hrest]
        simp only [cutSites, behindSites, cutTail, Nat.lt_irrefl, if_false, List.nil_append]

end

/-! ## Lines without imports -/

/-- No import statement has a part on the line. -/
def IsFree (imports : List Import) (line : Text.Line) : Prop :=
  ∀ statement ∈ imports, ¬ (statement.start < line.stop ∧ line.start < statement.stop)

instance (imports : List Import) : DecidablePred (IsFree imports) :=
  fun _ => inferInstanceAs (Decidable (∀ _ ∈ imports, _))

/-- In front of the line that starts at `pos`, everything up to `cursor` is done. The statements
`done` are carried out, and `sites` are not. -/
structure Before (cs : List Char) (done sites : List ImportSite) (cursor pos : Nat) : Prop where
  boundary : Boundary cs cursor
  spans : Syntax.Spans cs (max cursor pos) (sites.map ImportSite.statement)
  stops : ∀ site ∈ done, site.statement.stop ≤ cursor
  stopped : cursor ≤ pos ∨
    ∃ site ∈ done, site.statement.stop = cursor ∧ site.statement.start < pos

section

variable {next cursor cursor' : Nat} {done here there : List ImportSite} {acts : List Act}
  {cuts : List (Nat × Nat)} (h : Before cs done (here ++ there) cursor line.start)
  (hline : LineDone cs indent line next cursor here there acts cuts cursor')
  (start_le : line.start ≤ line.stop) (stop_le : line.stop ≤ next)

include h hline start_le stop_le

theorem Before.isFree_iff :
    IsFree ((done ++ (here ++ there)).map ImportSite.statement) line ↔
      cursor ≤ line.start ∧ here = [] := by
  constructor
  · intro hfree
    constructor
    · rcases h.stopped with hle | ⟨site, hsite, hstop, hbefore⟩
      · exact hle
      · by_contra hgt
        exact hfree site.statement (List.mem_map_of_mem (List.mem_append_left _ hsite))
          ⟨by omega, by omega⟩
    · by_contra hne
      obtain ⟨site, hsite⟩ := List.exists_mem_of_ne_nil here hne
      have hmem : site.statement ∈ (here ++ there).map ImportSite.statement :=
        List.mem_map_of_mem (List.mem_append_left _ hsite)
      have hfrom := h.spans.le_start hmem
      have hlt := h.spans.start_lt_stop hmem
      exact hfree site.statement (List.mem_map_of_mem (List.mem_append_right _
        (List.mem_append_left _ hsite))) ⟨hline.started site hsite, by omega⟩
  · rintro ⟨hle, rfl⟩ statement hm ⟨hbefore, hafter⟩
    obtain ⟨site, hsite, rfl⟩ := List.mem_map.1 hm
    rcases List.mem_append.1 hsite with hsite | hsite
    · have hstop := h.stops site hsite
      omega
    · have hfrom := hline.spans.le_start (List.mem_map_of_mem hsite)
      omega

theorem Before.behind : Before cs (done ++ here) there cursor' next := by
  refine ⟨hline.boundary, hline.spans, ?_, ?_⟩
  · intro site hsite
    rcases List.mem_append.1 hsite with hsite | hsite
    · exact Nat.le_trans (h.stops site hsite) hline.le
    · exact hline.stops site hsite
  · rcases hline.stopped with rfl | hle | ⟨site, hsite, hstop⟩
    · rcases h.stopped with hle | ⟨site, hsite, hstop, hbefore⟩
      · exact Or.inl (by omega)
      · exact Or.inr ⟨site, List.mem_append_left _ hsite, hstop, by omega⟩
    · exact Or.inl hle
    · have hbefore := hline.started site hsite
      exact Or.inr ⟨site, List.mem_append_right _ hsite, hstop, by omega⟩

end

/-! ## All lines -/

/-- The line that is written as it is. -/
def Act.line? : Act → Option Text.Line
  | .line l => some l
  | .fragment _ _ _ _ | .site _ _ => none

/-- Of a plan, the lines that are written as they are. -/
def wholeLines (acts : List Act) : List Text.Line :=
  acts.filterMap Act.line?

theorem wholeLines_eq_nil {acts : List Act} (h : ∀ act ∈ acts, ¬ act.IsLine) :
    wholeLines acts = [] := by
  refine List.filterMap_eq_nil_iff.2 fun act hact => ?_
  have hno := h act hact
  cases act with
  | line l => exact (hno trivial).elim
  | fragment base text opened number => rfl
  | site indent site => rfl

/-- What is planned for lines covers the text that they are the rest of, each act fits a line, and
the lines that are written as they are are those on which no import has a part. -/
structure LinesDone (cs : List Char) (indent : String) (lines : List Text.Line)
    (done sites : List ImportSite) (origin : Nat) (acts : List Act) (cuts : List (Nat × Nat)) :
    Prop where
  covers : planned acts = atoms (parts cs origin sites)
  fits : ∀ act ∈ acts, ∃ line ∈ lines, act.Fits indent line ∧
    (act.IsLine ↔ IsFree ((done ++ sites).map ImportSite.statement) line)
  whole : wholeLines acts =
    lines.filter fun line => IsFree ((done ++ sites).map ImportSite.statement) line
  cuts : Cuts cs cuts acts

theorem linesDone_planLines {number pos : Nat} {lines : List Text.Line}
    (hlines : LinesAt cs number pos lines) {cursor : Nat} {done sites : List ImportSite}
    (h : Before cs done sites cursor pos) :
    LinesDone cs indent lines done sites (max cursor pos)
      (planLines cs indent lines cursor sites) (cutLines lines cursor sites) := by
  induction hlines generalizing cursor done sites with
  | nil =>
    have hend : max cursor (Text.bytes cs) = Text.bytes cs := Nat.max_eq_right h.boundary.le
    refine ⟨?_, by simp [planLines], rfl, .nil⟩
    have hspans := h.spans
    rw [hend] at hspans ⊢
    cases sites with
    | nil =>
      have hrest : dropBytes cs (Text.bytes cs) = [] := by
        have hsplit := Text.dropBytes_bytes_append cs []
        rwa [List.append_nil] at hsplit
      have hnone : rows [] = [] := rfl
      simp [planLines, parts, hrest, Part.atoms, hnone]
    | cons site rest =>
      obtain - | ⟨hle, hlt, -, hstop, -, -⟩ := hspans
      have hfar := hstop.le
      omega
  | @cons next line rest start stop behind start_le stop_le text single lineBreak broken others
      ih =>
    obtain ⟨here, there, acts, cuts, cursor', rfl, hline, hplan, hcuts⟩ :=
      lineDone_planLines indent rest start stop behind start_le stop_le text lineBreak broken
        h.boundary h.spans
    have hfree := h.isFree_iff hline start_le stop_le
    have hrest := ih (h.behind hline start_le stop_le)
    rw [hplan, hcuts]
    refine ⟨?_, ?_, ?_, hline.cuts.append hrest.cuts⟩
    · rw [planned_append, hline.covers, hrest.covers]
    · intro act hact
      rcases List.mem_append.1 hact with hact | hact
      · refine ⟨line, List.mem_cons_self, hline.fits act hact, ?_⟩
        rw [hfree]
        rcases hline.whole with ⟨hle, hnone, rfl⟩ | ⟨hpart, hacts⟩
        · rw [List.mem_singleton.1 hact]
          exact ⟨fun _ => ⟨hle, hnone⟩, fun _ => trivial⟩
        · refine ⟨fun hyes => (hacts act hact hyes).elim, fun hfreed => ?_⟩
          obtain ⟨hle, hnone⟩ := hfreed
          rcases hpart with hcontinued | hne
          · omega
          · exact (hne hnone).elim
      · obtain ⟨line', hline', hfits, hwhole⟩ := hrest.fits act hact
        rw [List.append_assoc] at hwhole
        exact ⟨line', List.mem_cons_of_mem _ hline', hfits, hwhole⟩
    · have hwholeRest := hrest.whole
      rw [List.append_assoc] at hwholeRest
      rw [wholeLines, List.filterMap_append, ← wholeLines, ← wholeLines, hwholeRest]
      rcases hline.whole with ⟨hle, rfl, rfl⟩ | ⟨hpart, hacts⟩
      · have hyes := hfree.2 ⟨hle, rfl⟩
        simp only [List.filter_cons, hyes, decide_true, if_true]
        rfl
      · have hno : ¬ IsFree ((done ++ (here ++ there)).map ImportSite.statement) line := by
          intro hyes
          obtain ⟨hle, hnone⟩ := hfree.1 hyes
          rcases hpart with hcontinued | hne
          · omega
          · exact hne hnone
        simp only [List.filter_cons, hno, decide_false, Bool.false_eq_true, if_false]
        rw [wholeLines_eq_nil hacts, List.nil_append]

/-! ## Documents -/

section

variable {sheet : Sheet} {document : List Node} {table : Table}
  (h : parse sheet.source = .ok document)

include h

theorem linesDone_planSheet :
    LinesDone sheet.source sheet.indent (Text.lines sheet.source) [] (importSites document table) 0
      (planSheet sheet document table)
      (cutLines (Text.lines sheet.source) 0 (importSites document table)) := by
  have hspans := Syntax.spans_of_parse h
  rw [← statements_of_importSites document table] at hspans
  rw [planSheet, sitesInOrder_eq h]
  exact linesDone_planLines (Text.linesAt_lines sheet.source)
    ⟨Text.boundary_zero _, hspans, by simp, Or.inl (Nat.le_refl 0)⟩

/-- What is planned for a document covers its text. -/
theorem planned_planSheet :
    planned (planSheet sheet document table) =
      atoms (parts sheet.source 0 (importSites document table)) :=
  (linesDone_planSheet h).covers

theorem fits_planSheet : ∀ act ∈ planSheet sheet document table,
    ∃ line ∈ Text.lines sheet.source, act.Fits sheet.indent line ∧
      (act.IsLine ↔ IsFree (Node.importsOfAll document) line) := by
  intro act hact
  obtain ⟨line, hline, hfits, hwhole⟩ := (linesDone_planSheet h).fits act hact
  rw [List.nil_append, statements_of_importSites document table] at hwhole
  exact ⟨line, hline, hfits, hwhole⟩

theorem wholeLines_planSheet : wholeLines (planSheet sheet document table) =
    (Text.lines sheet.source).filter fun line => IsFree (Node.importsOfAll document) line := by
  rw [(linesDone_planSheet h).whole, List.nil_append, statements_of_importSites document table]

end

theorem exists_part_of_site {cs : List Char} {sites : List ImportSite} {site : ImportSite}
    (h : site ∈ sites) (pos : Nat) : ∃ text, .site text site ∈ parts cs pos sites := by
  induction sites generalizing pos with
  | nil => cases h
  | cons first rest ih =>
    rw [parts]
    rcases List.mem_cons.1 h with rfl | h
    · exact ⟨_, List.mem_cons_of_mem _ List.mem_cons_self⟩
    · obtain ⟨text, hm⟩ := ih h first.statement.stop
      exact ⟨text, List.mem_cons_of_mem _ (List.mem_cons_of_mem _ hm)⟩

/-- Each statement of the document is planned. -/
theorem exists_act_of_site {sheet : Sheet} {document : List Node} {table : Table}
    {site : ImportSite} (h : parse sheet.source = .ok document)
    (hsite : site ∈ importSites document table) :
    ∃ indent, .site indent site ∈ planSheet sheet document table := by
  obtain ⟨text, hm⟩ := exists_part_of_site hsite 0
  have hatom : .site [] site ∈ planned (planSheet sheet document table) := by
    rw [planned_planSheet h]
    exact List.mem_flatMap.2 ⟨_, hm, List.mem_singleton.2 rfl⟩
  obtain ⟨part, hpart, hatom⟩ := List.mem_flatMap.1 hatom
  obtain ⟨act, hact, rfl⟩ := List.mem_map.1 hpart
  cases act with
  | line l =>
    obtain ⟨_, -, heq⟩ := List.mem_map.1 hatom
    cases heq
  | fragment base text opened number =>
    obtain ⟨_, -, heq⟩ := List.mem_map.1 hatom
    cases heq
  | site indent site' =>
    obtain ⟨-, rfl⟩ := Part.site.inj (List.mem_singleton.1 hatom)
    exact ⟨indent, hact⟩

end Inline

end StyleWeave
