import StyleWeave.Proofs.Render.Writes

/-!
# What is done line by line

Which lines of a document are written as they are, which parts of lines are written as fragments,
and where between them the imports are carried out depends on the text alone. `planLines` lists it,
and `exec_renderLines` says that a pass through the lines of a document does what is listed.
-/

namespace StyleWeave.Inline

open Text (slice)

/-- What a pass does with a part of a document. -/
inductive Act where
  | line (line : Text.Line)
  | fragment (base : String) (text : List Char) (opened number : Nat)
  | site (indent : String) (site : ImportSite)

/-- How many braces are open behind a fragment. -/
def fragmentOpen (opened : Nat) (text : List Char) : Nat :=
  if (Text.trim text).isEmpty then opened else openBehind opened (Text.trim text)

/-- What is done with the statements that start on a line, and the position and the open braces
behind the last of them. -/
def planSites (source : List Char) (base : String) (number : Nat) :
    List ImportSite → Nat → Nat → List Act × Nat × Nat
  | [], pos, opened => ([], pos, opened)
  | site :: rest, pos, opened =>
    let before := slice source pos site.statement.start
    let behind := fragmentOpen opened before
    let others := planSites source base number rest site.statement.stop behind
    (.fragment base before opened number :: .site (base ++ levels behind) site :: others.1,
      others.2)

/-- The text behind the last statement of a line, as a fragment. -/
def planTail (source : List Char) (base : String) (line : Text.Line) (pos opened : Nat) :
    List Act :=
  if pos < line.stop then [.fragment base (slice source pos line.stop) opened line.number] else []

/-- The statements that start in front of the end of a line. -/
def sitesOn (line : Text.Line) (sites : List ImportSite) : List ImportSite :=
  sites.takeWhile fun site => site.statement.start < line.stop

/-- What is in front of a line's text, fragments of it included. -/
def lineBase (indent : String) (line : Text.Line) : String :=
  indent ++ String.ofList (Text.leading line.text)

/-- Where the part of a line starts that no earlier statement takes up. -/
def lineRest (cursor : Nat) (line : Text.Line) : Nat :=
  min (max cursor line.start) line.stop

/-- What is done with lines of a document, if everything before `cursor` is done and `sites` are
the statements that are not. -/
def planLines (source : List Char) (indent : String) :
    List Text.Line → Nat → List ImportSite → List Act
  | [], _, _ => []
  | line :: rest, cursor, sites =>
    if cursor ≤ line.start && (sitesOn line sites).isEmpty then
      .line line :: planLines source indent rest cursor sites
    else
      let base := lineBase indent line
      let here := planSites source base line.number (sitesOn line sites) (lineRest cursor line) 0
      here.1 ++ (planTail source base line here.2.1 here.2.2 ++
        planLines source indent rest (max cursor here.2.1)
          (sites.drop (sitesOn line sites).length))

/-! ## Where texts are cut out -/

/-- The text that is written by an act. -/
def Act.text? : Act → Option (List Char)
  | .line l => some l.text
  | .fragment _ text _ _ => some text
  | .site _ _ => none

/-- From where to where the texts in front of the statements of a line are cut out. -/
def cutSites : List ImportSite → Nat → List (Nat × Nat)
  | [], _ => []
  | site :: rest, pos => (pos, site.statement.start) :: cutSites rest site.statement.stop

/-- The position behind the last of the statements. -/
def behindSites : List ImportSite → Nat → Nat
  | [], pos => pos
  | site :: rest, _ => behindSites rest site.statement.stop

/-- From where to where the text behind the last statement of a line is cut out. -/
def cutTail (line : Text.Line) (pos : Nat) : List (Nat × Nat) :=
  if pos < line.stop then [(pos, line.stop)] else []

/-- From where to where the texts that are planned for lines are cut out of the document. -/
def cutLines : List Text.Line → Nat → List ImportSite → List (Nat × Nat)
  | [], _, _ => []
  | line :: rest, cursor, sites =>
    if cursor ≤ line.start && (sitesOn line sites).isEmpty then
      (line.start, line.stop) :: cutLines rest cursor sites
    else
      let behind := behindSites (sitesOn line sites) (lineRest cursor line)
      cutSites (sitesOn line sites) (lineRest cursor line) ++ (cutTail line behind ++
        cutLines rest (max cursor behind) (sites.drop (sitesOn line sites).length))

theorem planSites_behind (source : List Char) (base : String) (number : Nat)
    (sites : List ImportSite) (pos opened : Nat) :
    (planSites source base number sites pos opened).2.1 = behindSites sites pos := by
  induction sites generalizing pos opened with
  | nil => rfl
  | cons site rest ih => exact ih site.statement.stop _

/-- The document that a pass goes through, once it has its number among the sources. -/
def Sheet.of (file : Path) (source indent : String) (index : Nat) : Sheet :=
  { file, source := source.toList, index, indent }

/-- What is done with a document. -/
def planSheet (sheet : Sheet) (document : List Node) (table : Table) : List Act :=
  planLines sheet.source sheet.indent (Text.lines sheet.source) 0 (sitesInOrder document table)

/-! ## The statements of a plan -/

theorem mem_of_mem_planSites {source : List Char} {base indent : String} {number : Nat}
    {sites : List ImportSite} {site : ImportSite} {pos opened : Nat}
    (h : .site indent site ∈ (planSites source base number sites pos opened).1) :
    site ∈ sites := by
  induction sites generalizing pos opened with
  | nil => cases h
  | cons first rest ih =>
    rw [planSites, List.mem_cons, List.mem_cons] at h
    rcases h with heq | heq | h
    · cases heq
    · rw [(Act.site.inj heq).2]
      exact List.mem_cons_self
    · exact List.mem_cons_of_mem _ (ih h)

theorem mem_of_mem_planLines {source : List Char} {indent indent' : String}
    {lines : List Text.Line} {cursor : Nat} {sites : List ImportSite} {site : ImportSite}
    (h : .site indent' site ∈ planLines source indent lines cursor sites) : site ∈ sites := by
  induction lines generalizing cursor sites with
  | nil => cases h
  | cons line rest ih =>
    rw [planLines] at h
    split at h
    · rcases List.mem_cons.1 h with heq | h
      · cases heq
      · exact ih h
    · rcases List.mem_append.1 h with h | h
      · exact List.takeWhile_subset _ (mem_of_mem_planSites h)
      · rcases List.mem_append.1 h with h | h
        · unfold planTail at h
          split at h
          · cases List.mem_singleton.1 h
          · cases h
        · exact List.mem_of_mem_drop (ih h)

/-- The statements that are planned are those of the document. -/
theorem mem_of_mem_planSheet {sheet : Sheet} {document : List Node} {table : Table}
    {indent : String} {site : ImportSite} (h : .site indent site ∈ planSheet sheet document table) :
    site ∈ importSites document table :=
  List.mem_mergeSort.1 (mem_of_mem_planLines h)

/-! ## Carrying a plan out -/

variable {σ : Type}

section

variable (env : Setting σ) (nested : Inliner σ) (stack : List Path) (sheet : Sheet)

/-- Do one thing that is planned. -/
def perform : Act → Step σ Unit
  | .line line => modify (writeLine sheet.indent sheet.index line)
  | .fragment base text opened number =>
    modify fun p => (writeFragment base text opened sheet.index number p).2
  | .site indent site => importSite env nested stack sheet.file indent site

/-- Do in turn what is planned. -/
def performAll : List Act → Step σ Unit
  | [] => return ()
  | act :: rest => do
    perform env nested stack sheet act
    performAll rest

end

section

variable {env : Setting σ} {nested : Inliner σ} {stack : List Path} {sheet : Sheet}

/-- What an act other than an import writes. -/
def Act.writes (sheet : Sheet) : Act → List Write
  | .line l => [.mapped (lineText sheet.indent l) sheet.index l.number]
  | .fragment base text opened number => fragmentWrites base text opened sheet.index number
  | .site _ _ => []

theorem exec_perform_of_not_site {sheet : Sheet} {act : Act}
    (h : ∀ indent site, act ≠ .site indent site) (p : Pass σ) :
    Step.exec (perform env nested stack sheet act) p = (.ok (), p.write (act.writes sheet)) := by
  cases act with
  | line line =>
    unfold perform Act.writes
    rw [Step.exec_modify, writeLine_eq]
  | fragment base text opened number =>
    unfold perform Act.writes
    rw [Step.exec_modify, writeFragment_snd]
  | site indent site => exact absurd rfl (h indent site)

theorem exec_performAll_cons (act : Act) (rest : List Act) (p : Pass σ) :
    Step.exec (performAll env nested stack sheet (act :: rest)) p =
      match Step.exec (perform env nested stack sheet act) p with
      | (.ok _, q) => Step.exec (performAll env nested stack sheet rest) q
      | (.error halt, q) => (.error halt, q) := by
  rw [performAll, Step.exec_bind]
  rcases Step.exec (perform env nested stack sheet act) p with ⟨_ | _, q⟩ <;> rfl

/-- Two plans in a row are one. -/
theorem exec_performAll_append (acts acts' : List Act) (p : Pass σ) :
    Step.exec (performAll env nested stack sheet (acts ++ acts')) p =
      match Step.exec (performAll env nested stack sheet acts) p with
      | (.ok _, q) => Step.exec (performAll env nested stack sheet acts') q
      | (.error halt, q) => (.error halt, q) := by
  induction acts generalizing p with
  | nil => rfl
  | cons act rest ih =>
    rw [List.cons_append, exec_performAll_cons, exec_performAll_cons]
    rcases Step.exec (perform env nested stack sheet act) p with ⟨halt | _, q⟩
    · rfl
    · exact ih q

theorem writeFragment_fst (base : String) (text : List Char) (opened source number : Nat)
    (p : Pass σ) :
    (writeFragment base text opened source number p).1 = fragmentOpen opened text := by
  unfold writeFragment fragmentOpen
  dsimp only
  split <;> rfl

theorem exec_renderSites (base : String) (number : Nat) (sites : List ImportSite)
    (pos opened : Nat) (p : Pass σ) :
    Step.exec (renderSites env nested stack sheet base number sites pos opened) p =
      match Step.exec (performAll env nested stack sheet
        (planSites sheet.source base number sites pos opened).1) p with
      | (.ok _, q) => (.ok (planSites sheet.source base number sites pos opened).2, q)
      | (.error halt, q) => (.error halt, q) := by
  induction sites generalizing pos opened p with
  | nil => rfl
  | cons site rest ih =>
    have hopen := writeFragment_fst base (slice sheet.source pos site.statement.start) opened
      sheet.index number p
    rw [renderSites, planSites, exec_performAll_cons, Step.exec_bind, Step.exec_modifyGet, hopen]
    dsimp only
    rw [perform, Step.exec_modify, Step.exec_bind]
    dsimp only
    rw [exec_performAll_cons, perform]
    rcases Step.exec (importSite env nested stack sheet.file _ site) _ with ⟨halt | _, q⟩
    · rfl
    · exact ih site.statement.stop _ q

/-- A pass through lines does what is planned for them. -/
theorem exec_renderLines (lines : List Text.Line) (cursor : Nat) (sites : List ImportSite)
    (p : Pass σ) :
    Step.exec (renderLines env nested stack sheet lines cursor sites) p =
      Step.exec (performAll env nested stack sheet
        (planLines sheet.source sheet.indent lines cursor sites)) p := by
  induction lines generalizing cursor sites p with
  | nil => rfl
  | cons line rest ih =>
    rw [renderLines, planLines]
    by_cases hwhole : (decide (cursor ≤ line.start) && (sitesOn line sites).isEmpty) = true
    · have hwhole' := hwhole
      unfold sitesOn at hwhole'
      rw [if_pos hwhole, exec_performAll_cons]
      dsimp only
      rw [if_pos hwhole', Step.exec_bind, Step.exec_modify, perform, Step.exec_modify]
      exact ih cursor sites _
    · have hwhole' := hwhole
      unfold sitesOn at hwhole'
      rw [if_neg hwhole]
      dsimp only [sitesOn, lineBase, lineRest]
      rw [if_neg hwhole', exec_performAll_append, Step.exec_bind, exec_renderSites]
      rcases Step.exec (performAll env nested stack sheet _) p with ⟨halt | _, q⟩
      · rfl
      · dsimp only
        rw [exec_performAll_append, planTail]
        split
        · rw [Step.exec_bind, Step.exec_modify, exec_performAll_cons, perform, Step.exec_modify]
          exact ih _ _ _
        · exact ih _ _ _

end

end StyleWeave.Inline
