import StyleWeave.Proofs.Render.Legible
import StyleWeave.Proofs.Syntax.Joining

/-!
# Documents whose output is well-formed

In a modular document the import statements have lines of their own at the margin, and the lines
between them stand alone. What a pass writes of modular documents is one such text behind the other,
so it stands alone as well (`Does.standsAlone`).
-/

namespace StyleWeave

open Syntax (StandsAlone)
open Text (bytes)

namespace Inline

/-! ## Rules -/

section

variable {options : Options} {s : String} {expr : Expr} {t : Token} {size : Nat}

/-- A keyword at the margin, an operand, a semicolon and a line break have no layout. -/
theorem drive_rule {front u v w x y z : List Char} (hfront : size = bytes front)
    (h : IsArgument t expr) :
    ∃ items, Layout.drive size {} [⟨.atImport, front, u⟩, ⟨t, v, w⟩, ⟨.semicolon, x, y⟩,
        ⟨.newline, y, z⟩] = .ok items ∧ items.head?.map Located.item ≠ some .indent ∧
      bracesOutside 0 (brackets items) = true ∧ Syntax.commasLevel items = true := by
  have hmargin : size - bytes front = 0 := by omega
  unfold Layout.drive
  rw [hmargin]
  obtain ⟨⟨text, rfl | rfl⟩, -⟩ := h
  · exact ⟨_, rfl, by simp, rfl, rfl⟩
  · exact ⟨_, rfl, by simp, rfl, rfl⟩

/-- A rule on a line of its own stands alone. -/
theorem Readable.standsAlone (h : Readable options s expr) :
    StandsAlone (s.toList ++ ['\n']) := by
  obtain ⟨t, u, v, w, x, hargument, hlexes⟩ := h.lexes []
  obtain ⟨items, hdrive, hmargin, houtside, hlevel⟩ := drive_rule rfl hargument
  obtain ⟨all, htokens, halike⟩ := tokenize_of_drive hlexes hdrive
  have hsame : Syntax.SameItems items all := Syntax.sameItems_of_alike halike
  refine ⟨Text.wholeLines_feed _, all, htokens, ?_, ?_, ?_⟩
  · rwa [← hsame.head]
  · rwa [← hsame.brackets_eq]
  · rwa [← hsame.commasLevel_eq]

end

/-! ## Modular documents -/

/-- The lines in front of the first statement, and those behind each. -/
def runs : List Act → List Text.Line × List (List Text.Line)
  | [] => ([], [])
  | .line line :: acts => (line :: (runs acts).1, (runs acts).2)
  | .fragment _ _ _ _ :: acts | .site _ _ :: acts => ([], (runs acts).1 :: (runs acts).2)

/-- Lines as they are written at the margin. -/
def linesText (lines : List Text.Line) : List Char :=
  lines.flatMap fun line => (lineText "" line).toList ++ ['\n']

/-- The act is that of a statement at the margin with nothing else on its line, or of a line without
a statement. -/
def Act.AtMargin : Act → Prop
  | .line _ => True
  | .fragment _ text _ _ => (Text.trim text).isEmpty = true
  | .site indent _ => indent = ""

instance : (act : Act) → Decidable act.AtMargin
  | .line _ => inferInstanceAs (Decidable True)
  | .fragment _ text _ _ => inferInstanceAs (Decidable ((Text.trim text).isEmpty = true))
  | .site indent _ => inferInstanceAs (Decidable (indent = ""))

/-- What is planned for a document at the margin, if it is well-formed. -/
def planAtMargin (options : Options) (text : String) : List Act :=
  match parse text.toList with
  | .ok document => planSheet (Sheet.of ⟨""⟩ text "" 0) document options.define
  | .error _ => []

/-- The import statements of the document have lines of their own at the margin. The lines in front
of the first of them, between two, and behind the last stand alone. -/
structure IsModular (options : Options) (text : String) : Prop where
  margin : ∀ act ∈ planAtMargin options text, act.AtMargin
  first : StandsAlone (linesText (runs (planAtMargin options text)).1)
  others : ∀ run ∈ (runs (planAtMargin options text)).2, StandsAlone (linesText run)

instance (options : Options) (text : String) : Decidable (IsModular options text) :=
  decidable_of_iff ((∀ act ∈ planAtMargin options text, act.AtMargin) ∧
      StandsAlone (linesText (runs (planAtMargin options text)).1) ∧
      ∀ run ∈ (runs (planAtMargin options text)).2, StandsAlone (linesText run))
    ⟨fun ⟨hmargin, hfirst, hothers⟩ => ⟨hmargin, hfirst, hothers⟩,
      fun h => ⟨h.margin, h.first, h.others⟩⟩

/-- All documents that the pass may reach are modular. -/
def AllModular (l : Lookup) (file : Path) (source : String) : Prop :=
  ∀ importer text, Reaches l.options l.tree l.known? file source importer text →
    IsModular l.options text

/-- If all that can be read is modular, so is all that is reached. -/
theorem allModular_of_tree {l : Lookup} {file : Path} {source : String}
    (hsource : IsModular l.options source)
    (htree : ∀ target text, l.tree.read target = .ok text → IsModular l.options text) :
    AllModular l file source := by
  intro importer text h
  cases h with
  | entry => exact hsource
  | imported _ _ _ read => exact htree importer text read

/-- The task is at the margin, and what it is still to write of lines behind a statement stands
alone. -/
def Task.IsModular : Task → Prop
  | .acts sheet plan =>
    sheet.indent = "" ∧ (∀ act ∈ plan, act.AtMargin) ∧
      ∀ run ∈ (runs plan).2, StandsAlone (linesText run)
  | .document _ _ indent | .exprs _ _ indent _ | .files _ _ indent _ => indent = ""

/-- The text of the lines that the task writes first. -/
def Task.firstRun : Task → List Char
  | .acts _ plan => linesText (runs plan).1
  | .document _ _ _ | .exprs _ _ _ _ | .files _ _ _ _ => []

/-- The text is `first`, and behind it text that stands alone. -/
def StandsBehind (first cs : List Char) : Prop :=
  ∃ rest, cs = first ++ rest ∧ StandsAlone rest

theorem StandsBehind.standsAlone {first cs : List Char} (h : StandsBehind first cs)
    (hfirst : StandsAlone first) : StandsAlone cs := by
  obtain ⟨rest, rfl, hrest⟩ := h
  exact hfirst.append hrest

theorem texts_rule (s : String) : Write.texts [.rule "" s] = s.toList ++ ['\n'] := by
  simp [Write.texts, Write.line]

variable {l : Lookup} {file : Path} {source : String} {depth : Nat} {stack : List Path}
  {task : Task} {writes : List Write} {p q : Pass PathSet}

/-- Behind the lines up to its next statement, what a task writes of modular documents stands
alone. -/
theorem Does.standsBehind (h : Does (.ofLocator l.options l.locator) depth stack task writes p q)
    (hplain : AllPlain l file source) (hmodular : AllModular l file source)
    (hreached : task.IsReached l file source) (htask : task.IsModular)
    (hparsed : p.parsed.Valid) : StandsBehind task.firstRun (Write.texts writes) := by
  induction h with
  | @document depth stack importer text indent document writes p q parse acts ih =>
    have hparse : StyleWeave.parse text.toList = .ok document := by
      rw [← hparsed.parse_eq]
      exact parse
    obtain rfl : indent = "" := htask
    obtain ⟨hmargin, hfirst, hothers⟩ := hmodular importer text hreached
    unfold planAtMargin at hmargin hfirst hothers
    rw [hparse] at hmargin hfirst hothers
    have hacts := ih (hreached.planned hparse) ⟨rfl, hmargin, hothers⟩
      (valid_entered hparsed importer text)
    exact ⟨_, rfl, hacts.standsAlone hfirst⟩
  | done | noExpr | noFile => exact ⟨[], rfl, .nil⟩
  | @line depth stack sheet line rest written writes p q hwritten others ih =>
    obtain ⟨hindent, hmargin, hruns⟩ := htask
    obtain ⟨behind, hbehind, halone⟩ := ih hreached.nextAct
      ⟨hindent, fun act hact => hmargin act (List.mem_cons_of_mem _ hact), hruns⟩ hparsed
    have hline : Write.texts written = (lineText "" line).toList ++ ['\n'] := by
      rw [hwritten, hindent, Write.texts, List.flatMap_singleton, Write.line]
    have hfirst : Task.firstRun (.acts sheet (.line line :: rest)) =
        (lineText "" line).toList ++ ['\n'] ++ Task.firstRun (.acts sheet rest) := by
      rw [Task.firstRun, runs, linesText, List.flatMap_cons]
      rfl
    refine ⟨behind, ?_, halone⟩
    rw [texts_append, hline, hbehind, hfirst, ← List.append_assoc]
  | @fragment depth stack sheet base text opened number rest written writes p q hwritten others
      ih =>
    obtain ⟨hindent, hmargin, hruns⟩ := htask
    obtain ⟨hfirst, hothers⟩ := List.forall_mem_cons.1 hruns
    have hbehind := ih hreached.nextAct
      ⟨hindent, fun act hact => hmargin act (List.mem_cons_of_mem _ hact), hothers⟩ hparsed
    have hblank : (Text.trim text).isEmpty = true := hmargin _ List.mem_cons_self
    have hnone : written = [] := by
      rw [hwritten, fragmentWrites, if_pos hblank]
    rw [hnone]
    exact ⟨_, rfl, hbehind.standsAlone hfirst⟩
  | @site depth stack sheet indent site rest written writes p m q here others ihHere ihOthers =>
    obtain ⟨hindent, hmargin, hruns⟩ := htask
    obtain ⟨hfirst, hothers⟩ := List.forall_mem_cons.1 hruns
    obtain ⟨hsite, hrest⟩ := List.forall_mem_cons.1 hmargin
    have himported := ihHere hreached.site hsite hparsed
    have hbehind := ihOthers hreached.nextAct ⟨hindent, hrest, hothers⟩ (here.valid hparsed)
    rw [texts_append]
    exact ⟨_, rfl, (himported.standsAlone .nil).append (hbehind.standsAlone hfirst)⟩
  | @url depth stack importer statement indent expr name target rest written writes p q hurl
      hwritten others ih =>
    obtain rfl : indent = "" := htask
    have hbehind := ih hreached.nextExpr rfl hparsed
    have hrule := (hreached.readable_url hplain hurl).standsAlone
    rw [texts_append, hwritten, texts_rule]
    exact ⟨_, rfl, hrule.append (hbehind.standsAlone .nil)⟩
  | @rule depth stack importer statement indent expr name rest written writes p q hurl hrule
      hwritten others ih =>
    obtain rfl : indent = "" := htask
    have hbehind := ih hreached.nextExpr rfl hparsed
    have hrule := (hreached.readable_name hplain hurl hrule).standsAlone
    rw [texts_append, hwritten, texts_rule]
    exact ⟨_, rfl, hrule.append (hbehind.standsAlone .nil)⟩
  | @located depth stack importer statement indent expr name rest files written writes p m q hurl
      hrule hlocate here others ihHere ihOthers =>
    have himported := ihHere (hreached.located hurl hrule hlocate) htask hparsed
    have hbehind := ihOthers hreached.nextExpr htask (here.valid hparsed)
    rw [texts_append]
    exact ⟨_, rfl, (himported.standsAlone .nil).append (hbehind.standsAlone .nil)⟩
  | skipped _ _ ih => exact ih hreached.nextFile htask hparsed
  | @included depth stack importer kind indent target text rest written writes p m q hnew hstack
      hfound here others ihHere ihOthers =>
    have hdocument := ihHere (hreached.included hfound) htask hparsed
    have hbehind := ihOthers hreached.nextFile htask (here.valid hparsed)
    rw [texts_append]
    exact ⟨_, rfl, (hdocument.standsAlone .nil).append (hbehind.standsAlone .nil)⟩

end Inline

end StyleWeave
