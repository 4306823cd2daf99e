import Mathlib.Data.List.Basic
import StyleWeave.Proofs.Render.Inclusion

/-!
# What a pass upholds

A step that is started where a condition on the search holds ends where another one holds, whether
it gives a value or halts. `Triple` says so, and there is one rule for each way to make steps. A
setting upholds a condition on the search and the documents met so far (`Upholds`) if locating the
files of an import adds them to these documents, and reading one of them keeps it. Then the whole
pass ends as the condition says (`ends_passThrough`).
-/

namespace StyleWeave.Inline

variable {σ α β : Type}

/-- A result is a value that satisfies `V` together with the state behind it, or a halt that
satisfies `W`. -/
def Ends (V : α → σ → Prop) (W : Halt → σ → Prop) : Except Halt α × σ → Prop
  | (.ok a, s) => V a s
  | (.error h, s) => W h s

/-- Started where `P` holds of the search, the step ends as `V` and `W` say. What is kept of parsed
documents stays true. -/
def Triple (P : σ → Prop) (V : α → σ → Prop) (W : Halt → σ → Prop) (x : Step σ α) : Prop :=
  ∀ p, p.parsed.Valid → P p.search →
    (Step.exec x p).2.parsed.Valid ∧ Ends V W ((Step.exec x p).1, (Step.exec x p).2.search)

section

variable {P : σ → Prop} {V V' : α → σ → Prop} {U : β → σ → Prop} {W : Halt → σ → Prop}

/-! ## Composing steps -/

theorem Triple.pure {a : α} (h : ∀ s, P s → V a s) : Triple P V W (pure a : Step σ α) :=
  fun p hp hs => ⟨hp, h p.search hs⟩

theorem Triple.throw {halt : Halt} (h : ∀ s, P s → W halt s) :
    Triple P V W (throw halt : Step σ α) :=
  fun p hp hs => ⟨hp, h p.search hs⟩

theorem Triple.bind {x : Step σ α} {f : α → Step σ β} (hx : Triple P V W x)
    (hf : ∀ a, Triple (V a) U W (f a)) : Triple P U W (x >>= f) := by
  intro p hp hs
  obtain ⟨hvalid, hends⟩ := hx p hp hs
  rw [Step.exec_bind]
  generalize Step.exec x p = answer at hvalid hends ⊢
  obtain ⟨halt | a, q⟩ := answer
  · exact ⟨hvalid, hends⟩
  · exact hf a q hvalid hends

theorem Triple.weaken {x : Step σ α} (hx : Triple P V W x) (h : ∀ a s, V a s → V' a s) :
    Triple P V' W x := by
  intro p hp hs
  obtain ⟨hvalid, hends⟩ := hx p hp hs
  refine ⟨hvalid, ?_⟩
  generalize (Step.exec x p).1 = result at hends ⊢
  cases result with
  | error halt => exact hends
  | ok a => exact h a _ hends

end

/-! ## Documents -/

/-- The setting upholds `P`, which says of a search what is known of some documents. `D` says which
documents have which texts, `Q` what is asked of the documents being inlined when another one is
read, and `W` how a pass may halt. -/
structure Upholds (Q : List Path → Prop) (D : Path → String → Prop) (P : List Path → σ → Prop)
    (W : Halt → σ → Prop) (env : Setting σ) : Prop where
  nest : ∀ file stack, Q stack → Q (file :: stack)
  mono : ∀ {docs docs' : List Path} {s : σ}, docs' ⊆ docs → P docs s → P docs' s
  locate : ∀ docs importer text name s, P docs s → importer ∈ docs → D importer text →
    Imports env.options text name →
    Ends (fun files => P (files ++ docs)) W (env.locate importer name s)
  read : ∀ docs stack file s, P docs s → file ∈ docs → Q stack → stack.contains file = false →
    Ends (fun text s => P docs s ∧ D file text) W (env.read file s)
  fails : ∀ docs message s, P docs s → W (.failed (.compile message)) s
  tooDeep : ∀ docs s, P docs s → W .tooDeep s

section

variable {Q : List Path → Prop} {D : Path → String → Prop} {P : List Path → σ → Prop}
  {W : Halt → σ → Prop} {env : Setting σ} {nested : Inliner σ} {stack : List Path}

variable (h : Upholds Q D P W env) (hstack : Q stack)
  (hnested : ∀ file text indent docs, D file text → stack.contains file = false → file ∈ docs →
    Triple (P docs) (fun _ => P docs) W (nested stack file text indent))

include h hstack hnested

theorem triple_includeFile (importer : Path) (kind : ImportKind) (indent : String) {file : Path}
    {docs : List Path} (hfile : file ∈ docs) :
    Triple (P docs) (fun _ => P docs) W
      (includeFile env nested stack importer kind indent file) := by
  intro p hp hs
  rw [exec_includeFile]
  cases hverdict : verdict stack p.included kind file with
  | skipped => exact ⟨hp, hs⟩
  | loop => exact ⟨hp, h.fails docs _ _ hs⟩
  | included =>
    have hnew : stack.contains file = false := (verdict_eq_included_iff.1 hverdict).1
    have hread := h.read docs stack file p.search hs hfile hstack hnew
    dsimp only
    generalize env.read file p.search = answer at hread ⊢
    obtain ⟨halt | text, s⟩ := answer
    · exact ⟨hp, hread⟩
    · exact hnested file text indent docs hread.2 hnew hfile _ hp hread.1

theorem triple_includeFiles (importer : Path) (kind : ImportKind) (indent : String)
    {files docs : List Path} (hfiles : files ⊆ docs) :
    Triple (P docs) (fun _ => P docs) W
      (includeFiles env nested stack importer kind indent files) := by
  induction files with
  | nil => exact Triple.pure fun _ hs => hs
  | cons file rest ih =>
    rw [List.cons_subset] at hfiles
    exact (triple_includeFile h hstack hnested importer kind indent hfiles.1).bind
      fun _ => ih hfiles.2

theorem triple_importOne {importer : Path} {text : String} {docs : List Path}
    (himporter : importer ∈ docs) (hd : D importer text) (statement : Import) (indent : String)
    (expr : Expr) (name : Option String)
    (hname : ∀ n, name = some n → urlTarget? expr = none → isRule env.options n = false →
      Imports env.options text n) :
    Triple (P docs) (fun _ => P docs) W
      (importOne env nested stack importer statement indent expr name) := by
  intro p hp hs
  rw [exec_importOne]
  cases hurl : urlTarget? expr with
  | some target => exact ⟨hp, hs⟩
  | none =>
    cases name with
    | none => exact ⟨hp, h.fails docs _ _ hs⟩
    | some n =>
      dsimp only
      by_cases hrule : isRule env.options n = true
      · rw [if_pos hrule]
        exact ⟨hp, hs⟩
      · rw [if_neg hrule]
        have hlocate := h.locate docs importer text n p.search hs himporter hd
          (hname n rfl hurl (by simpa using hrule))
        generalize env.locate importer n p.search = answer at hlocate ⊢
        obtain ⟨halt | files, s⟩ := answer
        · exact ⟨hp, hlocate⟩
        · have hfiles := (triple_includeFiles h hstack hnested importer statement.kind indent
            (List.subset_append_left files docs)).weaken fun _ s hs =>
              h.mono (List.subset_append_right files docs) hs
          exact hfiles _ hp hlocate

theorem triple_importAll {importer : Path} {text : String} {docs : List Path}
    (himporter : importer ∈ docs) (hd : D importer text) (statement : Import) (indent : String)
    (exprs : List (Expr × Option String))
    (hnames : ∀ expr n, (expr, some n) ∈ exprs → urlTarget? expr = none →
      isRule env.options n = false → Imports env.options text n) :
    Triple (P docs) (fun _ => P docs) W
      (importAll env nested stack importer statement indent exprs) := by
  induction exprs with
  | nil => exact Triple.pure fun _ hs => hs
  | cons e rest ih =>
    obtain ⟨expr, name⟩ := e
    refine (triple_importOne h hstack hnested himporter hd statement indent expr name ?_).bind
      fun _ => ih fun expr n hm => hnames expr n (List.mem_cons_of_mem _ hm)
    rintro n rfl hurl hrule
    exact hnames expr n List.mem_cons_self hurl hrule

theorem triple_performAll {sheet : Sheet} {text : String} {docs : List Path}
    (hfile : sheet.file ∈ docs) (hd : D sheet.file text) (acts : List Act)
    (hsites : ∀ own site, .site own site ∈ acts → ∀ n, Locates env.options site n →
      Imports env.options text n) :
    Triple (P docs) (fun _ => P docs) W (performAll env nested stack sheet acts) := by
  induction acts with
  | nil => exact Triple.pure fun _ hs => hs
  | cons act rest ih =>
    refine Triple.bind (V := fun _ => P docs) ?_ fun _ =>
      ih fun own site hm => hsites own site (List.mem_cons_of_mem _ hm)
    cases act with
    | line line =>
      intro p hp hs
      rw [exec_perform_of_not_site fun _ _ => by simp]
      exact ⟨hp, hs⟩
    | fragment base cs opened number =>
      intro p hp hs
      rw [exec_perform_of_not_site fun _ _ => by simp]
      exact ⟨hp, hs⟩
    | site own site =>
      refine triple_importAll h hstack hnested hfile hd site.statement own _ ?_
      exact fun expr n hm hurl hrule =>
        hsites own site List.mem_cons_self n ⟨expr, hm, hurl, hrule⟩

end

section

variable {Q : List Path → Prop} {D : Path → String → Prop} {P : List Path → σ → Prop}
  {W : Halt → σ → Prop} {env : Setting σ}

theorem triple_renderSheet (h : Upholds Q D P W env) {nested : Inliner σ} {stack : List Path}
    {file : Path} {source : String} {docs : List Path} (hstack : Q (file :: stack))
    (hfile : file ∈ docs) (hd : D file source) (indent : String)
    (hnested : ∀ file' text indent docs, D file' text → (file :: stack).contains file' = false →
      file' ∈ docs → Triple (P docs) (fun _ => P docs) W
        (nested (file :: stack) file' text indent)) :
    Triple (P docs) (fun _ => P docs) W (renderSheet env nested stack file source indent) := by
  intro p hp hs
  have hparse := hp.parse_eq source
  have hvalid := valid_entered hp file source
  rw [exec_renderSheet]
  rcases hread : p.parsed.parse source with ⟨e | document, parsed⟩
  · have hkept := hp.parse source
    rw [hread] at hkept
    exact ⟨hkept, h.fails docs _ _ hs⟩
  · rw [hread] at hparse hvalid
    obtain ⟨more, hentered⟩ := sourceIndex_snd file { p with parsed }
    dsimp only at hvalid ⊢
    refine triple_performAll h hstack hnested hfile hd _ (fun own site hm n hn => ?_) _ hvalid ?_
    · exact ⟨document, hparse.symm, site, mem_of_mem_planSheet hm, hn⟩
    · rw [hentered]
      exact hs

theorem triple_inline (h : Upholds Q D P W env) (depth : Nat) {stack : List Path} {file : Path}
    {source : String} {docs : List Path} (hstack : Q (file :: stack)) (hfile : file ∈ docs)
    (hd : D file source) (indent : String) :
    Triple (P docs) (fun _ => P docs) W (inline env depth stack file source indent) := by
  induction depth generalizing stack file source docs indent with
  | zero => exact Triple.throw (h.tooDeep docs)
  | succ depth ih =>
    refine triple_renderSheet h hstack hfile hd indent fun file' text indent' docs' hd' _ hm => ?_
    exact ih (h.nest file' _ hstack) hm hd' indent'

/-- A whole pass ends as its setting upholds. -/
theorem ends_passThrough (h : Upholds Q D P W env) (depth : Nat) {file : Path} {source : String}
    {s : σ} {parsed : ParseCache} (hstack : Q [file]) (hd : D file source) (hs : P [file] s)
    (hparsed : parsed.Valid) :
    Ends (fun _ => P [file]) W ((passThrough env depth file source s parsed).1,
      (passThrough env depth file source s parsed).2.search) :=
  (triple_inline h depth hstack List.mem_cons_self hd "" _ hparsed hs).2

end

end StyleWeave.Inline
