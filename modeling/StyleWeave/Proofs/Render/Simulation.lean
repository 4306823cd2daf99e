import StyleWeave.Proofs.Render.Upkeep

/-!
# Two passes side by side

Passes through one document that find files in different ways are compared step by step. `Sim` says
that two steps, started alike, end alike, unless the first one escapes: it halts in a way that the
comparison leaves open, or its search gets to where nothing is said any more. `Agree` and
`AgreeUntil` say the same of the ways in which two settings find and read files, for the imports of
the documents that are reached, and `sim_inline` carries it over to whole passes.

Passes are alike if they have written the same, and what they keep of parsed documents is true.
-/

namespace StyleWeave.Inline

/-! ## Side by side -/

section

variable {σ τ α β : Type}

/-- Two results correspond, in states that are related by `R`: either the first is a halt that `E`
leaves open, or they are equal. Values then satisfy `V`, and halts `W`. -/
def Corresponds (R : σ → τ → Prop) (E W : Halt → Prop) (V : α → Prop) (x : Except Halt α × σ)
    (y : Except Halt α × τ) : Prop :=
  (∃ h, x.1 = .error h ∧ E h ∧ W h) ∨
    (x.1 = y.1 ∧ R x.2 y.2 ∧ (∀ h, x.1 = .error h → W h) ∧ ∀ a, x.1 = .ok a → V a)

/-- Two passes have written the same, their searches are related by `S`, and what they keep of
parsed documents is true. -/
abbrev Alike (S : σ → τ → Prop) : Pass σ → Pass τ → Prop :=
  Linked fun s t => S s.1 t.1 ∧ s.2.Valid ∧ t.2.Valid

/-- Steps that are started alike have corresponding results, unless the first one gets to where `B`
holds of its search. -/
def Sim (B : σ → Prop) (S : σ → τ → Prop) (E W : Halt → Prop) (V : α → Prop) (x : Step σ α)
    (y : Step τ α) : Prop :=
  ∀ p q, Alike S p q →
    ((Step.exec x p).2.parsed.Valid ∧ B (Step.exec x p).2.search) ∨
      Corresponds (Alike S) E W V (Step.exec x p) (Step.exec y q)

/-- Started where `B` holds of the search, the step ends there. -/
abbrev Stays (B : σ → Prop) (x : Step σ α) : Prop :=
  Triple B (fun _ => B) (fun _ => B) x

theorem ends_stays_iff {B : σ → Prop} {result : Except Halt α × σ} :
    Ends (fun _ => B) (fun _ => B) result ↔ B result.2 := by
  rcases result with ⟨halt | a, s⟩ <;> exact Iff.rfl

/-- The files that an import stands for are found alike, and `F` holds of them. -/
def FoundAlike (S : σ → τ → Prop) (E W : Halt → Prop) (F : Path → Prop) (env : Setting σ)
    (env' : Setting τ) (importer : Path) (name : String) : Prop :=
  ∀ s t, S s t → Corresponds S E W (fun files => ∀ f ∈ files, F f) (env.locate importer name s)
    (env'.locate importer name t)

/-- Two settings find and read files alike for the documents that are reached: `D` says which
documents with which texts are, and `F` which files are found for their imports. -/
structure Agree (S : σ → τ → Prop) (E W : Halt → Prop) (D : Path → String → Prop)
    (F : Path → Prop) (env : Setting σ) (env' : Setting τ) : Prop where
  define : env'.options.define = env.options.define
  dialect : env'.options.dialect = env.options.dialect
  locate : ∀ file text name, D file text → Imports env.options text name →
    FoundAlike S E W F env env' file name
  read : ∀ file, F file → ∀ s t, S s t →
    Corresponds S E W (D file) (env.read file s) (env'.read file t)
  fails : ∀ message, W (.failed (.compile message))

/-- The settings agree until the search of the first gets to where `B` holds, and there it stays. -/
structure AgreeUntil (B : σ → Prop) (S : σ → τ → Prop) (E W : Halt → Prop)
    (D : Path → String → Prop) (F : Path → Prop) (env : Setting σ) (env' : Setting τ) : Prop where
  define : env'.options.define = env.options.define
  dialect : env'.options.dialect = env.options.dialect
  locate : ∀ file text name, D file text → Imports env.options text name → ∀ s t, S s t →
    B (env.locate file name s).2 ∨
      Corresponds S E W (fun files => ∀ f ∈ files, F f) (env.locate file name s)
        (env'.locate file name t)
  read : ∀ file, F file → ∀ s t, S s t →
    B (env.read file s).2 ∨ Corresponds S E W (D file) (env.read file s) (env'.read file t)
  fails : ∀ message, W (.failed (.compile message))
  locate_stays : ∀ importer name s, B s → B (env.locate importer name s).2
  read_stays : ∀ file s, B s → B (env.read file s).2

theorem AgreeUntil.upholds {B : σ → Prop} {S : σ → τ → Prop} {E W : Halt → Prop}
    {D : Path → String → Prop} {F : Path → Prop} {env : Setting σ} {env' : Setting τ}
    (h : AgreeUntil B S E W D F env env') :
    Upholds (fun _ => True) (fun _ _ => True) (fun _ => B) (fun _ => B) env where
  nest _ _ _ := trivial
  mono _ hs := hs
  locate _ importer _ name s hs _ _ _ := ends_stays_iff.2 (h.locate_stays importer name s hs)
  read _ _ file s hs _ _ _ := by
    have hread := h.read_stays file s hs
    generalize env.read file s = answer at hread
    obtain ⟨halt | text, s'⟩ := answer
    · exact hread
    · exact ⟨hread, trivial⟩
  fails _ _ _ hs := hs
  tooDeep _ _ hs := hs

theorem Agree.agreeUntil {S : σ → τ → Prop} {E W : Halt → Prop} {D : Path → String → Prop}
    {F : Path → Prop} {env : Setting σ} {env' : Setting τ} (h : Agree S E W D F env env') :
    AgreeUntil (fun _ => False) S E W D F env env' where
  define := h.define
  dialect := h.dialect
  locate file text name hd himports s t hs := Or.inr (h.locate file text name hd himports s t hs)
  read file hf s t hs := Or.inr (h.read file hf s t hs)
  fails := h.fails
  locate_stays _ _ _ hs := hs
  read_stays _ _ hs := hs

/-- A setting agrees with itself. -/
theorem agree_self {E : Halt → Prop} (env : Setting σ) :
    Agree Eq E (fun _ => True) (fun _ _ => True) (fun _ => True) env env := by
  refine ⟨rfl, rfl, ?_, ?_, fun _ => trivial⟩
  · rintro _ _ _ - - s _ rfl
    exact Or.inr ⟨rfl, rfl, fun _ _ => trivial, fun _ _ _ _ => trivial⟩
  · rintro _ - s _ rfl
    exact Or.inr ⟨rfl, rfl, fun _ _ => trivial, fun _ _ => trivial⟩

/-- Documents that are reached, of which no two are the same file, as they are inlined into one
another. -/
def OnStack (D : Path → String → Prop) (stack : List Path) : Prop :=
  (stack.Pairwise fun a b => (a == b) = false) ∧ ∀ file ∈ stack, ∃ text, D file text

end

section

variable {σ τ α β : Type} {B : σ → Prop} {S : σ → τ → Prop} {E W : Halt → Prop} {V : α → Prop}
  {U : β → Prop}

/-! ## Composing steps -/

theorem Sim.pure {a : α} (ha : V a) : Sim B S E W V (pure a : Step σ α) (pure a : Step τ α) := by
  intro p q h
  exact Or.inr (Or.inr ⟨rfl, h, by simp, by simpa using ha⟩)

theorem Sim.throw {h : Halt} (hh : W h) :
    Sim B S E W V (throw h : Step σ α) (throw h : Step τ α) := by
  intro p q hp
  exact Or.inr (Or.inr ⟨rfl, hp, by simpa using hh, by simp⟩)

/-- Steps that write the same. -/
theorem Sim.writes {V : Unit → Prop} (writes : List Write) (hv : V ()) :
    Sim B S E W V (modify fun p => p.write writes : Step σ Unit)
      (modify fun p => p.write writes : Step τ Unit) := by
  intro p q hp
  exact Or.inr (Or.inr ⟨rfl, hp.write writes, by simp, fun _ _ => hv⟩)

theorem Corresponds.bind {x : Step σ α} {y : Step τ α} {f : α → Step σ β} {g : α → Step τ β}
    {p : Pass σ} {q : Pass τ}
    (hx : Corresponds (Alike S) E W V (Step.exec x p) (Step.exec y q))
    (hf : ∀ a, V a → Sim B S E W U (f a) (g a)) :
    ((Step.exec (x >>= f) p).2.parsed.Valid ∧ B (Step.exec (x >>= f) p).2.search) ∨
      Corresponds (Alike S) E W U (Step.exec (x >>= f) p) (Step.exec (y >>= g) q) := by
  rw [Step.exec_bind, Step.exec_bind]
  rcases hx with ⟨h, hr, he, hw⟩ | ⟨hr, hrel, hw, hv⟩
  · right
    left
    generalize Step.exec x p = answer at hr ⊢
    obtain ⟨result, p'⟩ := answer
    obtain rfl : result = .error h := hr
    exact ⟨h, rfl, he, hw⟩
  · generalize Step.exec x p = answer at hr hrel hw hv ⊢
    generalize Step.exec y q = answer' at hr hrel ⊢
    obtain ⟨result, p'⟩ := answer
    obtain ⟨result', q'⟩ := answer'
    obtain rfl : result = result' := hr
    cases result with
    | error h => exact Or.inr (Or.inr ⟨rfl, hrel, by simpa using hw, by simp⟩)
    | ok a => exact hf a (hv a rfl) p' q' hrel

theorem Sim.bind {x : Step σ α} {y : Step τ α} {f : α → Step σ β} {g : α → Step τ β}
    (hx : Sim B S E W V x y) (hstays : ∀ a, Stays B (f a))
    (hf : ∀ a, V a → Sim B S E W U (f a) (g a)) : Sim B S E W U (x >>= f) (y >>= g) := by
  intro p q hp
  rcases hx p q hp with ⟨hvalid, hb⟩ | hcorresponds
  · -- Past where `B` holds, the first step goes on alone.
    left
    rw [Step.exec_bind]
    generalize Step.exec x p = answer at hvalid hb ⊢
    obtain ⟨halt | a, p'⟩ := answer
    · exact ⟨hvalid, hb⟩
    · obtain ⟨hvalid', hends⟩ := hstays a p' hvalid hb
      exact ⟨hvalid', ends_stays_iff.1 hends⟩
  · exact Corresponds.bind hcorresponds hf

theorem Sim.searching {act : σ → Except Halt α × σ} {act' : τ → Except Halt α × τ}
    (h : ∀ s t, S s t → B (act s).2 ∨ Corresponds S E W V (act s) (act' t)) :
    Sim B S E W V (searching act) (searching act') := by
  intro p q hp
  rw [Step.exec_searching, Step.exec_searching]
  obtain ⟨hsearch, hparsed, hparsed'⟩ := hp.state
  rcases h p.search q.search hsearch with hb | he | ⟨hr, hs, hw, hv⟩
  · exact Or.inl ⟨hparsed, hb⟩
  · exact Or.inr (Or.inl he)
  · exact Or.inr (Or.inr ⟨hr, { hp with state := ⟨hs, hparsed, hparsed'⟩ }, hw, hv⟩)

end

/-! ## Documents -/

section

variable {σ τ : Type} {B : σ → Prop} {S : σ → τ → Prop} {E W : Halt → Prop}
  {D : Path → String → Prop} {F : Path → Prop} {env : Setting σ} {env' : Setting τ}
  {nested : Inliner σ} {nested' : Inliner τ}

variable (hag : AgreeUntil B S E W D F env env') {stack : List Path}
  (hstays : ∀ file text indent (docs : List Path), True → stack.contains file = false →
    file ∈ docs → Stays B (nested stack file text indent))
  (hnested : ∀ file text indent, D file text → stack.contains file = false →
    Sim B S E W (fun _ => True) (nested stack file text indent) (nested' stack file text indent))

include hag hstays hnested

theorem sim_includeFile (importer : Path) (kind : ImportKind) (indent : String)
    {file : Path} (hf : F file) :
    Sim B S E W (fun _ => True) (includeFile env nested stack importer kind indent file)
      (includeFile env' nested' stack importer kind indent file) := by
  intro p q hp
  cases hverdict : verdict stack q.included kind file with
  | skipped =>
    rw [exec_includeFile, exec_includeFile, hp.included, hverdict]
    exact Sim.pure trivial p q hp
  | loop =>
    rw [exec_includeFile, exec_includeFile, hp.included, hverdict]
    exact Sim.throw (hag.fails _) p q hp
  | included =>
    have hnew : stack.contains file = false := (verdict_eq_included_iff.1 hverdict).1
    have hread : Sim B S E W (fun _ => True)
        (readFile env file >>= fun text => nested stack file text indent)
        (readFile env' file >>= fun text => nested' stack file text indent) :=
      Sim.bind (Sim.searching (hag.read file hf))
        (fun text => hstays file text indent [file] trivial hnew List.mem_cons_self)
        fun text htext => hnested file text indent htext hnew
    rw [exec_includeFile_included importer indent hverdict,
      exec_includeFile_included importer indent (hp.included ▸ hverdict)]
    exact hread _ _ { hp with included := congrArg (· ++ [file]) hp.included }

theorem sim_includeFiles (importer : Path) (kind : ImportKind)
    (indent : String) (files : List Path) (hf : ∀ f ∈ files, F f) :
    Sim B S E W (fun _ => True) (includeFiles env nested stack importer kind indent files)
      (includeFiles env' nested' stack importer kind indent files) := by
  induction files with
  | nil => exact Sim.pure trivial
  | cons file rest ih =>
    refine Sim.bind (sim_includeFile hag hstays hnested importer kind indent ?_) (fun _ => ?_)
      fun _ _ => ?_
    · exact hf file List.mem_cons_self
    · exact triple_includeFiles hag.upholds trivial hstays importer kind indent
        (List.Subset.refl rest)
    · exact ih fun f hm => hf f (List.mem_cons_of_mem _ hm)

theorem sim_importOne {importer : Path} {text : String} (hd : D importer text)
    (statement : Import) (indent : String) (expr : Expr) (name : Option String)
    (hname : ∀ n, name = some n → urlTarget? expr = none → isRule env.options n = false →
      Imports env.options text n) :
    Sim B S E W (fun _ => True) (importOne env nested stack importer statement indent expr name)
      (importOne env' nested' stack importer statement indent expr name) := by
  have hrules : ∀ n, isRule env'.options n = isRule env.options n := fun n => by
    rw [isRule, isRule, hag.dialect]
  intro p q hp
  cases hurl : urlTarget? expr with
  | some target =>
    rw [exec_importOne, exec_importOne, hurl]
    exact Sim.writes _ trivial p q hp
  | none =>
    cases name with
    | none =>
      rw [exec_importOne, exec_importOne, hurl]
      exact Sim.throw (hag.fails _) p q hp
    | some n =>
      cases hrule : isRule env.options n with
      | true =>
        rw [exec_importOne, exec_importOne, hurl]
        dsimp only
        rw [hrules, if_pos hrule, if_pos hrule]
        exact Sim.writes _ trivial p q hp
      | false =>
        have himports := hname n rfl hurl hrule
        have hlocate : Sim B S E W (fun _ => True)
            (locate env importer n >>=
              includeFiles env nested stack importer statement.kind indent)
            (locate env' importer n >>=
              includeFiles env' nested' stack importer statement.kind indent) :=
          Sim.bind (Sim.searching (hag.locate importer text n hd himports))
            (fun files => triple_includeFiles hag.upholds trivial hstays importer statement.kind
              indent (List.Subset.refl files))
            fun files => sim_includeFiles hag hstays hnested importer statement.kind indent files
        rw [exec_importOne_located importer statement indent hurl hrule,
          exec_importOne_located importer statement indent hurl ((hrules n).trans hrule)]
        exact hlocate p q hp

theorem sim_importAll {importer : Path} {text : String} (hd : D importer text)
    (statement : Import) (indent : String) (exprs : List (Expr × Option String))
    (hnames : ∀ expr n, (expr, some n) ∈ exprs → urlTarget? expr = none →
      isRule env.options n = false → Imports env.options text n) :
    Sim B S E W (fun _ => True) (importAll env nested stack importer statement indent exprs)
      (importAll env' nested' stack importer statement indent exprs) := by
  induction exprs with
  | nil => exact Sim.pure trivial
  | cons e rest ih =>
    obtain ⟨expr, name⟩ := e
    have hrest : ∀ expr n, (expr, some n) ∈ rest → urlTarget? expr = none →
        isRule env.options n = false → Imports env.options text n := fun expr n hm =>
      hnames expr n (List.mem_cons_of_mem _ hm)
    refine Sim.bind (sim_importOne hag hstays hnested hd statement indent expr name ?_)
      (fun _ => ?_) fun _ _ => ih hrest
    · rintro n rfl hurl hrule
      exact hnames expr n List.mem_cons_self hurl hrule
    · exact triple_importAll hag.upholds trivial hstays (List.mem_singleton_self importer)
        trivial statement indent rest hrest

theorem sim_perform {sheet : Sheet} {text : String} (hd : D sheet.file text) (act : Act)
    (hsites : ∀ own site, act = .site own site → ∀ n, Locates env.options site n →
      Imports env.options text n) :
    Sim B S E W (fun _ => True) (perform env nested stack sheet act)
      (perform env' nested' stack sheet act) := by
  cases act with
  | line line =>
    intro p q hp
    rw [exec_perform_of_not_site fun _ _ => by simp, exec_perform_of_not_site fun _ _ => by simp]
    exact Sim.writes _ trivial p q hp
  | fragment base cs opened number =>
    intro p q hp
    rw [exec_perform_of_not_site fun _ _ => by simp, exec_perform_of_not_site fun _ _ => by simp]
    exact Sim.writes _ trivial p q hp
  | site own site =>
    refine sim_importAll hag hstays hnested hd site.statement own _ fun expr n hm hurl hrule => ?_
    exact hsites own site rfl n ⟨expr, hm, hurl, hrule⟩

theorem sim_performAll {sheet : Sheet} {text : String} (hd : D sheet.file text) (acts : List Act)
    (hsites : ∀ own site, .site own site ∈ acts → ∀ n, Locates env.options site n →
      Imports env.options text n) :
    Sim B S E W (fun _ => True) (performAll env nested stack sheet acts)
      (performAll env' nested' stack sheet acts) := by
  induction acts with
  | nil => exact Sim.pure trivial
  | cons act rest ih =>
    have hrest : ∀ own site, .site own site ∈ rest → ∀ n, Locates env.options site n →
        Imports env.options text n := fun own site hm =>
      hsites own site (List.mem_cons_of_mem _ hm)
    refine Sim.bind (sim_perform hag hstays hnested hd act ?_) (fun _ => ?_) fun _ _ => ih hrest
    · rintro own site rfl
      exact hsites own site List.mem_cons_self
    · exact triple_performAll hag.upholds trivial hstays (List.mem_singleton_self sheet.file)
        trivial rest hrest

end

section

variable {σ τ : Type} {B : σ → Prop} {S : σ → τ → Prop} {E W : Halt → Prop}
  {D : Path → String → Prop} {F : Path → Prop} {env : Setting σ} {env' : Setting τ}

theorem sim_renderSheet (hag : AgreeUntil B S E W D F env env') {nested : Inliner σ}
    {nested' : Inliner τ} {stack : List Path} {file : Path} {source : String} (indent : String)
    (hd : D file source)
    (hstays : ∀ file' text indent (docs : List Path), True →
      (file :: stack).contains file' = false → file' ∈ docs →
      Stays B (nested (file :: stack) file' text indent))
    (hnested : ∀ file' text indent, D file' text → (file :: stack).contains file' = false →
      Sim B S E W (fun _ => True) (nested (file :: stack) file' text indent)
        (nested' (file :: stack) file' text indent)) :
    Sim B S E W (fun _ => True) (renderSheet env nested stack file source indent)
      (renderSheet env' nested' stack file source indent) := by
  intro p q hp
  obtain ⟨hsearch, hvalid, hvalid'⟩ := hp.state
  have hparse := hvalid.parse_eq source
  have hparse' := hvalid'.parse_eq source
  have hread : Alike S { p with parsed := (p.parsed.parse source).2 }
      { q with parsed := (q.parsed.parse source).2 } :=
    { hp with state := ⟨hsearch, hvalid.parse source, hvalid'.parse source⟩ }
  rw [exec_renderSheet, exec_renderSheet, hag.define]
  generalize p.parsed.parse source = answer at hparse hread ⊢
  generalize q.parsed.parse source = answer' at hparse' hread ⊢
  obtain ⟨result, parsed⟩ := answer
  obtain ⟨result', parsed'⟩ := answer'
  obtain rfl : result = result' := hparse.trans hparse'.symm
  cases result with
  | error e => exact Sim.throw (hag.fails _) _ _ hread
  | ok document =>
    obtain ⟨hindex, hentered⟩ := hread.sourceIndex file
    dsimp only
    rw [← hindex]
    refine sim_performAll hag hstays hnested hd _ (fun own site hm n hn => ?_) _ _ hentered
    exact ⟨document, hparse.symm, site, mem_of_mem_planSheet hm, hn⟩

theorem OnStack.cons {stack : List Path} (h : OnStack D stack) {file : Path} {text : String}
    (hd : D file text) (hnew : stack.contains file = false) : OnStack D (file :: stack) := by
  refine ⟨List.pairwise_cons.2 ⟨fun other hother => Bool.eq_false_iff.2 fun heq => ?_, h.1⟩, ?_⟩
  · have hcontains := List.contains_iff_exists_mem_beq.2 ⟨other, hother, heq⟩
    rw [hnew] at hcontains
    simp at hcontains
  · intro other hother
    rcases List.mem_cons.1 hother with rfl | hother
    · exact ⟨text, hd⟩
    · exact h.2 other hother

/-- A pass is too deep only where that many different documents are inlined into one another. -/
theorem sim_inline (hag : AgreeUntil B S E W D F env env') (depth : Nat) {stack : List Path}
    {file : Path} {source : String} (indent : String) (hd : D file source)
    (hstack : OnStack D (file :: stack))
    (hdeep : ∀ stack', OnStack D stack' → stack'.length = stack.length + depth + 1 → W .tooDeep) :
    Sim B S E W (fun _ => True) (inline env depth stack file source indent)
      (inline env' depth stack file source indent) := by
  induction depth generalizing stack file source indent with
  | zero => exact Sim.throw (hdeep (file :: stack) hstack rfl)
  | succ depth ih =>
    refine sim_renderSheet hag indent hd (fun file' text indent docs _ _ hm => ?_)
      fun file' text indent' hd' hnew => ?_
    · exact triple_inline hag.upholds depth trivial hm trivial indent
    · refine ih indent' hd' (hstack.cons hd' hnew) fun stack' hstack' hlen => ?_
      exact hdeep stack' hstack' (by rw [hlen, List.length_cons]; omega)

section

variable {depth : Nat} {file : Path} {source : String} {s : σ} {t : τ} {parsed parsed' : ParseCache}

/-- Whole passes correspond if their settings find and read files alike, or else the search of the
first gets to where they do not. -/
theorem corresponds_until (hag : AgreeUntil B S E W D F env env') (depth : Nat)
    (hd : D file source)
    (hdeep : ∀ stack, OnStack D stack → stack.length = depth + 1 → W .tooDeep) (hs : S s t)
    (hp : parsed.Valid) (hp' : parsed'.Valid) :
    B (passThrough env depth file source s parsed).2.search ∨
      Corresponds (Alike S) E W (fun _ => True) (passThrough env depth file source s parsed)
        (passThrough env' depth file source t parsed') := by
  have hstack : OnStack D [file] :=
    ⟨List.pairwise_singleton _ _, by simpa using ⟨source, hd⟩⟩
  have hsim : Sim B S E W (fun _ => True) (inline env depth [] file source "")
      (inline env' depth [] file source "") :=
    sim_inline hag depth "" hd hstack (by simpa using hdeep)
  exact (hsim _ _ ⟨⟨hs, hp, hp'⟩, rfl, rfl, rfl, rfl⟩).imp_left And.right

/-- Whole passes correspond if their settings find and read files alike. -/
theorem corresponds_passThrough (hag : Agree S E W D F env env') (depth : Nat) {file : Path}
    {source : String} {s : σ} {t : τ} {parsed parsed' : ParseCache} (hd : D file source)
    (hdeep : ∀ stack, OnStack D stack → stack.length = depth + 1 → W .tooDeep) (hs : S s t)
    (hp : parsed.Valid) (hp' : parsed'.Valid) :
    Corresponds (Alike S) E W (fun _ => True) (passThrough env depth file source s parsed)
      (passThrough env' depth file source t parsed') :=
  (corresponds_until hag.agreeUntil depth hd hdeep hs hp hp').resolve_left id

end

end

end StyleWeave.Inline
