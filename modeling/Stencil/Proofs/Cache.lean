import Mathlib.Data.List.Induction
import Stencil.Engine

/-! # The cache over whole runs

A program that uses an engine cannot tell its cache from a ledger that keeps no templates: under each name
only the text and the helpers of the last compilation, from which the template can be made again. -/
namespace Stencil.Engine

/-! ## Runs -/

/-- What a program can ask of an engine. A template that was compiled is rendered without it. -/
inductive Step where
  | register (name : String) (helper : Helper)
  | registerAll (more : List (String × Helper))
  | unregister (name : String)
  | compile (source : String)
  | render (template : Template) (context : Datum)
  | renderTemplate (name source : String) (context : Datum)
  | removeTemplate (name : String)

/-- The text that the cache is asked for. -/
def Step.source? : Step → Option String
  | .renderTemplate _ source _ => some source
  | _ => none

inductive Answer where
  | done
  | found (present : Bool)
  | compiled (result : Except Error Template)
  | rendered (result : Except Error String)

def perform (engine : Engine) : Step → Answer × Engine
  | .register name helper => (.done, engine.register name helper)
  | .registerAll more => (.done, engine.registerAll more)
  | .unregister name => (.found (engine.hasHelper name), engine.unregister name)
  | .compile source => (.compiled (engine.compile source), engine)
  | .render template context => (.rendered (template.renderDatum context), engine)
  | .renderTemplate name source context =>
    let (text, engine) := engine.renderTemplate name source context
    (.rendered text, engine)
  | .removeTemplate name => (.found (engine.hasTemplate name), engine.removeTemplate name)

/-- The answers to the steps, and what is left after the last. -/
def runAll {σ : Type} (perform : σ → Step → Answer × σ) (s : σ) : List Step → List Answer × σ
  | [] => ([], s)
  | step :: rest =>
    let (answer, next) := perform s step
    let (answers, last) := runAll perform next rest
    (answer :: answers, last)

section
variable {σ τ : Type} {p : σ → Step → Answer × σ} {q : τ → Step → Answer × τ}

theorem runAll_append (s : σ) (steps more : List Step) :
    runAll p s (steps ++ more) =
      ((runAll p s steps).1 ++ (runAll p (runAll p s steps).2 more).1,
        (runAll p (runAll p s steps).2 more).2) := by
  induction steps generalizing s with
  | nil => rfl
  | cons step steps ih => simp only [List.cons_append, runAll, ih]

/-- What holds between two states and is kept by each step holds at the end, and the answers agree. -/
theorem runAll_simulates {R : σ → τ → Prop} {steps : List Step}
    (h : ∀ s t, ∀ step ∈ steps, R s t → (p s step).1 = (q t step).1 ∧ R (p s step).2 (q t step).2)
    {s : σ} {t : τ} (hst : R s t) :
    (runAll p s steps).1 = (runAll q t steps).1 ∧ R (runAll p s steps).2 (runAll q t steps).2 := by
  induction steps generalizing s t with
  | nil => exact ⟨rfl, hst⟩
  | cons step steps ih =>
    obtain ⟨hanswer, hnext⟩ := h s t step List.mem_cons_self hst
    obtain ⟨hanswers, hlast⟩ := ih (fun s t step hm => h s t step (List.mem_cons_of_mem _ hm)) hnext
    refine ⟨?_, hlast⟩
    simp only [runAll, hanswer, hanswers]

end

/-- A fresh engine after the steps. -/
def after (options : Options) (steps : List Step) : Engine :=
  (runAll perform { options } steps).2

theorem after_append (options : Options) (steps : List Step) (step : Step) :
    after options (steps ++ [step]) = ((after options steps).perform step).2 := by
  rw [after, runAll_append]
  rfl

/-! ## The ledger -/

/-- What a template was compiled from: its text, and the helpers there were. -/
structure Origin where
  source : String
  helpers : Entries Helper

/-- The helpers there are, and what the entry of each name was made from. -/
structure Ledger where
  helpers : Entries Helper := []
  origins : String → Option Origin := fun _ => none

def settingsOf (options : Options) (helpers : Entries Helper) : Settings :=
  ⟨options.delimiters, helpers, options.maxDepth⟩

namespace Ledger

/-- The helpers that the text under this name is compiled with: those of its entry if that is one of this
very text, and else the present ones. -/
def helpersFor (ledger : Ledger) (name source : String) : Entries Helper :=
  match ledger.origins name with
  | some origin => if origin.source = source then origin.helpers else ledger.helpers
  | none => ledger.helpers

def note (ledger : Ledger) (name : String) (origin : Origin) : Ledger :=
  { ledger with origins := fun other => if name = other then some origin else ledger.origins other }

def forget (ledger : Ledger) (name : String) : Ledger :=
  { ledger with origins := fun other => if name = other then none else ledger.origins other }

/-- Only what compiles is noted, whatever becomes of the rendering. -/
def perform (options : Options) (ledger : Ledger) : Step → Answer × Ledger
  | .register name helper => (.done, { ledger with helpers := ledger.helpers.insert name helper })
  | .registerAll more => (.done, { ledger with helpers := Helper.registerAll ledger.helpers more })
  | .unregister name =>
    (.found (ledger.helpers.contains name), { ledger with helpers := ledger.helpers.erase name })
  | .compile source =>
    (.compiled (Template.compile (settingsOf options ledger.helpers) source), ledger)
  | .render template context => (.rendered (template.renderDatum context), ledger)
  | .renderTemplate name source context =>
    let helpers := ledger.helpersFor name source
    match Template.compile (settingsOf options helpers) source with
    | .error e => (.rendered (.error e), ledger)
    | .ok template =>
      (.rendered (template.renderDatum context), ledger.note name ⟨source, helpers⟩)
  | .removeTemplate name => (.found (ledger.origins name).isSome, ledger.forget name)

/-- A fresh ledger after the steps. -/
def after (options : Options) (steps : List Step) : Ledger :=
  (runAll (perform options) {} steps).2

end Ledger

/-- The entry has the text of the origin, and the template that compiling the origin gives. -/
structure Holds (options : Options) (cached : Cached) (origin : Origin) : Prop where
  source_eq : cached.source = origin.source
  compile_eq : Template.compile (settingsOf options origin.helpers) origin.source = .ok cached.template

/-- The engine has the helpers of the ledger, and an entry for each of its origins and no other. -/
structure Represents (options : Options) (engine : Engine) (ledger : Ledger) : Prop where
  options_eq : engine.options = options
  helpers_eq : engine.helpers = ledger.helpers
  entries : ∀ name, Option.Rel (Holds options) (engine.cache.get? name) (ledger.origins name)

namespace Represents

variable {options : Options} {engine : Engine} {ledger : Ledger}

theorem compile_eq (h : Represents options engine ledger) (source : String) :
    engine.compile source = Template.compile (settingsOf options ledger.helpers) source := by
  rw [Engine.compile, Engine.settings, h.options_eq, h.helpers_eq]
  rfl

theorem hasTemplate_eq (h : Represents options engine ledger) (name : String) :
    engine.hasTemplate name = (ledger.origins name).isSome := by
  have isSome_eq : ∀ {a : Option Cached} {b : Option Origin}, Option.Rel (Holds options) a b →
      a.isSome = b.isSome := by
    intro a b hab
    cases hab <;> rfl
  exact isSome_eq (h.entries name)

theorem map_helpers (h : Represents options engine ledger) (f : Entries Helper → Entries Helper) :
    Represents options { engine with helpers := f engine.helpers }
      { ledger with helpers := f ledger.helpers } :=
  ⟨h.options_eq, congrArg f h.helpers_eq, h.entries⟩

theorem insert (h : Represents options engine ledger) {cached : Cached} {origin : Origin}
    (hc : Holds options cached origin) (name : String) :
    Represents options { engine with cache := engine.cache.insert name cached }
      (ledger.note name origin) := by
  refine ⟨h.options_eq, h.helpers_eq, fun other => ?_⟩
  rw [Entries.get?_insert, Ledger.note]
  by_cases hn : name = other
  · simpa only [if_pos hn] using .some hc
  · simpa only [if_neg hn] using h.entries other

theorem erase (h : Represents options engine ledger) (name : String) :
    Represents options (engine.removeTemplate name) (ledger.forget name) := by
  refine ⟨h.options_eq, h.helpers_eq, fun other => ?_⟩
  rw [removeTemplate, Entries.get?_erase, Ledger.forget]
  by_cases hn : name = other
  · simpa only [if_pos hn] using .none
  · simpa only [if_neg hn] using h.entries other

/-- To note again what an entry was made from changes nothing. -/
theorem note_self (h : Represents options engine ledger) {name : String} {origin : Origin}
    (ho : ledger.origins name = some origin) : Represents options engine (ledger.note name origin) := by
  refine ⟨h.options_eq, h.helpers_eq, fun other => ?_⟩
  rw [Ledger.note]
  by_cases hn : name = other
  · subst hn
    simpa only [if_true, ho] using h.entries name
  · simpa only [if_neg hn] using h.entries other

/-- Either the entry is one of this text, or the text is compiled with the present helpers. -/
theorem cached_cases (h : Represents options engine ledger) (name source : String) :
    (∃ template origin, engine.cached? name source = some template ∧
        ledger.origins name = some origin ∧ origin.source = source ∧
        Template.compile (settingsOf options origin.helpers) source = .ok template) ∨
      (engine.cached? name source = none ∧ ledger.helpersFor name source = ledger.helpers) := by
  have hentry := h.entries name
  unfold cached? Ledger.helpersFor
  generalize engine.cache.get? name = entry at hentry
  generalize ledger.origins name = noted at hentry
  cases hentry with
  | none => exact .inr ⟨rfl, rfl⟩
  | @some cached origin hholds =>
    have hsource := hholds.source_eq
    by_cases hs : cached.source = source
    · refine .inl ⟨cached.template, origin, if_pos hs, rfl, hsource ▸ hs, ?_⟩
      rw [← hs, hsource]
      exact hholds.compile_eq
    · exact .inr ⟨if_neg hs, if_neg (hsource ▸ hs)⟩

/-- The template is that of the entry, or is compiled and takes the place of the entry. -/
theorem load (hc : options.cache = true) (h : Represents options engine ledger) (name source : String) :
    match Template.compile (settingsOf options (ledger.helpersFor name source)) source with
    | .error e => engine.load name source = (.error e, engine)
    | .ok template => (engine.load name source).1 = .ok template ∧
        Represents options (engine.load name source).2
          (ledger.note name ⟨source, ledger.helpersFor name source⟩) := by
  have hon : engine.options.cache = true := h.options_eq ▸ hc
  unfold Engine.load
  rw [if_pos hon]
  rcases h.cached_cases name source with
    ⟨template, origin, hcached, ho, rfl, hcompile⟩ | ⟨hcached, hpresent⟩
  · have hhelpers : ledger.helpersFor name origin.source = origin.helpers := by
      rw [Ledger.helpersFor, ho]
      exact if_pos rfl
    rw [hcached, hhelpers, hcompile]
    exact ⟨rfl, h.note_self ho⟩
  · rw [hcached, hpresent, h.compile_eq]
    cases hcompile : Template.compile (settingsOf options ledger.helpers) source with
    | error e => rfl
    | ok template => exact ⟨rfl, h.insert ⟨rfl, hcompile⟩ name⟩

theorem perform (hc : options.cache = true) (h : Represents options engine ledger) (step : Step) :
    (engine.perform step).1 = (ledger.perform options step).1 ∧
      Represents options (engine.perform step).2 (ledger.perform options step).2 := by
  cases step with
  | register name helper => exact ⟨rfl, h.map_helpers (Entries.insert name helper)⟩
  | registerAll more => exact ⟨rfl, h.map_helpers (Helper.registerAll · more)⟩
  | unregister name =>
    exact ⟨congrArg (fun helpers => Answer.found (Entries.contains name helpers)) h.helpers_eq,
      h.map_helpers (Entries.erase name)⟩
  | compile source => exact ⟨congrArg Answer.compiled (h.compile_eq source), h⟩
  | render template context => exact ⟨rfl, h⟩
  | renderTemplate name source context =>
    have hload := h.load hc name source
    show Answer.rendered (do (← (engine.load name source).1).renderDatum context) = _ ∧
      Represents options (engine.load name source).2 _
    rw [Ledger.perform]
    cases hcompile : Template.compile (settingsOf options (ledger.helpersFor name source)) source with
    | error e =>
      rw [hcompile] at hload
      rw [hload]
      exact ⟨rfl, h⟩
    | ok template =>
      rw [hcompile] at hload
      rw [hload.1]
      exact ⟨rfl, hload.2⟩
  | removeTemplate name => exact ⟨congrArg Answer.found (h.hasTemplate_eq name), h.erase name⟩

end Represents

theorem represents_after {options : Options} (hc : options.cache = true) (steps : List Step) :
    (runAll perform { options } steps).1 = (runAll (Ledger.perform options) {} steps).1 ∧
      Represents options (after options steps) (Ledger.after options steps) :=
  runAll_simulates (fun _ _ step _ h => h.perform hc step) ⟨rfl, rfl, fun _ => .none⟩

/-! ## The names with an entry -/

/-- The step has no entry of its text under the name, and compiles the text. -/
def Compiles (engine : Engine) (name : String) (step : Step) : Prop :=
  ∃ source context template, step = .renderTemplate name source context ∧
    engine.cached? name source = none ∧ engine.compile source = .ok template

/-- Something was compiled under the name after it was last removed. -/
def Live (options : Options) (steps : List Step) (name : String) : Prop :=
  ∃ before step rest, steps = before ++ step :: rest ∧ Compiles (after options before) name step ∧
    Step.removeTemplate name ∉ rest

theorem live_append_iff {options : Options} {steps : List Step} {step : Step} {name : String} :
    Live options (steps ++ [step]) name ↔ Compiles (after options steps) name step ∨
      (Live options steps name ∧ step ≠ .removeTemplate name) := by
  constructor
  · intro h
    obtain ⟨before, first, rest, hsteps, hcompiles, hrest⟩ := h
    -- the compilation is the last step, or stands before it
    rcases List.eq_nil_or_concat rest with rfl | ⟨rest, last, rfl⟩
    · obtain ⟨rfl, hfirst⟩ := List.append_inj' hsteps rfl
      obtain rfl := (List.cons.inj hfirst).1
      exact .inl hcompiles
    · rw [List.concat_eq_append] at hsteps hrest
      rw [← List.cons_append, ← List.append_assoc] at hsteps
      obtain ⟨rfl, hlast⟩ := List.append_inj' hsteps rfl
      obtain rfl := (List.cons.inj hlast).1
      obtain ⟨hrest, hlast⟩ := not_or.mp (mt List.mem_append.mpr hrest)
      exact .inr ⟨⟨before, first, rest, rfl, hcompiles, hrest⟩,
        fun h => hlast (List.mem_singleton.mpr h.symm)⟩
  · rintro (hcompiles | ⟨⟨before, first, rest, rfl, hcompiles, hrest⟩, hstep⟩)
    · exact ⟨steps, step, [], rfl, hcompiles, List.not_mem_nil⟩
    · refine ⟨before, first, rest ++ [step], by simp, hcompiles, ?_⟩
      exact List.not_mem_append hrest fun h => hstep (List.mem_singleton.mp h).symm

/-- A template is loaded without a change, or is compiled and put into the cache. -/
theorem load_cases (engine : Engine) (name source : String) :
    (engine.load name source).2 = engine ∨ ∃ template, engine.cached? name source = none ∧
      engine.compile source = .ok template ∧ (engine.load name source).2 =
        { engine with cache := engine.cache.insert name ⟨source, template⟩ } := by
  unfold load
  split
  · cases hcached : engine.cached? name source with
    | some template => exact .inl rfl
    | none =>
      cases hcompile : engine.compile source with
      | error e => exact .inl rfl
      | ok template => exact .inr ⟨template, rfl, rfl, rfl⟩
  · exact .inl rfl

theorem hasTemplate_of_compiles {engine : Engine} (hc : engine.options.cache = true) {name : String}
    {step : Step} (h : Compiles engine name step) : (engine.perform step).2.hasTemplate name = true := by
  obtain ⟨source, context, template, rfl, hcached, hcompile⟩ := h
  show (engine.load name source).2.hasTemplate name = true
  rw [load, if_pos hc, hcached, hcompile, hasTemplate, Entries.contains, Entries.get?_insert, if_pos rfl]
  rfl

/-- The entry of a name is changed by a compilation under this name, or by its removal, and by nothing
else. -/
theorem get?_perform {engine : Engine} {name : String} {step : Step} (h : ¬ Compiles engine name step)
    (hremove : step ≠ .removeTemplate name) :
    (engine.perform step).2.cache.get? name = engine.cache.get? name := by
  cases step with
  | renderTemplate other source context =>
    show (engine.load other source).2.cache.get? name = _
    rcases engine.load_cases other source with hload | ⟨template, hcached, hcompile, hload⟩
    · rw [hload]
    · have hn : other ≠ name := by
        rintro rfl
        exact h ⟨source, context, template, rfl, hcached, hcompile⟩
      rw [hload, Entries.get?_insert, if_neg hn]
  | removeTemplate other =>
    have hn : other ≠ name := fun hn => hremove (congrArg Step.removeTemplate hn)
    exact (Entries.get?_erase ..).trans (if_neg hn)
  | _ => rfl

theorem hasTemplate_perform_iff {engine : Engine} (hc : engine.options.cache = true) (name : String)
    (step : Step) :
    (engine.perform step).2.hasTemplate name = true ↔ Compiles engine name step ∨
      (engine.hasTemplate name = true ∧ step ≠ .removeTemplate name) := by
  by_cases hcompiles : Compiles engine name step
  · exact iff_of_true (hasTemplate_of_compiles hc hcompiles) (.inl hcompiles)
  rw [or_iff_right hcompiles]
  by_cases hremove : step = .removeTemplate name
  · subst hremove
    refine iff_of_false ?_ fun h => h.2 rfl
    show ¬ (engine.removeTemplate name).hasTemplate name = true
    rw [hasTemplate, removeTemplate, Entries.contains, Entries.get?_erase, if_pos rfl]
    exact Bool.false_ne_true
  · rw [and_iff_left hremove, hasTemplate, hasTemplate, Entries.contains, Entries.contains,
      get?_perform hcompiles hremove]

theorem hasTemplate_after_iff {options : Options} (hc : options.cache = true) (steps : List Step)
    (name : String) : (after options steps).hasTemplate name = true ↔ Live options steps name := by
  induction steps using List.reverseRecOn with
  | nil =>
    refine iff_of_false Bool.false_ne_true ?_
    rintro ⟨before, step, rest, hsteps, -⟩
    simp at hsteps
  | append_singleton steps step ih =>
    have hon : (after options steps).options.cache = true := by
      rw [(represents_after hc steps).2.options_eq, hc]
    rw [after_append, hasTemplate_perform_iff hon, ih, live_append_iff]

theorem nodup_perform {engine : Engine} (h : engine.cache.keys.Nodup) (step : Step) :
    (engine.perform step).2.cache.keys.Nodup := by
  cases step with
  | renderTemplate name source context =>
    show (engine.load name source).2.cache.keys.Nodup
    rcases engine.load_cases name source with hload | ⟨template, -, -, hload⟩
    · rwa [hload]
    · rw [hload]
      exact Entries.nodup_keys_insert h name _
  | removeTemplate name => exact Entries.nodup_keys_erase h name
  | _ => exact h

theorem nodup_after (options : Options) (steps : List Step) : (after options steps).cache.keys.Nodup := by
  induction steps using List.reverseRecOn with
  | nil => exact List.nodup_nil
  | append_singleton steps step ih =>
    rw [after_append]
    exact nodup_perform ih step

theorem cachedTemplates_after {options : Options} (hc : options.cache = true) (steps : List Step) :
    ∃ names : List String, names.Nodup ∧ (∀ name, name ∈ names ↔ Live options steps name) ∧
      (after options steps).cachedTemplates = names.length := by
  refine ⟨(after options steps).cache.keys, nodup_after options steps, fun name => ?_, ?_⟩
  · rw [Entries.mem_keys_iff]
    exact hasTemplate_after_iff hc steps name
  · exact (List.length_map _).symm

/-! ## Digests -/

section
variable {δ : Type} [DecidableEq δ] (digest : String → δ)

/-- The template cached under the name, if its text has the digest of this one. -/
def cachedBy? (engine : Engine) (name source : String) : Option Template :=
  match engine.cache.get? name with
  | some cached => if digest cached.source = digest source then some cached.template else none
  | none => none

def loadBy (engine : Engine) (name source : String) : Except Error Template × Engine :=
  if engine.options.cache then
    match engine.cachedBy? digest name source with
    | some template => (.ok template, engine)
    | none =>
      match engine.compile source with
      | .ok template =>
        (.ok template, { engine with cache := engine.cache.insert name ⟨source, template⟩ })
      | .error e => (.error e, engine)
  else (engine.compile source, engine)

/-- The steps of an engine that knows the texts in its cache only by their digests. -/
def performBy (engine : Engine) : Step → Answer × Engine
  | .renderTemplate name source context =>
    let (template, engine) := engine.loadBy digest name source
    (.rendered (do (← template).renderDatum context), engine)
  | step => engine.perform step

/-- Each text in the cache is one of these. -/
def Knows (texts : List String) (engine : Engine) : Prop :=
  ∀ name cached, engine.cache.get? name = some cached → cached.source ∈ texts

variable {digest} {texts : List String} {engine : Engine}

theorem cachedBy?_eq (hinj : ∀ s ∈ texts, ∀ t ∈ texts, digest s = digest t → s = t)
    (hk : Knows texts engine) (name : String) {source : String} (hs : source ∈ texts) :
    engine.cachedBy? digest name source = engine.cached? name source := by
  unfold cachedBy? cached?
  cases hentry : engine.cache.get? name with
  | none => rfl
  | some cached =>
    have hiff : digest cached.source = digest source ↔ cached.source = source :=
      ⟨hinj _ (hk name cached hentry) _ hs, congrArg digest⟩
    simp only [hiff]

theorem knows_perform (hk : Knows texts engine) (step : Step)
    (hs : ∀ source ∈ step.source?, source ∈ texts) : Knows texts (engine.perform step).2 := by
  cases step with
  | renderTemplate name source context =>
    show Knows texts (engine.load name source).2
    rcases engine.load_cases name source with hload | ⟨template, -, -, hload⟩
    · rwa [hload]
    · rw [hload]
      intro other cached h
      rw [Entries.get?_insert] at h
      split at h
      · cases h
        exact hs source rfl
      · exact hk other cached h
  | removeTemplate name =>
    intro other cached h
    rw [perform, removeTemplate, Entries.get?_erase] at h
    split at h
    · cases h
    · exact hk other cached h
  | _ => exact hk

theorem performBy_eq (hinj : ∀ s ∈ texts, ∀ t ∈ texts, digest s = digest t → s = t)
    (hk : Knows texts engine) (step : Step) (hs : ∀ source ∈ step.source?, source ∈ texts) :
    engine.performBy digest step = engine.perform step := by
  cases step with
  | renderTemplate name source context =>
    have hload : engine.loadBy digest name source = engine.load name source := by
      rw [loadBy, cachedBy?_eq hinj hk name (hs source rfl)]
      rfl
    show (Answer.rendered (do (← (engine.loadBy digest name source).1).renderDatum context),
      (engine.loadBy digest name source).2) = _
    rw [hload]
    rfl
  | _ => rfl

/-- Where no two of the texts have the same digest, it is enough to compare digests. -/
theorem runAll_performBy (hinj : ∀ s ∈ texts, ∀ t ∈ texts, digest s = digest t → s = t) (options : Options)
    {steps : List Step} (hsteps : ∀ step ∈ steps, ∀ source ∈ step.source?, source ∈ texts) :
    runAll (performBy digest) { options } steps = runAll perform { options } steps ∧
      Knows texts (after options steps) := by
  have hstep : ∀ e e' : Engine, ∀ step ∈ steps, (e = e' ∧ Knows texts e') →
      (e.performBy digest step).1 = (e'.perform step).1 ∧
        (e.performBy digest step).2 = (e'.perform step).2 ∧ Knows texts (e'.perform step).2 := by
    rintro e _ step hm ⟨rfl, hk⟩
    rw [performBy_eq hinj hk step (hsteps step hm)]
    exact ⟨rfl, rfl, knows_perform hk step (hsteps step hm)⟩
  obtain ⟨hanswers, hlast, hk⟩ := runAll_simulates hstep (s := { options }) (t := { options }) ⟨rfl, nofun⟩
  exact ⟨Prod.ext hanswers hlast, hk⟩

end

/-! ## Helpers that stay -/

def Step.keepsHelpers : Step → Bool
  | .register .. | .registerAll _ | .unregister _ => false
  | _ => true

namespace Ledger

/-- What is entered under the name was made with the present helpers. -/
def Fresh (ledger : Ledger) (name : String) : Prop :=
  ∀ origin, ledger.origins name = some origin → origin.helpers = ledger.helpers

variable {options : Options} {ledger : Ledger} {name : String}

theorem Fresh.helpersFor_eq (h : ledger.Fresh name) (source : String) :
    ledger.helpersFor name source = ledger.helpers := by
  unfold helpersFor
  split
  · rename_i origin ho
    split
    · exact h origin ho
    · rfl
  · rfl

theorem Fresh.perform (h : ledger.Fresh name) {step : Step} (hs : step.keepsHelpers = true) :
    (ledger.perform options step).2.Fresh name := by
  cases step with
  | renderTemplate other source context =>
    rw [Ledger.perform]
    split
    · exact h
    · intro origin ho
      dsimp only [note] at ho ⊢
      split at ho
      · rename_i hn
        cases ho
        subst hn
        exact h.helpersFor_eq source
      · exact h origin ho
  | removeTemplate other =>
    intro origin ho
    dsimp only [Ledger.perform, forget] at ho ⊢
    split at ho
    · cases ho
    · exact h origin ho
  | compile | render => exact h
  | _ => cases hs

theorem Fresh.runAll (h : ledger.Fresh name) {steps : List Step}
    (hs : ∀ step ∈ steps, step.keepsHelpers = true) :
    (runAll (Ledger.perform options) ledger steps).2.Fresh name := by
  induction steps generalizing ledger with
  | nil => exact h
  | cons step steps ih =>
    obtain ⟨hstep, hsteps⟩ := List.forall_mem_cons.mp hs
    exact ih (h.perform hstep) hsteps

theorem perform_renderTemplate_fst (options : Options) (ledger : Ledger) (name source : String)
    (context : Datum) :
    (ledger.perform options (.renderTemplate name source context)).1 = .rendered (do
      (← Template.compile (settingsOf options (ledger.helpersFor name source)) source).renderDatum context) := by
  rw [Ledger.perform]
  cases Template.compile (settingsOf options (ledger.helpersFor name source)) source <;> rfl

end Ledger

/-- No helper has come or gone since a compilation under the name. -/
def Settled (options : Options) (steps : List Step) (name : String) : Prop :=
  ∃ before step rest, steps = before ++ step :: rest ∧ Compiles (after options before) name step ∧
    ∀ later ∈ rest, later.keepsHelpers = true

theorem fresh_of_compiles {options : Options} {engine : Engine} {ledger : Ledger}
    (h : Represents options engine ledger) {name : String} {step : Step} (hc : Compiles engine name step) :
    (ledger.perform options step).2.Fresh name := by
  obtain ⟨source, context, template, rfl, hcached, hcompile⟩ := hc
  rcases h.cached_cases name source with ⟨_, _, hsome, -⟩ | ⟨-, hpresent⟩
  · rw [hcached] at hsome
    cases hsome
  rw [h.compile_eq] at hcompile
  rw [Ledger.perform, hpresent, hcompile]
  intro origin ho
  dsimp only [Ledger.note] at ho ⊢
  rw [if_pos rfl] at ho
  cases ho
  rfl

theorem fresh_after {options : Options} (hc : options.cache = true) {steps : List Step} {name : String}
    (h : Live options steps name → Settled options steps name) :
    (Ledger.after options steps).Fresh name := by
  intro origin ho
  have hentry : (after options steps).hasTemplate name = true := by
    rw [(represents_after hc steps).2.hasTemplate_eq, ho]
    rfl
  -- the origin is fresh right after the compilation, and stays so while the helpers stay
  obtain ⟨before, step, rest, rfl, hcompiles, hrest⟩ := h ((hasTemplate_after_iff hc steps name).mp hentry)
  have hfresh := fresh_of_compiles (represents_after hc before).2 hcompiles
  rw [Ledger.after, runAll_append] at ho ⊢
  exact hfresh.runAll hrest origin ho

/-- Where no two texts have the same digest, an engine that compares digests answers as the ledger does.
Its entries are those of the names under which something was compiled and not yet removed, a step
changes the entry of a name only if it compiles under it or removes it, and where the helpers have not
changed since then, the cache makes no difference to a rendering. -/
theorem cache_refines_ledger {δ : Type} [DecidableEq δ] {digest : String → δ} {options : Options}
    (hc : options.cache = true) (texts : List String)
    (hinj : ∀ s ∈ texts, ∀ t ∈ texts, digest s = digest t → s = t)
    {steps : List Step} (hsteps : ∀ step ∈ steps, ∀ source ∈ step.source?, source ∈ texts) :
    runAll (performBy digest) { options } steps =
        ((runAll (Ledger.perform options) {} steps).1, after options steps) ∧
      Represents options (after options steps) (Ledger.after options steps) ∧
      (∃ names : List String, names.Nodup ∧ (∀ name, name ∈ names ↔ Live options steps name) ∧
        (after options steps).cachedTemplates = names.length) ∧
      (∀ step name, (∀ source ∈ step.source?, source ∈ texts) →
        ¬ Compiles (after options steps) name step → step ≠ .removeTemplate name →
        ((after options steps).performBy digest step).2.cache.get? name =
          (after options steps).cache.get? name) ∧
      (∀ name, (Live options steps name → Settled options steps name) → ∀ source ∈ texts, ∀ context,
        ((after options steps).performBy digest (.renderTemplate name source context)).1 =
          .rendered (do (← (after options steps).compile source).renderDatum context)) := by
  obtain ⟨hanswers, hrepresents⟩ := represents_after hc steps
  obtain ⟨hdigests, hknows⟩ := runAll_performBy hinj options hsteps
  refine ⟨?_, hrepresents, cachedTemplates_after hc steps, ?_, ?_⟩
  · rw [hdigests, ← hanswers]
    rfl
  · intro step name hstep hcompiles hremove
    rw [performBy_eq hinj hknows step hstep]
    exact get?_perform hcompiles hremove
  · intro name hsettled source hs context
    have hstep : ∀ t ∈ (Step.renderTemplate name source context).source?, t ∈ texts :=
      fun t ht => Option.some.inj ht ▸ hs
    rw [performBy_eq hinj hknows _ hstep, (hrepresents.perform hc _).1, Ledger.perform_renderTemplate_fst,
      (fresh_after hc hsettled).helpersFor_eq, hrepresents.compile_eq]

/-- An entry is made even if the context is no value. It keeps the helper that it was made with, another
text that does not compile leaves it as it is, and once removed it is made anew. -/
theorem cache_refines_ledger_replaced :
    (runAll (performBy String.length) {}
      [.register "h" fun _ => .ok (.str "1"), .renderTemplate "t" "{{#h}}" (.wide true),
        .register "h" fun _ => .ok (.str "2"), .renderTemplate "t" "{{#h}}" .nothing,
        .renderTemplate "t" "a{{#g}}" .nothing, .removeTemplate "t",
        .renderTemplate "t" "{{#h}}" .nothing]).1 =
      [.done, .rendered (.error (.context (.wideInteger true))), .done, .rendered (.ok "1"),
        .rendered (.error (.undefinedHelper "g")), .found true, .rendered (.ok "2")] := by
  rw [(cache_refines_ledger rfl ["{{#h}}", "a{{#g}}"] (by decide) (by simp [Step.source?])).1]
  with_unfolding_all rfl

end Stencil.Engine
