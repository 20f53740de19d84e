import Stencil.Proofs.Conditions
import Stencil.Proofs.Fragments
import Stencil.Template

/-! # What makes rendering fail

The calls of a tree are listed in the order in which rendering reaches them. If all conditions of the
tree can be decided, rendering fails exactly when one of the calls does, with the error of the first. -/
namespace Stencil
open Rendering

/-- A helper with the values it is called with. -/
structure Call where
  name : String
  helper : Helper
  values : List Value

def Call.failure? (call : Call) : Option Error :=
  match call.helper call.values with
  | .ok _ => none
  | .error message => some (.helper call.name message)

def firstFailure? (calls : List Call) : Option Error :=
  calls.findSome? Call.failure?

mutual

/-- The calls that rendering reaches: those of all nodes in order, of the arm that is selected, and of the
body of a loop for each item. -/
def Node.calls : Node → Scope → List Call
  | .text _, _ => []
  | .variable .., _ => []
  | .call name helper arguments, scope => [⟨name, helper, arguments.map (Operand.resolve scope)⟩]
  | .conditional arms, scope =>
    match Condition.select scope (callsOfArms arms) with
    | .ok (some chosen) => chosen scope
    | _ => []
  | .loop source body, scope =>
    (((scope.find? source).map items).getD []).zipIdx.flatMap fun (item, index) =>
      callsOfAll body (scope.push item index)
termination_by structural node => node

def callsOfAll : List Node → Scope → List Call
  | [], _ => []
  | node :: rest, scope => node.calls scope ++ callsOfAll rest scope
termination_by structural nodes => nodes

def callsOfArms : List (Option Condition × List Node) → List (Option Condition × (Scope → List Call))
  | [] => []
  | (condition, body) :: rest => (condition, callsOfAll body) :: callsOfArms rest
termination_by structural arms => arms

end

/-- A condition that has a value in every scope. -/
def Condition.Total (condition : Condition) : Prop :=
  ∀ scope, ∃ holds, condition.evaluate scope = .ok holds

/-- A tree whose helpers are from the table and whose conditions have values. -/
inductive Node.Sound (helpers : Entries Helper) : Node → Prop
  | text {text} : Sound helpers (.text text)
  | variable {source escape} : Sound helpers (.variable source escape)
  | call {name helper arguments} : helpers.get? name = some helper →
      Sound helpers (.call name helper arguments)
  | conditional {arms} : (∀ arm ∈ arms, ∀ condition, arm.1 = some condition → condition.Total) →
      (∀ arm ∈ arms, ∀ node ∈ arm.2, Sound helpers node) → Sound helpers (.conditional arms)
  | loop {source body} : (∀ node ∈ body, Sound helpers node) → Sound helpers (.loop source body)

/-! ## Steps of rendering -/

/-- The step fails with the error of the first of the calls that fails, and else leaves the scope as it
is. -/
def Follows (step : Rendering Unit) (calls : Scope → List Call) : Prop :=
  ∀ page, match firstFailure? (calls page.scope) with
    | none => ∃ out, step page = .ok () { page with out := out }
    | some e => ∃ after, step page = .error e after

variable {step next : Rendering Unit} {calls more : Scope → List Call}

theorem Follows.outcome (h : Follows step calls) (page : Page) :
    (∃ out, firstFailure? (calls page.scope) = none ∧ step page = .ok () { page with out := out }) ∨
      ∃ e after, firstFailure? (calls page.scope) = some e ∧ step page = .error e after := by
  have hpage := h page
  cases hf : firstFailure? (calls page.scope) with
  | none =>
    rw [hf] at hpage
    obtain ⟨out, hs⟩ := hpage
    exact .inl ⟨out, rfl, hs⟩
  | some e =>
    rw [hf] at hpage
    obtain ⟨after, hs⟩ := hpage
    exact .inr ⟨e, after, rfl, hs⟩

theorem firstFailure?_append (calls more : List Call) :
    firstFailure? (calls ++ more) = (firstFailure? calls).or (firstFailure? more) :=
  List.findSome?_append

theorem Rendering.seq_eq (page : Page) :
    (do step; next) page = match step page with
      | .ok _ after => next after
      | .error e after => .error e after := by
  show EStateM.bind step (fun _ => next) page = _
  rw [EStateM.bind]
  cases step page <;> rfl

theorem Follows.seq (h : Follows step calls) (hn : Follows next more) :
    Follows (do step; next) fun scope => calls scope ++ more scope := by
  intro page
  rw [firstFailure?_append, Rendering.seq_eq]
  rcases h.outcome page with ⟨out, hf, hs⟩ | ⟨e, after, hf, hs⟩
  · rw [hf, hs, Option.none_or]
    exact hn { page with out := out }
  · rw [hf, hs, Option.some_or]
    exact ⟨after, rfl⟩

theorem Follows.of_emit (text : String) : Follows (emit text) fun _ => [] :=
  fun page => ⟨page.out ++ text, rfl⟩

theorem Rendering.call_eq (name : String) (helper : Helper) (arguments : List Operand) (page : Page) :
    call name helper arguments page =
      (match helper (arguments.map (Operand.resolve page.scope)) with
        | .ok value => write value false
        | .error message => throw (.helper name message) : Rendering Unit) page :=
  rfl

theorem Follows.of_call (name : String) (helper : Helper) (arguments : List Operand) :
    Follows (call name helper arguments) fun scope =>
      [⟨name, helper, arguments.map (Operand.resolve scope)⟩] := by
  intro page
  rw [Rendering.call_eq, firstFailure?, List.findSome?_singleton, Call.failure?]
  dsimp only
  cases helper (arguments.map (Operand.resolve page.scope)) with
  | ok value => exact Exists.intro _ rfl
  | error message => exact Exists.intro page rfl

theorem Follows.piece (h : Follows step calls) : Follows (Rendering.piece step) calls := by
  intro page
  unfold Rendering.piece
  rcases h.outcome { page with out := "" } with ⟨out, hf, hs⟩ | ⟨e, after, hf, hs⟩
  · rw [hf, hs]
    exact ⟨_, rfl⟩
  · rw [hf, hs]
    exact ⟨_, rfl⟩

theorem Follows.inFrame (h : Follows step calls) (item : Value) (index : Nat) :
    Follows (Rendering.inFrame item index step) fun scope => calls (scope.push item index) := by
  intro page
  unfold Rendering.inFrame
  rcases h.outcome { page with scope := page.scope.push item index } with
    ⟨out, hf, hs⟩ | ⟨e, after, hf, hs⟩
  · rw [hf, hs]
    exact ⟨out, rfl⟩
  · rw [hf, hs]
    exact ⟨_, rfl⟩

theorem Follows.each (h : Follows step calls) (index : Nat) (values : List Value) :
    Follows (Rendering.each step index values) fun scope =>
      (values.zipIdx index).flatMap fun (item, i) => calls (scope.push item i) := by
  induction values generalizing index with
  | nil => exact fun page => ⟨page.out, rfl⟩
  | cons item values ih => exact (h.inFrame item index).piece.seq (ih (index + 1))

/-! ## Arms -/

theorem renderArms_eq_map (arms : List (Option Condition × List Node)) :
    renderArms arms = arms.map fun arm => (arm.1, renderAll arm.2) := by
  induction arms with
  | nil => rfl
  | cons arm arms ih => rw [renderArms, ih, List.map_cons]

theorem callsOfArms_eq_map (arms : List (Option Condition × List Node)) :
    callsOfArms arms = arms.map fun arm => (arm.1, callsOfAll arm.2) := by
  induction arms with
  | nil => rfl
  | cons arm arms ih => rw [callsOfArms, ih, List.map_cons]

namespace Condition

variable {α β : Type} {scope : Scope}

theorem select_map (f : α → β) (arms : List (Option Condition × α)) :
    select scope (arms.map fun arm => (arm.1, f arm.2)) = (select scope arms).map (Option.map f) := by
  induction arms with
  | nil => rfl
  | cons arm arms ih =>
    obtain ⟨_ | condition, chosen⟩ := arm
    · rfl
    · rw [List.map_cons, select, select]
      cases condition.evaluate scope with
      | error fault => rfl
      | ok holds =>
        cases holds with
        | true => rfl
        | false => exact ih

theorem select_mem {arms : List (Option Condition × α)} {chosen : α}
    (h : select scope arms = .ok (some chosen)) : ∃ arm ∈ arms, arm.2 = chosen := by
  induction arms with
  | nil => cases h
  | cons arm arms ih =>
    obtain ⟨_ | condition, first⟩ := arm
    · cases h
      exact ⟨_, List.mem_cons_self, rfl⟩
    · rw [select] at h
      obtain ⟨holds, -, h⟩ := Except.bind_eq_ok_iff.mp h
      cases holds with
      | true =>
        cases h
        exact ⟨_, List.mem_cons_self, rfl⟩
      | false =>
        obtain ⟨arm, ha, hc⟩ := ih h
        exact ⟨arm, List.mem_cons_of_mem _ ha, hc⟩

theorem select_ok {arms : List (Option Condition × α)}
    (h : ∀ arm ∈ arms, ∀ condition, arm.1 = some condition → condition.Total) :
    ∃ chosen, select scope arms = .ok chosen := by
  induction arms with
  | nil => exact ⟨none, rfl⟩
  | cons arm arms ih =>
    obtain ⟨hfirst, hrest⟩ := List.forall_mem_cons.mp h
    obtain ⟨_ | condition, first⟩ := arm
    · exact ⟨some first, rfl⟩
    · obtain ⟨holds, hholds⟩ := hfirst condition rfl scope
      rw [select, hholds]
      cases holds with
      | true => exact ⟨some first, rfl⟩
      | false => exact ih hrest

end Condition

/-! ## Trees -/

theorem Follows.all {nodes : List Node} (h : ∀ node ∈ nodes, Follows node.render node.calls) :
    Follows (renderAll nodes) (callsOfAll nodes) := by
  induction nodes with
  | nil => exact fun page => ⟨page.out, rfl⟩
  | cons node nodes ih =>
    obtain ⟨hnode, hnodes⟩ := List.forall_mem_cons.mp h
    exact hnode.seq (ih hnodes)

theorem Node.render_conditional_arms (arms : List (Option Condition × List Node)) (page : Page) :
    (Node.conditional arms).render page =
      (match Condition.select page.scope (renderArms arms) with
        | .ok (some body) => Rendering.piece body
        | .ok none => pure ()
        | .error fault => throw (.expression fault) : Rendering Unit) page := by
  rw [Node.render]
  rfl

theorem Node.render_conditional (arms : List (Option Condition × List Node)) (page : Page) :
    (Node.conditional arms).render page =
      (match Condition.select page.scope arms with
        | .ok (some nodes) => Rendering.piece (renderAll nodes)
        | .ok none => pure ()
        | .error fault => throw (.expression fault) : Rendering Unit) page := by
  rw [Node.render_conditional_arms, renderArms_eq_map, Condition.select_map]
  rcases Condition.select page.scope arms with fault | _ | nodes <;> rfl

theorem Follows.conditional {arms : List (Option Condition × List Node)}
    (ht : ∀ arm ∈ arms, ∀ condition, arm.1 = some condition → condition.Total)
    (h : ∀ arm ∈ arms, Follows (renderAll arm.2) (callsOfAll arm.2)) :
    Follows (Node.conditional arms).render (Node.conditional arms).calls := by
  intro page
  obtain ⟨chosen, hs⟩ : ∃ chosen, Condition.select page.scope arms = .ok chosen :=
    Condition.select_ok ht
  rw [Node.render_conditional, Node.calls, callsOfArms_eq_map, Condition.select_map, hs]
  cases chosen with
  | none => exact Exists.intro page.out rfl
  | some nodes =>
    obtain ⟨arm, ha, rfl⟩ := Condition.select_mem hs
    exact (h arm ha).piece page

theorem Node.render_loop (source : Accessor) (body : List Node) (page : Page) :
    (Node.loop source body).render page =
      (match page.scope.find? source with
        | some value => Rendering.each (renderAll body) 0 (items value)
        | none => pure () : Rendering Unit) page := by
  rw [Node.render]
  rfl

theorem Follows.loop {source : Accessor} {body : List Node}
    (h : Follows (renderAll body) (callsOfAll body)) :
    Follows (Node.loop source body).render (Node.loop source body).calls := by
  intro page
  rw [Node.render_loop, Node.calls]
  cases page.scope.find? source with
  | none => exact Exists.intro page.out rfl
  | some value => exact h.each 0 (items value) page

variable {helpers : Entries Helper}

theorem Node.Sound.follows {node : Node} (h : node.Sound helpers) : Follows node.render node.calls := by
  induction h with
  | text => exact .of_emit _
  | «variable» => exact fun page => Exists.intro _ rfl
  | call => exact .of_call _ _ _
  | conditional ht _ ih => exact .conditional ht fun arm ha => .all (ih arm ha)
  | loop _ ih => exact .loop (.all ih)

/-! ## Trees that have been compiled -/

theorem Condition.total_of_parse {source : String} {condition : Condition}
    (h : Condition.parse source = .ok condition) : condition.Total := by
  intro scope
  obtain ⟨-, -, hchecks⟩ := Condition.parse_eq_ok_iff.mp h
  obtain ⟨values, hv⟩ := Condition.evaluate_of_checks hchecks scope
  exact ⟨_, Condition.settle_eq hv condition.connectives⟩

open Compilation Grammar

theorem total_of_condition? {source : Option String} {condition : Condition}
    (h : condition? source = some (some condition)) : condition.Total := by
  rcases condition?_cases h with ⟨-, hnone⟩ | ⟨_, _, -, hsome, hparse⟩
  · cases hnone
  · cases hsome
    exact Condition.total_of_parse hparse

def SoundFragment (helpers : Entries Helper) (f : Fragment) : Prop :=
  ∀ source line nodes, f source line = .ok nodes → ∀ node ∈ nodes, node.Sound helpers

theorem sound_of_blockNode {d : Delimiters} {f : Fragment} {block : Block} {argument : String}
    {opened : Tag} {body : List Char} {node : Node} (hf : SoundFragment helpers f)
    (h : blockNode d f block argument opened body = .ok node) : node.Sound helpers := by
  cases built_iff.mp h with
  | conditional _ ha =>
    refine .conditional ?_ ?_
    · intro a hmem condition hsome
      obtain ⟨source, hparse⟩ := (arm_of_mem ha hmem).1 condition hsome
      exact Condition.total_of_parse hparse
    · intro a hmem
      obtain ⟨-, _, _, hn⟩ := arm_of_mem ha hmem
      exact hf _ _ _ hn
  | loop _ hn => exact .loop (hf _ _ _ hn)

theorem sound_of_assemble {settings : Settings} {source : List Char} {inner : Option Fragment}
    {segments : List Segment} {nodes : List Node}
    (hi : ∀ f, inner = some f → SoundFragment settings.helpers f)
    (h : assemble settings source inner segments = .ok nodes) :
    ∀ node ∈ nodes, node.Sound settings.helpers := by
  replace h := assembled_of_assemble h
  induction h with
  | nil => exact List.forall_mem_nil _
  | text _ ih => exact List.forall_mem_cons.mpr ⟨.text, ih⟩
  | «variable» _ _ ih => exact List.forall_mem_cons.mpr ⟨.variable, ih⟩
  | call _ hn _ ih =>
    obtain ⟨helper, operands, hh, -, rfl⟩ := callNode_eq_ok hn
    exact List.forall_mem_cons.mpr ⟨.call hh, ih⟩
  | block _ _ hinner hn _ ih =>
    exact List.forall_mem_cons.mpr ⟨sound_of_blockNode (hi _ hinner) hn, ih⟩

theorem sound_of_fragment (settings : Settings) (room : Nat) :
    SoundFragment settings.helpers (fragment settings room) := by
  refine fragment_induction (fun inner hi source line nodes h => ?_) room
  obtain ⟨segments, -, h⟩ := Except.bind_eq_ok_iff.mp h
  exact sound_of_assemble hi h

/-! ## Failures -/

theorem callsOfAll_eq_nil {nodes : List Node} {scope : Scope}
    (h : ∀ node ∈ nodes, node.calls scope = []) : callsOfAll nodes scope = [] := by
  induction nodes with
  | nil => rfl
  | cons node nodes ih =>
    obtain ⟨hnode, hnodes⟩ := List.forall_mem_cons.mp h
    rw [callsOfAll, hnode, ih hnodes]
    rfl

/-- Without helpers there are no calls. -/
theorem Node.Sound.calls_eq_nil {node : Node} (h : node.Sound []) (scope : Scope) :
    node.calls scope = [] := by
  induction h generalizing scope with
  | text => rfl
  | «variable» => rfl
  | call hh => cases hh
  | @conditional arms _ _ ih =>
    rw [Node.calls, callsOfArms_eq_map, Condition.select_map]
    rcases hs : Condition.select scope arms with fault | _ | nodes
    · rfl
    · rfl
    · obtain ⟨arm, ha, rfl⟩ := Condition.select_mem hs
      exact callsOfAll_eq_nil fun node hn => ih arm ha node hn scope
  | loop _ ih =>
    rw [Node.calls, List.flatMap_eq_nil_iff]
    intro _ _
    exact callsOfAll_eq_nil fun node hn => ih node hn _

theorem Call.failure?_eq_none_iff {call : Call} :
    call.failure? = none ↔ ∃ value, call.helper call.values = .ok value := by
  unfold Call.failure?
  cases call.helper call.values <;> simp

theorem Call.failure?_eq_some_iff {call : Call} {e : Error} :
    call.failure? = some e ↔
      ∃ message, call.helper call.values = .error message ∧ e = .helper call.name message := by
  unfold Call.failure?
  cases call.helper call.values <;> simp [eq_comm]

/-- The error is that of the first call that fails. -/
def FirstFailure (calls : List Call) (e : Error) : Prop :=
  ∃ before call after message, calls = before ++ call :: after ∧
    (∀ c ∈ before, ∃ value, c.helper c.values = .ok value) ∧
    call.helper call.values = .error message ∧ e = .helper call.name message

theorem firstFailure?_eq_some_iff {calls : List Call} {e : Error} :
    firstFailure? calls = some e ↔ FirstFailure calls e := by
  unfold firstFailure? FirstFailure
  simp only [List.findSome?_eq_some_iff, Call.failure?_eq_none_iff, Call.failure?_eq_some_iff]
  constructor
  · intro h
    obtain ⟨before, call, after, hc, ⟨message, hm, he⟩, hb⟩ := h
    exact ⟨before, call, after, message, hc, hb, hm, he⟩
  · intro h
    obtain ⟨before, call, after, message, hc, hb, hm, he⟩ := h
    exact ⟨before, call, after, hc, ⟨message, hm, he⟩, hb⟩

namespace Template

theorem compile_of_nodes {settings : Settings} {source : String} {nodes : List Node}
    (h : Compilation.compile settings source = .ok nodes) :
    Template.compile settings source = .ok ⟨nodes⟩ := by
  rw [Template.compile, h]
  rfl

theorem sound_of_compile {settings : Settings} {source : String} {template : Template}
    (h : Template.compile settings source = .ok template) :
    ∀ node ∈ template.nodes, node.Sound settings.helpers := by
  obtain ⟨nodes, hn, h⟩ := Except.bind_eq_ok_iff.mp h
  cases h
  exact sound_of_fragment settings _ _ _ _ hn

theorem render_eq_error_iff {template : Template}
    (h : ∀ node ∈ template.nodes, node.Sound helpers) {context : Value} {e : Error} :
    template.render context = .error e ↔
      firstFailure? (callsOfAll template.nodes (Scope.ofRoot context)) = some e := by
  have hfollows : Follows (renderAll template.nodes) (callsOfAll template.nodes) :=
    .all fun node hn => (h node hn).follows
  unfold Template.render
  rcases hfollows.outcome ⟨Scope.ofRoot context, ""⟩ with ⟨out, hf, hs⟩ | ⟨first, after, hf, hs⟩
  · rw [hf, hs]
    simp
  · rw [hf, hs]
    simp

theorem render_of_sound {template : Template} (h : ∀ node ∈ template.nodes, node.Sound [])
    (context : Value) : ∃ text, template.render context = .ok text := by
  cases hr : template.render context with
  | ok text => exact ⟨text, rfl⟩
  | error e =>
    have hf := (render_eq_error_iff h).mp hr
    rw [callsOfAll_eq_nil fun node hn => (h node hn).calls_eq_nil _] at hf
    cases hf

end Template

theorem Branch.resolve_eq_ok_iff {branches : List Branch} {context : Value} {body : List Char} :
    Branch.resolve branches context = .ok body ↔ ∃ arms chosen,
      (branches.mapM fun branch => branch.parsed.map (·, branch.body)) = .ok arms ∧
      Condition.select (Scope.ofRoot context) arms = .ok chosen ∧ body = chosen.getD [] := by
  unfold Branch.resolve
  rw [Except.mapError_eq_ok_iff, Except.bind_eq_ok_iff]
  refine exists_congr fun arms => ?_
  simp only [Except.bind_eq_ok_iff, exists_and_left, pure, Except.pure, Except.ok.injEq,
    eq_comm (b := body)]

theorem Branch.exists_resolve_iff {branches : List Branch} {context : Value} :
    (∃ body, Branch.resolve branches context = .ok body) ↔
      ∀ branch ∈ branches, ∃ condition, branch.parsed = .ok condition := by
  have hmap : ∀ branch : Branch, (∃ a, branch.parsed.map (·, branch.body) = .ok a) ↔
      ∃ condition, branch.parsed = .ok condition := by
    intro branch
    simp only [Except.map_eq_ok_iff]
    exact ⟨fun ⟨_, c, h, _⟩ => ⟨c, h⟩, fun ⟨c, h⟩ => ⟨_, c, h, rfl⟩⟩
  simp only [← hmap, ← Except.exists_mapM_eq_ok_iff, Branch.resolve_eq_ok_iff]
  constructor
  · intro h
    obtain ⟨body, arms, chosen, ha, -⟩ := h
    exact ⟨arms, ha⟩
  · intro h
    obtain ⟨arms, ha⟩ := h
    obtain ⟨chosen, hs⟩ : ∃ chosen, Condition.select (Scope.ofRoot context) arms = .ok chosen := by
      refine Condition.select_ok ?_
      intro a hmem condition hsome
      obtain ⟨branch, -, hb⟩ := Except.exists_of_mem_mapM ha hmem
      obtain ⟨found, hp, rfl⟩ := Except.map_eq_ok_iff.mp hb
      obtain rfl : found = some condition := hsome
      exact total_of_condition? (parsed_eq_ok_iff.mp hp)
    exact ⟨_, arms, chosen, ha, hs, rfl⟩

theorem Branch.exists_parsed_iff {branch : Branch} :
    (∃ condition, branch.parsed = .ok condition) ↔
      ∀ text, branch.condition = some text → ∃ condition, Condition.parse text = .ok condition := by
  unfold Branch.parsed
  cases branch.condition with
  | none => exact iff_of_true ⟨none, rfl⟩ nofun
  | some text =>
    simp only [Except.map_eq_ok_iff, Option.some.injEq, forall_eq']
    exact ⟨fun ⟨_, c, h, _⟩ => ⟨c, h⟩, fun ⟨c, h⟩ => ⟨_, c, h, rfl⟩⟩

/-- A compiled template fails only with the error of the first call that fails, and never without
helpers. A condition that was read has a value, and choosing a branch fails only if one of the conditions
cannot be read. -/
theorem Template.render_fails_iff (settings : Settings) (source : String) :
    (∀ template context e, Template.compile settings source = .ok template →
      (template.render context = .error e ↔
        FirstFailure (callsOfAll template.nodes (Scope.ofRoot context)) e)) ∧
    (∀ template context, settings.helpers = [] → Template.compile settings source = .ok template →
      ∃ text, template.render context = .ok text) ∧
    (∀ condition scope, Condition.parse source = .ok condition →
      ∃ holds, condition.evaluate scope = .ok holds) ∧
    ∀ branches context, (∃ e, Branch.resolve branches context = .error e) ↔
      ∃ branch ∈ branches, ∃ text, branch.condition = some text ∧
        ∃ fault, Condition.parse text = .error fault := by
  refine ⟨?_, ?_, ?_, ?_⟩
  · intro template context e h
    rw [Template.render_eq_error_iff (Template.sound_of_compile h), firstFailure?_eq_some_iff]
  · intro template context hh h
    refine Template.render_of_sound ?_ context
    rw [← hh]
    exact Template.sound_of_compile h
  · intro condition scope h
    exact Condition.total_of_parse h scope
  · intro branches context
    rw [Except.exists_error_iff, Branch.exists_resolve_iff]
    simp only [Branch.exists_parsed_iff, Except.exists_error_iff]
    push Not
    rfl

/-- The second item is the first with a position that is not zero. -/
theorem Template.render_fails_second_item :
    ∃ template, Template.compile { helpers := [("h", fun _ => .error "no")] }
        "{{loop a}}{{if @index}}{{#h true}}{{/if}}{{/loop}}" = .ok template ∧
      template.render (.map [("a", .list [.null, .null])]) = .error (.helper "h" "no") := by
  have hc : Compilation.compile { helpers := [("h", fun _ => .error "no")] }
      "{{loop a}}{{if @index}}{{#h true}}{{/if}}{{/loop}}" =
        .ok [.loop (.path "a") [.conditional
          [(some ⟨"@index", [{ left := [.operand (.reference .index)] }], []⟩,
            [.call "h" (fun _ => .error "no") [.literal (.bool true)]])]]] := by
    with_unfolding_all rfl
  have ht := compile_of_nodes hc
  refine ⟨_, ht, ((Template.render_fails_iff _ _).1 _ _ _ ht).mpr ?_⟩
  exact ⟨[], ⟨"h", fun _ => .error "no", [.bool true]⟩, [], "no", by with_unfolding_all rfl, List.forall_mem_nil _,
    rfl, rfl⟩

end Stencil
