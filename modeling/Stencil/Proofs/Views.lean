import Stencil.Proofs.Appending
import Stencil.Proofs.Unambiguous

/-! # What rendering sees

Of a scope, rendering reads the current item, the item around it and the position, whatever else is in it.
If the body of a loop reads the current item alone, then each round of the loop is what the body makes of the
item as a template. -/
namespace Stencil
open Rendering Expression

/-! ## Scopes -/

namespace Scope

/-- The same current item, the same item around it and the same position. -/
structure SameView (a b : Scope) : Prop where
  current_eq : a.current = b.current
  parent_eq : a.parent? = b.parent?
  index_eq : a.index? = b.index?

/-- The same current item, and the same values for names of this kind. -/
structure Agree (kind : Accessor → Prop) (a b : Scope) : Prop where
  current_eq : a.current = b.current
  find_eq : ∀ accessor, kind accessor → a.find? accessor = b.find? accessor
  resolve_eq : ∀ accessor, kind accessor → a.resolve accessor = b.resolve accessor

variable {a b : Scope}

theorem SameView.push (h : a.current = b.current) (item : Value) (index : Nat) :
    SameView (a.push item index) (b.push item index) where
  current_eq := rfl
  parent_eq := congrArg some h
  index_eq := rfl

end Scope

/-- A name that reads the current item. -/
def Accessor.Own : Accessor → Prop
  | .path _ | .data _ => True
  | .parent _ | .index => False

namespace Scope

variable {a b : Scope}

theorem SameView.agree (h : SameView a b) : Agree (fun _ => True) a b := by
  have hfind : ∀ accessor, a.find? accessor = b.find? accessor := by
    intro accessor
    cases accessor with
    | path | data => rw [find?, find?, h.current_eq]
    | parent => rw [find?, find?, h.parent_eq]
    | index => rfl
  refine ⟨h.current_eq, fun accessor _ => hfind accessor, fun accessor _ => ?_⟩
  cases accessor with
  | path | data | parent => exact congrArg (Option.getD · Value.null) (hfind _)
  | index => rw [resolve, resolve, h.index_eq]

theorem agree_own (h : a.current = b.current) : Agree Accessor.Own a b := by
  have hfind : ∀ accessor : Accessor, accessor.Own → a.find? accessor = b.find? accessor := by
    intro accessor ha
    cases accessor with
    | path | data => rw [find?, find?, h]
    | parent | index => exact ha.elim
  refine ⟨h, hfind, fun accessor ha => ?_⟩
  cases accessor with
  | path | data => exact congrArg (Option.getD · Value.null) (hfind _ ha)
  | parent | index => exact ha.elim

end Scope

/-! ## Conditions -/

/-- The operands of the condition read names of this kind. -/
def Condition.Reads (kind : Accessor → Prop) (condition : Condition) : Prop :=
  ∀ clause ∈ condition.clauses, ∀ accessor,
    .operand (.reference accessor) ∈ clause.left ++ clause.right → kind accessor

section
variable {kind : Accessor → Prop} {a b : Scope}

theorem Operand.resolve_congr (hab : a.Agree kind b) {operand : Operand}
    (h : ∀ accessor, operand = .reference accessor → kind accessor) :
    operand.resolve a = operand.resolve b := by
  cases operand with
  | literal => rfl
  | reference accessor => exact hab.resolve_eq accessor (h accessor rfl)

theorem Clause.evaluate_congr (hab : a.Agree kind b) {clause : Clause}
    (h : ∀ accessor, .operand (.reference accessor) ∈ clause.left ++ clause.right → kind accessor) :
    clause.evaluate a = clause.evaluate b := by
  have hside : ∀ tokens, (∀ x ∈ tokens, x ∈ clause.left ++ clause.right) →
      Expression.evaluate (Operand.resolve a) tokens = Expression.evaluate (Operand.resolve b) tokens := by
    intro tokens ht
    refine Expression.evaluate_congr fun operand ho => Operand.resolve_congr hab ?_
    rintro accessor rfl
    exact h accessor (ht _ ho)
  unfold Clause.evaluate
  rw [hside clause.left fun _ => List.mem_append_left _,
    hside clause.right fun _ => List.mem_append_right _]

theorem Condition.settle_congr {clauses : List Clause}
    (h : ∀ clause ∈ clauses, clause.evaluate a = clause.evaluate b) (connectives : List Connective) :
    settle a clauses connectives = settle b clauses connectives := by
  induction clauses generalizing connectives with
  | nil => rfl
  | cons clause clauses ih =>
    obtain ⟨hclause, hclauses⟩ := List.forall_mem_cons.mp h
    have hrest : settle a clauses = settle b clauses := funext (ih hclauses)
    rw [settle, settle, hclause, hrest]

theorem Condition.evaluate_congr (hab : a.Agree kind b) {condition : Condition}
    (h : condition.Reads kind) : condition.evaluate a = condition.evaluate b :=
  settle_congr (fun clause hc => Clause.evaluate_congr hab (h clause hc)) condition.connectives

theorem Condition.select_congr {β : Type} {arms : List (Option Condition × β)}
    (h : ∀ arm ∈ arms, ∀ condition, arm.1 = some condition →
      condition.evaluate a = condition.evaluate b) :
    select a arms = select b arms := by
  induction arms with
  | nil => rfl
  | cons arm arms ih =>
    obtain ⟨harm, harms⟩ := List.forall_mem_cons.mp h
    obtain ⟨_ | condition, chosen⟩ := arm
    · rfl
    · rw [select, select, harm condition rfl, ih harms]

end

/-! ## Trees -/

/-- What the tree reads outside of the bodies of its loops is of this kind. -/
inductive Node.Reads (kind : Accessor → Prop) : Node → Prop
  | text {text} : Reads kind (.text text)
  | variable {source escape} : kind source → Reads kind (.variable source escape)
  | call {name helper arguments} : (∀ accessor, .reference accessor ∈ arguments → kind accessor) →
      Reads kind (.call name helper arguments)
  | conditional {arms} : (∀ arm ∈ arms, ∀ condition, arm.1 = some condition → condition.Reads kind) →
      (∀ arm ∈ arms, ∀ node ∈ arm.2, Reads kind node) → Reads kind (.conditional arms)
  | loop {source body} : kind source → Reads kind (.loop source body)

theorem Node.reads_of_forall {kind : Accessor → Prop} (h : ∀ accessor, kind accessor) (node : Node) :
    node.Reads kind := by
  induction node using Node.induction with
  | text => exact .text
  | «variable» source => exact .variable (h source)
  | call => exact .call fun accessor _ => h accessor
  | conditional arms ih => exact .conditional (fun _ _ _ _ _ _ accessor _ => h accessor) ih
  | loop source => exact .loop (h source)

theorem ending_renderAll_congr {nodes : List Node} {a b : Scope}
    (h : ∀ node ∈ nodes, node.render.ending a = node.render.ending b) :
    (renderAll nodes).ending a = (renderAll nodes).ending b := by
  induction nodes with
  | nil => rw [ending_renderAll_nil, ending_renderAll_nil]
  | cons node nodes ih =>
    obtain ⟨hnode, hnodes⟩ := List.forall_mem_cons.mp h
    rw [ending_renderAll_cons, ending_renderAll_cons, hnode, ih hnodes]

theorem Ending.each_congr {first second : Scope → Ending} {a b : Scope}
    (h : ∀ item index, first (a.push item index) = second (b.push item index)) (index : Nat)
    (values : List Value) : each first a index values = each second b index values := by
  induction values generalizing index with
  | nil => rfl
  | cons item values ih => rw [each, each, h, ih]

/-- What the scopes agree on inside of a loop does not depend on what they agreed on outside. -/
theorem Node.ending_congr (node : Node) {kind : Accessor → Prop} {a b : Scope} (hab : a.Agree kind b)
    (h : node.Reads kind) : node.render.ending a = node.render.ending b := by
  induction node using Node.induction generalizing kind a b with
  | text => rfl
  | «variable» source escape =>
    cases h with
    | «variable» hs =>
      rw [(Ends.variable source escape).ending_eq, Ending.ofVariable, Ending.ofVariable,
        hab.resolve_eq source hs]
  | call name helper arguments =>
    cases h with
    | call ha =>
      have hvalues : arguments.map (Operand.resolve a) = arguments.map (Operand.resolve b) := by
        refine List.map_congr_left fun operand ho => Operand.resolve_congr hab ?_
        rintro accessor rfl
        exact ha accessor ho
      rw [(Ends.call name helper arguments).ending_eq, Ending.ofCall, Ending.ofCall, hvalues]
  | conditional arms ih =>
    cases h with
    | conditional hc hn =>
      have hselect : Condition.select a arms = Condition.select b arms :=
        Condition.select_congr fun arm ha condition hsome =>
          Condition.evaluate_congr hab (hc arm ha condition hsome)
      rw [Node.ending_conditional, Ending.ofArms, Ending.ofArms, hselect]
      rcases hs : Condition.select b arms with fault | _ | nodes
      · rfl
      · rfl
      · obtain ⟨arm, ha, rfl⟩ := Condition.select_mem hs
        refine congrArg Ending.ofBlock (ending_renderAll_congr fun node hnode => ?_)
        exact ih arm ha node hnode hab (hn arm ha node hnode)
  | loop source body ih =>
    cases h with
    | loop hs =>
      rw [Node.ending_loop, Ending.ofLoop, Ending.ofLoop, hab.find_eq source hs]
      cases b.find? source with
      | none => rfl
      | some value =>
        refine Ending.each_congr (fun item index => ending_renderAll_congr fun node hn => ?_) 0 (items value)
        exact ih node hn (Scope.SameView.push hab.current_eq item index).agree
          (node.reads_of_forall fun _ => trivial)

/-! ## The rounds of a loop -/

namespace Ending

/-- A template that fails has put nothing on the page. -/
def ofResult : Except Error String → Ending
  | .ok text => .done text
  | .error e => .failed "" e

def inTurn (endings : List Ending) : Ending :=
  endings.foldr append (.done "")

end Ending

theorem Template.render_eq_ending (nodes : List Node) (context : Value) :
    Ending.ofResult (Template.render ⟨nodes⟩ context) =
      ((renderAll nodes).ending (Scope.ofRoot context)).ofBlock := by
  rw [Template.render, renderAll_ends]
  cases (renderAll nodes).ending (Scope.ofRoot context) with
  | done text => simp only [Ending.on, Ending.ofResult, Ending.ofBlock, String.empty_append]
  | failed text e => rfl

/-- The body of a loop that reads the current item alone is a template for that item. -/
theorem ending_round {body : List Node} (h : ∀ node ∈ body, node.Reads Accessor.Own) (scope : Scope)
    (item : Value) (index : Nat) :
    ((renderAll body).ending (scope.push item index)).ofBlock =
      Ending.ofResult (Template.render ⟨body⟩ item) := by
  rw [Template.render_eq_ending]
  refine congrArg Ending.ofBlock (ending_renderAll_congr fun node hn => ?_)
  exact node.ending_congr (Scope.agree_own rfl) (h node hn)

theorem Ending.each_eq_inTurn {body : List Node} (h : ∀ node ∈ body, node.Reads Accessor.Own)
    (scope : Scope) (index : Nat) (values : List Value) :
    Ending.each (renderAll body).ending scope index values =
      inTurn (values.map fun item => ofResult (Template.render ⟨body⟩ item)) := by
  induction values generalizing index with
  | nil => rfl
  | cons item values ih =>
    rw [each, ih, ending_round h]
    rfl

/-- Scopes with the same view have the same output or the same error. In a loop whose body reads the current
item alone, outside of the bodies of loops in it, every round is the body as a template for the item, and the
loop is these templates in turn. -/
theorem renderAll_of_view :
    (∀ nodes a b, Scope.SameView a b → ∃ ending : Ending, ∀ out,
      renderAll nodes ⟨a, out⟩ = ending.on ⟨a, out⟩ ∧ renderAll nodes ⟨b, out⟩ = ending.on ⟨b, out⟩) ∧
      ∀ body, (∀ node ∈ body, node.Reads Accessor.Own) →
        (∀ item index page, piece (inFrame item index (renderAll body)) page =
          (Ending.ofResult (Template.render ⟨body⟩ item)).on page) ∧
        ∀ source page, (Node.loop source body).render page =
          (Ending.inTurn ((((page.scope.find? source).map items).getD []).map fun item =>
            .ofResult (Template.render ⟨body⟩ item))).on page := by
  refine ⟨fun nodes a b hab => ⟨(renderAll nodes).ending b, fun out => ⟨?_, renderAll_ends nodes _⟩⟩,
    fun body h => ⟨fun item index page => ?_, fun source page => ?_⟩⟩
  · have hsame : (renderAll nodes).ending a = (renderAll nodes).ending b :=
      ending_renderAll_congr fun node _ =>
        node.ending_congr hab.agree (node.reads_of_forall fun _ => trivial)
    rw [renderAll_ends, hsame]
  · rw [((renderAll_ends body).inFrame item index).piece page]
    exact congrArg (Ending.on · page) (ending_round h page.scope item index)
  · rw [Ends.loop (renderAll_ends body) page, Ending.ofLoop]
    cases page.scope.find? source with
    | none => rfl
    | some value => exact congrArg (Ending.on · page) (Ending.each_eq_inTurn h page.scope 0 (items value))

theorem renderAll_of_view_nested :
    ∃ (body : List Node) (item : Value) (a b : Scope), Scope.SameView a b ∧ a.frames.length = 2 ∧
      b.frames.length = 3 ∧ (∀ node ∈ body, node.Reads Accessor.Own) ∧
      (∃ ending : Ending, ∀ out,
        renderAll (.variable .index true :: .variable (.parent none) true :: body) ⟨a, out⟩ =
          ending.on ⟨a, out⟩ ∧
        renderAll (.variable .index true :: .variable (.parent none) true :: body) ⟨b, out⟩ =
          ending.on ⟨b, out⟩) ∧
      piece (inFrame item 0 (renderAll body)) ⟨a, "x"⟩ = .ok () ⟨a, "x[a1a2]"⟩ ∧
      (Node.loop (.data none) body).render ⟨a, "x"⟩ = .ok () ⟨a, "x[b3][]"⟩ := by
  have hbody : ∀ node ∈ [Node.text "[", .loop (.path "items")
      [.variable (.parent (some "name")) true, .variable (.data none) true], .text "] "],
      node.Reads Accessor.Own := by
    simp only [List.forall_mem_cons]
    exact ⟨.text, .loop trivial, .text, List.forall_mem_nil _⟩
  obtain ⟨hpiece, hloop⟩ := renderAll_of_view.2 _ hbody
  refine ⟨_, .map [("name", .str "a"), ("items", .list [.int 1, .int 2])],
    ⟨.str "r", [⟨.list [.map [("name", .str "b"), ("items", .list [.int 3])], .null], 0⟩, ⟨.str "p", 3⟩]⟩,
    ⟨.null, [⟨_, 0⟩, ⟨.str "p", 5⟩, ⟨.null, 1⟩]⟩, ⟨rfl, rfl, rfl⟩, rfl, rfl, hbody,
    renderAll_of_view.1 _ _ _ ⟨rfl, rfl, rfl⟩, ?_, ?_⟩
  · exact (hpiece _ 0 _).trans (by with_unfolding_all rfl)
  · exact (hloop (.data none) _).trans (by with_unfolding_all rfl)

end Stencil
