import Stencil.Proofs.Fragments
import Stencil.Template

/-! # Where the nodes of a tree come from

Each variable and each call of a compiled tree comes from a tag of its own, and these tags stand in the
template in the order of the nodes. A variable that is not escaped has a mark in its tag, or is a
position. -/
namespace Stencil
open Compilation Grammar Segment Text.Find Text.Blank

/-! ## Parts of a text -/

/-- The parts stand in the text, each behind the one before. -/
inductive InOrder : List (List Char) → List Char → Prop
  | nil {s} : InOrder [] s
  | skip {parts c s} : InOrder parts s → InOrder parts (c :: s)
  | part {part parts s} : InOrder parts s → InOrder (part :: parts) (part ++ s)

namespace InOrder

variable {parts more : List (List Char)} {s t : List Char}

theorem append_left (h : InOrder parts t) (s : List Char) : InOrder parts (s ++ t) := by
  induction s with
  | nil => exact h
  | cons c s ih => exact .skip ih

theorem append (hs : InOrder parts s) (ht : InOrder more t) : InOrder (parts ++ more) (s ++ t) := by
  induction hs with
  | nil => exact ht.append_left _
  | skip _ ih => exact .skip ih
  | part _ ih =>
    rw [List.append_assoc]
    exact .part ih

theorem of_isInfix (h : InOrder parts s) (hs : s <:+: t) : InOrder parts t := by
  obtain ⟨before, after, rfl⟩ := hs
  have hall : InOrder (parts ++ []) (s ++ after) := h.append .nil
  rw [List.append_nil] at hall
  rw [List.append_assoc]
  exact hall.append_left before

theorem singleton (s : List Char) : InOrder [s] s := by
  have h : InOrder [s] (s ++ []) := .part .nil
  rwa [List.append_nil] at h

theorem of_sublist {fewer : List (List Char)} (h : InOrder parts s) (hs : fewer.Sublist parts) :
    InOrder fewer s := by
  induction h generalizing fewer with
  | nil =>
    obtain rfl := List.sublist_nil.mp hs
    exact .nil
  | skip _ ih => exact .skip (ih hs)
  | part _ ih =>
    cases hs with
    | cons _ hs => exact (ih hs).append_left _
    | cons_cons _ hs => exact .part (ih hs)

end InOrder

/-! ## The directives of variables -/

namespace Directive

theorem variableOf_eq_ok {escape : Bool} {name : List Char} {directive : Directive}
    (h : variableOf escape name = .ok directive) : ∃ source, directive = .variable source escape := by
  unfold variableOf at h
  split at h
  · cases h
  · split at h
    · cases h
    · split at h
      · cases h
        exact ⟨_, rfl⟩
      · cases h

theorem reservedOf_eq_ok {escape : Bool} {name : List Char} {directive : Directive}
    (h : reservedOf escape name = .ok directive) :
    ∃ source, directive = .variable source (escape && source ≠ .index) := by
  unfold reservedOf at h
  split at h
  · cases h
    exact ⟨_, rfl⟩
  · cases h

theorem wordOf_variable {body : List Char} {source : Accessor} {escape : Bool}
    (h : wordOf body = .ok (.variable source escape)) :
    variableOf true body = .ok (.variable source escape) := by
  have keyword : ∀ {x : Except SyntaxFault String} {f : String → Directive},
      (∀ argument, f argument ≠ .variable source escape) → x.map f ≠ .ok (.variable source escape) := by
    intro x f hf hx
    obtain ⟨argument, -, hd⟩ := Except.map_eq_ok_iff.mp hx
    exact hf argument hd
  unfold wordOf at h
  split at h
  · exact absurd h (keyword nofun)
  · exact absurd h (keyword nofun)
  · exact absurd h (keyword nofun)
  · unfold elseOf at h
    split at h
    · cases h
    · split at h
      · cases h
      · exact absurd h (keyword nofun)
  · exact h

end Directive

/-! ## The variables of a tree -/

mutual

/-- The variables in the order in which they stand in the tree, each with whether it is escaped. -/
def Node.variables : Node → List (Accessor × Bool)
  | .text _ => []
  | .variable source escape => [(source, escape)]
  | .call .. => []
  | .conditional arms => variablesOfArms arms
  | .loop _ body => variablesOfAll body
termination_by structural node => node

def variablesOfAll : List Node → List (Accessor × Bool)
  | [] => []
  | node :: rest => node.variables ++ variablesOfAll rest
termination_by structural nodes => nodes

def variablesOfArms : List (Option Condition × List Node) → List (Accessor × Bool)
  | [] => []
  | (_, body) :: rest => variablesOfAll body ++ variablesOfArms rest
termination_by structural arms => arms

end

/-- A directive as it stands in a template. -/
def wrapped (d : Delimiters) (body : List Char) : List Char :=
  d.left ++ body ++ d.right

mutual

/-- The variables and the calls in the order in which they stand in the tree. -/
def Node.tagged : Node → List Node
  | .text _ => []
  | .variable source escape => [.variable source escape]
  | .call name helper arguments => [.call name helper arguments]
  | .conditional arms => taggedOfArms arms
  | .loop _ body => taggedOfAll body
termination_by structural node => node

def taggedOfAll : List Node → List Node
  | [] => []
  | node :: rest => node.tagged ++ taggedOfAll rest
termination_by structural nodes => nodes

def taggedOfArms : List (Option Condition × List Node) → List Node
  | [] => []
  | (_, body) :: rest => taggedOfAll body ++ taggedOfArms rest
termination_by structural arms => arms

end

/-- The body of a tag that is this node by itself. -/
inductive Yields (body : List Char) : Node → Prop
  | variable {source escape} : Directive.classify body = .ok (.variable source escape) →
      Yields body (.variable source escape)
  | call {name helper arguments operands} : Directive.classify body = .ok (.call name arguments) →
      Yields body (.call name helper operands)

/-- Tags with bodies of this kind stand in the text, one for each thing that is found, in that order. -/
def StandIn {α : Type} (d : Delimiters) (kind : List Char → α → Prop) (found : List α) (s : List Char) :
    Prop :=
  ∃ bodies, InOrder (bodies.map (wrapped d)) s ∧ List.Forall₂ kind bodies found

section
variable {α β : Type} {d : Delimiters} {kind : List Char → α → Prop} {found more : List α}
  {s t : List Char}

theorem standIn_nil (s : List Char) : StandIn d kind [] s :=
  ⟨[], .nil, .nil⟩

theorem StandIn.append (hs : StandIn d kind found s) (ht : StandIn d kind more t) :
    StandIn d kind (found ++ more) (s ++ t) := by
  obtain ⟨bodies, hin, hkind⟩ := hs
  obtain ⟨others, hothers, hmore⟩ := ht
  refine ⟨bodies ++ others, ?_, List.rel_append hkind hmore⟩
  rw [List.map_append]
  exact hin.append hothers

theorem StandIn.of_isInfix (h : StandIn d kind found s) (hs : s <:+: t) : StandIn d kind found t := by
  obtain ⟨bodies, hin, hkind⟩ := h
  exact ⟨bodies, hin.of_isInfix hs, hkind⟩

theorem forall₂_filterMap {other : List Char → β → Prop} {pick : α → Option β} {bodies : List (List Char)}
    (hp : ∀ body a b, kind body a → pick a = some b → other body b) (h : List.Forall₂ kind bodies found) :
    ∃ fewer, fewer.Sublist bodies ∧ List.Forall₂ other fewer (found.filterMap pick) := by
  induction h with
  | nil => exact ⟨[], .refl _, .nil⟩
  | @cons body a _ _ ha _ ih =>
    obtain ⟨fewer, hs, hall⟩ := ih
    cases hb : pick a with
    | none =>
      rw [List.filterMap_cons_none hb]
      exact ⟨fewer, hs.cons body, hall⟩
    | some b =>
      rw [List.filterMap_cons_some hb]
      exact ⟨body :: fewer, hs.cons_cons body, .cons (hp body a b ha hb) hall⟩

theorem StandIn.filterMap {other : List Char → β → Prop} {pick : α → Option β}
    (h : StandIn d kind found s) (hp : ∀ body a b, kind body a → pick a = some b → other body b) :
    StandIn d other (found.filterMap pick) s := by
  obtain ⟨bodies, hin, hkind⟩ := h
  obtain ⟨fewer, hs, hall⟩ := forall₂_filterMap hp hkind
  exact ⟨fewer, hin.of_sublist (hs.map _), hall⟩

theorem standIn_arms {arms : List Arm} {parts : List (List Char)} (h : InOrder parts s)
    (ha : List.Forall₂ (fun part arm => StandIn d Yields (taggedOfAll arm.2) part) parts arms) :
    StandIn d Yields (taggedOfArms arms) s := by
  induction h generalizing arms with
  | nil =>
    cases ha
    exact standIn_nil _
  | skip _ ih => exact (ih ha).of_isInfix (List.suffix_cons _ _).isInfix
  | part _ ih =>
    cases ha with
    | cons harm hrest => exact harm.append (ih hrest)

end

/-! ## Compiled trees -/

variable {settings : Settings} {source : List Char} {inner : Option Fragment} {line : Nat}

theorem Branch.first_isInfix (argument : String) (body : List Char) (line : Nat) :
    (Branch.first argument body line).body <:+: body := by
  obtain ⟨newline, hbody, -⟩ := Branch.first_append argument body line
  exact List.IsSuffix.isInfix ⟨newline, hbody.symm⟩

theorem Branch.withoutLastNewline_isPrefix (body : List Char) :
    Branch.withoutLastNewline body <+: body := by
  obtain ⟨newline, hbody, -⟩ := Branch.withoutLastNewline_append body
  exact ⟨newline, hbody.symm⟩

theorem inOrder_later {d : Delimiters} {branches : List Branch} {parts : List Part}
    (hh : List.Forall₂ (HoldsPart d) branches parts) :
    InOrder (branches.map (·.body)) ((joined parts).flatMap (written d)) := by
  induction hh with
  | nil => exact .nil
  | cons hpart _ ih =>
    obtain ⟨text, rfl, hcut⟩ := hpart
    rw [List.map_cons, joined_cons, List.flatMap_cons, List.flatMap_append, hcut.flatMap_written]
    have hbody : InOrder [Branch.withoutLastNewline text] text :=
      (InOrder.singleton _).of_isInfix (Branch.withoutLastNewline_isPrefix text).isInfix
    exact (hbody.append ih).append_left _

/-- The branches of a body are parts of it. -/
theorem inOrder_split {argument : String} {branches : List Branch}
    (h : Branch.split settings.delimiters argument source line = .ok branches) :
    InOrder (branches.map (·.body)) source := by
  obtain ⟨segments, found, hs, hf, -, rfl⟩ := split_eq_ok_iff.mp h
  obtain ⟨first, parts, hsplits, rfl⟩ := splits_of_markers hf
  have hc := cut_of_scan hs
  rw [hsplits.eq_append] at hc
  cases parts with
  | nil => exact .singleton source
  | cons part parts =>
    have hall := hc.flatMap_written
    have hbefore := hc
    rw [joined_cons] at hbefore
    rw [List.flatMap_append, hbefore.before.flatMap_written] at hall
    have hfirst : InOrder [(Branch.first argument (slice source 0 part.1.tag.start) line).body]
        (slice source 0 part.1.tag.start) :=
      (InOrder.singleton _).of_isInfix (Branch.first_isInfix _ _ _)
    have hparts := hfirst.append (inOrder_later (later_holds hc))
    rwa [hall] at hparts

/-- What a compiler of texts makes of a text comes from it. -/
def Traced (d : Delimiters) (f : Fragment) : Prop :=
  ∀ source line nodes, f source line = .ok nodes → StandIn d Yields (taggedOfAll nodes) source

theorem Traced.blockNode {f : Fragment} {block : Block} {argument : String} {opened : Tag} {node : Node}
    (hf : Traced settings.delimiters f)
    (h : blockNode settings.delimiters f block argument opened source = .ok node) :
    StandIn settings.delimiters Yields node.tagged source := by
  cases built_iff.mp h with
  | conditional hb ha =>
    refine standIn_arms (inOrder_split hb) (List.forall₂_map_left_iff.mpr ?_)
    refine (Except.forall₂_of_mapM ha).imp fun branch arm harm => ?_
    exact hf _ _ _ (arm_eq_ok_iff.mp harm).2
  | loop _ hn => exact hf _ _ _ hn

theorem standIn_of_assemble (before : List Segment) {segments : List Segment} {nodes : List Node}
    (hi : ∀ f, inner = some f → Traced settings.delimiters f)
    (hc : Cut settings.delimiters line 0 source (before ++ segments))
    (h : assemble settings source inner segments = .ok nodes) :
    StandIn settings.delimiters Yields (taggedOfAll nodes)
      (segments.flatMap (written settings.delimiters)) := by
  replace h := assembled_of_assemble h
  induction h generalizing before with
  | nil => exact standIn_nil _
  | @text chars _ _ _ ih =>
    have hrest := ih (before ++ [.text chars]) (by simpa using hc)
    exact (standIn_nil chars).append hrest
  | @«variable» t _ path escape _ ht _ ih =>
    have hrest := ih (before ++ [.tag t]) (by simpa using hc)
    have htag : StandIn settings.delimiters Yields [.variable path escape]
        (wrapped settings.delimiters t.body) :=
      ⟨[t.body], .singleton _, .cons (.variable (directive_eq_ok_iff.mp ht)) .nil⟩
    exact htag.append hrest
  | @call t _ _ _ _ _ ht hn _ ih =>
    obtain ⟨helper, operands, _, _, rfl⟩ := callNode_eq_ok hn
    have hrest := ih (before ++ [.tag t]) (by simpa using hc)
    have htag : StandIn settings.delimiters Yields [.call _ helper operands]
        (wrapped settings.delimiters t.body) :=
      ⟨[t.body], .singleton _, .cons (.call (directive_eq_ok_iff.mp ht)) .nil⟩
    exact htag.append hrest
  | @block opened closed _ _ _ _ f node _ _ hclosing hinner hn _ ih =>
    obtain ⟨inside, keyword, rfl, -, -⟩ := closing_eq_ok hclosing
    have hrest := ih (before ++ .tag opened :: (inside ++ [.tag closed])) (by simpa using hc)
    have hbody : StandIn settings.delimiters Yields node.tagged (slice source opened.stop closed.start) :=
      (hi f hinner).blockNode hn
    -- the body is all that is written between the two tags
    rw [← hc.between.flatMap_written] at hbody
    rw [List.flatMap_cons, List.flatMap_append, List.flatMap_cons]
    exact (standIn_nil _).append (hbody.append ((standIn_nil _).append hrest))

theorem traced_fragment (settings : Settings) (room : Nat) :
    Traced settings.delimiters (fragment settings room) := by
  refine fragment_induction (fun inner hi source line nodes h => ?_) room
  obtain ⟨segments, hs, ha⟩ := Except.bind_eq_ok_iff.mp h
  have hc := cut_of_scan hs
  have hall := standIn_of_assemble [] hi hc ha
  rwa [hc.flatMap_written] at hall

/-! ## The variables -/

def Node.variable? : Node → Option (Accessor × Bool)
  | .variable source escape => some (source, escape)
  | _ => none

mutual

theorem Node.variables_eq : ∀ node : Node, node.variables = node.tagged.filterMap Node.variable?
  | .text _ => rfl
  | .variable .. => rfl
  | .call .. => rfl
  | .conditional arms => variablesOfArms_eq arms
  | .loop _ body => variablesOfAll_eq body
termination_by structural node => node

theorem variablesOfAll_eq : ∀ nodes, variablesOfAll nodes = (taggedOfAll nodes).filterMap Node.variable?
  | [] => rfl
  | node :: rest => by
    rw [variablesOfAll, taggedOfAll, List.filterMap_append, node.variables_eq, variablesOfAll_eq rest]
termination_by structural nodes => nodes

theorem variablesOfArms_eq : ∀ arms, variablesOfArms arms = (taggedOfArms arms).filterMap Node.variable?
  | [] => rfl
  | (_, body) :: rest => by
    rw [variablesOfArms, taggedOfArms, List.filterMap_append, variablesOfAll_eq body,
      variablesOfArms_eq rest]
termination_by structural arms => arms

end

end Stencil
