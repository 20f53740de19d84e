import Mathlib.Data.List.Find
import Stencil.Proofs.Cleanup
import Stencil.Proofs.Demands
import Stencil.Proofs.Origins

/-! # The helpers that a template calls

The names that a tree calls are the only thing for which a template needs the table of helpers. They are
those of the call tags of the template, in the order in which the tags stand there: a branch that loses a
newline keeps its tags, if the left delimiter does not start with one. -/
namespace Stencil
open Compilation Grammar Segment

/-! ## The names in a tree -/

def Node.callee? : Node → Option String
  | .call name .. => some name
  | _ => none

/-- The names that are called, in the order of the calls. -/
def calleesOf (nodes : List Node) : List String :=
  (taggedOfAll nodes).filterMap Node.callee?

theorem calleesOf_cons (node : Node) (rest : List Node) :
    calleesOf (node :: rest) = node.tagged.filterMap Node.callee? ++ calleesOf rest :=
  List.filterMap_append

def Demand.helper? : Demand → Option String
  | .helper name => some name
  | .level _ => none

mutual

theorem Node.helpers_demands (level : Nat) :
    ∀ node : Node, (node.demands level).filterMap Demand.helper? = node.tagged.filterMap Node.callee?
  | .text _ => rfl
  | .variable .. => rfl
  | .call .. => rfl
  | .conditional arms => helpers_demandsOfArms (level + 1) arms
  | .loop _ body => helpers_demandsOfAll (level + 1) body
termination_by structural node => node

theorem helpers_demandsOfAll (level : Nat) :
    ∀ nodes, (demandsOfAll level nodes).filterMap Demand.helper? =
      (taggedOfAll nodes).filterMap Node.callee?
  | [] => rfl
  | node :: rest => by
    rw [demandsOfAll, taggedOfAll, List.filterMap_append, List.filterMap_append,
      node.helpers_demands level, helpers_demandsOfAll level rest]
termination_by structural nodes => nodes

theorem helpers_demandsOfArms (level : Nat) :
    ∀ arms, (demandsOfArms level arms).filterMap Demand.helper? =
      (taggedOfArms arms).filterMap Node.callee?
  | [] => rfl
  | (_, body) :: rest => by
    rw [demandsOfArms, taggedOfArms, List.filterMap_append, List.filterMap_append,
      helpers_demandsOfAll level body, helpers_demandsOfArms level rest]
termination_by structural arms => arms

end

/-! ## Other helpers -/

variable {settings : Settings}

/-- Where there is room for all blocks, a missing helper is the only thing that can be in the way. -/
theorem firstRefusal?_of_helpers (helpers : Entries Helper) {demands : List Demand}
    (h : settings.firstRefusal? demands = none) :
    { settings with helpers := helpers }.firstRefusal? demands =
      ((demands.filterMap Demand.helper?).find? (!helpers.contains ·)).map .undefinedHelper := by
  induction demands with
  | nil => rfl
  | cons demand rest ih =>
    have hall := List.findSome?_eq_none_iff.mp h
    have hrest := ih (List.findSome?_eq_none_iff.mpr fun demand hm => hall demand (.tail _ hm))
    rw [Settings.firstRefusal?] at hrest ⊢
    rw [List.findSome?_cons]
    cases demand with
    | level level =>
      have hlevel : { settings with helpers := helpers }.refusal? (.level level) = none :=
        hall _ List.mem_cons_self
      rw [hlevel]
      exact hrest
    | helper name =>
      rw [Settings.refusal?, show (Demand.helper name :: rest).filterMap Demand.helper? =
        name :: rest.filterMap Demand.helper? from rfl, List.find?_cons]
      cases helpers.contains name with
      | true => exact hrest
      | false => rfl

mutual

theorem Node.relinked_congr {helpers others : Entries Helper} : ∀ node : Node,
    (∀ name ∈ node.tagged.filterMap Node.callee?, helpers.get? name = others.get? name) →
      node.relinked helpers = node.relinked others
  | .text _, _ => rfl
  | .variable .., _ => rfl
  | .call name helper arguments, h => by
    rw [Node.relinked, Node.relinked, h name List.mem_cons_self]
  | .conditional arms, h => congrArg Node.conditional (relinkedArms_congr arms h)
  | .loop source body, h => congrArg (Node.loop source) (relinkedAll_congr body h)
termination_by structural node => node

theorem relinkedAll_congr {helpers others : Entries Helper} : ∀ nodes,
    (∀ name ∈ (taggedOfAll nodes).filterMap Node.callee?, helpers.get? name = others.get? name) →
      relinkedAll helpers nodes = relinkedAll others nodes
  | [], _ => rfl
  | node :: rest, h => by
    rw [taggedOfAll, List.filterMap_append, List.forall_mem_append] at h
    rw [relinkedAll, relinkedAll, node.relinked_congr h.1, relinkedAll_congr rest h.2]
termination_by structural nodes => nodes

theorem relinkedArms_congr {helpers others : Entries Helper} : ∀ arms,
    (∀ name ∈ (taggedOfArms arms).filterMap Node.callee?, helpers.get? name = others.get? name) →
      relinkedArms helpers arms = relinkedArms others arms
  | [], _ => rfl
  | (condition, body) :: rest, h => by
    rw [taggedOfArms, List.filterMap_append, List.forall_mem_append] at h
    rw [relinkedArms, relinkedArms, relinkedAll_congr body h.1, relinkedArms_congr rest h.2]
termination_by structural arms => arms

end

/-- The result with other helpers: the first call of the template that they do not have, or the tree with
their functions. -/
theorem compile_relinked {source : String} {nodes : List Node} (h : compile settings source = .ok nodes)
    (helpers : Entries Helper) : compile { settings with helpers := helpers } source =
      match (calleesOf nodes).find? (!helpers.contains ·) with
      | some name => .error (.undefinedHelper name)
      | none => .ok (relinkedAll helpers nodes) := by
  have hnone := (granted_of_compile h).1
  rw [compile_regrant h { settings with helpers := helpers } rfl, regranted,
    firstRefusal?_of_helpers helpers hnone, helpers_demandsOfAll, calleesOf]
  cases ((taggedOfAll nodes).filterMap Node.callee?).find? (!helpers.contains ·) <;> rfl

/-- Two tables that agree on the names that are called are as good as one another. -/
theorem compile_congr {source : String} {nodes : List Node} (h : compile settings source = .ok nodes)
    {helpers others : Entries Helper}
    (ha : ∀ name ∈ calleesOf nodes, helpers.get? name = others.get? name) :
    compile { settings with helpers := helpers } source =
      compile { settings with helpers := others } source := by
  have hfind : (calleesOf nodes).find? (!helpers.contains ·) =
      (calleesOf nodes).find? (!others.contains ·) := by
    refine List.find?_congr fun name hm => ?_
    rw [Entries.contains, Entries.contains, ha name hm]
  rw [compile_relinked h, compile_relinked h, hfind, relinkedAll_congr nodes ha]

/-! ## The names in a template -/

def Directive.callee? : Directive → Option String
  | .call name _ => some name
  | _ => none

/-- The name that a tag with this body calls. -/
def calledBy? (body : List Char) : Option String :=
  (Directive.classify body).toOption.bind Directive.callee?

/-- The names that the tags call, in order. -/
def calledIn (segments : List Segment) : List String :=
  (bodies segments).filterMap calledBy?

theorem calledIn_append (segments more : List Segment) :
    calledIn (segments ++ more) = calledIn segments ++ calledIn more := by
  rw [calledIn, bodies_append, List.filterMap_append]
  rfl

theorem calledIn_text_cons (chars : List Char) (rest : List Segment) :
    calledIn (.text chars :: rest) = calledIn rest :=
  rfl

theorem calledIn_tag_cons {t : Tag} {directive : Directive} (h : t.directive = .ok directive)
    (rest : List Segment) : calledIn (.tag t :: rest) = directive.callee?.toList ++ calledIn rest := by
  have hbody : calledBy? t.body = directive.callee? := by
    rw [calledBy?, directive_eq_ok_iff.mp h]
    rfl
  show (t.body :: bodies rest).filterMap calledBy? = _
  rw [List.filterMap_cons, hbody]
  cases directive.callee? <;> rfl

theorem callee?_of_branch {directive : Directive} {source : Option String}
    (h : directive.branch? = some source) : directive.callee? = none := by
  cases directive <;> simp_all [Directive.branch?, Directive.callee?]

theorem calledIn_joined {parts : List Part} (h : ∀ part ∈ parts, Marks part.1) :
    calledIn (joined parts) = parts.flatMap fun part => calledIn part.2 := by
  induction parts with
  | nil => rfl
  | cons part parts ih =>
    obtain ⟨directive, ht, hb⟩ := h part List.mem_cons_self
    rw [joined_cons, calledIn_tag_cons ht, callee?_of_branch hb, calledIn_append,
      ih fun part hm => h part (.tail _ hm), List.flatMap_cons]
    rfl

/-! ## The names in the template are those in the tree -/

variable {source : List Char} {inner : Option Fragment} {line offset : Nat} {segments : List Segment}

/-- A compiler of texts makes calls of the call tags, and of nothing else. -/
def Calling (d : Delimiters) (f : Fragment) : Prop :=
  ∀ source line nodes, f source line = .ok nodes →
    ∃ segments, scan d line 0 source = .ok segments ∧ calleesOf nodes = calledIn segments

theorem Calling.of_rescans {d : Delimiters} {f : Fragment} (hf : Calling d f) {nodes : List Node}
    (h : f source line = .ok nodes) (hr : Rescans d source segments) :
    calleesOf nodes = calledIn segments := by
  obtain ⟨found, hs, hn⟩ := hf _ _ _ h
  rw [hn, calledIn, hr.bodies_eq hs, calledIn]

theorem Calling.arms {d : Delimiters} (hd : d.left.head? ≠ some '\n') {f : Fragment} (hf : Calling d f)
    {branches : List Branch} {parts : List (List Segment)} {arms : List Arm}
    (hc : List.Forall₂ (fun branch part => Branch.Cleaned d part branch.body) branches parts)
    (ha : List.Forall₂ (fun branch a => arm f branch = .ok a) branches arms) :
    (taggedOfArms arms).filterMap Node.callee? = parts.flatMap calledIn := by
  induction hc generalizing arms with
  | nil =>
    cases ha
    rfl
  | cons hpart _ ih =>
    cases ha with
    | cons harm harms =>
      have hn := (arm_eq_ok_iff.mp harm).2
      obtain ⟨_, hs, -⟩ := hf _ _ _ hn
      have hbody := hf.of_rescans hn (hpart.rescans_of_scan hd hs)
      rw [taggedOfArms, List.filterMap_append, List.flatMap_cons, ← ih harms, ← hbody]
      rfl

theorem Calling.blockNode {d : Delimiters} (hd : d.left.head? ≠ some '\n') {f : Fragment}
    (hf : Calling d f) {block : Block} {argument : String} {opened : Tag} {node : Node}
    (hc : Cut d line offset source segments)
    (h : blockNode d f block argument opened source = .ok node) :
    node.tagged.filterMap Node.callee? = calledIn segments := by
  cases built_iff.mp h with
  | conditional hb ha =>
    obtain ⟨found, first, parts, hs, -, hsplits, hcleaned⟩ := Branch.cleaned_split hb
    refine (hf.arms hd hcleaned (Except.forall₂_of_mapM ha)).trans ?_
    rw [calledIn, ← hc.rescans.bodies_eq hs, ← calledIn, hsplits.eq_append, calledIn_append,
      calledIn_joined hsplits.marks, List.flatMap_cons, List.flatMap_map]
  | loop _ hn => exact hf.of_rescans hn hc.rescans

theorem calleesOf_assemble (hd : settings.delimiters.left.head? ≠ some '\n') (before : List Segment)
    {nodes : List Node}
    (hi : ∀ f, inner = some f → Calling settings.delimiters f)
    (hc : Cut settings.delimiters line 0 source (before ++ segments))
    (h : assemble settings source inner segments = .ok nodes) : calleesOf nodes = calledIn segments := by
  replace h := assembled_of_assemble h
  induction h generalizing before with
  | nil => rfl
  | @text chars _ _ _ ih =>
    rw [calleesOf_cons, calledIn_text_cons, ← ih (before ++ [.text chars]) (by simpa using hc)]
    rfl
  | @«variable» t _ _ _ _ ht _ ih =>
    rw [calleesOf_cons, calledIn_tag_cons ht, ih (before ++ [.tag t]) (by simpa using hc)]
    rfl
  | @call t _ _ _ _ _ ht hn _ ih =>
    obtain ⟨_, _, _, _, rfl⟩ := callNode_eq_ok hn
    rw [calleesOf_cons, calledIn_tag_cons ht, ih (before ++ [.tag t]) (by simpa using hc)]
    rfl
  | @block opened closed _ _ _ _ f _ _ ho hclosing hinner hn _ ih =>
    obtain ⟨inside, keyword, rfl, hclosed, -⟩ := closing_eq_ok hclosing
    have hrest := ih (before ++ .tag opened :: (inside ++ [.tag closed])) (by simpa using hc)
    have hbody := (hi f hinner).blockNode hd hc.between hn
    rw [calleesOf_cons, hbody, hrest, calledIn_tag_cons ho, calledIn_append, calledIn_tag_cons hclosed]
    rfl

theorem calling_fragment (hd : settings.delimiters.left.head? ≠ some '\n') (room : Nat) :
    Calling settings.delimiters (fragment settings room) := by
  refine fragment_induction (fun inner hi source line nodes h => ?_) room
  obtain ⟨segments, hs, ha⟩ := Except.bind_eq_ok_iff.mp h
  exact ⟨segments, hs, calleesOf_assemble hd [] hi (cut_of_scan hs) ha⟩

theorem calledBy?_of_yields {body : List Char} {node : Node} {name : String} (h : Yields body node)
    (hn : node.callee? = some name) : calledBy? body = some name := by
  cases h with
  | «variable» => cases hn
  | call h =>
    rw [calledBy?, h]
    exact hn

/-- With other helpers a template compiles to the same tree with their functions, or the first of its calls
that they do not have is reported. The calls are tags of the template, in its order. They are all of its
call tags, unless the left delimiter starts with a newline: a branch may lose that newline, and then the tag
that it begins is read in another way. -/
theorem compile_with_helpers {source : String} {nodes : List Node}
    (h : compile settings source = .ok nodes) :
    (∀ helpers : Entries Helper, compile { settings with helpers := helpers } source =
      match (calleesOf nodes).find? (!helpers.contains ·) with
      | some name => .error (.undefinedHelper name)
      | none => .ok (relinkedAll helpers nodes)) ∧
    (∀ helpers others : Entries Helper,
      (∀ name ∈ calleesOf nodes, helpers.get? name = others.get? name) →
        compile { settings with helpers := helpers } source =
          compile { settings with helpers := others } source) ∧
    StandIn settings.delimiters (fun body name => calledBy? body = some name) (calleesOf nodes)
      source.toList ∧
    (settings.delimiters.left.head? ≠ some '\n' → ∃ segments,
      scan settings.delimiters 1 0 source.toList = .ok segments ∧ calleesOf nodes = calledIn segments) := by
  refine ⟨compile_relinked h, fun _ _ => compile_congr h, ?_, fun hd => ?_⟩
  · exact (traced_fragment settings _ _ _ _ h).filterMap fun _ _ _ => calledBy?_of_yields
  · exact calling_fragment hd _ _ _ _ h

theorem compile_with_helpers_nested :
    ∃ (one two : Helper) (source : String) (nodes : List Node),
      compile { helpers := [("g", one), ("h", one)] } source = .ok nodes ∧ calleesOf nodes = ["h", "g"] ∧
      compile { helpers := [("f", two), ("h", two)] } source = .error (.undefinedHelper "g") ∧
      compile { helpers := [("h", two), ("g", one)] } source =
        .ok [.conditional [(some ⟨"a", [{ left := [.operand (.reference (.path "a"))] }], []⟩,
          [.call "h" two []]), (none, [.call "g" one []])]] := by
  have h : compile { helpers := [("g", fun _ => .error "no"), ("h", fun _ => .error "no")] }
      "{{if a}}{{#h}}{{else}}{{#g}}{{/if}}" =
        .ok [.conditional [(some ⟨"a", [{ left := [.operand (.reference (.path "a"))] }], []⟩,
          [.call "h" (fun _ => .error "no") []]), (none, [.call "g" (fun _ => .error "no") []])]] := by
    with_unfolding_all rfl
  obtain ⟨hother, -, -, -⟩ := compile_with_helpers h
  refine ⟨_, fun _ => .ok .null, _, _, h, rfl, ?_, ?_⟩
  · exact (hother [("f", fun _ => .ok .null), ("h", fun _ => .ok .null)]).trans rfl
  · exact (hother [("h", fun _ => .ok .null), ("g", fun _ => .error "no")]).trans rfl

/-- Here the branch loses the newline with which its call tag starts. What is left of the tag still has the
left delimiter in it, one character later, and names a variable: the template is compiled without the helper
that it calls, and no helper of that name makes a difference. -/
theorem compile_misses_call :
    ∃ (settings : Settings) (source : String) (segments : List Segment) (nodes : List Node),
      settings.delimiters.left = "\n#\n#".toList ∧ settings.helpers = [] ∧
      scan settings.delimiters 1 0 source.toList = .ok segments ∧ calledIn segments = ["h"] ∧
      compile settings source = .ok nodes ∧ calleesOf nodes = [] ∧
      ∀ helper : Helper, compile { settings with helpers := [("h", helper)] } source = .ok nodes := by
  have hscan : scan (.ofTexts "\n#\n#" "\x7d") 1 0
      "\n#\n#if a\x7d\n#\n#\n#h\x7d\n#\n#else\x7dy\n#\n#/if\x7d".toList =
        .ok [.tag ⟨"if a".toList, 0, 9, 1, 3⟩, .tag ⟨"\n#h".toList, 9, 17, 3, 6⟩,
          .tag ⟨"else".toList, 17, 26, 6, 8⟩, .text ['y'], .tag ⟨"/if".toList, 27, 35, 8, 10⟩] := by
    with_unfolding_all rfl
  have h : compile { delimiters := .ofTexts "\n#\n#" "\x7d" }
      "\n#\n#if a\x7d\n#\n#\n#h\x7d\n#\n#else\x7dy\n#\n#/if\x7d" =
        .ok [.conditional [(some ⟨"a", [{ left := [.operand (.reference (.path "a"))] }], []⟩,
          [.text "#", .variable (.path "h") true]), (none, [.text "y"])]] := by
    with_unfolding_all rfl
  have hcalled : calledIn [.tag ⟨"if a".toList, 0, 9, 1, 3⟩, .tag ⟨"\n#h".toList, 9, 17, 3, 6⟩,
      .tag ⟨"else".toList, 17, 26, 6, 8⟩, .text ['y'], .tag ⟨"/if".toList, 27, 35, 8, 10⟩] = ["h"] := by
    with_unfolding_all rfl
  exact ⟨_, _, _, _, rfl, rfl, hscan, hcalled, h, rfl,
    fun helper => (compile_relinked h [("h", helper)]).trans rfl⟩

end Stencil
