import Stencil.Proofs.Conditions
import Stencil.Proofs.Partition

/-! # Normal form

Every tree that a template is compiled to is in normal form, at all of its levels: texts are not empty, not
adjacent and show no delimiter, an `else` comes last, no condition lacks a part, and positions are not
escaped. -/
namespace Stencil
open Compilation Grammar Segment

/-! ## Trees in normal form -/

/-- Neither empty nor with a delimiter in it. -/
structure PlainText (d : Delimiters) (text : String) : Prop where
  ne_empty : text ≠ ""
  left_free : ¬ d.left <:+: text.toList
  right_free : ¬ d.right <:+: text.toList

/-- Not two texts. -/
def Node.Apart : Node → Node → Prop
  | .text _, .text _ => False
  | _, _ => True

/-- There is a connective between any two clauses, and each of them has the sides that it needs. -/
structure Condition.Complete (condition : Condition) : Prop where
  length_eq : condition.clauses.length = condition.connectives.length + 1
  left_ne_nil : ∀ clause ∈ condition.clauses, clause.left ≠ []
  right_ne_nil : ∀ clause ∈ condition.clauses, clause.relation ≠ none → clause.right ≠ []

/-- The first one is there, and so is every one that has another behind it. -/
structure ElseLast {α : Type} (conditions : List (Option α)) : Prop where
  first : ∃ condition later, conditions = some condition :: later
  others : conditions.IsChain fun condition _ => condition ≠ none

/-- In normal form, as are all nodes in it. -/
inductive Node.Normal (d : Delimiters) : Node → Prop
  | text {text} : PlainText d text → Normal d (.text text)
  | variable {source escape} : (source = .index → escape = false) → Normal d (.variable source escape)
  | call {name helper arguments} : Normal d (.call name helper arguments)
  | conditional {arms} : ElseLast (arms.map (·.1)) →
      (∀ arm ∈ arms, ∀ condition, arm.1 = some condition → condition.Complete) →
      (∀ arm ∈ arms, arm.2.IsChain Node.Apart) → (∀ arm ∈ arms, ∀ node ∈ arm.2, Normal d node) →
      Normal d (.conditional arms)
  | loop {source body} : body.IsChain Node.Apart → (∀ node ∈ body, Normal d node) →
      Normal d (.loop source body)

structure NormalForm (d : Delimiters) (nodes : List Node) : Prop where
  apart : nodes.IsChain Node.Apart
  normal : ∀ node ∈ nodes, node.Normal d

/-! ## Conditions -/

namespace Condition

theorem length_of_clausesOf {source : String} {clause : Clause} {words : List String}
    {clauses : List Clause} {connectives : List Connective}
    (h : clausesOf source clause words = .ok (clauses, connectives)) :
    clauses.length = connectives.length + 1 := by
  induction words generalizing clause clauses connectives with
  | nil =>
    cases h
    rfl
  | cons word words ih =>
    cases hc : Connective.ofSymbol? word with
    | some connective =>
      rw [clausesOf_cons_connective hc] at h
      obtain ⟨⟨more, others⟩, hm, heq⟩ := Except.map_eq_ok_iff.mp h
      cases heq
      rw [List.length_cons, List.length_cons, ih hm]
    | none =>
      rw [clausesOf_cons_put hc] at h
      obtain ⟨next, -, hn⟩ := Except.bind_eq_ok_iff.mp h
      exact ih hn

theorem complete_of_parse {source : String} {condition : Condition}
    (h : parse source = .ok condition) : condition.Complete := by
  obtain ⟨-, hclauses, hchecks⟩ := parse_eq_ok_iff.mp h
  refine ⟨length_of_clausesOf hclauses, fun clause hc => ?_, fun clause hc hr => ?_⟩
  · obtain ⟨⟨t, ht⟩, -⟩ := check_eq_ok_iff.mp (hchecks clause hc)
    exact ht.ne_nil
  · obtain ⟨-, ⟨u, hu⟩ | ⟨hnone, -⟩⟩ := check_eq_ok_iff.mp (hchecks clause hc)
    · exact hu.ne_nil
    · exact absurd hnone hr

end Condition

/-! ## Variables -/

theorem Accessor.parse_index {identifier : String} (h : Accessor.parse identifier = .ok .index) :
    identifier.toList.head? = some '@' := by
  unfold Accessor.parse at h
  split at h
  · rename_i hat
    rw [hat, List.head?_cons]
  · cases h

namespace Directive

theorem variableOf_source {escape : Bool} {name : List Char} {source : Accessor} {escaped : Bool}
    (h : variableOf escape name = .ok (.variable source escaped)) :
    Accessor.parse (String.ofList name) = .ok source := by
  unfold variableOf at h
  split at h
  · cases h
  · split at h
    · cases h
    · split at h
      · rename_i hp
        cases h
        exact hp
      · cases h

/-- A position is written with an at sign, and what starts with one is not read as a word. -/
theorem index_not_escaped {body : List Char} {escape : Bool}
    (h : classify body = .ok (.variable .index escape)) : escape = false := by
  unfold classify at h
  split at h
  · cases h
  · cases h
  · unfold callOf at h
    split at h <;> cases h
  · obtain ⟨_, hd⟩ := reservedOf_eq_ok h
    obtain ⟨rfl, rfl⟩ := Directive.variable.inj hd
    rfl
  · obtain ⟨_, hd⟩ := reservedOf_eq_ok h
    obtain ⟨rfl, rfl⟩ := Directive.variable.inj hd
    rfl
  · obtain ⟨_, hd⟩ := variableOf_eq_ok h
    cases hd
    rfl
  · rename_i hat _
    have hhead := Accessor.parse_index (variableOf_source (wordOf_variable h))
    rw [String.toList_ofList] at hhead
    obtain ⟨rest, hbody⟩ := List.head?_eq_some_iff.mp hhead
    exact (hat rest hbody).elim

end Directive

/-! ## Segments -/

/-- What is known of the texts of a scan. -/
structure Scanned (d : Delimiters) (segments : List Segment) : Prop where
  plain : ∀ chars, .text chars ∈ segments → PlainText d (String.ofList chars)
  apart : (segments.map content).IsChain Content.Apart

theorem Segment.Cut.scanned {d : Delimiters} {line offset : Nat} {source : List Char}
    {segments : List Segment} (h : Cut d line offset source segments) : Scanned d segments := by
  refine ⟨fun chars hc => ?_, h.isChain⟩
  obtain ⟨hl, hr⟩ := h.clear _ hc
  refine ⟨fun hempty => h.text_ne_nil hc ?_, ?_, ?_⟩
  · simpa using congrArg String.toList hempty
  · rwa [String.toList_ofList]
  · rwa [String.toList_ofList]

theorem Scanned.of_suffix {d : Delimiters} {segments rest : List Segment} (h : Scanned d segments)
    (hs : rest <:+ segments) : Scanned d rest where
  plain chars hc := h.plain chars (hs.subset hc)
  apart := h.apart.suffix (hs.map content)

theorem Scanned.tail {d : Delimiters} {s : Segment} {rest : List Segment} (h : Scanned d (s :: rest)) :
    Scanned d rest :=
  h.of_suffix (List.suffix_cons s rest)

theorem Scanned.not_text {d : Delimiters} {chars more : List Char} {rest : List Segment} :
    ¬ Scanned d (.text chars :: .text more :: rest) :=
  fun h => (List.isChain_cons_cons.mp h.apart).1

/-! ## Nodes -/

theorem NormalForm.nil (d : Delimiters) : NormalForm d [] :=
  ⟨.nil, List.forall_mem_nil _⟩

theorem NormalForm.cons {d : Delimiters} {node : Node} {nodes : List Node} (h : NormalForm d nodes)
    (hn : node.Normal d) (ha : ∀ next ∈ nodes.head?, node.Apart next) : NormalForm d (node :: nodes) where
  apart := List.isChain_cons.mpr ⟨ha, h.apart⟩
  normal := List.forall_mem_cons.mpr ⟨hn, h.normal⟩

/-- Anything may follow what is no text. -/
theorem NormalForm.cons_of_not_text {d : Delimiters} {node : Node} {nodes : List Node}
    (h : NormalForm d nodes) (hn : node.Normal d) (ht : ∀ text, node ≠ .text text) :
    NormalForm d (node :: nodes) := by
  refine h.cons hn fun next _ => ?_
  cases node with
  | text text => exact absurd rfl (ht text)
  | _ => trivial

/-! ## Branches -/

theorem Branch.isChain_of_beyondElse? {found : List Branch.Marker} (h : Branch.beyondElse? found = none) :
    (found.map (·.condition)).IsChain fun condition _ => condition ≠ none := by
  induction found with
  | nil => exact .nil
  | cons marker rest ih =>
    obtain ⟨hlast, hrest⟩ := beyondElse?_cons_eq_none_iff.mp h
    refine List.isChain_cons.mpr ⟨fun next hnext hnone => ?_, ih hrest⟩
    rw [hlast hnone] at hnext
    cases hnext

theorem Branch.later_conditions (raw : List Char) (found : List Branch.Marker) :
    (Branch.later raw found).map (·.condition) = found.map (·.condition) := by
  induction found with
  | nil => rfl
  | cons marker rest ih => rw [Branch.later, List.map_cons, List.map_cons, ih]

theorem conditions_branchesOf (argument : String) (raw : List Char) (line : Nat)
    (found : List Branch.Marker) :
    (branchesOf argument raw line found).map (·.condition) =
      some argument :: found.map (·.condition) := by
  cases found with
  | nil => rfl
  | cons marker rest =>
    rw [branchesOf, List.map_cons, Branch.later_conditions, Branch.first_condition]

theorem elseLast_branchesOf {found : List Branch.Marker} (h : Branch.beyondElse? found = none)
    (argument : String) (raw : List Char) (line : Nat) :
    ElseLast ((branchesOf argument raw line found).map (·.condition)) := by
  rw [conditions_branchesOf]
  refine ⟨⟨argument, _, rfl⟩, List.isChain_cons.mpr ⟨?_, Branch.isChain_of_beyondElse? h⟩⟩
  exact fun _ _ => Option.some_ne_none argument

theorem isChain_of_forall₂ {α β : Type} {conditions : List (Option α)} {others : List (Option β)}
    (hr : List.Forall₂ (fun condition other => other = none → condition = none) conditions others)
    (h : conditions.IsChain fun condition _ => condition ≠ none) :
    others.IsChain fun condition _ => condition ≠ none := by
  induction hr with
  | nil => exact .nil
  | @cons condition other _ _ hfirst hrest ih =>
    obtain ⟨hhead, htail⟩ := List.isChain_cons.mp h
    refine List.isChain_cons.mpr ⟨fun next hnext hnone => ?_, ih htail⟩
    cases hrest with
    | nil => cases hnext
    | cons => exact hhead _ rfl (hfirst hnone)

theorem ElseLast.of_forall₂ {α β : Type} {conditions : List (Option α)} {others : List (Option β)}
    (h : ElseLast conditions)
    (hr : List.Forall₂ (fun condition other => other = none → condition = none) conditions others) :
    ElseLast others := by
  refine ⟨?_, isChain_of_forall₂ hr h.others⟩
  obtain ⟨condition, later, rfl⟩ := h.first
  cases hr with
  | @cons _ other _ _ hfirst =>
    cases other with
    | none => cases hfirst rfl
    | some c => exact ⟨c, _, rfl⟩

/-- An arm has a condition if its branch has one. -/
theorem ElseLast.of_arms {f : Fragment} {branches : List Branch} {arms : List Arm}
    (h : ElseLast (branches.map (·.condition))) (ha : branches.mapM (arm f) = .ok arms) :
    ElseLast (arms.map (·.1)) := by
  refine h.of_forall₂ (List.forall₂_map_left_iff.mpr (List.forall₂_map_right_iff.mpr ?_))
  refine (Except.forall₂_of_mapM ha).imp fun branch a hb hnone => ?_
  exact (condition?_eq_none_iff (arm_eq_ok_iff.mp hb).1).mpr hnone

/-- What a compiler of texts makes is in normal form. -/
def Normalizes (d : Delimiters) (f : Fragment) : Prop :=
  ∀ source line nodes, f source line = .ok nodes → NormalForm d nodes

theorem Normalizes.blockNode {d : Delimiters} {f : Fragment} (hf : Normalizes d f) {block : Block}
    {argument : String} {opened : Tag} {body : List Char} {node : Node}
    (h : blockNode d f block argument opened body = .ok node) : node.Normal d := by
  cases built_iff.mp h with
  | @conditional branches arms hb ha =>
    obtain ⟨segments, found, -, -, helse, rfl⟩ := split_eq_ok_iff.mp hb
    have hform : ∀ a ∈ arms, NormalForm d a.2 := by
      intro a hmem
      obtain ⟨-, _, _, hn⟩ := arm_of_mem ha hmem
      exact hf _ _ _ hn
    refine .conditional ((elseLast_branchesOf helse _ _ _).of_arms ha) ?_
      (fun a hmem => (hform a hmem).apart) fun a hmem => (hform a hmem).normal
    intro a hmem condition hsome
    obtain ⟨source, hparse⟩ := (arm_of_mem ha hmem).1 condition hsome
    exact Condition.complete_of_parse hparse
  | loop _ hn =>
    have hform := hf _ _ _ hn
    exact .loop hform.apart hform.normal

theorem Grammar.Assembled.head_text {settings : Settings} {source : List Char} {inner : Option Fragment}
    {segments : List Segment} {nodes : List Node} (h : Assembled settings source inner segments nodes)
    {text : String} (ht : .text text ∈ nodes.head?) : ∃ chars rest, segments = .text chars :: rest := by
  cases h with
  | nil => cases ht
  | text => exact ⟨_, _, rfl⟩
  | «variable» => cases ht
  | call _ hn =>
    obtain ⟨_, _, -, -, rfl⟩ := callNode_eq_ok hn
    cases ht
  | block _ _ _ hn =>
    cases ht
    exact absurd rfl (blockNode_not_text hn text)

theorem normalForm_of_assembled {settings : Settings} {source : List Char} {inner : Option Fragment}
    {segments : List Segment} {nodes : List Node}
    (hi : ∀ f, inner = some f → Normalizes settings.delimiters f)
    (h : Assembled settings source inner segments nodes) (hs : Scanned settings.delimiters segments) :
    NormalForm settings.delimiters nodes := by
  induction h with
  | nil => exact .nil _
  | @text chars rest nodes hrest ih =>
    refine (ih hs.tail).cons (.text (hs.plain chars List.mem_cons_self)) fun next hnext => ?_
    cases next with
    | text text =>
      obtain ⟨more, others, rfl⟩ := hrest.head_text hnext
      exact (hs.not_text).elim
    | _ => trivial
  | «variable» ht _ ih =>
    refine (ih hs.tail).cons_of_not_text (.variable ?_) nofun
    rintro rfl
    exact Directive.index_not_escaped (directive_eq_ok_iff.mp ht)
  | call _ hn _ ih =>
    obtain ⟨helper, operands, -, -, rfl⟩ := callNode_eq_ok hn
    exact (ih hs.tail).cons_of_not_text .call nofun
  | @block opened closed _ after _ _ _ _ _ _ hclosing hinner hn _ ih =>
    obtain ⟨inside, _, rfl, -, -⟩ := closing_eq_ok hclosing
    have hafter : after <:+ .tag opened :: (inside ++ .tag closed :: after) :=
      ⟨.tag opened :: (inside ++ [.tag closed]), by simp⟩
    exact (ih (hs.of_suffix hafter)).cons_of_not_text ((hi _ hinner).blockNode hn)
      (blockNode_not_text hn)

theorem normalizes_fragment (settings : Settings) (room : Nat) :
    Normalizes settings.delimiters (fragment settings room) := by
  refine fragment_induction (fun inner hi source line nodes h => ?_) room
  obtain ⟨segments, hscan, h⟩ := Except.bind_eq_ok_iff.mp h
  exact normalForm_of_assembled hi (assembled_of_assemble h) (cut_of_scan hscan).scanned

/-- Whatever the delimiters, the helpers and the limit are. -/
theorem compile_normalForm (settings : Settings) {source : String} {nodes : List Node}
    (h : compile settings source = .ok nodes) : NormalForm settings.delimiters nodes :=
  normalizes_fragment settings settings.maxDepth _ _ _ h

theorem compile_normalForm_else :
    ∃ nodes, compile {} "{{if a}}x{{else}}{{loop b}}{{@index}}{{/loop}}{{/if}}y" = .ok nodes ∧
      nodes.length = 2 ∧ NormalForm {} nodes := by
  have h : compile {} "{{if a}}x{{else}}{{loop b}}{{@index}}{{/loop}}{{/if}}y" =
      .ok [.conditional [(some ⟨"a", [{ left := [.operand (.reference (.path "a"))] }], []⟩,
        [.text "x"]), (none, [.loop (.path "b") [.variable .index false]])], .text "y"] := by
    with_unfolding_all rfl
  exact ⟨_, h, rfl, compile_normalForm {} h⟩

end Stencil
