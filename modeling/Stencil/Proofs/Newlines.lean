import Stencil.Proofs.Blocks

/-! # Newlines at the ends of an arm

An arm loses a newline as text, before it is scanned. Where the delimiters have no newline, that is the
same as taking the newline off the first or the last node. -/
namespace Stencil

/-! ## The texts of branches -/

namespace Branch
open Text.Find

theorem first_condition (condition : String) (body : List Char) (line : Nat) :
    (first condition body line).condition = some condition := by
  unfold first
  split <;> rfl

theorem first_of_head?_ne {body : List Char} (h : body.head? ≠ some '\n') (condition : String)
    (line : Nat) : first condition body line = ⟨some condition, body, line⟩ := by
  unfold first
  split
  · exact absurd rfl h
  · rfl

theorem withoutLastNewline_concat (body : List Char) :
    withoutLastNewline (body ++ ['\n']) = body := by
  simp [withoutLastNewline]

theorem withoutLastNewline_of_getLast?_ne {body : List Char} (h : body.getLast? ≠ some '\n') :
    withoutLastNewline body = body :=
  if_neg h

/-- A branch after the first lacks at most a newline at its end. -/
theorem withoutLastNewline_append (text : List Char) :
    ∃ newline, text = withoutLastNewline text ++ newline ∧
      (newline = ['\n'] ∨ newline = [] ∧ (withoutLastNewline text).getLast? ≠ some '\n') := by
  by_cases h : text.getLast? = some '\n'
  · obtain ⟨s, rfl⟩ := List.getLast?_eq_some_iff.mp h
    rw [withoutLastNewline_concat]
    exact ⟨['\n'], rfl, .inl rfl⟩
  · rw [withoutLastNewline_of_getLast?_ne h]
    exact ⟨[], (List.append_nil text).symm, .inr ⟨rfl, h⟩⟩

/-- The first branch lacks at most a newline at its front, which counts as a line before it. -/
theorem first_append (condition : String) (text : List Char) (line : Nat) :
    ∃ newline, text = newline ++ (first condition text line).body ∧
      (newline = ['\n'] ∨ newline = [] ∧ (first condition text line).body.head? ≠ some '\n') ∧
      (first condition text line).line = line + newlines newline := by
  by_cases h : text.head? = some '\n'
  · obtain ⟨rest, rfl⟩ := List.head?_eq_some_iff.mp h
    exact ⟨['\n'], rfl, .inl rfl, rfl⟩
  · rw [first_of_head?_ne h]
    exact ⟨[], rfl, .inr ⟨rfl, h⟩, rfl⟩

end Branch

/-! ## The nodes of arms -/

namespace Grammar
open Compilation Segment

variable {settings : Settings} {room : Nat} {nodes : List Node} {later : List Arm}

theorem callNode_eq_ok {helpers : Entries Helper} {name : String} {arguments : List String} {line : Nat}
    {node : Node} (h : callNode helpers name arguments line = .ok node) :
    ∃ helper operands, helpers.get? name = some helper ∧ arguments.mapM Operand.parse = .ok operands ∧
      node = .call name helper operands := by
  unfold callNode at h
  split at h
  · cases h
  · rename_i helper hh
    obtain ⟨operands, ho, hn⟩ := Except.bind_eq_ok_iff.mp h
    cases hn
    exact ⟨helper, operands, hh, Except.mapError_eq_ok_iff.mp ho, rfl⟩

theorem Leaf.text_iff {helpers : Entries Helper} {chars : List Char} {node : Node} :
    Leaf helpers (.text chars) node ↔ node = .text (String.ofList chars) := by
  constructor
  · intro h
    cases h
    rfl
  · rintro rfl
    exact .text

theorem Leaf.of_text_node {helpers : Entries Helper} {i : Item} {s : String}
    (h : Leaf helpers i (.text s)) : ∃ chars, i = .text chars ∧ s = String.ofList chars := by
  cases h with
  | text => exact ⟨_, rfl, rfl⟩
  | call h =>
    obtain ⟨_, _, _, _, hn⟩ := callNode_eq_ok h
    cases hn

theorem Closes.not_text {block : Block} {argument s : String} :
    ¬ Closes block argument nodes later (.text s) := by
  intro h
  cases h

/-! ## The first node -/

theorem derives_text_cons_iff {chars : List Char} {rest : List Item} :
    Derives settings room (.text chars :: rest) nodes later ↔
      ∃ more, nodes = .text (String.ofList chars) :: more ∧ Derives settings room rest more later := by
  constructor
  · intro h
    cases h with
    | leaf hl hr => exact ⟨_, congrArg (· :: _) (Leaf.text_iff.mp hl), hr⟩
  · intro h
    obtain ⟨more, rfl, h⟩ := h
    exact .leaf .text h

theorem derives_ofText_append_iff {chars : List Char} {segments : List Segment} :
    Derives settings room ((ofText chars ++ segments).map item) nodes later ↔
      ∃ more, nodes = textNodes chars ++ more ∧
        Derives settings room (segments.map item) more later := by
  cases chars with
  | nil => simp [ofText, textNodes]
  | cons c chars => exact derives_text_cons_iff

theorem Derives.of_text_node {items : List Item} {s : String}
    (h : Derives settings room items (.text s :: nodes) later) :
    ∃ chars rest, items = .text chars :: rest ∧ s = String.ofList chars := by
  cases h with
  | leaf hl _ =>
    obtain ⟨chars, rfl, rfl⟩ := hl.of_text_node
    exact ⟨chars, _, rfl, rfl⟩
  | block _ hc _ _ => exact absurd hc Closes.not_text

theorem withoutFirstNewline_textNodes (chars : List Char) (nodes : List Node) :
    withoutFirstNewline (.text (String.ofList ('\n' :: chars)) :: nodes) = textNodes chars ++ nodes := by
  simp [withoutFirstNewline]

theorem withoutFirstNewline_eq_self {d : Delimiters} {line offset : Nat} {source : List Char}
    {segments : List Segment} (hc : Cut d line offset source segments)
    (h : Derives settings room (segments.map item) nodes later) (hs : source.head? ≠ some '\n') :
    withoutFirstNewline nodes = nodes := by
  match nodes, h with
  | [], _ => rfl
  | .variable .. :: _, _ | .call .. :: _, _ | .conditional .. :: _, _ | .loop .. :: _, _ => rfl
  | .text s :: more, h =>
    obtain ⟨chars, rest, hi, rfl⟩ := h.of_text_node
    obtain ⟨first, others, rfl, hf, -⟩ := List.map_eq_cons_iff.mp hi
    cases first with
    | tag t => cases hf
    | text chars =>
      cases hf
      obtain ⟨c, chars, rfl⟩ := List.exists_cons_of_ne_nil (hc.text_ne_nil List.mem_cons_self)
      have hsource := hc.flatMap_written
      have hne : c ≠ '\n' := by
        rintro rfl
        simp [← hsource, written] at hs
      simp [withoutFirstNewline, hne]

/-! ## The last node -/

theorem Derives.of_append_text {items : List Item} {chars : List Char}
    (h : Derives settings room (items ++ [.text chars]) nodes []) :
    ∃ more, nodes = more ++ [.text (String.ofList chars)] ∧ Derives settings room items more [] := by
  generalize hi : items ++ [.text chars] = all at h
  generalize hn : ([] : List Arm) = none' at h
  induction h generalizing items with
  | nil => simp at hi
  | leaf hl hr ih =>
    subst hn
    cases items with
    | nil =>
      obtain ⟨rfl, rfl⟩ := List.cons.inj hi
      cases hr
      exact ⟨[], by rw [Leaf.text_iff.mp hl]; rfl, .nil⟩
    | cons x items =>
      obtain ⟨rfl, htail⟩ := List.cons.inj hi
      obtain ⟨more, rfl, hm⟩ := ih htail rfl
      exact ⟨_, rfl, .leaf hl hm⟩
  | @block room block argument body inner arms keyword node rest nodes later hb hc hk hr _ ih =>
    subst hn
    cases items with
    | nil => simp at hi
    | cons x items =>
      obtain ⟨rfl, htail⟩ := List.cons.inj hi
      rcases List.eq_nil_or_concat rest with rfl | ⟨less, y, rfl⟩
      · cases (List.append_inj' htail rfl).2
      · rw [List.concat_eq_append] at htail ih
        have htail : items ++ [.text chars] =
            (body ++ .tag (.ok (.closing keyword)) :: less) ++ [y] := by simpa using htail
        obtain ⟨rfl, hy⟩ := List.append_inj' htail rfl
        obtain ⟨more, rfl, hm⟩ := ih (by rw [hy]) rfl
        exact ⟨_, rfl, .block hb hc hk hm⟩
  | marker => cases hn

theorem derives_append_ofText_iff {chars : List Char} {segments : List Segment} :
    Derives settings room ((segments ++ ofText chars).map item) nodes [] ↔
      ∃ more, nodes = more ++ textNodes chars ∧ Derives settings room (segments.map item) more [] := by
  cases chars with
  | nil => simp [ofText, textNodes]
  | cons c chars =>
    rw [List.map_append]
    constructor
    · exact fun h => h.of_append_text
    · intro h
      obtain ⟨more, rfl, h⟩ := h
      exact h.append (.leaf .text .nil)

theorem Derives.of_last_text_node {items : List Item} {s : String}
    (h : Derives settings room items nodes later) (hs : nodes.getLast? = some (.text s)) (hl : later = []) :
    ∃ init chars, items = init ++ [.text chars] ∧ s = String.ofList chars := by
  induction h with
  | nil => cases hs
  | @leaf _ i node rest nodes _ hleaf hr ih =>
    by_cases hn : nodes = []
    · subst hn hl
      obtain rfl : node = .text s := Option.some.inj hs
      obtain rfl := hr.nodes_nil_iff.mp rfl
      obtain ⟨chars, rfl, rfl⟩ := hleaf.of_text_node
      exact ⟨[], chars, rfl, rfl⟩
    · rw [List.getLast?_cons_of_ne_nil hn] at hs
      obtain ⟨init, chars, rfl, rfl⟩ := ih hs hl
      exact ⟨i :: init, chars, rfl, rfl⟩
  | @block _ block argument body _ _ keyword node _ nodes _ _ hc _ _ _ ih =>
    by_cases hn : nodes = []
    · subst hn
      obtain rfl : node = .text s := Option.some.inj hs
      exact absurd hc Closes.not_text
    · rw [List.getLast?_cons_of_ne_nil hn] at hs
      obtain ⟨init, chars, rfl, rfl⟩ := ih hs hl
      refine ⟨.tag (.ok (.opening block argument)) :: (body ++ .tag (.ok (.closing keyword)) :: init),
        chars, ?_, rfl⟩
      rw [List.cons_append, List.append_assoc, List.cons_append]
  | marker => cases hl

theorem withoutLastNewline_textNodes (nodes : List Node) (chars : List Char) :
    withoutLastNewline (nodes ++ textNodes (chars ++ ['\n'])) = nodes ++ textNodes chars := by
  simp [withoutLastNewline, textNodes, Branch.withoutLastNewline]

theorem withoutLastNewline_eq_self {d : Delimiters} {line offset : Nat} {source : List Char}
    {segments : List Segment} (hc : Cut d line offset source segments)
    (h : Derives settings room (segments.map item) nodes []) (hs : source.getLast? ≠ some '\n') :
    withoutLastNewline nodes = nodes := by
  unfold withoutLastNewline
  split
  · rename_i s hlast
    obtain ⟨init, chars, hi, rfl⟩ := h.of_last_text_node hlast rfl
    obtain ⟨front, others, rfl, -, ho⟩ := List.map_eq_append_iff.mp hi
    obtain ⟨last, _, rfl, hl, hnil⟩ := List.map_eq_cons_iff.mp ho
    obtain rfl := List.map_eq_nil_iff.mp hnil
    cases last with
    | tag t => cases hl
    | text chars =>
      cases hl
      have hne := hc.text_ne_nil (List.mem_append_right _ List.mem_cons_self)
      obtain ⟨chars, c, rfl⟩ := (List.eq_nil_or_concat chars).resolve_left hne
      have hsource := hc.flatMap_written
      have hc : c ≠ '\n' := by
        rintro rfl
        refine hs ?_
        rw [← hsource]
        simp [written]
      rw [List.concat_eq_append] at hlast ⊢
      simpa [Branch.withoutLastNewline, textNodes, hc] using
        List.dropLast_append_getLast? _ hlast
  · rfl

end Grammar

end Stencil
