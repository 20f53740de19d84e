import Mathlib.Data.List.Chain
import Stencil.Proofs.Concatenation
import Stencil.Proofs.Resolution

/-! # Templates written from trees

A tree without calls of helpers can be written down as a template between the default delimiters, if its
texts and paths can be told from what stands around them. Compiling what is written gives the tree. -/
namespace Stencil
open Compilation Grammar Segment Text.Find Text.Blank

/-! ## Writing a tree -/

/-- A directive between the default delimiters. -/
def tagged (body : String) : String :=
  "\x7b\x7b" ++ body ++ "\x7d\x7d"

namespace Accessor

def printWithin : Option String → String
  | none => ""
  | some inner => "." ++ inner

/-- The name of the accessor. What marks a directive stands behind an at sign, and in front of a path. -/
def print (mark : String) : Accessor → String
  | .path name => mark ++ name
  | .data inner => "@" ++ mark ++ ("data" ++ printWithin inner)
  | .parent inner => "@" ++ mark ++ ("parent" ++ printWithin inner)
  | .index => "@index"

end Accessor

/-- The directive with which an arm after the first starts. -/
def printElse : Option Condition → String
  | some condition => "else if " ++ condition.source
  | none => "else"

/-- The arms after the first. The newline at the end of an arm belongs to the tag that ends it. -/
def printLater : List (Option Condition × String) → String
  | [] => ""
  | (condition, body) :: later =>
    tagged (printElse condition) ++ (body ++ "\n" ++ printLater later)

/-- There is no way to write no arm at all, or a first one without a condition. -/
def printBranches : List (Option Condition × String) → String
  | [(some condition, body)] => tagged ("if " ++ condition.source) ++ body ++ tagged "/if"
  | (some condition, body) :: later =>
    tagged ("if " ++ condition.source) ++ ("\n" ++ body ++ printLater later) ++ tagged "/if"
  | _ => ""

mutual

def Node.print : Node → String
  | .text s => s
  | .variable source escape => tagged (source.print (if escape then "" else "%"))
  | .call .. => ""
  | .conditional arms => printBranches (printArms arms)
  | .loop source body => tagged ("loop " ++ source.print "") ++ printAll body ++ tagged "/loop"
termination_by structural node => node

def printAll : List Node → String
  | [] => ""
  | node :: rest => node.print ++ printAll rest
termination_by structural nodes => nodes

def printArms : List (Option Condition × List Node) → List (Option Condition × String)
  | [] => []
  | (condition, body) :: rest => (condition, printAll body) :: printArms rest
termination_by structural arms => arms

end

/-! ## Trees that can be written -/

/-- A path that is one word of a tag. -/
structure Solid (path : String) : Prop where
  not_empty : path ≠ ""
  unbroken : Unbroken path.toList
  no_left : '\x7b' ∉ path.toList
  no_right : '\x7d' ∉ path.toList

theorem solid_iff {path : String} : Solid path ↔
    path ≠ "" ∧ path.toList.all fun c => !isBlank c && c != '\x7b' && c != '\x7d' := by
  simp only [List.all_eq_true, Bool.and_eq_true, Bool.not_eq_true', bne_iff_ne, ne_eq]
  constructor
  · intro h
    refine ⟨h.not_empty, fun c hc => ⟨⟨h.unbroken c hc, ?_⟩, ?_⟩⟩
    · rintro rfl
      exact h.no_left hc
    · rintro rfl
      exact h.no_right hc
  · intro h
    obtain ⟨hne, hall⟩ := h
    exact ⟨hne, fun c hc => (hall c hc).1.1, fun hc => (hall _ hc).1.2 rfl, fun hc => (hall _ hc).2 rfl⟩

instance (path : String) : Decidable (Solid path) :=
  decidable_of_iff _ solid_iff.symm

/-- A path without an at sign at the front, which would make it the name of a reserved variable, or a
reserved variable. -/
def Accessor.Printable : Accessor → Prop
  | .path name => Solid name ∧ name.toList.head? ≠ some '@'
  | .data inner | .parent inner => ∀ name ∈ inner, Solid name
  | .index => True

/-- A path that is a directive by itself. -/
def Wordlike (path : String) : Prop :=
  (∀ c ∈ path.toList.head?, c ∉ ['/', '#', '%']) ∧ path ∉ ["if", "else", "loop", "for"]

/-- No text stands next to another, with which it would be read as one. -/
def Spaced (nodes : List Node) : Prop :=
  nodes.IsChain fun node next => Node.meet? node next = none

/-- A condition that was read from a text which a tag keeps as it is. -/
def Condition.Printable (condition : Condition) : Prop :=
  ∃ source, Plain source ∧ Condition.parse source = .ok condition

/-- Nodes with a written form, in which blocks are at most `room` deep. -/
inductive Node.Printable : Nat → Node → Prop
  | text {room text} : text ≠ "" → '\x7b' ∉ text.toList → '\x7d' ∉ text.toList →
      Printable room (.text text)
  | variable {room source escape} : source.Printable → (source = .index → escape = false) →
      (∀ path, source = .path path → escape = true → Wordlike path) →
      Printable room (.variable source escape)
  | conditional {room condition body later} : condition.Printable →
      (∀ node ∈ body, Printable room node) → Spaced body →
      (∀ arm ∈ later, ∀ c ∈ arm.1, c.Printable) → (∀ arm ∈ later.dropLast, arm.1 ≠ none) →
      (∀ arm ∈ later, ∀ node ∈ arm.2, Printable room node) → (∀ arm ∈ later, Spaced arm.2) →
      Printable (room + 1) (.conditional ((some condition, body) :: later))
  | loop {room source body} : source.Printable → (∀ node ∈ body, Printable room node) →
      Spaced body → Printable (room + 1) (.loop source body)

/-! ## Tags -/

/-- The body of a tag that asks for the directive. -/
structure Spells (body : String) (directive : Directive) : Prop where
  no_left : '\x7b' ∉ body.toList
  no_right : '\x7d' ∉ body.toList
  classify_eq : Directive.classify body.toList = .ok directive

theorem Solid.append {s t : String} (hs : Solid s) (ht : Solid t) : Solid (s ++ t) := by
  refine ⟨?_, ?_, ?_, ?_⟩
  · simp [hs.not_empty]
  · rw [String.toList_append]
    exact List.forall_mem_append.mpr ⟨hs.unbroken, ht.unbroken⟩
  · simp [hs.no_left, ht.no_left]
  · simp [hs.no_right, ht.no_right]

theorem Solid.trim_eq {s : String} (h : Solid s) : trim s.toList = s.toList :=
  h.unbroken.trim_eq

theorem Solid.toList_ne_nil {s : String} (h : Solid s) : s.toList ≠ [] :=
  mt String.toList_eq_nil_iff.mp h.not_empty

namespace Accessor

theorem within?_printWithin {inner : Option String} (h : ∀ name ∈ inner, Solid name) :
    within? (printWithin inner).toList = some inner := by
  cases inner with
  | none => rfl
  | some name =>
    have hne := (h name rfl).toList_ne_nil
    simp [printWithin, within?, hne]

theorem solid_append_printWithin {s : String} (hs : Solid s) {inner : Option String}
    (h : ∀ name ∈ inner, Solid name) : Solid (s ++ printWithin inner) := by
  cases inner with
  | none =>
    rw [printWithin, String.append_empty]
    exact hs
  | some name =>
    have hdot : Solid "." := by decide
    exact hs.append (hdot.append (h name rfl))

theorem reserved?_data {inner : Option String} (h : ∀ name ∈ inner, Solid name) :
    reserved? ("data" ++ printWithin inner) = some (.data inner) := by
  have hrest : remainder? "data".toList ("data" ++ printWithin inner).toList =
      some (printWithin inner).toList := by simp [remainder?]
  rw [reserved?, hrest]
  simp only [within?_printWithin h, Option.map_some]

theorem reserved?_parent {inner : Option String} (h : ∀ name ∈ inner, Solid name) :
    reserved? ("parent" ++ printWithin inner) = some (.parent inner) := by
  have hrest : remainder? "parent".toList ("parent" ++ printWithin inner).toList =
      some (printWithin inner).toList := by simp [remainder?]
  have hdata : remainder? "data".toList ("parent" ++ printWithin inner).toList = none := by
    simp [remainder?]
  rw [reserved?, hdata, hrest]
  simp only [within?_printWithin h, Option.map_some]

/-- What stands behind the at sign in the name of a reserved variable. -/
structure Reserved (source : Accessor) (name : String) : Prop where
  solid : Solid name
  head : name.toList.head? ≠ some '%'
  reserved?_eq : reserved? name = some source
  print_eq : source.print "" = "@" ++ name
  print_marked_eq : source ≠ .index → source.print "%" = "@%" ++ name

theorem Printable.path_or_reserved {source : Accessor} (h : source.Printable) :
    (∃ name, source = .path name ∧ Solid name ∧ name.toList.head? ≠ some '@') ∨
      ∃ name, Reserved source name := by
  cases source with
  | path name => exact .inl ⟨name, rfl, h⟩
  | data inner =>
    have hs : Solid ("data" ++ printWithin inner) := solid_append_printWithin (by decide) h
    exact .inr ⟨_, hs, by simp, reserved?_data h, rfl, fun _ => rfl⟩
  | parent inner =>
    have hs : Solid ("parent" ++ printWithin inner) := solid_append_printWithin (by decide) h
    exact .inr ⟨_, hs, by simp, reserved?_parent h, rfl, fun _ => rfl⟩
  | index => exact .inr ⟨"index", by decide, by decide, rfl, rfl, fun h => absurd rfl h⟩

theorem parse_of_head {name : String} (h : name.toList.head? ≠ some '@') :
    Accessor.parse name = .ok (.path name) := by
  unfold Accessor.parse
  split
  · rename_i hs
    rw [hs] at h
    exact absurd rfl h
  · rfl

theorem Printable.parse_print {source : Accessor} (h : source.Printable) :
    Accessor.parse (source.print "") = .ok source := by
  rcases h.path_or_reserved with ⟨name, rfl, -, hhead⟩ | ⟨name, hr⟩
  · rw [print, String.empty_append, parse_of_head hhead]
  · have hname : ("@" ++ name).toList = '@' :: name.toList := by simp
    rw [hr.print_eq, Accessor.parse, hname]
    simp only [String.ofList_toList, hr.reserved?_eq]

theorem Printable.solid_print {source : Accessor} (h : source.Printable) : Solid (source.print "") := by
  rcases h.path_or_reserved with ⟨name, rfl, hs, -⟩ | ⟨name, hr⟩
  · rwa [print, String.empty_append]
  · have hat : Solid "@" := by decide
    rw [hr.print_eq]
    exact hat.append hr.solid

end Accessor

namespace Directive

theorem variableOf_path {name : String} (hs : Solid name) (hhead : name.toList.head? ≠ some '@')
    (escape : Bool) : variableOf escape name.toList = .ok (.variable (.path name) escape) := by
  rw [variableOf, if_neg (by simpa using hs.toList_ne_nil), hs.unbroken.any_eq_false,
    if_neg Bool.false_ne_true, String.ofList_toList, Accessor.parse_of_head hhead]

theorem reservedOf_eq {source : Accessor} {name : String} (hr : source.Reserved name) (escape : Bool) :
    reservedOf escape (trim name.toList) = .ok (.variable source (escape && source ≠ .index)) := by
  rw [hr.solid.trim_eq, reservedOf, String.ofList_toList, hr.reserved?_eq]

theorem wordOf_path {name : String} (hs : Solid name) (hhead : name.toList.head? ≠ some '@')
    (hw : name ∉ ["if", "else", "loop", "for"]) :
    wordOf name.toList = .ok (.variable (.path name) true) := by
  unfold wordOf
  rw [firstWord_eq_self hs.unbroken, String.ofList_toList]
  split
  case h_5 => exact variableOf_path hs hhead true
  all_goals simp at hw

/-- A path by itself. -/
theorem classify_path {name : String} (hs : Solid name) (hhead : name.toList.head? ≠ some '@')
    (hw : Wordlike name) : classify name.toList = .ok (.variable (.path name) true) := by
  rw [← wordOf_path hs hhead hw.2]
  have htrim := hs.trim_eq
  have hfirst := hw.1
  obtain ⟨c, rest, hname⟩ := List.exists_cons_of_ne_nil hs.toList_ne_nil
  rw [hname] at htrim hfirst hhead ⊢
  refine classify_word htrim fun hc => ?_
  have hnot := hfirst c rfl
  simp only [List.head?_cons, ne_eq, Option.some.injEq] at hhead
  simp_all

theorem classify_marked_path {name : String} (hs : Solid name) (hhead : name.toList.head? ≠ some '@') :
    classify ('%' :: name.toList) = .ok (.variable (.path name) false) := by
  have htrim : trim ('%' :: name.toList) = '%' :: name.toList :=
    (hs.unbroken.cons (by decide)).trim_eq
  unfold classify
  rw [htrim]
  show variableOf false (trim name.toList) = _
  rw [hs.trim_eq, variableOf_path hs hhead]

theorem classify_reserved {source : Accessor} {name : String} (hr : source.Reserved name) :
    classify ('@' :: name.toList) = .ok (.variable source (source ≠ .index)) := by
  have htrim : trim ('@' :: name.toList) = '@' :: name.toList :=
    (hr.solid.unbroken.cons (by decide)).trim_eq
  have hhead := hr.head
  rw [← Bool.true_and (decide (source ≠ .index)), ← reservedOf_eq hr]
  unfold classify
  rw [htrim]
  obtain ⟨c, rest, hname⟩ := List.exists_cons_of_ne_nil hr.solid.toList_ne_nil
  rw [hname] at hhead ⊢
  split <;> simp_all

theorem classify_marked_reserved {source : Accessor} {name : String} (hr : source.Reserved name) :
    classify ('@' :: '%' :: name.toList) = .ok (.variable source false) := by
  have htrim : trim ('@' :: '%' :: name.toList) = '@' :: '%' :: name.toList :=
    ((hr.solid.unbroken.cons (by decide)).cons (by decide)).trim_eq
  unfold classify
  rw [htrim]
  exact reservedOf_eq hr false

end Directive

/-! ## The directives of a tree -/

theorem Accessor.Printable.spells {source : Accessor} {escape : Bool} (h : source.Printable)
    (hi : source = .index → escape = false)
    (hw : ∀ path, source = .path path → escape = true → Wordlike path) :
    Spells (source.print (if escape then "" else "%")) (.variable source escape) := by
  have hpercent : Solid "%" := by decide
  have hat : Solid "@" := by decide
  have hmarked : Solid "@%" := by decide
  rcases h.path_or_reserved with ⟨name, rfl, hs, hhead⟩ | ⟨name, hr⟩
  · cases escape with
    | true =>
      rw [if_pos rfl, print, String.empty_append]
      exact ⟨hs.no_left, hs.no_right, Directive.classify_path hs hhead (hw name rfl rfl)⟩
    | false =>
      have hall := hpercent.append hs
      refine ⟨hall.no_left, hall.no_right, ?_⟩
      rw [if_neg Bool.false_ne_true, print, String.toList_append]
      exact Directive.classify_marked_path hs hhead
  · by_cases hindex : source = .index
    · subst hindex
      rw [hi rfl]
      exact ⟨by decide, by decide, rfl⟩
    · cases escape with
      | true =>
        have hall := hat.append hr.solid
        rw [if_pos rfl, hr.print_eq]
        refine ⟨hall.no_left, hall.no_right, ?_⟩
        rw [String.toList_append]
        exact (Directive.classify_reserved hr).trans (by rw [decide_eq_true hindex])
      | false =>
        have hall := hmarked.append hr.solid
        rw [if_neg Bool.false_ne_true, hr.print_marked_eq hindex]
        refine ⟨hall.no_left, hall.no_right, ?_⟩
        rw [String.toList_append]
        exact Directive.classify_marked_reserved hr

/-- Whatever stands behind the words of a tag is kept as it is. -/
theorem spells_of_toList {word s : String} {directive : Directive} (hl : '\x7b' ∉ word.toList)
    (hr : '\x7d' ∉ word.toList) (hsl : '\x7b' ∉ s.toList) (hsr : '\x7d' ∉ s.toList)
    (h : Directive.classify (word.toList ++ s.toList) = .ok directive) :
    Spells (word ++ s) directive := by
  refine ⟨?_, ?_, ?_⟩
  · simp [hl, hsl]
  · simp [hr, hsr]
  · rwa [String.toList_append]

theorem Plain.toList_ne_nil {s : String} (h : Plain s) : s.toList ≠ [] :=
  mt String.toList_eq_nil_iff.mp h.not_blank

theorem Plain.spells_if {s : String} (h : Plain s) :
    Spells ("if " ++ s) (.opening .conditional s) := by
  have hd := Directive.classify_if h.trim_eq h.toList_ne_nil
  rw [String.ofList_toList] at hd
  exact spells_of_toList (by decide) (by decide) h.no_left h.no_right hd

theorem Plain.spells_else_if {s : String} (h : Plain s) : Spells ("else if " ++ s) (.elseIf s) := by
  have hd := Directive.classify_else_if h.trim_eq h.toList_ne_nil
  rw [String.ofList_toList] at hd
  exact spells_of_toList (by decide) (by decide) h.no_left h.no_right hd

theorem Solid.spells_loop {s : String} (h : Solid s) : Spells ("loop " ++ s) (.opening .loop s) := by
  have hd := Directive.classify_loop h.trim_eq h.toList_ne_nil
  rw [String.ofList_toList] at hd
  exact spells_of_toList (by decide) (by decide) h.no_left h.no_right hd

theorem Accessor.Printable.loopSource_print {source : Accessor} (h : source.Printable) :
    loopSource (source.print "") = .ok source := by
  rw [loopSource, h.solid_print.unbroken.any_eq_false, if_neg Bool.false_ne_true, h.parse_print]
  rfl

theorem Condition.source_of_parse {source : String} {condition : Condition}
    (h : Condition.parse source = .ok condition) : condition.source = source := by
  obtain ⟨clauses, -, h⟩ := Except.bind_eq_ok_iff.mp h
  obtain ⟨-, -, h⟩ := Except.bind_eq_ok_iff.mp h
  cases h
  rfl

theorem Condition.Printable.plain {condition : Condition} (h : condition.Printable) :
    Plain condition.source ∧ Condition.parse condition.source = .ok condition := by
  obtain ⟨source, hs, hp⟩ := h
  rw [Condition.source_of_parse hp]
  exact ⟨hs, hp⟩

/-- The tag with which a later arm starts. -/
theorem spells_printElse {condition : Option Condition} (h : ∀ c ∈ condition, c.Printable) :
    ∃ directive source, Spells (printElse condition) directive ∧ directive.branch? = some source ∧
      condition? source = some condition ∧ (source = none → condition = none) := by
  cases condition with
  | none => exact ⟨.otherwise, none, ⟨by decide, by decide, rfl⟩, rfl, rfl, fun _ => rfl⟩
  | some c =>
    obtain ⟨hplain, hparse⟩ := (h c rfl).plain
    exact ⟨_, some c.source, hplain.spells_else_if, rfl,
      condition?_some_iff.mpr ⟨c, hparse, rfl⟩, nofun⟩

/-! ## Texts and what is read from them -/

namespace Grammar

def Item.meet? : Item → Item → Option Item
  | .text s, .text t => some (.text (s ++ t))
  | _, _ => none

theorem item_meet? (s t : Segment) : Item.meet? (item s) (item t) = (Segment.meet? s t).map item := by
  cases s <;> cases t <;> rfl

theorem Leaf.meet?_eq_none {helpers : Entries Helper} {i : Item} {node : Node} (h : Leaf helpers i node)
    (hi : ∀ chars, i ≠ .text chars) (next : Node) : Node.meet? node next = none := by
  cases node with
  | text s =>
    obtain ⟨chars, rfl, -⟩ := h.of_text_node
    exact absurd rfl (hi chars)
  | _ => rfl

theorem Closes.meet?_eq_none {block : Block} {argument : String} {nodes : List Node} {later : List Arm}
    {node : Node} (h : Closes block argument nodes later node) (next : Node) :
    Node.meet? node next = none := by
  cases h <;> rfl

/-- One text before what has a derivation. -/
theorem Derives.text_meeting {settings : Settings} {room : Nat} {items : List Item} {more : List Node}
    {later : List Arm} (h : Derives settings room items more later) (chars : List Char) :
    Derives settings room (meeting Item.meet? [.text chars] items)
      (meeting Node.meet? [.text (String.ofList chars)] more) later := by
  cases items with
  | nil =>
    cases h
    exact .leaf .text .nil
  | cons i items =>
    cases i with
    | text others =>
      obtain ⟨more, rfl, hmore⟩ := derives_text_cons_iff.mp h
      show Derives settings room (.text (chars ++ others) :: items)
        (.text (String.ofList chars ++ String.ofList others) :: more) later
      rw [← String.ofList_append]
      exact .leaf .text hmore
    | tag directive =>
      have hmore : meeting Node.meet? [.text (String.ofList chars)] more =
          .text (String.ofList chars) :: more := by
        match more, h with
        | [], _ => rfl
        | .variable .. :: _, _ | .call .. :: _, _ | .conditional .. :: _, _ | .loop .. :: _, _ => rfl
        | .text s :: _, h =>
          obtain ⟨_, _, hi, -⟩ := h.of_text_node
          cases hi
      rw [hmore]
      exact .leaf .text h

/-- A derivation goes on where another has ended. Two texts become one. -/
theorem Derives.meet {settings : Settings} {room : Nat} {xs ys : List Item} {nodes more : List Node}
    {later : List Arm} (hx : Derives settings room xs nodes [])
    (hy : Derives settings room ys more later) :
    Derives settings room (meeting Item.meet? xs ys) (meeting Node.meet? nodes more) later := by
  generalize hn : ([] : List Arm) = none' at hx
  induction hx with
  | nil => exact hy
  | @leaf room i node rest nodes _ hl hr ih =>
    subst hn
    cases i with
    | tag directive =>
      rw [meeting_cons_of_none (fun _ => rfl), meeting_cons_of_none (hl.meet?_eq_none nofun)]
      exact .leaf hl (ih hy rfl)
    | text chars =>
      obtain rfl := Leaf.text_iff.mp hl
      by_cases hrest : rest = []
      · obtain rfl := hr.nodes_nil_iff.mpr hrest
        rw [hrest]
        exact hy.text_meeting chars
      · have hnodes : nodes ≠ [] := mt hr.nodes_nil_iff.mp hrest
        rw [meeting_cons hrest, meeting_cons hnodes]
        exact .leaf hl (ih hy rfl)
  | block hb hc hk _ _ ih =>
    subst hn
    rw [meeting_cons_of_none (fun _ => rfl), meeting_append (List.cons_ne_nil _ _),
      meeting_cons_of_none (fun _ => rfl), meeting_cons_of_none hc.meet?_eq_none]
    exact .block hb hc hk (ih hy rfl)
  | marker => cases hn

/-- A text is cut to these items, and no delimiter can reach over one of its ends. -/
structure Shows (s : String) (items : List Item) : Prop where
  cut : ∃ segments, Cut {} 1 0 s.toList segments ∧ segments.map item = items
  head : s.toList.head? ≠ some '\x7d'
  last : s.toList.getLast? ≠ some '\x7b'

theorem shows_text {s : String} (hl : '\x7b' ∉ s.toList) (hr : '\x7d' ∉ s.toList) (hne : s ≠ "") :
    Shows s [.text s.toList] := by
  refine ⟨⟨_, .plain (fun h => hl (h.subset List.mem_cons_self))
    (fun h => hr (h.subset List.mem_cons_self)), ?_⟩, fun h => hr (List.mem_of_head? h),
    fun h => hl (List.mem_of_getLast? h)⟩
  have hchars := mt String.toList_eq_nil_iff.mp hne
  simp [ofText, hchars, item]

theorem shows_tagged {body : String} {directive : Directive} (h : Spells body directive) :
    Shows (tagged body) [.tag (.ok directive)] := by
  have hlist : (tagged body).toList = ['\x7b', '\x7b'] ++ body.toList ++ ['\x7d', '\x7d'] ++ [] := by
    simp [tagged]
  have hopens := @opens_of_not_mem {} _ _ _ _ _ rfl rfl h.no_left h.no_right []
  have hrest : Cut {} (tagAfter {} 1 0 [] body.toList).endLine (tagAfter {} 1 0 [] body.toList).stop
      [] (ofText []) := .plain (by decide) (by decide)
  have hcut : Cut {} 1 0 (tagged body).toList [.tag (tagAfter {} 1 0 [] body.toList)] := by
    rw [hlist]
    exact .tag hopens hrest
  refine ⟨⟨_, hcut, ?_⟩, ?_, ?_⟩
  · show [Item.tag (Directive.classify body.toList)] = _
    rw [h.classify_eq]
  · simp [tagged]
  · simp [tagged, List.getLast?_cons]

theorem Shows.append {s t : String} {xs ys : List Item} (hs : Shows s xs) (ht : Shows t ys) :
    Shows (s ++ t) (meeting Item.meet? xs ys) := by
  obtain ⟨segments, hcut, rfl⟩ := hs.cut
  obtain ⟨others, hothers, rfl⟩ := ht.cut
  obtain ⟨there, hthere, hitems⟩ := Cut.moved hothers (1 + newlines s.toList) (0 + s.toList.length)
  have hscan := hcut.scan_append (t := t.toList) (fun h => hs.last h.pair.1) (fun h => ht.head h.pair.2)
  rw [scan_of_cut hthere] at hscan
  have hall : Cut {} 1 0 (s ++ t).toList (meeting Segment.meet? segments there) := by
    rw [String.toList_append]
    exact cut_of_scan hscan
  refine ⟨⟨_, hall, ?_⟩, ?_, ?_⟩
  · rw [map_meeting item_meet?, hitems]
  · rw [String.toList_append, List.head?_append]
    cases h : s.toList.head? with
    | none => simpa [h] using ht.head
    | some c => simpa [h] using hs.head
  · rw [String.toList_append, List.getLast?_append]
    cases h : t.toList.getLast? with
    | none => simpa [h] using hs.last
    | some c => simpa [h] using ht.last

/-- A text stands for the nodes, and for the arms after them. -/
def Reads (settings : Settings) (room : Nat) (s : String) (nodes : List Node) (later : List Arm) : Prop :=
  ∃ items, Shows s items ∧ Derives settings room items nodes later

variable {settings : Settings} {room : Nat} {s t : String} {nodes more : List Node} {later : List Arm}

theorem reads_empty : Reads settings room "" [] [] :=
  ⟨[], ⟨⟨_, .plain (by decide) (by decide), rfl⟩, by decide, by decide⟩, .nil⟩

theorem reads_text (hl : '\x7b' ∉ s.toList) (hr : '\x7d' ∉ s.toList) (hne : s ≠ "") :
    Reads settings room s [.text s] [] := by
  have hleaf : Leaf settings.helpers (.text s.toList) (.text s) := by
    rw [Leaf.text_iff, String.ofList_toList]
  exact ⟨_, shows_text hl hr hne, .leaf hleaf .nil⟩

theorem Reads.append (hs : Reads settings room s nodes []) (ht : Reads settings room t more later) :
    Reads settings room (s ++ t) (meeting Node.meet? nodes more) later := by
  obtain ⟨xs, hxs, hx⟩ := hs
  obtain ⟨ys, hys, hy⟩ := ht
  exact ⟨_, hxs.append hys, hx.meet hy⟩

theorem Reads.block {first last : String} {block : Block} {argument keyword : String} {node : Node}
    (hf : Spells first (.opening block argument)) (hl : Spells last (.closing keyword))
    (hk : Block.ofClosing? keyword = some block) (hc : Closes block argument nodes later node)
    (h : Reads settings room s nodes later) :
    Reads settings (room + 1) (tagged first ++ s ++ tagged last) [node] [] := by
  obtain ⟨items, hs, hd⟩ := h
  have hall := ((shows_tagged hf).append hs).append (shows_tagged hl)
  rw [meeting_cons_of_none (fun _ => rfl), meeting_cons_right (fun x => by cases x <;> rfl)] at hall
  exact ⟨_, hall, .block hd hc hk .nil⟩

/-- A later arm, which a newline ends. -/
theorem Reads.arm {body : String} {directive : Directive} {source : Option String}
    {condition : Option Condition} (hb : Spells body directive) (hd : directive.branch? = some source)
    (hc : condition? source = some condition) (hlast : source = none → later = [])
    (h : Reads settings room s nodes later) :
    Reads settings room (tagged body ++ s) [] ((condition, withoutLastNewline nodes) :: later) := by
  obtain ⟨items, hs, hi⟩ := h
  have hall := (shows_tagged hb).append hs
  rw [meeting_cons_of_none (fun _ => rfl)] at hall
  exact ⟨_, hall, .marker hd hc hlast hi⟩

/-! ## Newlines around an arm -/

theorem withoutFirstNewline_meeting (h : ∀ node ∈ nodes, node ≠ .text "") :
    withoutFirstNewline (meeting Node.meet? [.text "\n"] nodes) = nodes := by
  match nodes, h with
  | [], _ => rfl
  | .variable .. :: _, _ | .call .. :: _, _ | .conditional .. :: _, _ | .loop .. :: _, _ => rfl
  | .text s :: rest, h =>
    have hne : s ≠ "" := fun hs => h _ List.mem_cons_self (congrArg Node.text hs)
    have hchars := mt String.toList_eq_nil_iff.mp hne
    simp [meeting, Node.meet?, withoutFirstNewline, textNodes, hchars]

theorem withoutLastNewline_meeting (h : ∀ node ∈ nodes, node ≠ .text "") :
    withoutLastNewline (meeting Node.meet? nodes [.text "\n"]) = nodes := by
  rcases List.eq_nil_or_concat nodes with rfl | ⟨init, last, rfl⟩
  · rfl
  · rw [List.concat_eq_append] at h ⊢
    rw [meeting_append (List.cons_ne_nil _ _)]
    have hother := withoutLastNewline_textNodes (init ++ [last]) []
    cases last with
    | text s =>
      have hne : s ≠ "" := fun hs => h _ (List.mem_append_right _ List.mem_cons_self)
        (congrArg Node.text hs)
      have hchars := mt String.toList_eq_nil_iff.mp hne
      have hlast := withoutLastNewline_textNodes init s.toList
      simpa [meeting, Node.meet?, textNodes, hchars] using hlast
    | _ => simpa [meeting, Node.meet?, textNodes] using hother

end Grammar

/-! ## Written trees -/

section
variable {settings : Settings} {room : Nat} {nodes : List Node} {later : List Arm}

theorem Node.Printable.ne_empty {node : Node} (h : node.Printable room) : node ≠ .text "" := by
  rintro rfl
  cases h with
  | text hne => exact hne rfl

theorem reads_printAll (h : ∀ node ∈ nodes, Reads settings room node.print [node] [])
    (hs : Spaced nodes) : Reads settings room (printAll nodes) nodes [] := by
  induction nodes with
  | nil => exact reads_empty
  | cons node rest ih =>
    obtain ⟨hnode, hrest⟩ := List.forall_mem_cons.mp h
    have hall := hnode.append (ih hrest hs.tail)
    have hmeet : meeting Node.meet? [node] rest = node :: rest := by
      cases rest with
      | nil => rfl
      | cons next rest => simp only [meeting, hs.rel]
    rwa [hmeet] at hall

theorem reads_printLater (h : ∀ arm ∈ later, Reads settings room (printAll arm.2) arm.2 [])
    (hc : ∀ arm ∈ later, ∀ c ∈ arm.1, c.Printable) (hlast : ∀ arm ∈ later.dropLast, arm.1 ≠ none)
    (hne : ∀ arm ∈ later, ∀ node ∈ arm.2, node ≠ .text "") :
    Reads settings room (printLater (printArms later)) [] later := by
  induction later with
  | nil => exact reads_empty
  | cons arm later ih =>
    obtain ⟨condition, body⟩ := arm
    obtain ⟨hbody, hbodies⟩ := List.forall_mem_cons.mp h
    obtain ⟨hcondition, hconditions⟩ := List.forall_mem_cons.mp hc
    obtain ⟨hnode, hnodes⟩ := List.forall_mem_cons.mp hne
    obtain ⟨directive, source, hspells, hbranch, hsource, hnone⟩ := spells_printElse hcondition
    have hrest : Reads settings room (printLater (printArms later)) [] later := by
      refine ih hbodies hconditions (fun arm ha => hlast arm ?_) hnodes
      rw [List.dropLast_cons_of_ne_nil (List.ne_nil_of_mem (List.dropLast_subset _ ha))]
      exact List.mem_cons_of_mem _ ha
    -- only the last arm can be one without a condition
    have hend : source = none → later = [] := by
      intro hs
      by_contra hlater
      refine hlast (condition, body) ?_ (hnone hs)
      rw [List.dropLast_cons_of_ne_nil hlater]
      exact List.mem_cons_self
    have hnewline : Reads settings room "\n" [.text "\n"] [] :=
      reads_text (by decide) (by decide) (by decide)
    have harm := Reads.arm hspells hbranch hsource hend ((hbody.append hnewline).append hrest)
    rwa [meeting_nil, withoutLastNewline_meeting hnode] at harm

theorem reads_printBranches {condition : Condition} {body : List Node} (hc : condition.Printable)
    (hbody : Reads settings room (printAll body) body [])
    (hlater : Reads settings room (printLater (printArms later)) [] later)
    (hne : ∀ node ∈ body, node ≠ .text "") :
    Reads settings (room + 1) (printBranches (printArms ((some condition, body) :: later)))
      [.conditional ((some condition, body) :: later)] [] := by
  obtain ⟨hplain, hparse⟩ := hc.plain
  have hend : Spells "/if" (.closing "if") := ⟨by decide, by decide, rfl⟩
  cases later with
  | nil => exact .block hplain.spells_if hend rfl (.conditional hparse) hbody
  -- the newline after the first tag is there to be taken away, and no newline of the body is
  | cons arm later =>
    have hnewline : Reads settings room "\n" [.text "\n"] [] :=
      reads_text (by decide) (by decide) (by decide)
    have hall := (hnewline.append hbody).append hlater
    rw [meeting_nil] at hall
    have hcloses : Closes .conditional condition.source (meeting Node.meet? [.text "\n"] body)
        (arm :: later) (.conditional ((some condition, body) :: arm :: later)) := by
      have harms := @Closes.conditional condition.source condition
        (meeting Node.meet? [.text "\n"] body) (arm :: later) hparse
      rwa [armsOf, if_neg (by simp), withoutFirstNewline_meeting hne] at harms
    exact .block hplain.spells_if hend rfl hcloses hall

theorem Node.Printable.reads {node : Node} (h : node.Printable room) :
    Reads settings room node.print [node] [] := by
  induction h with
  | text hne hl hr => exact reads_text hl hr hne
  | «variable» hs hi hw =>
    exact ⟨_, shows_tagged (hs.spells hi hw), .leaf .variable .nil⟩
  | conditional hc hbody hspaced hlater hlast hbodies hspacedAll ihBody ihBodies =>
    refine reads_printBranches hc (reads_printAll ihBody hspaced) ?_ fun node hn => (hbody node hn).ne_empty
    refine reads_printLater (fun arm ha => ?_) hlater hlast fun arm ha node hn => (hbodies arm ha node hn).ne_empty
    exact reads_printAll (ihBodies arm ha) (hspacedAll arm ha)
  | loop hs hbody hspaced ih =>
    have hend : Spells "/loop" (.closing "loop") := ⟨by decide, by decide, rfl⟩
    exact .block hs.solid_print.spells_loop hend rfl (.loop hs.loopSource_print) (reads_printAll ih hspaced)

end

/-- Compiling a written tree gives the tree. -/
theorem compile_printAll (helpers : Entries Helper) (maxDepth : Nat) {nodes : List Node}
    (h : ∀ node ∈ nodes, node.Printable maxDepth) (hs : Spaced nodes) :
    compile { helpers, maxDepth } (printAll nodes) = .ok nodes := by
  have hreads : ∀ node ∈ nodes, Reads { helpers, maxDepth } maxDepth node.print [node] [] :=
    fun node hn => (h node hn).reads
  obtain ⟨items, hshows, hderives⟩ := reads_printAll hreads hs
  obtain ⟨segments, hcut, rfl⟩ := hshows.cut
  exact (compile_eq_ok_iff oneLine_default).mpr ⟨segments, scan_of_cut hcut, hderives⟩

theorem compile_printAll_else :
    ∃ nodes, nodes = [.text "n\n", .conditional
        [(some ⟨"a", [{ left := [.operand (.reference (.path "a"))] }], []⟩,
          [.text "x", .loop (.data (some "b")) [.variable .index false]]),
          (none, [.variable (.path "c") false])]] ∧
      (∀ node ∈ nodes, node.Printable 2) ∧ Spaced nodes ∧
      printAll nodes =
        "n\n{{if a}}\nx{{loop @data.b}}{{@index}}{{/loop}}{{else}}{{%c}}\n{{/if}}" ∧
      compile { maxDepth := 2 } (printAll nodes) = .ok nodes := by
  have hc : Condition.Printable ⟨"a", [{ left := [.operand (.reference (.path "a"))] }], []⟩ :=
    ⟨"a", ⟨by decide, by decide, by decide, by decide⟩, by with_unfolding_all rfl⟩
  have hb : Accessor.Printable (.data (some "b")) := by
    intro name hname
    cases hname
    decide
  have hindex : (Node.variable .index false).Printable 0 :=
    .variable trivial (fun _ => rfl) fun _ _ => Bool.noConfusion
  have hloop : (Node.loop (.data (some "b")) [.variable .index false]).Printable 1 :=
    .loop hb (by simpa using hindex) (.singleton _)
  have hvariable : (Node.variable (.path "c") false).Printable 1 :=
    .variable ⟨by decide, by decide⟩ (fun _ => rfl) fun _ _ => Bool.noConfusion
  refine ⟨_, rfl, ?printable, ?spaced, by with_unfolding_all rfl, compile_printAll [] 2 ?printable ?spaced⟩
  case spaced => exact .cons_cons rfl (.singleton _)
  case printable =>
    refine List.forall_mem_cons.mpr ⟨.text (by decide) (by decide) (by decide), ?_⟩
    refine List.forall_mem_singleton.mpr (.conditional hc ?_ (.cons_cons rfl (.singleton _)) ?_ ?_ ?_ ?_)
    · exact List.forall_mem_cons.mpr ⟨.text (by decide) (by decide) (by decide),
        List.forall_mem_singleton.mpr hloop⟩
    · simp
    · simp
    · simpa using hvariable
    · exact List.forall_mem_singleton.mpr (.singleton _)

end Stencil
