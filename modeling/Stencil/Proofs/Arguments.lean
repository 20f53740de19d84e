import Stencil.Proofs.Printing

/-! # Arguments of calls

What follows the name of a helper is cut at the blanks outside of quotes. Nothing but blanks is lost, and the
arguments can be put together again with spaces. A text in double quotes reaches the helper as it is. -/
namespace Stencil
open Text.Blank Text.Mark Compilation Grammar

namespace Directive.Arguments

/-- Characters other than blanks, and quoted texts. Only at the end can there be a quoted text whose mark
does not come again, and then the whole is not closed. -/
inductive Shape : Bool → List Char → Prop
  | nil : Shape true []
  | plain {closed c rest} : isBlank c = false → isMark c = false → Shape closed rest →
      Shape closed (c :: rest)
  | quoted {closed mark inside rest} : isMark mark = true → mark ∉ inside → Shape closed rest →
      Shape closed (mark :: (inside ++ mark :: rest))
  | unclosed {mark inside} : isMark mark = true → mark ∉ inside → Shape false (mark :: inside)

theorem isBlank_of_isMark {c : Char} (h : isMark c = true) : isBlank c = false := by
  simp only [isMark, Bool.or_eq_true, decide_eq_true_eq] at h
  rcases h with rfl | rfl <;> decide

/-! ## The first argument -/

theorem argument_plain {c : Char} (hb : isBlank c = false) (hm : isMark c = false) (rest : List Char) :
    argument none (c :: rest) = (c :: (argument none rest).1, (argument none rest).2) := by
  simp [argument, hb, hm]

theorem argument_mark {c : Char} (h : isMark c = true) (rest : List Char) :
    argument none (c :: rest) = (c :: (argument (some c) rest).1, (argument (some c) rest).2) := by
  simp [argument, isBlank_of_isMark h, h]

theorem argument_blank {c : Char} (h : isBlank c = true) (rest : List Char) :
    argument none (c :: rest) = ([], c :: rest) := by
  simp [argument, h]

theorem argument_inside {mark c : Char} (h : c ≠ mark) (rest : List Char) :
    argument (some mark) (c :: rest) =
      (c :: (argument (some mark) rest).1, (argument (some mark) rest).2) := by
  simp [argument, h]

theorem argument_closing (mark : Char) (rest : List Char) :
    argument (some mark) (mark :: rest) = (mark :: (argument none rest).1, (argument none rest).2) := by
  simp [argument]

/-- Inside of quotes everything is taken up to the mark. -/
theorem argument_quoted {mark : Char} {inside : List Char} (h : mark ∉ inside) (rest : List Char) :
    argument (some mark) (inside ++ mark :: rest) =
      (inside ++ mark :: (argument none rest).1, (argument none rest).2) := by
  induction inside with
  | nil => exact argument_closing mark rest
  | cons c inside ih =>
    obtain ⟨hc, hinside⟩ := List.ne_and_not_mem_of_not_mem_cons h
    rw [List.cons_append, argument_inside hc.symm, ih hinside]
    rfl

theorem argument_unclosed {mark : Char} {inside : List Char} (h : mark ∉ inside) :
    argument (some mark) inside = (inside, []) := by
  induction inside with
  | nil => rfl
  | cons c inside ih =>
    obtain ⟨hc, hinside⟩ := List.ne_and_not_mem_of_not_mem_cons h
    rw [argument_inside hc.symm, ih hinside]

/-- What can follow an argument: a blank, or nothing. -/
def Ended (s : List Char) : Prop :=
  ∀ c ∈ s.head?, isBlank c = true

theorem ended_space (rest : List Char) : Ended (' ' :: rest) := by
  intro c hc
  obtain rfl := Option.some.inj hc
  decide

theorem Shape.argument_append {closed : Bool} {s : List Char} (h : Shape closed s) {rest : List Char}
    (hr : Ended rest) (hc : closed = false → rest = []) : argument none (s ++ rest) = (s, rest) := by
  induction h with
  | nil =>
    cases rest with
    | nil => rfl
    | cons c rest => exact argument_blank (hr c rfl) rest
  | plain hb hm _ ih => rw [List.cons_append, argument_plain hb hm, ih hc]
  | quoted hm hinside _ ih =>
    rw [List.cons_append, List.append_assoc, List.cons_append, argument_mark hm, argument_quoted hinside,
      ih hc]
  | unclosed hm hinside =>
    rw [hc rfl, List.append_nil, argument_mark hm, argument_unclosed hinside]

/-- What an argument that is in the middle of a quoted text goes on with. -/
def Within (mark : Char) (closed : Bool) (s : List Char) : Prop :=
  (∃ inside rest, s = inside ++ mark :: rest ∧ mark ∉ inside ∧ Shape closed rest) ∨
    closed = false ∧ mark ∉ s

theorem Within.cons {mark c : Char} {closed : Bool} {s : List Char} (h : Within mark closed s)
    (hc : c ≠ mark) : Within mark closed (c :: s) := by
  rcases h with ⟨inside, rest, rfl, hinside, hrest⟩ | ⟨hclosed, hs⟩
  · exact .inl ⟨c :: inside, rest, rfl, List.not_mem_cons_of_ne_of_not_mem hc.symm hinside, hrest⟩
  · exact .inr ⟨hclosed, List.not_mem_cons_of_ne_of_not_mem hc.symm hs⟩

theorem Within.shape {mark : Char} {closed : Bool} {s : List Char} (h : Within mark closed s)
    (hm : isMark mark = true) : Shape closed (mark :: s) := by
  rcases h with ⟨inside, rest, rfl, hinside, hrest⟩ | ⟨rfl, hs⟩
  · exact .quoted hm hinside hrest
  · exact .unclosed hm hs

/-- An argument ends at a blank or at the end of the text, and only there can it be left unclosed. -/
structure Taken (shape : Bool → List Char → Prop) (s : List Char) (result : List Char × List Char) :
    Prop where
  append_eq : result.1 ++ result.2 = s
  ended : Ended result.2
  shaped : ∃ closed, shape closed result.1 ∧ (closed = false → result.2 = [])

theorem argument_taken (s : List Char) : Taken Shape s (argument none s) ∧
    ∀ mark, isMark mark = true → Taken (Within mark) s (argument (some mark) s) := by
  induction s with
  | nil =>
    refine ⟨⟨rfl, nofun, true, .nil, nofun⟩, fun mark _ => ⟨rfl, nofun, false, ?_, fun _ => rfl⟩⟩
    exact .inr ⟨rfl, List.not_mem_nil⟩
  | cons c rest ih =>
    obtain ⟨ihPlain, ihInside⟩ := ih
    constructor
    · by_cases hb : isBlank c = true
      · rw [argument_blank hb]
        refine ⟨rfl, fun x hx => ?_, true, .nil, nofun⟩
        obtain rfl := Option.some.inj hx
        exact hb
      · by_cases hm : isMark c = true
        · obtain ⟨happend, hended, closed, hwithin, hrest⟩ := ihInside c hm
          rw [argument_mark hm]
          exact ⟨congrArg (c :: ·) happend, hended, closed, hwithin.shape hm, hrest⟩
        · obtain ⟨happend, hended, closed, hshape, hrest⟩ := ihPlain
          rw [Bool.not_eq_true] at hb hm
          rw [argument_plain hb hm]
          exact ⟨congrArg (c :: ·) happend, hended, closed, .plain hb hm hshape, hrest⟩
    · intro mark hm
      by_cases hc : c = mark
      · subst hc
        obtain ⟨happend, hended, closed, hshape, hrest⟩ := ihPlain
        rw [argument_closing]
        exact ⟨congrArg (c :: ·) happend, hended, closed,
          .inl ⟨[], _, rfl, List.not_mem_nil, hshape⟩, hrest⟩
      · obtain ⟨happend, hended, closed, hwithin, hrest⟩ := ihInside mark hm
        rw [argument_inside hc]
        exact ⟨congrArg (c :: ·) happend, hended, closed, hwithin.cons hc, hrest⟩

/-! ## All arguments -/

theorem split_nil : split [] = [] := by
  rw [split]

theorem split_blank {c : Char} (h : isBlank c = true) (rest : List Char) :
    split (c :: rest) = split rest := by
  rw [split, dif_pos h]

theorem split_cons {c : Char} (h : isBlank c = false) (rest : List Char) :
    split (c :: rest) = (argument none (c :: rest)).1 :: split (argument none (c :: rest)).2 := by
  rw [split, dif_neg (by rw [h]; exact Bool.false_ne_true)]

theorem split_blanks_append {gap : List Char} (h : ∀ c ∈ gap, isBlank c = true) (s : List Char) :
    split (gap ++ s) = split s := by
  induction gap with
  | nil => rfl
  | cons c gap ih =>
    obtain ⟨hc, hgap⟩ := List.forall_mem_cons.mp h
    rw [List.cons_append, split_blank hc, ih hgap]

theorem Shape.head {closed : Bool} {c : Char} {s : List Char} (h : Shape closed (c :: s)) :
    isBlank c = false := by
  cases h with
  | plain hb => exact hb
  | quoted hm => exact isBlank_of_isMark hm
  | unclosed hm => exact isBlank_of_isMark hm

/-- An argument is split off with whatever can follow it. -/
theorem Shape.split_append {closed : Bool} {s : List Char} (h : Shape closed s) (hs : s ≠ [])
    {rest : List Char} (hr : Ended rest) (hc : closed = false → rest = []) :
    split (s ++ rest) = s :: split rest := by
  obtain ⟨c, more, rfl⟩ := List.exists_cons_of_ne_nil hs
  have hargument := h.argument_append hr hc
  rw [List.cons_append] at hargument ⊢
  rw [split_cons h.head, hargument]

theorem Shape.split_eq {closed : Bool} {s : List Char} (h : Shape closed s) (hs : s ≠ []) :
    split s = [s] := by
  have hsplit : split (s ++ []) = s :: split [] := h.split_append hs nofun fun _ => rfl
  rwa [List.append_nil, split_nil] at hsplit

/-- Arguments of which only the last one can be left unclosed. -/
inductive Pieces : List (List Char) → Prop
  | nil : Pieces []
  | last {closed piece} : piece ≠ [] → Shape closed piece → Pieces [piece]
  | cons {piece pieces} : piece ≠ [] → Shape true piece → Pieces pieces → Pieces (piece :: pieces)

theorem pieces_split (s : List Char) : Pieces (split s) := by
  fun_induction split s with
  | case1 => exact .nil
  | case2 c rest hb ih => exact ih
  | case3 c rest hb ih =>
    obtain ⟨happend, hended, closed, hshape, hrest⟩ := (argument_taken (c :: rest)).1
    have hne : (argument none (c :: rest)).1 ≠ [] := by
      intro hnil
      rw [hnil, List.nil_append] at happend
      rw [happend] at hended
      exact hb (hended c rfl)
    cases closed with
    | true => exact .cons hne hshape ih
    | false =>
      rw [hrest rfl, split_nil]
      exact .last hne hshape

/-- Nothing but blanks is lost. -/
theorem filter_flatten_split (s : List Char) :
    (split s).flatten.filter (!isBlank ·) = s.filter (!isBlank ·) := by
  fun_induction split s with
  | case1 => rfl
  | case2 c rest hb ih => rw [ih, List.filter_cons_of_neg (by simp [hb])]
  | case3 c rest hb ih =>
    have happend := (argument_taken (c :: rest)).1.append_eq
    rw [List.flatten_cons, List.filter_append, ih, ← List.filter_append, happend]

theorem Pieces.shape {pieces : List (List Char)} (h : Pieces pieces) :
    ∀ piece ∈ pieces, piece ≠ [] ∧ ∃ closed, Shape closed piece := by
  induction h with
  | nil => exact List.forall_mem_nil _
  | last hne hshape => exact List.forall_mem_singleton.mpr ⟨hne, _, hshape⟩
  | cons hne hshape _ ih => exact List.forall_mem_cons.mpr ⟨⟨hne, true, hshape⟩, ih⟩

theorem Pieces.shape_dropLast {pieces : List (List Char)} (h : Pieces pieces) :
    ∀ piece ∈ pieces.dropLast, Shape true piece := by
  induction h with
  | nil => exact List.forall_mem_nil _
  | last => exact List.forall_mem_nil _
  | @cons piece pieces _ hshape _ ih =>
    cases pieces with
    | nil => exact List.forall_mem_nil _
    | cons next pieces =>
      rw [List.dropLast_cons_cons]
      exact List.forall_mem_cons.mpr ⟨hshape, ih⟩

/-- Pieces written with single spaces between them are split off again. -/
theorem split_intercalate {pieces : List (List Char)} (h : Pieces pieces) :
    split ([' '].intercalate pieces) = pieces := by
  refine split_spaced split_nil (fun piece hp => ?_) (fun piece hp rest => ?_)
  · obtain ⟨hne, _, hshape⟩ := h.shape piece hp
    exact hshape.split_eq hne
  · obtain ⟨hne, -⟩ := h.shape piece (List.mem_of_mem_dropLast hp)
    rw [(h.shape_dropLast piece hp).split_append hne (ended_space rest) nofun, split_blank (by decide)]

end Directive.Arguments

/-! ## Quoted arguments -/

open Directive.Arguments

def quoted (text : String) : String :=
  "\"" ++ text ++ "\""

/-- Quoted texts, each behind a gap. -/
def gapped : List (String × String) → String
  | [] => ""
  | (gap, text) :: rest => gap ++ quoted text ++ gapped rest

variable {name : String} {arguments : List (String × String)}

/-- A name that is one argument by itself. -/
structure Callable (name : String) : Prop where
  solid : Solid name
  unquoted : ∀ c ∈ name.toList, isMark c = false

/-- A gap, and a text that double quotes can hold in a tag. -/
structure Quotable (argument : String × String) : Prop where
  gap_not_empty : argument.1 ≠ ""
  gap_blank : ∀ c ∈ argument.1.toList, isBlank c = true
  no_mark : '"' ∉ argument.2.toList
  no_left : '\x7b' ∉ argument.2.toList
  no_right : '\x7d' ∉ argument.2.toList

theorem callable_iff : Callable name ↔ Solid name ∧ name.toList.all fun c => !isMark c := by
  simp only [List.all_eq_true, Bool.not_eq_true']
  exact ⟨fun h => ⟨h.solid, h.unquoted⟩, fun h => ⟨h.1, h.2⟩⟩

instance : Decidable (Callable name) :=
  decidable_of_iff _ callable_iff.symm

theorem quotable_iff {a : String × String} : Quotable a ↔ a.1 ≠ "" ∧ a.1.toList.all isBlank ∧
    a.2.toList.all fun c => c != '"' && c != '\x7b' && c != '\x7d' := by
  simp only [List.all_eq_true, Bool.and_eq_true, bne_iff_ne, ne_eq]
  constructor
  · intro h
    refine ⟨h.gap_not_empty, h.gap_blank, fun c hc => ⟨⟨?_, ?_⟩, ?_⟩⟩
    · rintro rfl
      exact h.no_mark hc
    · rintro rfl
      exact h.no_left hc
    · rintro rfl
      exact h.no_right hc
  · intro h
    obtain ⟨hne, hblank, htext⟩ := h
    exact ⟨hne, hblank, fun hc => (htext _ hc).1.1 rfl, fun hc => (htext _ hc).1.2 rfl,
      fun hc => (htext _ hc).2 rfl⟩

instance (a : String × String) : Decidable (Quotable a) :=
  decidable_of_iff _ quotable_iff.symm

theorem toList_quoted (text : String) : (quoted text).toList = '"' :: (text.toList ++ ['"']) := by
  simp [quoted]

theorem toList_gapped_cons (gap text : String) (rest : List (String × String)) :
    (gapped ((gap, text) :: rest)).toList = gap.toList ++ ((quoted text).toList ++ (gapped rest).toList) := by
  rw [gapped, String.toList_append, String.toList_append, List.append_assoc]

theorem shape_quoted {text : String} (h : '"' ∉ text.toList) : Shape true (quoted text).toList := by
  rw [toList_quoted]
  exact .quoted (by decide) h .nil

theorem shape_of_unquoted {s : List Char} (hs : Unbroken s) (hm : ∀ c ∈ s, isMark c = false) :
    Shape true s := by
  induction s with
  | nil => exact .nil
  | cons c s ih =>
    obtain ⟨hc, hrest⟩ := List.forall_mem_cons.mp hs
    obtain ⟨hcm, hmrest⟩ := List.forall_mem_cons.mp hm
    exact .plain hc hcm (ih hrest hmrest)

theorem ended_gapped (h : ∀ a ∈ arguments, Quotable a) : Ended (gapped arguments).toList := by
  intro c hc
  cases arguments with
  | nil => cases hc
  | cons a rest =>
    obtain ⟨gap, text⟩ := a
    have ha := h _ List.mem_cons_self
    have hne : gap.toList ≠ [] := mt String.toList_eq_nil_iff.mp ha.gap_not_empty
    rw [toList_gapped_cons, List.head?_append_of_ne_nil _ hne] at hc
    exact ha.gap_blank c (List.mem_of_head? hc)

theorem split_gapped (h : ∀ a ∈ arguments, Quotable a) :
    split (gapped arguments).toList = arguments.map fun a => (quoted a.2).toList := by
  induction arguments with
  | nil => exact split_nil
  | cons a rest ih =>
    obtain ⟨gap, text⟩ := a
    obtain ⟨ha, hrest⟩ := List.forall_mem_cons.mp h
    have hne : (quoted text).toList ≠ [] := by simp [toList_quoted]
    rw [toList_gapped_cons, split_blanks_append ha.gap_blank,
      (shape_quoted ha.no_mark).split_append hne (ended_gapped hrest) nofun, ih hrest, List.map_cons]

theorem split_call (hn : Callable name) (h : ∀ a ∈ arguments, Quotable a) :
    split (name ++ gapped arguments).toList =
      name.toList :: arguments.map fun a => (quoted a.2).toList := by
  rw [String.toList_append, (shape_of_unquoted hn.solid.unbroken hn.unquoted).split_append
    hn.solid.toList_ne_nil (ended_gapped h) nofun, split_gapped h]

/-- What comes last is the name or a mark. -/
theorem last_append_gapped {s : String} (hs : ∀ c, s.toList.getLast? = some c → isBlank c = false)
    (c : Char) (hc : (s ++ gapped arguments).toList.getLast? = some c) : isBlank c = false := by
  induction arguments generalizing s with
  | nil =>
    rw [gapped, String.append_empty] at hc
    exact hs c hc
  | cons a rest ih =>
    obtain ⟨gap, text⟩ := a
    rw [gapped, ← String.append_assoc] at hc
    refine ih (fun x hx => ?_) hc
    have hlast : (s ++ (gap ++ quoted text)).toList = (s ++ gap).toList ++ '"' :: text.toList ++ ['"'] := by
      simp [quoted]
    rw [hlast, List.getLast?_concat] at hx
    obtain rfl := Option.some.inj hx
    decide

theorem not_mem_gapped {c : Char} (hb : isBlank c = false) (hm : c ≠ '"')
    (h : ∀ a ∈ arguments, Quotable a) (hc : ∀ a ∈ arguments, c ∉ a.2.toList) :
    c ∉ (gapped arguments).toList := by
  induction arguments with
  | nil => exact List.not_mem_nil
  | cons a rest ih =>
    obtain ⟨gap, text⟩ := a
    obtain ⟨ha, hrest⟩ := List.forall_mem_cons.mp h
    obtain ⟨htext, hmore⟩ := List.forall_mem_cons.mp hc
    have hgap : c ∉ gap.toList := by
      intro hmem
      have hblank := ha.gap_blank c hmem
      rw [hb] at hblank
      cases hblank
    rw [toList_gapped_cons, toList_quoted]
    simp only [List.mem_append, List.mem_cons, List.not_mem_nil, or_false, not_or]
    exact ⟨hgap, ⟨hm, htext, hm⟩, ih hrest hmore⟩

/-! ## Calls -/

/-- A call of a helper with quoted texts. -/
def callBody (name : String) (arguments : List (String × String)) : String :=
  "#" ++ (name ++ gapped arguments)

theorem spells_call (hn : Callable name) (h : ∀ a ∈ arguments, Quotable a) :
    Spells (callBody name arguments) (.call name (arguments.map fun a => quoted a.2)) := by
  have hlist : (callBody name arguments).toList = '#' :: (name ++ gapped arguments).toList := by
    simp [callBody]
  have hnot {c : Char} (hname : c ∉ name.toList) (hb : isBlank c = false) (hm : c ≠ '"') (hh : c ≠ '#')
      (hc : ∀ a ∈ arguments, c ∉ a.2.toList) : c ∉ (callBody name arguments).toList := by
    rw [hlist, String.toList_append]
    simp only [List.mem_cons, List.mem_append, not_or]
    exact ⟨hh, hname, not_mem_gapped hb hm h hc⟩
  have hlast : ∀ c, (name ++ gapped arguments).toList.getLast? = some c → isBlank c = false :=
    last_append_gapped fun c hc => hn.solid.unbroken c (List.mem_of_getLast? hc)
  have htrim : trim (callBody name arguments).toList = (callBody name arguments).toList := by
    rw [hlist]
    refine trim_eq_self_iff.mpr ⟨fun c hc => ?_, fun c hc => hlast c ?_⟩
    · obtain rfl := Option.some.inj hc
      decide
    · have hne : (name ++ gapped arguments).toList ≠ [] := by simp [hn.solid.not_empty]
      rwa [List.getLast?_cons_of_ne_nil hne] at hc
  refine ⟨hnot hn.solid.no_left (by decide) (by decide) (by decide) fun a ha => (h a ha).no_left,
    hnot hn.solid.no_right (by decide) (by decide) (by decide) fun a ha => (h a ha).no_right, ?_⟩
  unfold Directive.classify
  rw [htrim, hlist]
  show Directive.callOf (name ++ gapped arguments).toList = _
  rw [Directive.callOf, split_call hn h]
  simp

/-- A text in double quotes is that text, whatever it would be without them. -/
theorem parse_quoted (text : String) : Operand.parse (quoted text) = .ok (.literal (.str text)) := by
  have hunquote : Operand.unquote? (quoted text).toList = some text.toList := by
    rw [toList_quoted, Operand.unquote?, List.getLast?_concat, List.dropLast_concat]
    rfl
  unfold Operand.parse
  rw [hunquote]
  dsimp only
  rw [String.ofList_toList]

theorem mapM_parse_quoted (texts : List String) :
    (texts.map quoted).mapM Operand.parse = .ok (texts.map fun text => .literal (.str text)) := by
  induction texts with
  | nil => rfl
  | cons text texts ih =>
    exact Except.mapM_cons_eq_ok_iff.mpr ⟨_, _, parse_quoted text, ih, rfl⟩

/-- A call by itself puts on the page what the helper gives for the values. -/
theorem Template.render_call (name : String) (helper : Helper) (operands : List Operand) (context : Value) :
    Template.render ⟨[.call name helper operands]⟩ context =
      match helper (operands.map (Operand.resolve (Scope.ofRoot context))) with
      | .ok value => .ok (trimmed value.display)
      | .error message => .error (.helper name message) := by
  have hone : renderAll [.call name helper operands] ⟨Scope.ofRoot context, ""⟩ =
      Rendering.call name helper operands ⟨Scope.ofRoot context, ""⟩ := by
    show (do Rendering.call name helper operands; pure ()) _ = _
    rw [Rendering.seq_eq]
    cases Rendering.call name helper operands ⟨Scope.ofRoot context, ""⟩ <;> rfl
  unfold Template.render
  rw [hone, Rendering.call_eq]
  cases helper (operands.map (Operand.resolve (Scope.ofRoot context))) with
  | ok value =>
    show Except.ok (trimmed ("" ++ value.display)) = _
    rw [String.empty_append]
  | error message => rfl

theorem compile_call (helpers : Entries Helper) (maxDepth : Nat) {helper : Helper} (hn : Callable name)
    (hh : helpers.get? name = some helper) (h : ∀ a ∈ arguments, Quotable a) :
    compile { helpers, maxDepth } (tagged (callBody name arguments)) =
      .ok [.call name helper (arguments.map fun a => .literal (.str a.2))] := by
  have hparse := mapM_parse_quoted (arguments.map fun a => a.2)
  rw [List.map_map, List.map_map] at hparse
  have hcall : callNode helpers name (arguments.map fun a => quoted a.2) 1 =
      .ok (.call name helper (arguments.map fun a => .literal (.str a.2))) := by
    unfold callNode
    rw [hh]
    exact Except.bind_eq_ok_iff.mpr ⟨_, Except.mapError_eq_ok_iff.mpr hparse, rfl⟩
  obtain ⟨segments, hcut, hitems⟩ := (shows_tagged (spells_call hn h)).cut
  have hderives : Derives { helpers, maxDepth } maxDepth (segments.map item)
      [.call name helper (arguments.map fun a => .literal (.str a.2))] [] := by
    rw [hitems]
    exact .leaf (.call hcall) .nil
  exact (compile_eq_ok_iff oneLine_default).mpr ⟨segments, Segment.scan_of_cut hcut, hderives⟩

/-- A call of a helper with texts in double quotes compiles to one node, and rendering it calls the helper
with these texts. Of any text, the arguments are not empty, hold all that is no blank, and blanks only in
quotes; joined with spaces they are cut to the same arguments again. -/
theorem call_quoted :
    (∀ (helpers : Entries Helper) (maxDepth : Nat) (name : String) (helper : Helper)
      (arguments : List (String × String)), Callable name → helpers.get? name = some helper →
      (∀ a ∈ arguments, Quotable a) →
      ∃ operands, compile { helpers, maxDepth } (tagged (callBody name arguments)) =
          .ok [.call name helper operands] ∧
        ∀ context,
          callsOfAll [.call name helper operands] (Scope.ofRoot context) =
            [⟨name, helper, arguments.map fun a => .str a.2⟩] ∧
          Template.render ⟨[.call name helper operands]⟩ context =
            match helper (arguments.map fun a => .str a.2) with
            | .ok value => .ok (trimmed value.display)
            | .error message => .error (.helper name message)) ∧
      ∀ s : List Char,
        (∀ piece ∈ split s, piece ≠ [] ∧ ∃ closed, Shape closed piece) ∧
        (∀ piece ∈ (split s).dropLast, Shape true piece) ∧
        (split s).flatten.filter (!isBlank ·) = s.filter (!isBlank ·) ∧
        split ([' '].intercalate (split s)) = split s := by
  constructor
  · intro helpers maxDepth name helper arguments hn hh h
    refine ⟨_, compile_call helpers maxDepth hn hh h, fun context => ?_⟩
    have hvalues : (arguments.map fun a => Operand.literal (.str a.2)).map
        (Operand.resolve (Scope.ofRoot context)) = arguments.map fun a => .str a.2 := by
      rw [List.map_map]
      rfl
    refine ⟨?_, ?_⟩
    · show [Call.mk name helper _] ++ [] = _
      rw [hvalues, List.append_nil]
    · rw [Template.render_call, hvalues]
  · intro s
    have hpieces := pieces_split s
    exact ⟨hpieces.shape, hpieces.shape_dropLast, filter_flatten_split s, split_intercalate hpieces⟩

/-- Without the quotes these would be a word and a piece of one, a number, a keyword and nothing. -/
theorem call_quoted_odd :
    ∃ operands, compile { helpers := [("h", fun values => .ok (.list values))] }
        "\x7b\x7b#h \"a 'b\" \t\"1\"\n\"null\" \"\"\x7d\x7d" =
          .ok [.call "h" (fun values => .ok (.list values)) operands] ∧
      Template.render ⟨[.call "h" (fun values => .ok (.list values)) operands]⟩ .null =
        .ok "a 'b,1,null," := by
  have hname : Callable "h" := by decide
  have harguments : ∀ a ∈ [(" ", "a 'b"), (" \t", "1"), ("\n", "null"), (" ", "")], Quotable a := by
    decide
  obtain ⟨operands, hcompile, hrender⟩ := call_quoted.1 [("h", fun values => .ok (.list values))] 64 "h"
    (fun values => .ok (.list values)) _ hname rfl harguments
  exact ⟨operands, hcompile, (hrender .null).2.trans (by with_unfolding_all rfl)⟩

end Stencil
