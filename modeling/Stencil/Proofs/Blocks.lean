import Stencil.Proofs.Grammar

/-! # The searches of the compiler -/
namespace Stencil.Grammar
open Compilation Segment

theorem directive_eq_ok_iff {t : Tag} {directive : Directive} :
    t.directive = .ok directive ↔ Directive.classify t.body = .ok directive :=
  Except.mapError_eq_ok_iff

theorem item_tag {t : Tag} {directive : Directive} (h : t.directive = .ok directive) :
    item (.tag t) = .tag (.ok directive) :=
  congrArg Item.tag (directive_eq_ok_iff.mp h)

theorem map_item_eq_tag_cons {segments : List Segment} {directive : Directive} {rest : List Item}
    (h : segments.map item = .tag (.ok directive) :: rest) :
    ∃ t more, segments = .tag t :: more ∧ t.directive = .ok directive ∧ more.map item = rest := by
  obtain ⟨s, more, rfl, hs, hm⟩ := List.map_eq_cons_iff.mp h
  cases s with
  | text chars => cases hs
  | tag t => exact ⟨t, more, rfl, directive_eq_ok_iff.mpr (Item.tag.inj hs), hm⟩

theorem map_item_eq_block {segments : List Segment} {block : Block} {argument keyword : String}
    {body rest : List Item} (h : segments.map item =
      .tag (.ok (.opening block argument)) :: (body ++ .tag (.ok (.closing keyword)) :: rest)) :
    ∃ opened inner closed after, segments = .tag opened :: (inner ++ .tag closed :: after) ∧
      opened.directive = .ok (.opening block argument) ∧ inner.map item = body ∧
      closed.directive = .ok (.closing keyword) ∧ after.map item = rest := by
  obtain ⟨opened, segments, rfl, ho, hs⟩ := map_item_eq_tag_cons h
  obtain ⟨inner, others, rfl, hinner, hothers⟩ := List.map_eq_append_iff.mp hs
  obtain ⟨closed, after, rfl, hc, hafter⟩ := map_item_eq_tag_cons hothers
  exact ⟨opened, inner, closed, after, rfl, ho, hinner, hc, hafter⟩

/-- Directives that neither open nor close a block, nor start a branch. -/
structure Passive (directive : Directive) : Prop where
  nest_eq : ∀ depth, directive.nest depth = depth
  branch_eq : directive.branch? = none
  not_closing : ∀ keyword, directive ≠ .closing keyword

theorem Leaf.passive {helpers : Entries Helper} {s : Segment} {node : Node}
    (h : Leaf helpers (item s) node) :
    (∃ chars, s = .text chars) ∨ ∃ t directive, s = .tag t ∧ t.directive = .ok directive ∧
      Passive directive := by
  cases s with
  | text chars => exact .inl ⟨chars, rfl⟩
  | tag t =>
    generalize hi : item (.tag t) = i at h
    refine .inr ⟨t, ?_⟩
    cases h with
    | text => cases hi
    | «variable» =>
      exact ⟨_, rfl, directive_eq_ok_iff.mpr (Item.tag.inj hi), fun _ => rfl, rfl, nofun⟩
    | call =>
      exact ⟨_, rfl, directive_eq_ok_iff.mpr (Item.tag.inj hi), fun _ => rfl, rfl, nofun⟩

theorem nest_opening (depth : Nat) (block : Block) (argument : String) :
    Directive.nest depth (.opening block argument) = depth + 1 :=
  rfl

theorem nest_of_branch {directive : Directive} {source : Option String}
    (h : directive.branch? = some source) (depth : Nat) : directive.nest depth = depth := by
  cases directive <;> simp_all [Directive.branch?, Directive.nest]

theorem not_closing_of_branch {directive : Directive} {source : Option String}
    (h : directive.branch? = some source) (keyword : String) : directive ≠ .closing keyword := by
  rintro rfl
  cases h

/-! ## Looking for the closing tag -/

theorem closing_cons {block : Block} {line depth : Nat} {t : Tag} {directive : Directive}
    {rest : List Segment} (h : t.directive = .ok directive)
    (hc : ∀ keyword, directive ≠ .closing keyword) :
    closing block line depth (.tag t :: rest) = closing block line (directive.nest depth) rest := by
  rw [closing, h]
  cases directive with
  | closing keyword => exact absurd rfl (hc keyword)
  | _ => rfl

theorem closing_cons_closing {block closed : Block} {line depth : Nat} {t : Tag} {keyword : String}
    {rest : List Segment} (h : t.directive = .ok (.closing keyword))
    (hk : Block.ofClosing? keyword = some closed) :
    closing block line (depth + 1) (.tag t :: rest) = closing block line depth rest := by
  rw [closing, h]
  simp only [hk]

theorem closing_cons_found {block : Block} {line : Nat} {t : Tag} {keyword : String}
    {rest : List Segment} (h : t.directive = .ok (.closing keyword))
    (hk : Block.ofClosing? keyword = some block) :
    closing block line 0 (.tag t :: rest) = .ok (t, rest) := by
  rw [closing, h]
  simp only [hk, if_true]

theorem closing_eq_ok {block : Block} {line depth : Nat} {segments after : List Segment} {closed : Tag}
    (h : closing block line depth segments = .ok (closed, after)) :
    ∃ inner keyword, segments = inner ++ .tag closed :: after ∧
      closed.directive = .ok (.closing keyword) ∧ Block.ofClosing? keyword = some block := by
  have further : ∀ s rest, (∃ inner keyword, rest = inner ++ .tag closed :: after ∧
      closed.directive = .ok (.closing keyword) ∧ Block.ofClosing? keyword = some block) →
      ∃ inner keyword, s :: rest = inner ++ .tag closed :: after ∧
        closed.directive = .ok (.closing keyword) ∧ Block.ofClosing? keyword = some block := by
    rintro s rest ⟨inner, keyword, rfl, hk⟩
    exact ⟨s :: inner, keyword, rfl, hk⟩
  fun_induction closing block line depth segments with
  | case1 => cases h
  | case2 depth chars rest ih => exact further _ _ (ih h)
  | case3 => cases h
  | case4 => cases h
  | case5 t rest keyword hd hk =>
    cases h
    exact ⟨[], keyword, rfl, hd, hk⟩
  | case6 => cases h
  | case7 depth tag rest keyword hd closed hc ih => exact further _ _ (ih h)
  | case8 depth tag rest directive hn hd ih => exact further _ _ (ih h)

variable {settings : Settings} {room : Nat} {nodes : List Node} {later : List Arm}

theorem Derives.of_block {opened closed : Tag} {block : Block} {argument keyword : String}
    {body rest : List Segment} {inner : List Node} {arms : List Arm} {node : Node}
    (ho : opened.directive = .ok (.opening block argument))
    (hc : closed.directive = .ok (.closing keyword))
    (hb : Derives settings room (body.map item) inner arms) (hn : Closes block argument inner arms node)
    (hk : Block.ofClosing? keyword = some block)
    (hr : Derives settings (room + 1) (rest.map item) nodes later) :
    Derives settings (room + 1) ((.tag opened :: (body ++ .tag closed :: rest)).map item)
      (node :: nodes) later := by
  rw [List.map_cons, List.map_append, List.map_cons, item_tag ho, item_tag hc]
  exact .block hb hn hk hr

/-- The search passes over whatever has a derivation. -/
theorem Derives.closing_append {segments : List Segment} (block : Block) (line depth : Nat)
    (rest : List Segment) (h : Derives settings room (segments.map item) nodes later) :
    closing block line depth (segments ++ rest) = closing block line depth rest := by
  generalize hi : segments.map item = items at h
  induction h generalizing segments depth rest with
  | nil => rw [List.map_eq_nil_iff.mp hi, List.nil_append]
  | leaf hl _ ih =>
    obtain ⟨s, more, rfl, rfl, hm⟩ := List.map_eq_cons_iff.mp hi
    rcases hl.passive with ⟨chars, rfl⟩ | ⟨t, directive, rfl, ht, hp⟩
    · rw [List.cons_append, closing, ih depth rest hm]
    · rw [List.cons_append, closing_cons ht hp.not_closing, hp.nest_eq, ih depth rest hm]
  | block _ _ hk _ ihb ih =>
    obtain ⟨opened, body, closed, more, rfl, ho, hbody, hclosed, hmore⟩ := map_item_eq_block hi
    rw [List.cons_append, closing_cons ho nofun, List.append_assoc, ihb _ _ hbody,
      List.cons_append]
    exact (closing_cons_closing hclosed hk).trans (ih depth rest hmore)
  | @marker _ directive _ _ _ _ _ hd _ _ _ ih =>
    obtain ⟨t, more, rfl, ht, hm⟩ := map_item_eq_tag_cons hi
    rw [List.cons_append, closing_cons ht (not_closing_of_branch hd), nest_of_branch hd,
      ih depth rest hm]

/-! ## Looking for the tags that start a branch -/

theorem markers_cons {depth : Nat} {t : Tag} {directive : Directive} {rest : List Segment}
    (h : t.directive = .ok directive) (hb : directive.branch? = none ∨ depth ≠ 0) :
    Branch.markers depth (.tag t :: rest) = Branch.markers (directive.nest depth) rest := by
  rw [Branch.markers, h]
  dsimp only
  split
  · rename_i hs
    rcases hb with hb | hb
    · rw [hb] at hs
      cases hs
    · exact absurd rfl hb
  · rfl

theorem markers_cons_found {t : Tag} {directive : Directive} {source : Option String}
    {rest : List Segment} (h : t.directive = .ok directive) (hb : directive.branch? = some source) :
    Branch.markers 0 (.tag t :: rest) = (Branch.markers 0 rest).map (⟨source, t⟩ :: ·) := by
  rw [Branch.markers, h]
  simp only [hb]

/-- The search passes over whatever has a derivation, unless arms follow that it has to find. -/
theorem Derives.markers_append {segments : List Segment} {depth : Nat} (rest : List Segment)
    (h : Derives settings room (segments.map item) nodes later) (hd : later = [] ∨ depth ≠ 0) :
    Branch.markers depth (segments ++ rest) = Branch.markers depth rest := by
  generalize hi : segments.map item = items at h
  induction h generalizing segments depth rest with
  | nil => rw [List.map_eq_nil_iff.mp hi, List.nil_append]
  | leaf hl _ ih =>
    obtain ⟨s, more, rfl, rfl, hm⟩ := List.map_eq_cons_iff.mp hi
    rcases hl.passive with ⟨chars, rfl⟩ | ⟨t, directive, rfl, ht, hp⟩
    · rw [List.cons_append, Branch.markers, ih rest hd hm]
    · rw [List.cons_append, markers_cons ht (.inl hp.branch_eq), hp.nest_eq, ih rest hd hm]
  | block _ _ hk _ ihb ih =>
    obtain ⟨opened, body, closed, more, rfl, ho, hbody, hclosed, hmore⟩ := map_item_eq_block hi
    rw [List.cons_append, markers_cons ho (.inl rfl), nest_opening, List.append_assoc,
      ihb _ (.inr (Nat.succ_ne_zero depth)) hbody, List.cons_append,
      markers_cons hclosed (.inl rfl)]
    exact ih rest hd hmore
  | marker hb _ _ _ ih =>
    obtain ⟨t, more, rfl, ht, hm⟩ := map_item_eq_tag_cons hi
    have hpos : depth ≠ 0 := hd.resolve_left (List.cons_ne_nil _ _)
    rw [List.cons_append, markers_cons ht (.inr hpos), nest_of_branch hb, ih rest (.inr hpos) hm]

theorem beyondElse?_cons_eq_none_iff {marker : Branch.Marker} {rest : List Branch.Marker} :
    Branch.beyondElse? (marker :: rest) = none ↔
      (marker.condition = none → rest = []) ∧ Branch.beyondElse? rest = none := by
  cases rest with
  | nil => simp [Branch.beyondElse?]
  | cons next rest =>
    simp only [Branch.beyondElse?]
    cases marker.condition <;> simp

/-- A part of a body: a tag that starts a branch, and the segments up to the next one. -/
abbrev Part := Branch.Marker × List Segment

def joined (parts : List Part) : List Segment :=
  parts.flatMap fun part => .tag part.1.tag :: part.2

theorem joined_cons (part : Part) (parts : List Part) :
    joined (part :: parts) = .tag part.1.tag :: (part.2 ++ joined parts) :=
  List.flatMap_cons

def Marks (marker : Branch.Marker) : Prop :=
  ∃ directive, marker.tag.directive = .ok directive ∧ directive.branch? = some marker.condition

/-- The segments before the first branch, and the parts. -/
structure Splits (segments first : List Segment) (parts : List Part) : Prop where
  eq_append : segments = first ++ joined parts
  marks : ∀ part ∈ parts, Marks part.1

theorem Splits.cons {segments first : List Segment} {parts : List Part}
    (h : Splits segments first parts) (s : Segment) : Splits (s :: segments) (s :: first) parts :=
  ⟨congrArg (s :: ·) h.eq_append, h.marks⟩

theorem Splits.cons_marker {segments first : List Segment} {parts : List Part}
    (h : Splits segments first parts) {t : Tag} {directive : Directive} {source : Option String}
    (ht : t.directive = .ok directive) (hb : directive.branch? = some source) :
    Splits (.tag t :: segments) [] ((⟨source, t⟩, first) :: parts) := by
  refine ⟨?_, ?_⟩
  · rw [joined_cons, List.nil_append, h.eq_append]
  · intro part hp
    rcases List.mem_cons.mp hp with rfl | hp
    · exact ⟨directive, ht, hb⟩
    · exact h.marks part hp

theorem splits_of_markers {depth : Nat} {segments : List Segment} {found : List Branch.Marker}
    (h : Branch.markers depth segments = .ok found) :
    ∃ first parts, Splits segments first parts ∧ parts.map (·.1) = found := by
  fun_induction Branch.markers depth segments generalizing found with
  | case1 =>
    cases h
    exact ⟨[], [], ⟨rfl, nofun⟩, rfl⟩
  | case2 =>
    rename_i ih
    obtain ⟨first, parts, hs, hf⟩ := ih h
    exact ⟨_, parts, hs.cons _, hf⟩
  | case3 => cases h
  | case4 rest t directive hd source hb =>
    rename_i ih
    obtain ⟨more, hm, rfl⟩ := Except.map_eq_ok_iff.mp h
    obtain ⟨first, parts, hs, rfl⟩ := ih hm
    exact ⟨[], _, hs.cons_marker hd hb, rfl⟩
  | case5 =>
    rename_i ih
    obtain ⟨first, parts, hs, hf⟩ := ih h
    exact ⟨_, parts, hs.cons _, hf⟩

/-- A part stands for an arm. -/
def StandsFor (settings : Settings) (room : Nat) (part : Part) (arm : Arm) : Prop :=
  condition? part.1.condition = some arm.1 ∧
    ∃ nodes, Derives settings room (part.2.map item) nodes [] ∧ arm.2 = withoutLastNewline nodes

theorem markers_joined {parts : List Part} (hm : ∀ part ∈ parts, Marks part.1)
    (h : List.Forall₂ (StandsFor settings room) parts later) :
    Branch.markers 0 (joined parts) = .ok (parts.map (·.1)) := by
  induction h with
  | nil => rfl
  | @cons part _ parts _ hp _ ih =>
    obtain ⟨directive, ht, hb⟩ := hm part List.mem_cons_self
    obtain ⟨_, _, hn, _⟩ := hp
    rw [joined_cons, markers_cons_found ht hb, hn.markers_append _ (.inl rfl),
      ih fun part hp => hm part (List.mem_cons_of_mem _ hp)]
    rfl

/-- A derivation is one for the segments before the first branch and one for each branch. -/
structure Parts (settings : Settings) (room : Nat) (segments : List Segment) (nodes : List Node)
    (later : List Arm) (first : List Segment) (parts : List Part) : Prop extends
    Splits segments first parts where
  derives : Derives settings room (first.map item) nodes []
  standsFor : List.Forall₂ (StandsFor settings room) parts later
  else_last : Branch.beyondElse? (parts.map (·.1)) = none

theorem Derives.parts {segments : List Segment}
    (h : Derives settings room (segments.map item) nodes later) :
    ∃ first parts, Parts settings room segments nodes later first parts := by
  generalize hi : segments.map item = items at h
  induction h generalizing segments with
  | nil =>
    obtain rfl := List.map_eq_nil_iff.mp hi
    exact ⟨[], [], ⟨⟨rfl, nofun⟩, .nil, .nil, rfl⟩⟩
  | leaf hl _ ih =>
    obtain ⟨s, more, rfl, rfl, hm⟩ := List.map_eq_cons_iff.mp hi
    obtain ⟨first, parts, hp⟩ := ih hm
    exact ⟨s :: first, parts, ⟨hp.cons s, .leaf hl hp.derives, hp.standsFor, hp.else_last⟩⟩
  | block hb hc hk _ _ ih =>
    obtain ⟨opened, body, closed, more, rfl, ho, rfl, hclosed, hmore⟩ := map_item_eq_block hi
    obtain ⟨first, parts, hp⟩ := ih hmore
    refine ⟨.tag opened :: (body ++ .tag closed :: first), parts, ⟨⟨?_, hp.marks⟩, ?_, hp.standsFor,
      hp.else_last⟩⟩
    · simp [hp.eq_append]
    · exact .of_block ho hclosed hb hc hk hp.derives
  | marker hb hcond helse _ ih =>
    obtain ⟨t, more, rfl, ht, hm⟩ := map_item_eq_tag_cons hi
    obtain ⟨first, parts, hp⟩ := ih hm
    refine ⟨[], _, ⟨hp.cons_marker ht hb, .nil, .cons ⟨hcond, _, hp.derives, rfl⟩ hp.standsFor,
      ?_⟩⟩
    refine beyondElse?_cons_eq_none_iff.mpr ⟨fun hn => ?_, hp.else_last⟩
    have := hp.standsFor
    rw [helse hn] at this
    cases this
    rfl

theorem derives_joined {parts : List Part} (hm : ∀ part ∈ parts, Marks part.1)
    (hs : List.Forall₂ (StandsFor settings room) parts later)
    (he : Branch.beyondElse? (parts.map (·.1)) = none) :
    Derives settings room ((joined parts).map item) [] later := by
  induction hs with
  | nil => exact .nil
  | @cons part arm parts _ hp hs ih =>
    obtain ⟨directive, ht, hb⟩ := hm part List.mem_cons_self
    obtain ⟨hcond, inner, hn, ha⟩ := hp
    obtain ⟨hlast, he⟩ := beyondElse?_cons_eq_none_iff.mp he
    have hrest := ih (fun part hp => hm part (List.mem_cons_of_mem _ hp)) he
    have hall := hn.append hrest
    rw [List.append_nil, ← List.map_append] at hall
    rw [joined_cons, List.map_cons, item_tag ht, show arm = (arm.1, withoutLastNewline inner) from
      Prod.ext rfl ha]
    refine .marker hb hcond (fun hnone => ?_) hall
    obtain rfl : parts = [] := by simpa using hlast hnone
    cases hs
    rfl

theorem Parts.derives_all {segments first : List Segment} {parts : List Part}
    (h : Parts settings room segments nodes later first parts) :
    Derives settings room (segments.map item) nodes later := by
  have hall := h.derives.append (derives_joined h.marks h.standsFor h.else_last)
  rwa [List.append_nil, ← List.map_append, ← h.eq_append] at hall

theorem Parts.markers_eq {segments first : List Segment} {parts : List Part}
    (h : Parts settings room segments nodes later first parts) :
    Branch.markers 0 segments = .ok (parts.map (·.1)) := by
  rw [h.eq_append, h.derives.markers_append _ (.inl rfl), markers_joined h.marks h.standsFor]

end Stencil.Grammar
