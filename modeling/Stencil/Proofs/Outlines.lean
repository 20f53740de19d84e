import Stencil.Proofs.Moved

/-! # Templates of the same outline

The outline of a template has its texts, its directives and the lines on which their tags start and end.
Templates of the same outline compile to the same tree or have the same error, each with its own
delimiters. -/
namespace Stencil
open Compilation Grammar Segment Text.Find

/-! ## Outlines -/

inductive Outline where
  | text (chars : List Char)
  | tag (directive : Except SyntaxFault Directive) (line endLine : Nat)

def Segment.outline : Segment → Outline
  | .text chars => .text chars
  | .tag t => .tag (Directive.classify t.body) t.line t.endLine

/-- Tags of one directive, on the same lines. -/
def Tag.Twins (t u : Tag) : Prop :=
  (Segment.tag t).outline = (Segment.tag u).outline

namespace Tag.Twins

variable {t u : Tag}

theorem directive_eq (h : t.Twins u) : t.directive = u.directive := by
  obtain ⟨hd, hl, -⟩ := Outline.tag.inj h
  unfold Tag.directive
  rw [hd, hl]

theorem line_eq (h : t.Twins u) : t.line = u.line :=
  (Outline.tag.inj h).2.1

theorem endLine_eq (h : t.Twins u) : t.endLine = u.endLine :=
  (Outline.tag.inj h).2.2

end Tag.Twins

abbrev SameOutline (segments others : List Segment) : Prop :=
  segments.map outline = others.map outline

namespace SameOutline

variable {segments others rest : List Segment}

theorem of_text {chars : List Char} (h : SameOutline (.text chars :: rest) others) :
    ∃ more, others = .text chars :: more ∧ SameOutline rest more := by
  obtain ⟨s, more, rfl, hs, hm⟩ := List.map_eq_cons_iff.mp h.symm
  cases s with
  | text chars =>
    cases hs
    exact ⟨more, rfl, hm.symm⟩
  | tag t => cases hs

theorem of_tag {t : Tag} (h : SameOutline (.tag t :: rest) others) :
    ∃ u more, others = .tag u :: more ∧ t.Twins u ∧ SameOutline rest more := by
  obtain ⟨s, more, rfl, hs, hm⟩ := List.map_eq_cons_iff.mp h.symm
  cases s with
  | text chars => cases hs
  | tag u => exact ⟨u, more, rfl, hs.symm, hm.symm⟩

theorem cons {s s' : Segment} (hs : s.outline = s'.outline) (h : SameOutline segments others) :
    SameOutline (s :: segments) (s' :: others) :=
  List.cons_eq_cons.mpr ⟨hs, h⟩

theorem append {more more' : List Segment} (h : SameOutline segments others)
    (hm : SameOutline more more') : SameOutline (segments ++ more) (others ++ more') := by
  unfold SameOutline
  rw [List.map_append, List.map_append, h, hm]

end SameOutline

theorem outline_moved (chars : Nat) (s : Segment) : (s.moved 0 chars).outline = s.outline := by
  cases s <;> rfl

/-- A scan from another position finds the same outline. -/
theorem Segment.Cut.at_start {d : Delimiters} {line offset : Nat} {source : List Char}
    {segments : List Segment} (h : Cut d line offset source segments) :
    ∃ there, Cut d line 0 source there ∧ SameOutline segments there := by
  obtain ⟨there, hthere, rfl⟩ := h.from_start
  refine ⟨there, hthere, ?_⟩
  unfold SameOutline
  rw [List.map_map]
  exact List.map_congr_left fun s _ => outline_moved offset s

/-! ## Texts of one outline -/

/-- The texts have the same outline if they start on this line, each with its own delimiters. -/
def Alike (d e : Delimiters) (line : Nat) (s t : List Char) : Prop :=
  ∃ offset offset' segments others, Cut d line offset s segments ∧ Cut e line offset' t others ∧
    SameOutline segments others

namespace Alike

variable {d e : Delimiters} {line : Nat} {s t : List Char}

theorem symm (h : Alike d e line s t) : Alike e d line t s := by
  obtain ⟨offset, offset', segments, others, hs, ht, ho⟩ := h
  exact ⟨offset', offset, others, segments, ht, hs, ho.symm⟩

theorem at_start (h : Alike d e line s t) :
    ∃ segments others, Cut d line 0 s segments ∧ Cut e line 0 t others ∧ SameOutline segments others := by
  obtain ⟨offset, offset', segments, others, hs, ht, ho⟩ := h
  obtain ⟨segments', hs', hos⟩ := hs.at_start
  obtain ⟨others', ht', hot⟩ := ht.at_start
  exact ⟨segments', others', hs', ht', hos.symm.trans (ho.trans hot)⟩

theorem of_newline (hd : OneLine d) (he : OneLine e) (h : Alike d e line ('\n' :: s) t) :
    ∃ t', t = '\n' :: t' ∧ Alike d e (line + 1) s t' := by
  obtain ⟨offset, offset', segments, others, hs, ht, ho⟩ := h
  obtain ⟨chars, more, rfl, hs'⟩ := hs.of_cons_newline (hd.not_newlineOpens _)
  obtain ⟨more', rfl, hm⟩ := ho.of_text
  obtain ⟨t', rfl⟩ : ∃ t', t = '\n' :: t' := ⟨_, ht.flatMap_written.symm⟩
  obtain ⟨chars', more'', heq, ht'⟩ := ht.of_cons_newline (he.not_newlineOpens _)
  obtain ⟨hchars, rfl⟩ := List.cons.inj heq
  cases hchars
  exact ⟨t', rfl, _, _, _, _, hs', ht', .append rfl hm⟩

theorem of_last_newline (hd : OneLine d) (he : OneLine e) (h : Alike d e line (s ++ ['\n']) t) :
    ∃ t', t = t' ++ ['\n'] ∧ Alike d e line s t' := by
  obtain ⟨offset, offset', segments, others, hs, ht, ho⟩ := h
  obtain ⟨init, chars, rfl, hs'⟩ := hs.of_append_newline (hd.not_newlineCloses _)
  obtain ⟨init', last, rfl, hinit, hlast⟩ := List.map_eq_append_iff.mp
    (ho.symm.trans (List.map_append ..))
  obtain ⟨_, rfl, hnil⟩ := SameOutline.of_text (Eq.symm hlast)
  obtain rfl := List.map_eq_nil_iff.mp hnil.symm
  have hwritten := ht.flatMap_written
  rw [List.flatMap_append, List.flatMap_singleton, written, ← List.append_assoc] at hwritten
  subst hwritten
  obtain ⟨init'', chars', heq, ht'⟩ := ht.of_append_newline (he.not_newlineCloses _)
  obtain ⟨rfl, hchars⟩ := List.append_inj' heq rfl
  obtain rfl : chars = chars' := by simpa using hchars
  exact ⟨_, rfl, _, _, _, _, hs', ht', .append hinit.symm rfl⟩

end Alike

/-! ## Searches -/

/-- Where a search has found a tag, the segments before it and behind it look alike. -/
structure Found (segments others : List Segment) (found found' : Tag × List Segment)
    (inside inside' : List Segment) : Prop where
  eq_append : segments = inside ++ .tag found.1 :: found.2
  eq_append' : others = inside' ++ .tag found'.1 :: found'.2
  twins : found.1.Twins found'.1
  inside : SameOutline inside inside'
  after : SameOutline found.2 found'.2

theorem Found.cons {segments others inside inside' : List Segment} {found found' : Tag × List Segment}
    (h : Found segments others found found' inside inside') {s s' : Segment}
    (hs : s.outline = s'.outline) :
    Found (s :: segments) (s' :: others) found found' (s :: inside) (s' :: inside') :=
  ⟨congrArg (s :: ·) h.eq_append, congrArg (s' :: ·) h.eq_append', h.twins, .cons hs h.inside, h.after⟩

theorem closing_agree {segments others : List Segment} (block : Block) (line depth : Nat)
    (h : SameOutline segments others) :
    Except.Agree (fun found found' => ∃ inside inside', Found segments others found found' inside inside')
      (closing block line depth segments) (closing block line depth others) := by
  induction segments generalizing others depth with
  | nil =>
    obtain rfl := List.map_eq_nil_iff.mp h.symm
    exact .error
  | cons s rest ih =>
    have further : ∀ {s' more} depth, s.outline = s'.outline → SameOutline rest more →
        Except.Agree (fun found found' => ∃ inside inside',
            Found (s :: rest) (s' :: more) found found' inside inside')
          (closing block line depth rest) (closing block line depth more) := by
      intro s' more depth hs hm
      refine (ih depth hm).imp fun _ _ hf => ?_
      obtain ⟨inside, inside', hf⟩ := hf
      exact ⟨_, _, hf.cons hs⟩
    cases s with
    | text chars =>
      obtain ⟨more, rfl, hm⟩ := h.of_text
      exact further depth rfl hm
    | tag t =>
      obtain ⟨u, more, rfl, ht, hm⟩ := h.of_tag
      rw [closing, closing, ← ht.directive_eq, ← ht.line_eq]
      cases t.directive with
      | error e => exact .error
      | ok directive =>
        cases directive with
        | closing keyword =>
          dsimp only
          cases Block.ofClosing? keyword with
          | none => exact .error
          | some closed =>
            cases depth with
            | zero =>
              dsimp only
              split
              · exact .ok ⟨[], [], rfl, rfl, ht, rfl, hm⟩
              · exact .error
            | succ depth => exact further depth ht hm
        | _ => exact further _ ht hm

namespace Branch

/-- Tags that start branches with the same condition. -/
structure Marker.Twins (marker marker' : Marker) : Prop where
  condition_eq : marker.condition = marker'.condition
  tag : marker.tag.Twins marker'.tag

/-- Parts of bodies, which look alike. -/
structure PartTwins (part part' : Part) : Prop where
  marker : part.1.Twins part'.1
  segments : SameOutline part.2 part'.2

/-- The parts of two bodies, one by one, and what stands before the first of them. -/
structure PartsTwins (segments others first first' : List Segment) (parts parts' : List Part) : Prop where
  splits : Splits segments first parts
  splits' : Splits others first' parts'
  first : SameOutline first first'
  parts : List.Forall₂ PartTwins parts parts'

theorem PartsTwins.cons {segments others first first' : List Segment} {parts parts' : List Part}
    (h : PartsTwins segments others first first' parts parts') {s s' : Segment}
    (hs : s.outline = s'.outline) :
    PartsTwins (s :: segments) (s' :: others) (s :: first) (s' :: first') parts parts' :=
  ⟨h.splits.cons s, h.splits'.cons s', .cons hs h.first, h.parts⟩

theorem markers_agree {segments others : List Segment} (depth : Nat) (h : SameOutline segments others) :
    Except.Agree (fun found found' => ∃ first first' parts parts',
        PartsTwins segments others first first' parts parts' ∧ parts.map (·.1) = found ∧
          parts'.map (·.1) = found')
      (markers depth segments) (markers depth others) := by
  induction segments generalizing others depth with
  | nil =>
    obtain rfl := List.map_eq_nil_iff.mp h.symm
    exact .ok ⟨[], [], [], [], ⟨⟨rfl, nofun⟩, ⟨rfl, nofun⟩, rfl, .nil⟩, rfl, rfl⟩
  | cons s rest ih =>
    have further : ∀ {s' more} depth, s.outline = s'.outline → SameOutline rest more →
        Except.Agree (fun found found' => ∃ first first' parts parts',
            PartsTwins (s :: rest) (s' :: more) first first' parts parts' ∧
              parts.map (·.1) = found ∧ parts'.map (·.1) = found')
          (markers depth rest) (markers depth more) := by
      intro s' more depth hs hm
      refine (ih depth hm).imp fun _ _ hf => ?_
      obtain ⟨first, first', parts, parts', hp, hfound⟩ := hf
      exact ⟨_, _, _, _, hp.cons hs, hfound⟩
    cases s with
    | text chars =>
      obtain ⟨more, rfl, hm⟩ := h.of_text
      exact further depth rfl hm
    | tag t =>
      obtain ⟨u, more, rfl, ht, hm⟩ := h.of_tag
      cases hd : t.directive with
      | error e =>
        rw [markers, markers, ← ht.directive_eq, hd]
        exact .error
      | ok directive =>
        have hu : u.directive = .ok directive := ht.directive_eq.symm.trans hd
        by_cases hb : directive.branch? = none ∨ depth ≠ 0
        · rw [markers_cons hd hb, markers_cons hu hb]
          exact further _ ht hm
        · obtain ⟨hsome, rfl⟩ := not_or.mp hb |>.imp_right not_not.mp
          obtain ⟨source, hs⟩ := Option.ne_none_iff_exists'.mp hsome
          rw [markers_cons_found hd hs, markers_cons_found hu hs]
          refine (ih 0 hm).map fun _ _ hf => ?_
          obtain ⟨first, first', parts, parts', hp, rfl, rfl⟩ := hf
          exact ⟨[], [], _, _, ⟨hp.splits.cons_marker hd hs, hp.splits'.cons_marker hu hs, rfl,
            .cons ⟨⟨rfl, ht⟩, hp.first⟩ hp.parts⟩, rfl, rfl⟩

theorem beyondElse?_twins {found found' : List Marker} (h : List.Forall₂ Marker.Twins found found') :
    Option.Rel Marker.Twins (beyondElse? found) (beyondElse? found') := by
  induction h with
  | nil => exact .none
  | cons hm hrest ih =>
    cases hrest with
    | nil => exact .none
    | cons hnext =>
      rw [beyondElse?, beyondElse?, ← hm.condition_eq]
      split
      · exact .some hnext
      · exact ih

/-! ## Branches -/

/-- Branches that look alike, each with its own delimiters. -/
structure Twins (d e : Delimiters) (branch branch' : Branch) : Prop where
  condition_eq : branch.condition = branch'.condition
  line_eq : branch.line = branch'.line
  body : Alike d e branch.line branch.body branch'.body

variable {d e : Delimiters} {line : Nat} {s t : List Char}

theorem first_twins (hd : OneLine d) (he : OneLine e) (condition : String) (h : Alike d e line s t) :
    Twins d e (first condition s line) (first condition t line) := by
  by_cases hs : s.head? = some '\n'
  · obtain ⟨s', rfl⟩ := List.head?_eq_some_iff.mp hs
    obtain ⟨t', rfl, h'⟩ := h.of_newline hd he
    exact ⟨rfl, rfl, h'⟩
  · have ht : t.head? ≠ some '\n' := by
      intro ht
      obtain ⟨t', rfl⟩ := List.head?_eq_some_iff.mp ht
      obtain ⟨s', rfl, -⟩ := h.symm.of_newline he hd
      exact hs rfl
    rw [first_of_head?_ne hs, first_of_head?_ne ht]
    exact ⟨rfl, rfl, h⟩

theorem withoutLastNewline_alike (hd : OneLine d) (he : OneLine e) (h : Alike d e line s t) :
    Alike d e line (withoutLastNewline s) (withoutLastNewline t) := by
  by_cases hs : s.getLast? = some '\n'
  · obtain ⟨s', rfl⟩ := List.getLast?_eq_some_iff.mp hs
    obtain ⟨t', rfl, h'⟩ := h.of_last_newline hd he
    rw [withoutLastNewline_concat, withoutLastNewline_concat]
    exact h'
  · have ht : t.getLast? ≠ some '\n' := by
      intro ht
      obtain ⟨t', rfl⟩ := List.getLast?_eq_some_iff.mp ht
      obtain ⟨s', rfl, -⟩ := h.symm.of_last_newline he hd
      exact hs List.getLast?_concat
    rw [withoutLastNewline_of_getLast?_ne hs, withoutLastNewline_of_getLast?_ne ht]
    exact h

theorem later_twins (hd : OneLine d) (he : OneLine e) {before before' : List Segment}
    {parts parts' : List Part} (hs : Cut d line 0 s (before ++ joined parts))
    (ht : Cut e line 0 t (before' ++ joined parts')) (hp : List.Forall₂ PartTwins parts parts') :
    List.Forall₂ (Twins d e) (later s (parts.map (·.1))) (later t (parts'.map (·.1))) := by
  induction hp generalizing before before' with
  | nil => exact .nil
  | @cons part part' parts parts' hpart _ ih =>
    have hs' := cut_of_joined hs
    have ht' := cut_of_joined ht
    rw [← hpart.marker.tag.endLine_eq] at ht'
    rw [append_joined_cons] at hs ht
    rw [List.map_cons, later, List.map_cons, later]
    refine .cons ⟨hpart.marker.condition_eq, hpart.marker.tag.endLine_eq, ?_⟩ (ih hs ht)
    exact withoutLastNewline_alike hd he ⟨_, _, _, _, hs', ht', hpart.segments⟩

theorem split_agree (hd : OneLine d) (he : OneLine e) (condition : String) (h : Alike d e line s t) :
    Except.Agree (List.Forall₂ (Twins d e)) (split d condition s line) (split e condition t line) := by
  obtain ⟨segments, others, hs, ht, ho⟩ := h.at_start
  unfold split
  rw [scan_of_cut hs, scan_of_cut ht]
  refine (markers_agree 0 ho).bind fun found found' hf => ?_
  obtain ⟨first, first', parts, parts', hp, rfl, rfl⟩ := hf
  have hs' := hs
  have ht' := ht
  rw [hp.splits.eq_append] at hs'
  rw [hp.splits'.eq_append] at ht'
  have hmarkers : List.Forall₂ Marker.Twins (parts.map (·.1)) (parts'.map (·.1)) := by
    rw [List.forall₂_map_left_iff, List.forall₂_map_right_iff]
    exact hp.parts.imp fun _ _ hpart => hpart.marker
  have hbeyond := beyondElse?_twins hmarkers
  have hlater := later_twins hd he hs' ht' hp.parts
  revert hbeyond
  generalize beyondElse? (parts.map (·.1)) = beyond
  generalize beyondElse? (parts'.map (·.1)) = beyond'
  intro hbeyond
  cases hbeyond with
  | some hm =>
    dsimp only
    rw [hm.tag.line_eq]
    exact .error
  | none =>
    cases hparts : hp.parts with
    | nil => exact .ok (.cons ⟨rfl, rfl, h⟩ .nil)
    | cons hpart hrest =>
      rw [joined_cons] at hs' ht'
      have hfirst : Alike d e line _ _ := ⟨_, _, _, _, hs'.before, ht'.before, hp.first⟩
      exact .ok (.cons (first_twins hd he condition hfirst) hlater)

end Branch

/-! ## Texts -/

/-- Compilers that make the same of texts that look alike. -/
def Agreeing (d e : Delimiters) (f g : Fragment) : Prop :=
  ∀ s t line, Alike d e line s t → f s line = g t line

section
variable {d e : Delimiters} {f g : Fragment}

theorem Agreeing.arm_eq (h : Agreeing d e f g) {branch branch' : Branch}
    (hb : branch.Twins d e branch') : arm f branch = arm g branch' := by
  unfold arm Branch.parsed
  rw [← hb.condition_eq, ← hb.line_eq, h _ _ _ hb.body]

theorem Agreeing.blockNode_eq (h : Agreeing d e f g) (hd : OneLine d) (he : OneLine e) (block : Block)
    (argument : String) {t u : Tag} (ht : t.Twins u) {body body' : List Char}
    (hb : Alike d e t.endLine body body') :
    blockNode d f block argument t body = blockNode e g block argument u body' := by
  cases block with
  | conditional =>
    unfold blockNode
    rw [← ht.endLine_eq]
    refine (Branch.split_agree hd he argument hb).bind_eq fun branches branches' hbranches => ?_
    have harms : branches.mapM (arm f) = branches'.mapM (arm g) :=
      Except.mapM_eq_of_forall₂ (hbranches.imp fun _ _ hbranch => h.arm_eq hbranch)
    rw [harms]
  | loop =>
    unfold blockNode
    rw [← ht.line_eq, ← ht.endLine_eq, h _ _ _ hb]

end

variable {settings : Settings} {e : Delimiters}

/-- Segments that look alike, each at the end of their own text. -/
theorem assemble_eq_of_outline (hd : OneLine settings.delimiters) (he : OneLine e)
    {inner inner' : Option Fragment} (hi : Option.Rel (Agreeing settings.delimiters e) inner inner')
    {s t : List Char} {line : Nat} {segments others : List Segment} (before before' : List Segment)
    (hs : Cut settings.delimiters line 0 s (before ++ segments))
    (ht : Cut e line 0 t (before' ++ others)) (ho : SameOutline segments others) :
    assemble settings s inner segments =
      assemble { settings with delimiters := e } t inner' others := by
  induction hn : segments.length using Nat.strong_induction_on
    generalizing segments others before before' with
  | h n ih =>
    subst hn
    cases segments with
    | nil =>
      obtain rfl := List.map_eq_nil_iff.mp ho.symm
      rw [assemble, assemble]
    | cons x rest =>
      -- the segments behind the first one, when that is a node by itself
      have alone : ∀ {y more}, SameOutline rest more → others = y :: more →
          assemble settings s inner rest =
            assemble { settings with delimiters := e } t inner' more := by
        rintro y more hm rfl
        exact ih _ (Nat.lt_succ_self _) (before ++ [x]) (before' ++ [y]) (by simpa using hs)
          (by simpa using ht) hm rfl
      cases x with
      | text chars =>
        obtain ⟨more, rfl, hm⟩ := ho.of_text
        rw [assemble, assemble, alone hm rfl]
      | tag opened =>
        obtain ⟨opened', more, rfl, htwins, hm⟩ := ho.of_tag
        cases hdir : opened.directive with
        | error fault =>
          have hdir' := htwins.directive_eq.symm.trans hdir
          rw [assemble, assemble, hdir, hdir']
        | ok directive =>
          have hdir' := htwins.directive_eq.symm.trans hdir
          cases directive with
          | «variable» path escape =>
            rw [assemble, assemble, hdir, hdir']
            dsimp only
            rw [alone hm rfl]
          | call name arguments =>
            rw [assemble, assemble, hdir, hdir']
            dsimp only
            rw [alone hm rfl, htwins.line_eq]
          | opening block argument =>
            rw [assemble_opening hdir, assemble_opening hdir', ← htwins.line_eq]
            have hclosing := closing_agree block opened.line 0 hm
            generalize closing block opened.line 0 rest = result at hclosing ⊢
            generalize closing block opened.line 0 more = result' at hclosing ⊢
            cases hclosing with
            | error => rfl
            | @ok found found' hfound =>
              obtain ⟨inside, inside', hf⟩ := hfound
              obtain ⟨closed, after⟩ := found
              obtain ⟨closed', after'⟩ := found'
              obtain rfl := hf.eq_append
              obtain rfl := hf.eq_append'
              have hbody := hs.between
              have hbody' := ht.between
              rw [← htwins.endLine_eq] at hbody'
              have hrest := ih after.length (by simp; omega)
                (before ++ .tag opened :: (inside ++ [.tag closed]))
                (before' ++ .tag opened' :: (inside' ++ [.tag closed'])) (by simpa using hs)
                (by simpa using ht) hf.after rfl
              cases hi with
              | none => rfl
              | some hfg =>
                dsimp only
                rw [hfg.blockNode_eq hd he block argument htwins
                  ⟨_, _, _, _, hbody, hbody', hf.inside⟩, hrest]
          | elseIf | otherwise | closing =>
            rw [assemble, assemble, hdir, hdir', htwins.line_eq]

theorem fragment_agreeing (hd : OneLine settings.delimiters) (he : OneLine e) (room : Nat) :
    Agreeing settings.delimiters e (fragment settings room)
      (fragment { settings with delimiters := e } room) := by
  have step : ∀ {inner inner'}, Option.Rel (Agreeing settings.delimiters e) inner inner' →
      Agreeing settings.delimiters e
        (fun s line => scan settings.delimiters line 0 s >>= assemble settings s inner)
        (fun t line => scan e line 0 t >>= assemble { settings with delimiters := e } t inner') := by
    intro inner inner' hi s t line h
    obtain ⟨segments, others, hs, ht, ho⟩ := h.at_start
    dsimp only
    rw [scan_of_cut hs, scan_of_cut ht]
    exact assemble_eq_of_outline hd he hi [] [] hs ht ho
  induction room with
  | zero => exact step .none
  | succ room ih => exact step (.some ih)

end Stencil
