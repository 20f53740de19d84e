import Stencil.Proofs.Origins
import Stencil.Proofs.Outlines
import Stencil.Proofs.Trim

/-! # Templates typeset with delimiters

A template can be typeset with any delimiters that have no character in common with its texts and its
directives, and blanks can be put between a delimiter and a directive. Neither shows in the outline, so
neither changes what the template compiles to. -/
namespace Stencil
open Compilation Grammar Segment Text.Find Text.Blank

/-- A directive, and the text behind it up to the next one. -/
structure Piece where
  body : List Char
  text : List Char

/-- Blanks on one line. -/
def Spacing (s : List Char) : Prop :=
  ∀ c ∈ s, isBlank c = true ∧ c ≠ '\n'

instance (s : List Char) : Decidable (Spacing s) :=
  List.decidableBAll _ s

/-- Blanks between the delimiters and the directive. -/
structure Padding where
  before : List Char := []
  after : List Char := []
  before_spacing : Spacing before := by decide
  after_spacing : Spacing after := by decide

def Padding.around (padding : Padding) (body : List Char) : List Char :=
  padding.before ++ body ++ padding.after

/-- The template that starts with a text and goes on with pieces, each of them padded. -/
def typeset (d : Delimiters) (first : List Char) : List (Piece × Padding) → List Char
  | [] => first
  | (piece, padding) :: rest =>
    first ++ wrapped d (padding.around piece.body) ++ typeset d piece.text rest

/-- No character of the text is in a delimiter. -/
def Foreign (d : Delimiters) (s : List Char) : Prop :=
  ∀ c ∈ s, c ∉ d.left ∧ c ∉ d.right

/-- A piece and a padding in which no delimiter can be seen. -/
structure Fits (d : Delimiters) (piece : Piece) (padding : Padding) : Prop where
  body : Foreign d (padding.around piece.body)
  text : Foreign d piece.text

instance (d : Delimiters) (s : List Char) : Decidable (Foreign d s) :=
  List.decidableBAll _ s

instance (d : Delimiters) (piece : Piece) (padding : Padding) : Decidable (Fits d piece padding) :=
  decidable_of_iff (Foreign d (padding.around piece.body) ∧ Foreign d piece.text)
    ⟨fun ⟨hb, ht⟩ => ⟨hb, ht⟩, fun h => ⟨h.body, h.text⟩⟩

/-- The outline of a typeset template. -/
def outlines (line : Nat) (first : List Char) : List Piece → List Outline
  | [] => (ofText first).map outline
  | piece :: rest =>
    let start := line + newlines first
    let stop := start + newlines piece.body
    (ofText first).map outline ++ .tag (Directive.classify piece.body) start stop ::
      outlines stop piece.text rest

theorem not_infix_of_not_mem {pattern s : List Char} (hp : pattern ≠ []) (hs : ∀ c ∈ s, c ∉ pattern) :
    ¬ pattern <:+: s := by
  obtain ⟨c, rest, rfl⟩ := List.exists_cons_of_ne_nil hp
  intro h
  exact hs c (h.subset List.mem_cons_self) List.mem_cons_self

theorem clear_of_forall_not_mem {pattern s : List Char} (hp : pattern ≠ []) (hs : ∀ c ∈ s, c ∉ pattern)
    (after : List Char) : Clear pattern (s ++ after) s.length := by
  obtain ⟨c, rest, rfl⟩ := List.exists_cons_of_ne_nil hp
  exact clear_of_not_mem (fun hc => hs c hc List.mem_cons_self) after

theorem Foreign.not_infix {d : Delimiters} {s : List Char} (h : Foreign d s) :
    ¬ d.left <:+: s ∧ ¬ d.right <:+: s :=
  ⟨not_infix_of_not_mem d.left_ne_nil fun c hc => (h c hc).1,
    not_infix_of_not_mem d.right_ne_nil fun c hc => (h c hc).2⟩

theorem Foreign.opens {d : Delimiters} {plain body : List Char} (hp : Foreign d plain)
    (hb : Foreign d body) (rest : List Char) : Opens d (plain ++ wrapped d body ++ rest) plain body rest := by
  refine ⟨rfl, ?_, ?_, ?_, hb.not_infix.1⟩
  · rw [List.append_assoc]
    exact clear_of_forall_not_mem d.left_ne_nil (fun c hc => (hp c hc).1) _
  · rw [List.append_assoc]
    exact clear_of_forall_not_mem d.right_ne_nil (fun c hc => (hp c hc).2) _
  · rw [List.append_assoc]
    exact clear_of_forall_not_mem d.right_ne_nil (fun c hc => (hb c hc).2) _

theorem Spacing.newlines_eq_zero {s : List Char} (h : Spacing s) : newlines s = 0 :=
  Text.Find.newlines_eq_zero fun hc => (h _ hc).2 rfl

theorem newlines_wrapped_around {d : Delimiters} (hd : OneLine d) (padding : Padding)
    (body : List Char) : newlines (wrapped d (padding.around body)) = newlines body := by
  simp only [wrapped, Padding.around, newlines_append, padding.before_spacing.newlines_eq_zero,
    padding.after_spacing.newlines_eq_zero, newlines_eq_zero hd.left, newlines_eq_zero hd.right]
  omega

theorem classify_around (padding : Padding) (body : List Char) :
    Directive.classify (padding.around body) = Directive.classify body := by
  have htrim : trim (padding.around body) = trim body :=
    trim_append_append (fun c hc => (padding.before_spacing c hc).1)
      (fun c hc => (padding.after_spacing c hc).1) _
  unfold Directive.classify
  rw [htrim]

theorem outline_tagAfter {d : Delimiters} (hd : OneLine d) (line offset : Nat)
    (first body : List Char) (padding : Padding) :
    (Segment.tag (tagAfter d line offset first (padding.around body))).outline =
      .tag (Directive.classify body) (line + newlines first)
        (line + newlines first + newlines body) := by
  have hstop : newlines (d.left ++ padding.around body ++ d.right) = newlines body :=
    newlines_wrapped_around hd padding body
  simp only [outline, tagAfter]
  rw [hstop, classify_around]

theorem cut_typeset {d : Delimiters} (hd : OneLine d) {first : List Char}
    {pieces : List (Piece × Padding)} (hf : Foreign d first) (hp : ∀ p ∈ pieces, Fits d p.1 p.2)
    (line offset : Nat) :
    ∃ segments, Cut d line offset (typeset d first pieces) segments ∧
      segments.map outline = outlines line first (pieces.map (·.1)) := by
  induction pieces generalizing first line offset with
  | nil =>
    exact ⟨_, .plain hf.not_infix.1 hf.not_infix.2, rfl⟩
  | cons p rest ih =>
    obtain ⟨piece, padding⟩ := p
    obtain ⟨hfirst, hrest⟩ := List.forall_mem_cons.mp hp
    have hfits : Fits d piece padding := hfirst
    have hopens := hf.opens hfits.body (typeset d piece.text rest)
    obtain ⟨segments, hcut, houtline⟩ := ih hfits.text hrest
      (tagAfter d line offset first (padding.around piece.body)).endLine
      (tagAfter d line offset first (padding.around piece.body)).stop
    refine ⟨_, .tag hopens hcut, ?_⟩
    have htag := outline_tagAfter hd line offset first piece.body padding
    have hend := (Outline.tag.inj htag).2.2
    rw [List.map_append, List.map_cons, houtline, hend]
    exact congrArg (_ ++ · :: _) htag

/-- A template compiles to the same tree, or has the same error, whichever delimiters it is typeset with
and however its directives are padded. -/
theorem compile_typeset (settings : Settings) {e : Delimiters} (hd : OneLine settings.delimiters)
    (he : OneLine e) {first : List Char} (hf : Foreign settings.delimiters first)
    (hf' : Foreign e first) {pieces : List (Piece × Padding × Padding)}
    (hp : ∀ p ∈ pieces, Fits settings.delimiters p.1 p.2.1 ∧ Fits e p.1 p.2.2) :
    compile settings (String.ofList
        (typeset settings.delimiters first (pieces.map fun p => (p.1, p.2.1)))) =
      compile { settings with delimiters := e } (String.ofList
        (typeset e first (pieces.map fun p => (p.1, p.2.2)))) := by
  obtain ⟨segments, hs, ho⟩ := cut_typeset hd hf
    (List.forall_mem_map.mpr fun p h => (hp p h).1 : ∀ p ∈ pieces.map fun p => (p.1, p.2.1), _) 1 0
  obtain ⟨others, ht, ho'⟩ := cut_typeset he hf'
    (List.forall_mem_map.mpr fun p h => (hp p h).2 : ∀ p ∈ pieces.map fun p => (p.1, p.2.2), _) 1 0
  have hsame : SameOutline segments others := by
    unfold SameOutline
    rw [ho, ho', List.map_map, List.map_map]
    rfl
  unfold compile
  rw [String.toList_ofList, String.toList_ofList]
  exact fragment_agreeing hd he _ _ _ _ ⟨_, _, _, _, hs, ht, hsame⟩

/-- One of the delimiters starts with the other here, and equal ones stand in the second template. -/
theorem compile_typeset_percent :
    let percent : Settings := { delimiters := { left := ['%'], right := ['%', '%'] } }
    let bars : Delimiters := { left := ['|', '|'], right := ['|', '|'] }
    let pieces : List (Piece × Padding × Padding) :=
      [(⟨"if x".toList, "\nb".toList⟩, { before := [' '] }, {}),
        (⟨"else".toList, "c\n".toList⟩, {}, { before := [' '], after := ['\t', ' '] }),
        (⟨"/if".toList, "".toList⟩, { after := [' '] }, {})]
    OneLine percent.delimiters ∧ OneLine bars ∧ Foreign percent.delimiters "a\n".toList ∧
      Foreign bars "a\n".toList ∧
      (∀ p ∈ pieces, Fits percent.delimiters p.1 p.2.1 ∧ Fits bars p.1 p.2.2) ∧
      compile percent "a\n% if x%%\nb%else%%c\n%/if %%" =
        compile { percent with delimiters := bars } "a\n||if x||\nb|| else\t ||c\n||/if||" := by
  intro percent bars pieces
  have hd : OneLine percent.delimiters := ⟨by decide, by decide⟩
  have he : OneLine bars := ⟨by decide, by decide⟩
  have hf : Foreign percent.delimiters "a\n".toList := by decide
  have hf' : Foreign bars "a\n".toList := by decide
  have hp : ∀ p ∈ pieces, Fits percent.delimiters p.1 p.2.1 ∧ Fits bars p.1 p.2.2 := by decide
  have hs : String.ofList (typeset percent.delimiters "a\n".toList
      (pieces.map fun p => (p.1, p.2.1))) = "a\n% if x%%\nb%else%%c\n%/if %%" := by decide
  have ht : String.ofList (typeset bars "a\n".toList (pieces.map fun p => (p.1, p.2.2))) =
      "a\n||if x||\nb|| else\t ||c\n||/if||" := by decide
  refine ⟨hd, he, hf, hf', hp, ?_⟩
  rw [← hs, ← ht]
  exact compile_typeset percent hd he hf hf' hp

end Stencil
