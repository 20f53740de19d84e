import Mathlib.Data.List.Chain
import Stencil.Proofs.Mistakes
import Stencil.Proofs.Typeset

/-! # A scan loses nothing

The segments of a text are a partition of it: what they look like, one behind the other, is the text, and
each tag tells its place there. A sequence of texts and directives in which no delimiter can be seen is
found again. A scan that fails has found a right delimiter that closes nothing, or a left one that is not
closed, and tells of the line where that delimiter starts. -/
namespace Stencil.Segment
open Text.Find

/-! ## What stands in a text -/

/-- What a segment holds, without its place. -/
inductive Content where
  | text (chars : List Char)
  | directive (body : List Char)
deriving DecidableEq

namespace Content

def chars : Content → List Char
  | .text chars => chars
  | .directive body => body

def written (d : Delimiters) : Content → List Char
  | .text chars => chars
  | .directive body => wrapped d body

/-- Two texts are not kept apart by anything. -/
def Apart : Content → Content → Prop
  | .text _, .text _ => False
  | _, _ => True

instance (a b : Content) : Decidable (Apart a b) := by
  unfold Apart
  split <;> infer_instance

end Content

def content : Segment → Content
  | .text chars => .text chars
  | .tag t => .directive t.body

theorem written_content (d : Delimiters) (s : Segment) : (content s).written d = written d s := by
  cases s <;> rfl

/-- Texts that are not empty and not adjacent. -/
structure Spaced (contents : List Content) : Prop where
  text_ne_nil : ∀ chars, .text chars ∈ contents → chars ≠ []
  apart : contents.IsChain Content.Apart

/-- The tag stands behind `before`, and its positions and lines are those of its delimiters. -/
structure Located (d : Delimiters) (line : Nat) (source before : List Char) (t : Tag) : Prop where
  stands : before ++ wrapped d t.body <+: source
  start_eq : t.start = before.length
  stop_eq : t.stop = before.length + (wrapped d t.body).length
  line_eq : t.line = line + newlines (source.take t.start)
  endLine_eq : t.endLine = line + newlines (source.take t.stop)

/-- The segments of a text that starts on the line. -/
structure Partition (d : Delimiters) (line : Nat) (source : List Char) (segments : List Segment) :
    Prop where
  lossless : (segments.map content).flatMap (Content.written d) = source
  spaced : Spaced (segments.map content)
  clear : ∀ s ∈ segments, ¬ d.left <:+: (content s).chars ∧ ¬ d.right <:+: (content s).chars
  located : ∀ before t after, segments = before ++ .tag t :: after →
    Located d line source ((before.map content).flatMap (Content.written d)) t

variable {d : Delimiters} {line offset : Nat} {source : List Char} {segments : List Segment}

theorem flatMap_written_content (d : Delimiters) (segments : List Segment) :
    (segments.map content).flatMap (Content.written d) = segments.flatMap (written d) := by
  rw [List.flatMap_map]
  exact List.flatMap_congr fun s _ => written_content d s

/-! ## A scan that succeeds -/

theorem content_ofText (chars : List Char) :
    (ofText chars).map content = [] ∨ (ofText chars).map content = [.text chars] := by
  cases chars with
  | nil => exact .inl rfl
  | cons => exact .inr rfl

theorem ofText_of_ne_nil {chars : List Char} (h : chars ≠ []) : ofText chars = [.text chars] :=
  if_neg (List.isEmpty_eq_false_iff.mpr h ▸ Bool.false_ne_true)

theorem isChain_ofText (chars : List Char) : ((ofText chars).map content).IsChain Content.Apart := by
  rcases content_ofText chars with h | h <;> rw [h] <;> simp

theorem Cut.isChain (h : Cut d line offset source segments) :
    (segments.map content).IsChain Content.Apart := by
  induction h with
  | plain => exact isChain_ofText _
  | @tag _ _ _ plain _ _ _ _ _ ih =>
    rw [List.map_append, List.map_cons, List.isChain_append, List.isChain_cons]
    refine ⟨isChain_ofText plain, ⟨fun _ _ => trivial, ih⟩, fun x _ y hy => ?_⟩
    -- what stands behind the text is the tag
    cases hy
    cases x <;> trivial

theorem Cut.spaced (h : Cut d line offset source segments) : Spaced (segments.map content) := by
  refine ⟨fun chars hc => ?_, h.isChain⟩
  obtain ⟨s, hs, heq⟩ := List.mem_map.mp hc
  cases s with
  | text => exact h.text_ne_nil (by cases heq; exact hs)
  | tag => cases heq

theorem clear_ofText {chars : List Char} (h : ¬ d.left <:+: chars ∧ ¬ d.right <:+: chars) :
    ∀ s ∈ ofText chars, ¬ d.left <:+: (content s).chars ∧ ¬ d.right <:+: (content s).chars := by
  intro s hs
  cases chars with
  | nil => cases hs
  | cons =>
    obtain rfl := List.mem_singleton.mp hs
    exact h

theorem Cut.clear (h : Cut d line offset source segments) :
    ∀ s ∈ segments, ¬ d.left <:+: (content s).chars ∧ ¬ d.right <:+: (content s).chars := by
  induction h with
  | plain hl hr => exact clear_ofText ⟨hl, hr⟩
  | tag ho _ ih =>
    refine List.forall_mem_append.mpr ⟨clear_ofText ho.plain_clear, ?_⟩
    exact List.forall_mem_cons.mpr ⟨ho.body_free, ih⟩

/-- The positions of a tag are those of its place. -/
theorem Cut.positions_eq {before after : List Segment} {t : Tag}
    (h : Cut d line offset source (before ++ .tag t :: after)) :
    t.start = offset + (before.flatMap (written d)).length ∧
      t.stop = t.start + (wrapped d t.body).length := by
  generalize hs : before ++ .tag t :: after = segments at h
  induction h generalizing before with
  | @plain _ _ source => exact absurd (by simp [← hs]) (tag_not_mem_ofText t source)
  | @tag line offset source plain body rest segments ho hc ih =>
    rcases append_tag_eq_append hs.symm with ⟨rfl, rfl, -⟩ | ⟨more, rfl, hr⟩
    · rw [flatMap_written_ofText]
      exact ⟨rfl, rfl⟩
    · obtain ⟨hstart, hstop⟩ := ih hr.symm
      refine ⟨?_, hstop⟩
      rw [hstart, List.flatMap_append, List.flatMap_cons, flatMap_written_ofText]
      simp only [List.length_append, tagAfter, written]
      omega

theorem Cut.located {before after : List Segment} {t : Tag}
    (h : Cut d line 0 source (before ++ .tag t :: after)) :
    Located d line source (before.flatMap (Segment.written d)) t := by
  obtain ⟨hstart, hstop⟩ := h.positions_eq
  obtain ⟨hline, hend⟩ := h.lines_eq
  have hsource := h.source_eq
  rw [Nat.zero_add] at hstart
  rw [hstart] at hstop
  have htake : source.take t.start = before.flatMap (Segment.written d) := by
    rw [hsource, hstart, List.append_assoc, List.take_left]
  have htake' : source.take t.stop = before.flatMap (Segment.written d) ++ wrapped d t.body := by
    rw [hsource, hstop, ← List.length_append, List.take_left]
  refine ⟨⟨_, hsource.symm⟩, hstart, hstop, ?_, ?_⟩
  · rw [htake, hline]
  · rw [htake', hend]

theorem Cut.partition (h : Cut d line 0 source segments) : Partition d line source segments where
  lossless := by rw [flatMap_written_content, h.flatMap_written]
  spaced := h.spaced
  clear := h.clear
  located := by
    rintro before t after rfl
    rw [flatMap_written_content]
    exact h.located

/-! ## A text put together -/

theorem Spaced.of_append {xs ys : List Content} (h : Spaced (xs ++ ys)) : Spaced ys where
  text_ne_nil chars hc := h.text_ne_nil chars (List.mem_append_right xs hc)
  apart := h.apart.suffix (List.suffix_append xs ys)

theorem cut_append_contents {plain : List Char} {contents : List Content}
    (hs : Spaced ((ofText plain).map content ++ contents)) (hp : Foreign d plain)
    (hc : ∀ c ∈ contents, Foreign d c.chars) (line offset : Nat) :
    ∃ segments, Cut d line offset (plain ++ contents.flatMap (Content.written d)) segments ∧
      segments.map content = (ofText plain).map content ++ contents := by
  induction contents generalizing plain line offset with
  | nil =>
    rw [List.flatMap_nil, List.append_nil, List.append_nil]
    exact ⟨_, .plain hp.not_infix.1 hp.not_infix.2, rfl⟩
  | cons c rest ih =>
    obtain ⟨hc, hrest⟩ := List.forall_mem_cons.mp hc
    cases c with
    | text chars =>
      -- no text stands in front of this one
      have hplain : plain = [] := by
        cases plain with
        | nil => rfl
        | cons => exact absurd (List.isChain_cons_cons.mp hs.apart).1 id
      subst hplain
      have hchars := ofText_of_ne_nil (hs.text_ne_nil chars List.mem_cons_self)
      obtain ⟨segments, hcut, hsegments⟩ := @ih chars (hchars ▸ hs) hc hrest line offset
      rw [hchars] at hsegments
      exact ⟨segments, hcut, hsegments⟩
    | directive body =>
      have htail : Spaced ([.directive body] ++ rest) := hs.of_append
      obtain ⟨segments, hcut, hsegments⟩ := @ih [] htail.of_append nofun hrest
        (tagAfter d line offset plain body).endLine (tagAfter d line offset plain body).stop
      have htag := Cut.tag (hp.opens hc _) hcut
      rw [List.append_assoc] at htag
      refine ⟨_, htag, ?_⟩
      rw [List.map_append, List.map_cons, hsegments]
      rfl

/-! ## Every scan -/

/-- The segments of a text partition it, with the places of its tags. Contents that show no delimiter are the
contents of the segments of what they look like together. A scan fails with the line of the delimiter at
which no tag can be read any more. -/
theorem scan_partitions (d : Delimiters) (line : Nat) :
    (∀ source segments, scan d line 0 source = .ok segments → Partition d line source segments) ∧
      (∀ contents, Spaced contents → (∀ c ∈ contents, Foreign d c.chars) →
        ∃ segments, scan d line 0 (contents.flatMap (Content.written d)) = .ok segments ∧
          segments.map content = contents) ∧
      (∀ source e, scan d line 0 source = .error e ↔
        ∃ before fault, Stops d source before fault ∧ e = .located (line + newlines before) fault) ∧
      ∀ source before fault, Stops d source before fault → Blames d source before fault := by
  refine ⟨fun source segments h => (scan_eq_ok_iff.mp h).partition, ?_,
    fun source e => scan_eq_error_iff, fun source before fault h => h.blames⟩
  intro contents hs hc
  obtain ⟨segments, hcut, hsegments⟩ := @cut_append_contents d [] contents hs nofun hc line 0
  exact ⟨segments, scan_eq_ok_iff.mpr hcut, hsegments⟩

/-- Delimiters that overlap, in `<|>` also with the text. -/
theorem scan_partitions_overlapping :
    ∃ d : Delimiters, d.left = ['<', '|'] ∧ d.right = ['|', '>'] ∧
      Partition d 5 "a\n<|b\n|><<|c|>".toList [.text ['a', '\n'], .tag ⟨['b', '\n'], 2, 8, 6, 7⟩,
        .text ['<'], .tag ⟨['c'], 9, 14, 7, 7⟩] ∧
      (∃ segments, scan d 5 0 "<|b|>c\n<||>".toList = .ok segments ∧
        segments.map content = [.directive ['b'], .text ['c', '\n'], .directive []]) ∧
      ∃ before fault, Stops d "a\n<|b\n|>\n<|>".toList before fault ∧
        Error.located 8 .unterminated = .located (5 + newlines before) fault ∧
        Blames d "a\n<|b\n|>\n<|>".toList before fault := by
  let d : Delimiters := { left := ['<', '|'], right := ['|', '>'] }
  obtain ⟨hok, hcontents, herror, hblames⟩ := scan_partitions d 5
  refine ⟨d, rfl, rfl, hok _ _ (by with_unfolding_all rfl), ?_, ?_⟩
  · exact hcontents [.directive ['b'], .text ['c', '\n'], .directive []]
      ⟨by simp, by decide⟩ (by decide)
  · obtain ⟨before, fault, hstops, he⟩ := (herror "a\n<|b\n|>\n<|>".toList
      (.located 8 .unterminated)).mp (by with_unfolding_all rfl)
    exact ⟨before, fault, hstops, he, hblames _ _ _ hstops⟩

end Stencil.Segment
