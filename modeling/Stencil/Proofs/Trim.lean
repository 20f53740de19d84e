import Mathlib.Data.List.DropRight
import Stencil.Directive

/-! # Blanks at the ends of a text

Trimming leaves a text as it is exactly when no blank stands at an end of it, and so does not change a
trimmed text. -/
namespace Stencil.Text.Blank

/-- No blank stands at an end. -/
structure Bare (s : List Char) : Prop where
  head : ∀ c, s.head? = some c → isBlank c = false
  last : ∀ c, s.getLast? = some c → isBlank c = false

theorem bare_trim (s : List Char) : Bare (trim s) := by
  have hp : trim s <+: trimStart s := List.rdropWhile_prefix isBlank _
  refine ⟨fun c hc => ?_, fun c hc => ?_⟩
  · obtain ⟨rest, hs⟩ := List.head?_eq_some_iff.mp hc
    obtain ⟨more, hm⟩ := hp
    have hnot := List.head?_dropWhile_not isBlank s
    have hhead : (s.dropWhile isBlank).head? = some c := by
      show (trimStart s).head? = some c
      rw [← hm, hs]
      rfl
    rw [hhead] at hnot
    exact hnot
  · have hne : trim s ≠ [] := by
      intro hnil
      rw [hnil] at hc
      cases hc
    have hlast := List.rdropWhile_last_not isBlank (trimStart s) hne
    rw [List.getLast?_eq_some_getLast hne] at hc
    obtain rfl := Option.some.inj hc
    exact Bool.eq_false_iff.mpr hlast

theorem trim_eq_self_iff {s : List Char} : trim s = s ↔ Bare s := by
  constructor
  · intro h
    rw [← h]
    exact bare_trim s
  · intro h
    have hstart : trimStart s = s := by
      cases s with
      | nil => rfl
      | cons c rest => exact List.dropWhile_cons_of_neg (by simp [h.head c rfl])
    rw [trim, hstart]
    refine List.rdropWhile_eq_self_iff.mpr fun hne => ?_
    rw [h.last _ (List.getLast?_eq_some_getLast hne)]
    exact Bool.false_ne_true

/-- No blank stands anywhere. -/
def Unbroken (s : List Char) : Prop :=
  ∀ c ∈ s, isBlank c = false

instance (s : List Char) : Decidable (Unbroken s) :=
  List.decidableBAll _ s

theorem Unbroken.cons {c : Char} {s : List Char} (h : Unbroken s) (hc : isBlank c = false) :
    Unbroken (c :: s) :=
  List.forall_mem_cons.mpr ⟨hc, h⟩

theorem Unbroken.any_eq_false {s : List Char} (h : Unbroken s) : s.any isBlank = false :=
  List.any_eq_false.mpr fun c hc => Bool.eq_false_iff.mp (h c hc)

theorem Unbroken.trim_eq {s : List Char} (h : Unbroken s) : trim s = s :=
  trim_eq_self_iff.mpr ⟨fun c hc => h c (List.mem_of_head? hc), fun c hc => h c (List.mem_of_getLast? hc)⟩

theorem trim_trim (s : List Char) : trim (trim s) = trim s :=
  trim_eq_self_iff.mpr (bare_trim s)

theorem trimmed_trimmed (s : String) : trimmed (trimmed s) = trimmed s := by
  rw [trimmed, trimmed, String.toList_ofList, trim_trim]

theorem trimEnd_append {after : List Char} (h : ∀ c ∈ after, isBlank c = true) (s : List Char) :
    trimEnd (s ++ after) = trimEnd s := by
  unfold trimEnd
  rw [List.reverse_append, List.dropWhile_append_of_pos fun c hc => h c (List.mem_reverse.mp hc)]

/-- Blanks around a text are trimmed with its own. -/
theorem trim_append_append {before after : List Char} (hb : ∀ c ∈ before, isBlank c = true)
    (ha : ∀ c ∈ after, isBlank c = true) (s : List Char) : trim (before ++ s ++ after) = trim s := by
  unfold trim trimStart
  rw [List.append_assoc, List.dropWhile_append_of_pos hb, List.dropWhile_append]
  split
  · rename_i hs
    rw [List.isEmpty_iff.mp hs, List.dropWhile_eq_nil_iff.mpr ha]
  · exact trimEnd_append ha _

/-! ## A word, and after a space more -/

section
variable {word s : List Char} (hw : Unbroken word)
include hw

theorem firstWord_eq_self : firstWord word = word := by
  refine List.takeWhile_eq_self_iff.mpr fun c hc => ?_
  rw [hw c hc]
  rfl

theorem trim_word (hne : word ≠ []) (hs : trim s = s) (hs' : s ≠ []) :
    trim (word ++ ' ' :: s) = word ++ ' ' :: s := by
  refine trim_eq_self_iff.mpr ⟨fun c hc => hw c ?_, fun c hc => ?_⟩
  · rw [List.head?_append_of_ne_nil _ hne] at hc
    exact List.mem_of_head? hc
  · refine (trim_eq_self_iff.mp hs).last c ?_
    rwa [List.getLast?_append_of_ne_nil _ (List.cons_ne_nil _ _), List.getLast?_cons_of_ne_nil hs'] at hc

theorem afterFirstWord_word (hs : trim s = s) : afterFirstWord (word ++ ' ' :: s) = s := by
  have hall : ∀ c ∈ word, (!isBlank c) = true := fun c hc => by rw [hw c hc]; rfl
  rw [afterFirstWord, List.dropWhile_append_of_pos hall, List.dropWhile_cons_of_neg (by decide)]
  exact hs

end

/-- Pieces that are split off in front of a space, and by themselves, are split off what they make with single
spaces between them. -/
theorem split_spaced {split : List Char → List (List Char)} (hnil : split [] = [])
    {pieces : List (List Char)} (hone : ∀ piece ∈ pieces, split piece = [piece])
    (hspace : ∀ piece ∈ pieces.dropLast, ∀ rest, split (piece ++ ' ' :: rest) = piece :: split rest) :
    split ([' '].intercalate pieces) = pieces := by
  induction pieces with
  | nil => exact hnil
  | cons piece pieces ih =>
    obtain ⟨hpiece, hpieces⟩ := List.forall_mem_cons.mp hone
    cases pieces with
    | nil => rw [List.intercalate_singleton, hpiece]
    | cons next pieces =>
      rw [List.dropLast_cons_cons] at hspace
      obtain ⟨hfirst, hrest⟩ := List.forall_mem_cons.mp hspace
      rw [List.intercalate_cons_cons, List.append_assoc, List.singleton_append, hfirst, ih hpieces hrest]

end Stencil.Text.Blank

namespace Stencil.Directive
open Text.Blank

/-- Only a first character can make a directive anything but a word. -/
theorem classify_word {c : Char} {rest : List Char} (ht : trim (c :: rest) = c :: rest)
    (hc : c ∉ ['/', '#', '@', '%']) : classify (c :: rest) = wordOf (c :: rest) := by
  unfold classify
  rw [ht]
  split <;> simp_all

theorem required_of_ne_nil (keyword : String) {argument : List Char} (h : argument ≠ []) :
    required keyword argument = .ok (String.ofList argument) :=
  if_neg (by simpa using h)

section
variable {s : List Char} (ht : trim s = s) (hne : s ≠ [])
include ht hne

/-- A trimmed condition after the word `if` and a space. -/
theorem classify_if :
    classify ('i' :: 'f' :: ' ' :: s) = .ok (.opening .conditional (String.ofList s)) := by
  have hword : Unbroken ['i', 'f'] := by decide
  have htrim : trim ('i' :: 'f' :: ' ' :: s) = 'i' :: 'f' :: ' ' :: s :=
    trim_word hword (List.cons_ne_nil _ _) ht hne
  have hafter : afterFirstWord ('i' :: 'f' :: ' ' :: s) = s := afterFirstWord_word hword ht
  rw [classify_word htrim (by decide), wordOf, hafter, required_of_ne_nil "if" hne]
  rfl

theorem classify_loop :
    classify ('l' :: 'o' :: 'o' :: 'p' :: ' ' :: s) = .ok (.opening .loop (String.ofList s)) := by
  have hword : Unbroken ['l', 'o', 'o', 'p'] := by decide
  have htrim : trim ('l' :: 'o' :: 'o' :: 'p' :: ' ' :: s) = 'l' :: 'o' :: 'o' :: 'p' :: ' ' :: s :=
    trim_word hword (List.cons_ne_nil _ _) ht hne
  have hafter : afterFirstWord ('l' :: 'o' :: 'o' :: 'p' :: ' ' :: s) = s :=
    afterFirstWord_word hword ht
  rw [classify_word htrim (by decide), wordOf, hafter, required_of_ne_nil "loop" hne]
  rfl

theorem elseOf_if : elseOf ('i' :: 'f' :: ' ' :: s) = .ok (.elseIf (String.ofList s)) := by
  have hword : Unbroken ['i', 'f'] := by decide
  have hafter : afterFirstWord ('i' :: 'f' :: ' ' :: s) = s := afterFirstWord_word hword ht
  rw [elseOf, hafter, required_of_ne_nil "else if" hne]
  rfl

theorem classify_else_if :
    classify ('e' :: 'l' :: 's' :: 'e' :: ' ' :: 'i' :: 'f' :: ' ' :: s) =
      .ok (.elseIf (String.ofList s)) := by
  have hif : Unbroken ['i', 'f'] := by decide
  have helse : Unbroken ['e', 'l', 's', 'e'] := by decide
  have htail : trim ('i' :: 'f' :: ' ' :: s) = 'i' :: 'f' :: ' ' :: s :=
    trim_word hif (List.cons_ne_nil _ _) ht hne
  have htrim : trim ('e' :: 'l' :: 's' :: 'e' :: ' ' :: 'i' :: 'f' :: ' ' :: s) =
      'e' :: 'l' :: 's' :: 'e' :: ' ' :: 'i' :: 'f' :: ' ' :: s :=
    trim_word helse (List.cons_ne_nil _ _) htail (List.cons_ne_nil _ _)
  have hafter : afterFirstWord ('e' :: 'l' :: 's' :: 'e' :: ' ' :: 'i' :: 'f' :: ' ' :: s) =
      'i' :: 'f' :: ' ' :: s := afterFirstWord_word helse htail
  rw [classify_word htrim (by decide), wordOf, hafter, elseOf_if ht hne]
  rfl

end

end Stencil.Directive
