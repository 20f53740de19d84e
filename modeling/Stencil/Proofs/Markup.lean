import Stencil.Proofs.Failures
import Stencil.Proofs.Origins

/-! # Markup in the output

A tree whose texts have no markup character, and whose variables are all escaped or positions, puts none
on the page, whatever the data. -/
namespace Stencil
open Rendering Text Text.Blank

/-- None of the characters that open or close a tag or a quoted attribute. -/
def Clean (s : List Char) : Prop :=
  ∀ c ∈ s, c ∉ ['<', '>', '"', '\x27']

instance (s : List Char) : Decidable (Clean s) :=
  List.decidableBAll _ s

theorem clean_nil : Clean [] :=
  List.forall_mem_nil _

theorem Clean.append {s t : List Char} (hs : Clean s) (ht : Clean t) : Clean (s ++ t) :=
  List.forall_mem_append.mpr ⟨hs, ht⟩

theorem Clean.trim {s : List Char} (h : Clean s) : Clean (trim s) :=
  fun c hc => h c (mem_of_mem_trim hc)

/-- The step puts no markup character on the page. -/
def KeepsClean (step : Rendering Unit) : Prop :=
  ∀ page after, Clean page.out.toList → step page = .ok () after → Clean after.out.toList

namespace KeepsClean

variable {step next : Rendering Unit}

theorem of_pure : KeepsClean (pure ()) := by
  intro page after hp h
  cases h
  exact hp

theorem of_emit {text : String} (ht : Clean text.toList) : KeepsClean (emit text) := by
  intro page after hp h
  cases h
  rw [String.toList_append]
  exact hp.append ht

theorem seq (h : KeepsClean step) (hn : KeepsClean next) : KeepsClean (do step; next) := by
  intro page after hp hs
  rw [Rendering.seq_eq] at hs
  split at hs
  · rename_i middle hm
    exact hn middle after (h page middle hp hm) hs
  · cases hs

theorem piece (h : KeepsClean step) : KeepsClean (Rendering.piece step) := by
  intro page after hp hs
  unfold Rendering.piece at hs
  split at hs
  · rename_i inner hi
    cases hs
    have hinner := h { page with out := "" } inner clean_nil hi
    rw [String.toList_append, trimmed, String.toList_ofList]
    exact hp.append hinner.trim
  · cases hs

theorem inFrame (h : KeepsClean step) (item : Value) (index : Nat) :
    KeepsClean (Rendering.inFrame item index step) := by
  intro page after hp hs
  unfold Rendering.inFrame at hs
  split at hs
  · rename_i inner hi
    cases hs
    exact h { page with scope := page.scope.push item index } inner hp hi
  · cases hs

theorem each (h : KeepsClean step) (index : Nat) (values : List Value) :
    KeepsClean (Rendering.each step index values) := by
  induction values generalizing index with
  | nil => exact of_pure
  | cons item values ih => exact (h.inFrame item index).piece.seq (ih (index + 1))

theorem all {nodes : List Node} (h : ∀ node ∈ nodes, KeepsClean node.render) :
    KeepsClean (renderAll nodes) := by
  induction nodes with
  | nil => exact of_pure
  | cons node nodes ih =>
    obtain ⟨hnode, hnodes⟩ := List.forall_mem_cons.mp h
    exact hnode.seq (ih hnodes)

theorem conditional {arms : List (Option Condition × List Node)}
    (h : ∀ arm ∈ arms, KeepsClean (renderAll arm.2)) : KeepsClean (Node.conditional arms).render := by
  intro page after hp hs
  rw [Node.render_conditional] at hs
  rcases hsel : Condition.select page.scope arms with fault | _ | nodes
  · rw [hsel] at hs
    cases hs
  · rw [hsel] at hs
    exact of_pure page after hp hs
  · rw [hsel] at hs
    obtain ⟨arm, ha, rfl⟩ := Condition.select_mem hsel
    exact (h arm ha).piece page after hp hs

theorem loop {source : Accessor} {body : List Node} (h : KeepsClean (renderAll body)) :
    KeepsClean (Node.loop source body).render := by
  intro page after hp hs
  rw [Node.render_loop] at hs
  cases hv : page.scope.find? source with
  | none =>
    rw [hv] at hs
    exact of_pure page after hp hs
  | some value =>
    rw [hv] at hs
    exact h.each 0 (items value) page after hp hs

end KeepsClean

/-! ## Trees -/

end Stencil
