import Mathlib.Data.List.Forall2

/-! # Steps that may fail

A chain of steps gives a result exactly when each of them does. -/
namespace Except

variable {ε ε' α β : Type}

theorem bind_eq_ok_iff {x : Except ε α} {f : α → Except ε β} {b : β} :
    x >>= f = .ok b ↔ ∃ a, x = .ok a ∧ f a = .ok b := by
  cases x <;> simp [bind, Except.bind]

theorem map_eq_ok_iff {x : Except ε α} {f : α → β} {b : β} :
    x.map f = .ok b ↔ ∃ a, x = .ok a ∧ f a = b := by
  cases x <;> simp [Except.map]

theorem mapError_eq_ok_iff {x : Except ε α} {f : ε → ε'} {a : α} :
    x.mapError f = .ok a ↔ x = .ok a := by
  cases x with
  | error => exact iff_of_false nofun nofun
  | ok =>
    constructor
    · intro h
      cases h
      rfl
    · intro h
      cases h
      rfl

theorem bind_eq_error_iff {x : Except ε α} {f : α → Except ε β} {e : ε} :
    x >>= f = .error e ↔ x = .error e ∨ ∃ a, x = .ok a ∧ f a = .error e := by
  cases x <;> simp [bind, Except.bind]

theorem bind_ok_eq_error_iff {x : Except ε α} {f : α → β} {e : ε} :
    (x >>= fun a => .ok (f a)) = .error e ↔ x = .error e := by
  cases x <;> simp [bind, Except.bind]

theorem map_eq_error_iff {x : Except ε α} {f : α → β} {e : ε} :
    x.map f = .error e ↔ x = .error e := by
  cases x <;> simp [Except.map]

theorem mapError_eq_error_iff {x : Except ε α} {f : ε → ε'} {e : ε'} :
    x.mapError f = .error e ↔ ∃ fault, x = .error fault ∧ f fault = e := by
  cases x <;> simp [Except.mapError]

theorem mapM_cons_eq_ok_iff {f : α → Except ε β} {x : α} {xs : List α} {ys : List β} :
    (x :: xs).mapM f = .ok ys ↔ ∃ y more, f x = .ok y ∧ xs.mapM f = .ok more ∧ ys = y :: more := by
  simp only [List.mapM_cons, bind_eq_ok_iff, pure, Except.pure, Except.ok.injEq, eq_comm (b := ys)]
  grind

theorem forall₂_of_mapM {f : α → Except ε β} {xs : List α} {ys : List β} (h : xs.mapM f = .ok ys) :
    List.Forall₂ (fun x y => f x = .ok y) xs ys := by
  induction xs generalizing ys with
  | nil =>
    cases h
    exact .nil
  | cons x xs ih =>
    obtain ⟨y, more, hy, hm, rfl⟩ := mapM_cons_eq_ok_iff.mp h
    exact .cons hy (ih hm)

theorem exists_of_mem_mapM {f : α → Except ε β} {xs : List α} {ys : List β} {y : β}
    (h : xs.mapM f = .ok ys) (hy : y ∈ ys) : ∃ x ∈ xs, f x = .ok y := by
  induction xs generalizing ys with
  | nil =>
    cases h
    cases hy
  | cons x xs ih =>
    obtain ⟨first, more, hf, hm, rfl⟩ := mapM_cons_eq_ok_iff.mp h
    rcases List.mem_cons.mp hy with rfl | hy
    · exact ⟨x, List.mem_cons_self, hf⟩
    · obtain ⟨x', hx, hy⟩ := ih hm hy
      exact ⟨x', List.mem_cons_of_mem _ hx, hy⟩

theorem exists_of_mapM_eq_error {f : α → Except ε β} {xs : List α} {e : ε}
    (h : xs.mapM f = .error e) : ∃ x ∈ xs, f x = .error e := by
  induction xs with
  | nil => cases h
  | cons x xs ih =>
    rw [List.mapM_cons] at h
    rcases bind_eq_error_iff.mp h with hx | ⟨_, -, h⟩
    · exact ⟨x, List.mem_cons_self, hx⟩
    · obtain ⟨x', hmem, hx'⟩ := ih (bind_ok_eq_error_iff.mp h)
      exact ⟨x', List.mem_cons_of_mem _ hmem, hx'⟩

theorem exists_mapM_eq_ok_iff {f : α → Except ε β} {xs : List α} :
    (∃ ys, xs.mapM f = .ok ys) ↔ ∀ x ∈ xs, ∃ y, f x = .ok y := by
  induction xs with
  | nil => exact iff_of_true ⟨[], rfl⟩ nofun
  | cons x xs ih =>
    rw [List.forall_mem_cons, ← ih]
    simp only [mapM_cons_eq_ok_iff]
    constructor
    · intro h
      obtain ⟨_, y, ys, hy, hys, -⟩ := h
      exact ⟨⟨y, hy⟩, ys, hys⟩
    · intro h
      obtain ⟨⟨y, hy⟩, ys, hys⟩ := h
      exact ⟨_, y, ys, hy, hys, rfl⟩

theorem exists_error_iff {x : Except ε α} : (∃ e, x = .error e) ↔ ¬ ∃ a, x = .ok a := by
  cases x <;> simp

theorem toOption_eq_some_iff {x : Except ε α} {a : α} : x.toOption = some a ↔ x = .ok a := by
  cases x <;> simp [Except.toOption]

theorem forM_eq_ok_iff {f : α → Except ε PUnit} {xs : List α} :
    xs.forM f = .ok () ↔ ∀ x ∈ xs, f x = .ok () := by
  induction xs with
  | nil => exact iff_of_true rfl nofun
  | cons x xs ih =>
    show (f x >>= fun _ => xs.forM f) = .ok () ↔ _
    rw [bind_eq_ok_iff, List.forall_mem_cons]
    constructor
    · intro h
      obtain ⟨⟨⟩, hx, h⟩ := h
      exact ⟨hx, ih.mp h⟩
    · intro h
      obtain ⟨hx, h⟩ := h
      exact ⟨(), hx, ih.mpr h⟩

theorem mapError_bind (x : Except ε α) (f : α → Except ε β) (g : ε → ε') :
    (x >>= f).mapError g = x.mapError g >>= fun a => (f a).mapError g := by
  cases x <;> rfl

theorem mapError_map (x : Except ε α) (f : α → β) (g : ε → ε') :
    (x.map f).mapError g = (x.mapError g).map f := by
  cases x <;> rfl

theorem mapError_mapM (xs : List α) (f : α → Except ε β) (g : ε → ε') :
    (xs.mapM f).mapError g = xs.mapM fun x => (f x).mapError g := by
  induction xs with
  | nil => rfl
  | cons x xs ih =>
    simp only [List.mapM_cons, mapError_bind, ih]
    rfl

theorem map_bind {γ : Type} (x : Except ε α) (f : α → β) (g : β → Except ε γ) :
    x.map f >>= g = x >>= fun a => g (f a) := by
  cases x <;> rfl

/-! ## A result unless something is wrong -/

/-- The result, unless there is an error. -/
def barring (fault : Option ε) (a : α) : Except ε α :=
  fault.elim (.ok a) .error

theorem barring_none (a : α) : barring (none : Option ε) a = .ok a :=
  rfl

theorem barring_some (e : ε) (a : α) : barring (some e) a = .error e :=
  rfl

theorem barring_map (fault : Option ε) (a : α) (f : α → β) :
    (barring fault a).map f = barring fault (f a) := by
  cases fault <;> rfl

/-- The first of two errors counts. -/
theorem barring_bind (fault more : Option ε) (a : α) {f : α → Except ε β} {b : β}
    (h : f a = barring more b) : barring fault a >>= f = barring (fault.or more) b := by
  cases fault with
  | none => exact h
  | some e => rfl

theorem barring_eq_ok_iff {fault : Option ε} {a b : α} :
    barring fault a = .ok b ↔ fault = none ∧ a = b := by
  cases fault <;> simp [barring]

/-! ## The error alone -/

def error? : Except ε α → Option ε
  | .error e => some e
  | .ok _ => none

theorem error?_eq_some_iff {x : Except ε α} {e : ε} : x.error? = some e ↔ x = .error e := by
  cases x <;> simp [error?]

/-- The error of the first step, or else that of the next one. -/
theorem error?_bind {x : Except ε α} {f : α → Except ε β} {more : Option ε}
    (h : ∀ a, x = .ok a → (f a).error? = more) : (x >>= f).error? = x.error?.or more := by
  cases x with
  | error e => rfl
  | ok a => exact h a rfl

theorem error?_bind_ok {x : Except ε α} {f : α → β} : (x >>= fun a => .ok (f a)).error? = x.error? := by
  cases x <;> rfl

/-! ## Two chains of steps -/

/-- The same error, or results that are related. -/
inductive Agree (R : α → β → Prop) : Except ε α → Except ε β → Prop
  | error {e} : Agree R (.error e) (.error e)
  | ok {a b} : R a b → Agree R (.ok a) (.ok b)

namespace Agree

variable {γ α' β' : Type} {R S : α → β → Prop} {T : α' → β' → Prop} {x : Except ε α} {y : Except ε β}

theorem bind_eq (h : Agree R x y) {f : α → Except ε γ} {g : β → Except ε γ}
    (hf : ∀ a b, R a b → f a = g b) : x >>= f = y >>= g := by
  cases h with
  | error => rfl
  | ok hr => exact hf _ _ hr

theorem bind (h : Agree R x y) {f : α → Except ε α'} {g : β → Except ε β'}
    (hf : ∀ a b, R a b → Agree T (f a) (g b)) : Agree T (x >>= f) (y >>= g) := by
  cases h with
  | error => exact .error
  | ok hr => exact hf _ _ hr

theorem map (h : Agree R x y) {f : α → α'} {g : β → β'} (hf : ∀ a b, R a b → T (f a) (g b)) :
    Agree T (x.map f) (y.map g) := by
  cases h with
  | error => exact .error
  | ok hr => exact .ok (hf _ _ hr)

theorem imp (h : Agree R x y) (hs : ∀ a b, R a b → S a b) : Agree S x y := by
  cases h with
  | error => exact .error
  | ok hr => exact .ok (hs _ _ hr)

end Agree

theorem mapM_eq_of_forall₂ {γ : Type} {f : α → Except ε γ} {g : β → Except ε γ} {xs : List α}
    {ys : List β} (h : List.Forall₂ (fun x y => f x = g y) xs ys) : xs.mapM f = ys.mapM g := by
  induction h with
  | nil => rfl
  | cons hx _ ih => rw [List.mapM_cons, List.mapM_cons, hx, ih]

end Except
