import Stencil.Proofs.Arithmetic

/-! # Arithmetic has one reading

A list of tokens stands for at most one tree, since what may follow an item tells where it ends. So a list
is empty, or has one tree and its value, or is refused; and the operands have no part in which it is. -/
namespace Stencil.Expression

variable {α : Type} {joins : Operator → Bool} {room : Nat}

/-! ## Chains from the front -/

/-- What follows the first item of a chain makes this tree of the tree before it. -/
inductive Chain (joins : Operator → Bool) (one : List (Token α) → Tree α → Prop) :
    Tree α → List (Token α) → Tree α → Prop
  | nil {t} : Chain joins one t [] t
  | cons {t o us u rest w} : joins o = true → one us u → Chain joins one (.join o t u) rest w →
      Chain joins one t (.operator o :: (us ++ rest)) w

theorem Chain.snoc {one : List (Token α) → Tree α → Prop} {o : Operator} {t w u : Tree α}
    {ts us : List (Token α)} (h : Chain joins one t ts w) (ho : joins o = true) (hu : one us u) :
    Chain joins one t (ts ++ .operator o :: us) (.join o w u) := by
  induction h with
  | @nil t =>
    have hlast : Chain joins one (.join o t u) [] (.join o t u) := .nil
    simpa using Chain.cons ho hu hlast
  | cons hj hone _ ih =>
    rw [List.cons_append, List.append_assoc]
    exact .cons hj hone ih

/-- The first item of a chain, and the chain behind it. -/
structure Begins (joins : Operator → Bool) (one : List (Token α) → Tree α → Prop)
    (ts us : List (Token α)) (t u : Tree α) (rest : List (Token α)) : Prop where
  eq_append : ts = us ++ rest
  item : one us u
  chain : Chain joins one u rest t

theorem Derives.begins_term {ts : List (Token α)} {t : Tree α} (h : Derives .term room ts t) :
    ∃ us u rest, Begins Operator.multiplicative (Derives .factor room) ts us t u rest := by
  generalize hl : Level.term = level at h
  induction h with
  | term h => exact ⟨_, _, [], (List.append_nil _).symm, h, .nil⟩
  | joinFactor _ ho hu ih =>
    obtain ⟨us, u, rest, rfl, hone, hc⟩ := ih hl
    exact ⟨us, u, _, List.append_assoc .., hone, hc.snoc ho hu⟩
  | _ => cases hl

theorem Derives.begins_sum {ts : List (Token α)} {t : Tree α} (h : Derives .sum room ts t) :
    ∃ us u rest, Begins Operator.additive (Derives .term room) ts us t u rest := by
  generalize hl : Level.sum = level at h
  induction h with
  | sum h => exact ⟨_, _, [], (List.append_nil _).symm, h, .nil⟩
  | joinTerm _ ho hu ih =>
    obtain ⟨us, u, rest, rfl, hone, hc⟩ := ih hl
    exact ⟨us, u, _, List.append_assoc .., hone, hc.snoc ho hu⟩
  | _ => cases hl

/-! ## Where an item ends -/

/-- The tokens do not go on with such an operator. -/
def Ends (joins : Operator → Bool) (rest : List (Token α)) : Prop :=
  ∀ o more, rest = .operator o :: more → joins o = false

/-- Two items at the front of the same tokens are the same, if none of these operators follows. -/
def Settled (one : List (Token α) → Tree α → Prop) (joins : Operator → Bool) : Prop :=
  ∀ ts t us u xs ys, one ts t → one us u → ts ++ xs = us ++ ys → Ends joins xs → Ends joins ys →
    ts = us ∧ t = u

variable {one : List (Token α) → Tree α → Prop} {inner outer : Operator → Bool}

/-- An operator that joins items ends the item before it. -/
structure Delimits (inner joins outer : Operator → Bool) : Prop where
  inner_of_joins : ∀ o, joins o = true → inner o = false
  inner_of_outer : ∀ o, outer o = false → inner o = false
  joins_of_outer : ∀ o, outer o = false → joins o = false

theorem Chain.ends {t w : Tree α} {ts xs : List (Token α)} (hd : Delimits inner joins outer)
    (h : Chain joins one t ts w) (hx : Ends outer xs) : Ends inner (ts ++ xs) := by
  intro o more heq
  cases h with
  | nil => exact hd.inner_of_outer o (hx o more heq)
  | cons ho =>
    cases heq
    exact hd.inner_of_joins o ho

theorem Chain.settled (hd : Delimits inner joins outer) (hone : Settled one inner)
    {t w v : Tree α} {ts us xs ys : List (Token α)} (h : Chain joins one t ts w)
    (h' : Chain joins one t us v) (heq : ts ++ xs = us ++ ys) (hx : Ends outer xs) (hy : Ends outer ys) :
    ts = us ∧ w = v := by
  -- where one of the chains stops, the other cannot go on
  have stop : ∀ {o : Operator} {xs more : List (Token α)}, joins o = true → Ends outer xs →
      xs ≠ .operator o :: more := by
    intro o xs more ho hx heq
    rw [hd.joins_of_outer o (hx o more heq)] at ho
    cases ho
  induction h generalizing us with
  | nil =>
    cases h' with
    | nil => exact ⟨rfl, rfl⟩
    | cons ho => exact absurd heq (stop ho hx)
  | cons ho hu hrest ih =>
    cases h' with
    | nil => exact absurd heq.symm (stop ho hy)
    | cons ho' hu' hrest' =>
      simp only [List.cons_append, List.append_assoc, List.cons.injEq, Token.operator.injEq] at heq
      obtain ⟨rfl, heq⟩ := heq
      obtain ⟨rfl, rfl⟩ := hone _ _ _ _ _ _ hu hu' heq (hrest.ends hd hx) (hrest'.ends hd hy)
      obtain ⟨rfl, rfl⟩ := ih hrest' (List.append_cancel_left heq)
      exact ⟨rfl, rfl⟩

theorem Begins.settled (hd : Delimits inner joins outer) (hone : Settled one inner)
    {ts us xs ys front front' rest rest' : List (Token α)} {t u f f' : Tree α}
    (h : Begins joins one ts front t f rest) (h' : Begins joins one us front' u f' rest')
    (heq : ts ++ xs = us ++ ys) (hx : Ends outer xs) (hy : Ends outer ys) : ts = us ∧ t = u := by
  obtain ⟨rfl, hf, hc⟩ := h
  obtain ⟨rfl, hf', hc'⟩ := h'
  rw [List.append_assoc, List.append_assoc] at heq
  obtain ⟨rfl, rfl⟩ := hone _ _ _ _ _ _ hf hf' heq (hc.ends hd hx) (hc'.ends hd hy)
  obtain ⟨rfl, rfl⟩ := hc.settled hd hone hc' (List.append_cancel_left heq) hx hy
  exact ⟨rfl, rfl⟩

theorem settled_term (h : Settled (Derives (α := α) .factor room) fun _ => false) :
    Settled (Derives (α := α) .term room) Operator.multiplicative := by
  intro ts t us u xs ys ht hu heq hx hy
  obtain ⟨_, _, _, hb⟩ := ht.begins_term
  obtain ⟨_, _, _, hb'⟩ := hu.begins_term
  exact hb.settled ⟨fun _ _ => rfl, fun _ _ => rfl, fun _ => id⟩ h hb' heq hx hy

theorem settled_sum (h : Settled (Derives (α := α) .factor room) fun _ => false) :
    Settled (Derives (α := α) .sum room) fun _ => true := by
  intro ts t us u xs ys ht hu heq hx hy
  obtain ⟨_, _, _, hb⟩ := ht.begins_sum
  obtain ⟨_, _, _, hb'⟩ := hu.begins_sum
  have hd : Delimits Operator.multiplicative Operator.additive fun _ => true := by
    refine ⟨fun o ho => ?_, fun _ ho => Bool.noConfusion ho, fun _ ho => Bool.noConfusion ho⟩
    rw [Operator.multiplicative_eq, ho]
    rfl
  exact hb.settled hd (settled_term h) hb' heq hx hy

theorem settled_factor (room : Nat) : Settled (Derives (α := α) .factor room) fun _ => false := by
  induction room with
  | zero =>
    intro ts t us u xs ys ht hu heq _ _
    cases ht
    cases hu
    cases heq
    exact ⟨rfl, rfl⟩
  | succ room ih =>
    intro ts t us u xs ys ht hu heq _ _
    cases ht with
    | operand =>
      cases hu <;> cases heq
      exact ⟨rfl, rfl⟩
    | minus ht =>
      cases hu with
      | minus hu =>
        obtain ⟨rfl, rfl⟩ := ih _ _ _ _ _ _ ht hu (List.cons.inj heq).2 (fun _ _ _ => rfl)
          (fun _ _ _ => rfl)
        exact ⟨rfl, rfl⟩
      | _ => cases heq
    | group ht =>
      cases hu with
      | group hu =>
        simp only [List.cons_append, List.append_assoc, List.cons.injEq, true_and] at heq
        -- the parenthesis that closes is no operator, so both sums end before it
        obtain ⟨rfl, rfl⟩ := settled_sum ih _ _ _ _ _ _ ht hu heq nofun nofun
        exact ⟨rfl, rfl⟩
      | _ => cases heq

theorem Derives.unique {tokens : List (Token α)} {t u : Tree α} (ht : Derives .sum room tokens t)
    (hu : Derives .sum room tokens u) : t = u :=
  (settled_sum (settled_factor room) _ _ _ _ [] [] ht hu rfl nofun nofun).2

/-! ## What does not depend on the operands -/

/-- Readers that leave the same rest or have the same fault, whatever value they find. -/
def SameRest (reader other : Reader α) : Prop :=
  ∀ tokens, (reader tokens).map Prod.snd = (other tokens).map Prod.snd

/-- Steps that look at the rest alone. -/
theorem map_bind_eq {β γ δ : Type} {x y : Except ExpressionFault (Value × β)}
    {f g : Value × β → Except ExpressionFault γ} {p : γ → δ}
    (h : x.map Prod.snd = y.map Prod.snd)
    (hf : ∀ v w rest, (f (v, rest)).map p = (g (w, rest)).map p) :
    (x >>= f).map p = (y >>= g).map p := by
  cases x with
  | error e =>
    cases y with
    | error e' => exact congrArg Except.error (Except.error.inj h)
    | ok q => cases h
  | ok first =>
    cases y with
    | error e' => cases h
    | ok second =>
      obtain ⟨v, rest⟩ := first
      obtain ⟨w, rest'⟩ := second
      obtain rfl : rest = rest' := Except.ok.inj h
      exact hf v w rest

theorem SameRest.more {item other : Reader α} (h : SameRest item other) (rounds : Nat) (v w : Value)
    (tokens : List (Token α)) :
    (chain.more joins item rounds v tokens).map Prod.snd =
      (chain.more joins other rounds w tokens).map Prod.snd := by
  induction rounds generalizing v w tokens with
  | zero => rfl
  | succ rounds ih =>
    unfold chain.more
    split
    · rename_i heq
      cases heq
      dsimp only
      split
      · exact map_bind_eq (h _) fun _ _ _ => ih _ _ _
      · rfl
    · rfl

theorem SameRest.chain {item other : Reader α} (h : SameRest item other) :
    SameRest (chain joins item) (chain joins other) :=
  fun tokens => map_bind_eq (h tokens) fun v w rest => h.more rest.length v w rest

theorem SameRest.sum {factor other : Reader α} (h : SameRest factor other) :
    SameRest (sum factor) (sum other) :=
  h.chain.chain

theorem sameRest_factor (meaning other : α → Value) (room : Nat) :
    SameRest (factor meaning room) (factor other room) := by
  induction room with
  | zero =>
    intro tokens
    match tokens with
    | [] | .operand _ :: _ | .closing :: _ | .opening :: _ => rfl
    | .operator o :: _ => cases o <;> rfl
  | succ room ih =>
    intro tokens
    match tokens with
    | [] | .operand _ :: _ | .closing :: _ => rfl
    | .opening :: rest =>
      refine map_bind_eq (ih.sum rest) fun v w rest => ?_
      match rest with
      | .closing :: _ | [] | .opening :: _ | .operator _ :: _ | .operand _ :: _ => rfl
    | .operator .sub :: rest => exact map_bind_eq (ih rest) fun _ _ _ => rfl
    | .operator .add :: _ | .operator .mul :: _ | .operator .div :: _ => rfl

/-- Which fault a list has is in its tokens, not in what the operands stand for. -/
theorem evaluate_error {meaning : α → Value} {tokens : List (Token α)} {fault : ExpressionFault}
    (h : evaluate meaning tokens = .error fault) (other : α → Value) :
    evaluate other tokens = .error fault := by
  have hsame : (evaluate meaning tokens).map (fun _ => ()) = (evaluate other tokens).map (fun _ => ()) := by
    unfold evaluate
    split
    · rfl
    · refine map_bind_eq ((sameRest_factor meaning other limit).sum tokens) fun v w rest => ?_
      dsimp only
      split <;> rfl
  rw [h] at hsame
  cases ho : evaluate other tokens with
  | error e =>
    rw [ho] at hsame
    exact congrArg Except.error (Except.error.inj hsame).symm
  | ok v =>
    rw [ho] at hsame
    cases hsame

theorem Derives.value_congr {meaning other : α → Value} {level : Level} {tokens : List (Token α)}
    {t : Tree α} (h : Derives level room tokens t)
    (hm : ∀ x, .operand x ∈ tokens → meaning x = other x) : t.value meaning = t.value other := by
  induction h with
  | operand => exact congrArg Value.numeral (hm _ List.mem_cons_self)
  | minus _ ih => exact congrArg Value.neg (ih fun x hx => hm x (List.mem_cons_of_mem _ hx))
  | group _ ih => exact ih fun x hx => hm x (List.mem_cons_of_mem _ (List.mem_append_left _ hx))
  | term _ ih => exact ih hm
  | sum _ ih => exact ih hm
  | joinFactor _ _ _ iht ihu | joinTerm _ _ _ iht ihu =>
    have ht := iht fun x hx => hm x (List.mem_append_left _ hx)
    have hu := ihu fun x hx => hm x (List.mem_append_right _ (List.mem_cons_of_mem _ hx))
    rw [Tree.value, Tree.value, ht, hu]

/-- What the operands of the tokens stand for decides. -/
theorem evaluate_congr {meaning other : α → Value} {tokens : List (Token α)}
    (h : ∀ x, .operand x ∈ tokens → meaning x = other x) :
    evaluate meaning tokens = evaluate other tokens := by
  cases he : evaluate meaning tokens with
  | error fault => exact (evaluate_error he other).symm
  | ok v =>
    symm
    rcases evaluate_eq_ok_iff.mp he with hnil | ⟨t, ht, rfl⟩
    · exact evaluate_eq_ok_iff.mpr (.inl hnil)
    · exact evaluate_eq_ok_iff.mpr (.inr ⟨t, ht, ht.value_congr h⟩)

/-- A list of tokens is empty and has no value, or has one tree and the value of that tree, or has no tree
and a fault. Which of these it is, and which fault, is the same whatever the operands stand for. -/
theorem evaluate_by_grammar (tokens : List (Token α)) :
    (tokens = [] ∧ ∀ meaning, evaluate meaning tokens = .ok .null) ∨
    (∃ t, (∀ u, Derives .sum limit tokens u ↔ u = t) ∧
      ∀ meaning, evaluate meaning tokens = .ok (t.value meaning)) ∨
    (tokens ≠ [] ∧ (∀ t, ¬ Derives .sum limit tokens t) ∧
      ∃ fault, ∀ meaning, evaluate meaning tokens = .error fault) := by
  by_cases hnil : tokens = []
  · exact .inl ⟨hnil, fun _ => evaluate_eq_ok_iff.mpr (.inl ⟨hnil, rfl⟩)⟩
  · by_cases h : ∃ t, Derives .sum limit tokens t
    · obtain ⟨t, ht⟩ := h
      refine .inr (.inl ⟨t, fun u => ⟨fun hu => hu.unique ht, ?_⟩, fun meaning => ?_⟩)
      · rintro rfl
        exact ht
      · exact evaluate_eq_ok_iff.mpr (.inr ⟨t, ht, rfl⟩)
    · refine .inr (.inr ⟨hnil, fun t ht => h ⟨t, ht⟩, ?_⟩)
      cases he : evaluate (fun _ => Value.null) tokens with
      | error fault => exact ⟨fault, evaluate_error he⟩
      | ok v =>
        rcases evaluate_eq_ok_iff.mp he with ⟨hn, -⟩ | ⟨t, ht, -⟩
        · exact absurd hn hnil
        · exact absurd ⟨t, ht⟩ h

end Stencil.Expression
