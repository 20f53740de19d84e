import Mathlib.Data.List.Induction
import Stencil.Datum
import Stencil.Proofs.Outcome

/-! # Converting data

Converting a datum checks it from front to back and fails with the first thing that is wrong. What is
converted has the shape of the datum: lists keep their items, and a map has one entry for each name, in the
order in which the names came and with the value that came last. -/
namespace Stencil

/-! ## Tables -/

namespace Entries

variable {α : Type} {pairs : List (String × α)} {table : Entries α} {name : String}

/-- Enters the pairs one after the other. -/
def enterAll (table : Entries α) (pairs : List (String × α)) : Entries α :=
  pairs.foldl (fun table pair => table.insert pair.1 pair.2) table

/-- Each name once, in the order in which the names first come in the pairs, and with the value that comes
last under it. -/
structure Gathers (pairs : List (String × α)) (table : Entries α) : Prop where
  nodup : table.keys.Nodup
  keys_eq : table.keys = (pairs.map (·.1)).eraseDups
  get?_eq : ∀ name, table.get? name = get? name pairs.reverse

theorem keys_insert (table : Entries α) (name : String) (value : α) :
    (table.insert name value).keys = if name ∈ table.keys then table.keys else table.keys ++ [name] := by
  induction table with
  | nil => simp [insert, keys]
  | cons entry rest ih => grind [insert, keys]

theorem eraseDups_append_singleton (names : List String) (name : String) :
    (names ++ [name]).eraseDups =
      if name ∈ names then names.eraseDups else names.eraseDups ++ [name] := by
  rw [List.eraseDups_append, List.removeAll]
  by_cases h : name ∈ names <;> simp [h, List.eraseDups_cons]

theorem enterAll_concat (table : Entries α) (pairs : List (String × α)) (pair : String × α) :
    table.enterAll (pairs ++ [pair]) = (table.enterAll pairs).insert pair.1 pair.2 :=
  List.foldl_concat ..

theorem gathers_enterAll (pairs : List (String × α)) : Gathers pairs (enterAll [] pairs) := by
  induction pairs using List.reverseRecOn with
  | nil => exact ⟨List.nodup_nil, rfl, fun _ => rfl⟩
  | append_singleton pairs pair ih =>
    rw [enterAll_concat]
    refine ⟨nodup_keys_insert ih.nodup _ _, ?_, fun name => ?_⟩
    · rw [keys_insert, List.map_append, List.map_singleton, eraseDups_append_singleton, ih.keys_eq]
      simp only [List.mem_eraseDups]
    · rw [get?_insert, ih.get?_eq, List.reverse_append, List.reverse_singleton, List.singleton_append,
        get?]

theorem insert_of_not_mem (h : name ∉ table.keys) (value : α) :
    table.insert name value = table ++ [(name, value)] := by
  induction table with
  | nil => rfl
  | cons entry rest ih =>
    obtain ⟨hne, hrest⟩ := not_or.mp (mt List.mem_cons.mpr h)
    rw [insert, if_neg (Ne.symm hne), ih hrest, List.cons_append]

/-- Nothing is lost just when no name comes again. -/
theorem enterAll_eq_self_iff : enterAll [] pairs = pairs ↔ (pairs.map (·.1)).Nodup := by
  constructor
  · intro h
    have hnodup := (gathers_enterAll pairs).nodup
    rwa [h] at hnodup
  · intro h
    induction pairs using List.reverseRecOn with
    | nil => rfl
    | append_singleton pairs pair ih =>
      rw [List.map_append, List.map_singleton] at h
      obtain ⟨hpairs, -, hdisjoint⟩ := List.nodup_append.mp h
      have hnew : pair.1 ∉ keys pairs := fun hmem => hdisjoint _ hmem _ (List.mem_singleton_self _) rfl
      rw [enterAll_concat, ih hpairs, insert_of_not_mem hnew]

theorem get?_append_of_not_mem (h : name ∉ table.keys) (rest : List (String × α)) :
    get? name (table ++ rest) = get? name rest := by
  induction table with
  | nil => rfl
  | cons entry table ih =>
    obtain ⟨hne, htable⟩ := not_or.mp (mt List.mem_cons.mpr h)
    rw [List.cons_append, get?, if_neg (Ne.symm hne), ih htable]

end Entries

namespace Datum

/-! ## What is checked -/

/-- Values that name nothing. -/
def nameless : Value → Bool
  | .null | .list _ | .map _ => true
  | _ => false

/-- A check on the way through a datum. -/
inductive Check where
  /-- Whether an integer is in a range: this one of 128 bits is not. -/
  | wide (hasSign : Bool)
  /-- Whether a key has become a value that is a name. -/
  | key (key : Datum)
  /-- Whether there is a key for a value. -/
  | value (hasKey : Bool)

def Check.fault? : Check → Option ContextFault
  | .wide hasSign => some (.wideInteger hasSign)
  | .key d =>
    match d.toValue with
    | .ok name => if nameless name then some (.badKey name) else none
    | .error _ => none
  | .value hasKey => if hasKey then none else some .valueWithoutKey

mutual

/-- All checks of the datum in order: of a key or a value those inside of it come first. -/
def checks : Datum → List Check
  | .wide hasSign => [.wide hasSign]
  | .wrapped inner => checks inner
  | .sequence items => checksOfItems items
  | .map steps => checksOfSteps false steps
  | .record fields => checksOfFields fields
  | _ => []
termination_by structural d => d

def checksOfItems : List Datum → List Check
  | [] => []
  | item :: rest => checks item ++ checksOfItems rest
termination_by structural items => items

/-- There is a key for a value if the step right before it was a key. -/
def checksOfSteps (hasKey : Bool) : List (Role × Datum) → List Check
  | [] => []
  | (.key, key) :: rest => checks key ++ .key key :: checksOfSteps true rest
  | (.value, value) :: rest => checks value ++ .value hasKey :: checksOfSteps false rest
termination_by structural steps => steps

def checksOfFields : List (String × Datum) → List Check
  | [] => []
  | (_, value) :: rest => checks value ++ checksOfFields rest
termination_by structural fields => fields

end

def firstFault? (checks : List Check) : Option ContextFault :=
  checks.findSome? Check.fault?

theorem firstFault?_append (first more : List Check) :
    firstFault? (first ++ more) = (firstFault? first).or (firstFault? more) :=
  List.findSome?_append

theorem firstFault?_cons (check : Check) (more : List Check) :
    firstFault? (check :: more) = check.fault?.or (firstFault? more) := by
  rw [firstFault?, List.findSome?_cons]
  cases check.fault? <;> rfl

/-- A datum that is no container. -/
def Leaf : Datum → Prop
  | .bytes _ | .wrapped _ | .sequence _ | .map _ | .record _ => False
  | _ => True

/-- Of each datum, if of a datum whenever of all that are in it. -/
@[elab_as_elim]
theorem induction {motive : Datum → Prop} (leaf : ∀ d, Leaf d → motive d)
    (bytes : ∀ octets, motive (.bytes octets)) (wrapped : ∀ inner, motive inner → motive (.wrapped inner))
    (sequence : ∀ items : List Datum, (∀ item ∈ items, motive item) → motive (.sequence items))
    (map : ∀ steps : List (Role × Datum), (∀ step ∈ steps, motive step.2) → motive (.map steps))
    (record : ∀ fields : List (String × Datum), (∀ field ∈ fields, motive field.2) →
      motive (.record fields)) (d : Datum) : motive d :=
  @Datum.rec motive (fun items => ∀ item ∈ items, motive item) (fun steps => ∀ step ∈ steps, motive step.2)
    (fun fields => ∀ field ∈ fields, motive field.2) (fun step => motive step.2)
    (fun field => motive field.2) (leaf _ trivial) (fun _ => leaf _ trivial) (fun _ => leaf _ trivial)
    (fun _ => leaf _ trivial) (fun _ => leaf _ trivial) (fun _ => leaf _ trivial)
    (fun _ => leaf _ trivial) (fun _ => leaf _ trivial) (fun _ => leaf _ trivial)
    bytes wrapped sequence map record (List.forall_mem_nil _)
    (fun _ _ hfirst hrest => List.forall_mem_cons.mpr ⟨hfirst, hrest⟩) (List.forall_mem_nil _)
    (fun _ _ hfirst hrest => List.forall_mem_cons.mpr ⟨hfirst, hrest⟩) (List.forall_mem_nil _)
    (fun _ _ hfirst hrest => List.forall_mem_cons.mpr ⟨hfirst, hrest⟩) (fun _ _ h => h) (fun _ _ h => h) d

/-! ## The first fault -/

theorem error?_keyName (v : Value) :
    (keyName v).error? = if nameless v then some (.badKey v) else none := by
  cases v <;> rfl

theorem error?_toValues {items : List Datum}
    (h : ∀ item ∈ items, item.toValue.error? = firstFault? item.checks) :
    (toValues items).error? = firstFault? (checksOfItems items) := by
  induction items with
  | nil => rfl
  | cons item rest ih =>
    obtain ⟨hitem, hrest⟩ := List.forall_mem_cons.mp h
    rw [toValues, checksOfItems, firstFault?_append, ← hitem, ← ih hrest]
    exact Except.error?_bind fun _ _ => Except.error?_bind_ok

theorem error?_toEntries {steps : List (Role × Datum)}
    (h : ∀ step ∈ steps, step.2.toValue.error? = firstFault? step.2.checks) (table : Entries Value)
    (pending : Option String) :
    (toEntries table pending steps).error? = firstFault? (checksOfSteps pending.isSome steps) := by
  induction steps generalizing table pending with
  | nil => rfl
  | cons step rest ih =>
    obtain ⟨hstep, hrest⟩ := List.forall_mem_cons.mp h
    obtain ⟨_ | _, d⟩ := step
    · rw [toEntries, checksOfSteps, firstFault?_append, firstFault?_cons, ← hstep]
      refine Except.error?_bind fun key hkey => ?_
      rw [Check.fault?, hkey]
      dsimp only
      rw [← error?_keyName]
      exact Except.error?_bind fun name _ => ih hrest table (some name)
    · rw [toEntries, checksOfSteps, firstFault?_append, firstFault?_cons, ← hstep]
      refine Except.error?_bind fun value _ => ?_
      cases pending with
      | none => rfl
      | some name => exact ih hrest (table.insert name value) none

theorem error?_toFields {fields : List (String × Datum)}
    (h : ∀ field ∈ fields, field.2.toValue.error? = firstFault? field.2.checks) (table : Entries Value) :
    (toFields table fields).error? = firstFault? (checksOfFields fields) := by
  induction fields generalizing table with
  | nil => rfl
  | cons field rest ih =>
    obtain ⟨hfield, hrest⟩ := List.forall_mem_cons.mp h
    obtain ⟨name, d⟩ := field
    rw [toFields, checksOfFields, firstFault?_append, ← hfield]
    exact Except.error?_bind fun value _ => ih hrest (table.insert name value)

theorem error?_toValue (d : Datum) : d.toValue.error? = firstFault? d.checks := by
  induction d using Datum.induction with
  | leaf d hd => cases d <;> first | rfl | exact hd.elim
  | bytes => rfl
  | wrapped inner ih => exact ih
  | sequence items ih => exact Except.error?_bind_ok.trans (error?_toValues ih)
  | map steps ih => exact Except.error?_bind_ok.trans (error?_toEntries ih [] none)
  | record fields ih => exact Except.error?_bind_ok.trans (error?_toFields ih [])

/-! ## The value -/

/-- The keys with a value right behind them, and these values. -/
def assignments (steps : List (Role × Datum)) : List (Datum × Datum) :=
  (steps.zip steps.tail).filterMap fun
    | ((.key, key), (.value, value)) => some (key, value)
    | _ => none

theorem assignments_key_value (key value : Datum) (rest : List (Role × Datum)) :
    assignments ((.key, key) :: (.value, value) :: rest) =
      (key, value) :: assignments ((.value, value) :: rest) :=
  rfl

theorem assignments_value (value : Datum) (rest : List (Role × Datum)) :
    assignments ((.value, value) :: rest) = assignments rest := by
  cases rest <;> rfl

/-- A value that is no container. -/
def IsScalar : Value → Prop
  | .list _ | .map _ => False
  | _ => True

/-- The value of a datum, at every depth. A list has the values of the items in order. The table of a map
gathers the names and the values of the keys with a value right behind them, the one of a record its fields. -/
inductive Converted : Datum → Value → Prop
  | scalar {d v} : Leaf d → IsScalar v → d.toValue = .ok v → Converted d v
  | bytes {octets} : Converted (.bytes octets) (.list (octets.map fun b => .int (Int64.ofNat b.toNat)))
  | wrapped {inner v} : Converted inner v → Converted (.wrapped inner) v
  | sequence {items values} : List.Forall₂ Converted items values →
      Converted (.sequence items) (.list values)
  | map {steps keys entries table} :
      List.Forall₂ Converted ((assignments steps).map (·.1)) keys →
      List.Forall₂ (fun key name => keyName key = .ok name) keys (entries.map (·.1)) →
      List.Forall₂ Converted ((assignments steps).map (·.2)) (entries.map (·.2)) →
      Entries.Gathers entries table → Converted (.map steps) (.map table)
  | record {fields entries table} : fields.map (·.1) = entries.map (·.1) →
      List.Forall₂ Converted (fields.map (·.2)) (entries.map (·.2)) →
      Entries.Gathers entries table → Converted (.record fields) (.map table)

theorem toValues_eq_mapM (items : List Datum) : toValues items = items.mapM toValue := by
  induction items with
  | nil => rfl
  | cons item rest ih =>
    rw [toValues, ih, List.mapM_cons]

/-- The entry that a key and a value right behind it become. -/
def Stores (pair : Datum × Datum) (entry : String × Value) : Prop :=
  ∃ key, pair.1.toValue = .ok key ∧ keyName key = .ok entry.1 ∧ pair.2.toValue = .ok entry.2

/-- The step right before, if it was a key of this name. -/
inductive Pending : Option String → List (Role × Datum) → Prop
  | none : Pending none []
  | some {d key name} : d.toValue = .ok key → keyName key = .ok name → Pending (some name) [(.key, d)]

theorem toEntries_stores {steps before : List (Role × Datum)} {pending : Option String}
    {table result : Entries Value} (hp : Pending pending before)
    (h : toEntries table pending steps = .ok result) :
    ∃ entries, List.Forall₂ Stores (assignments (before ++ steps)) entries ∧
      result = table.enterAll entries := by
  induction steps generalizing table pending before with
  | nil =>
    cases h
    cases hp <;> exact ⟨[], .nil, rfl⟩
  | cons step rest ih =>
    obtain ⟨_ | _, d⟩ := step
    · obtain ⟨key, hkey, h⟩ := Except.bind_eq_ok_iff.mp h
      obtain ⟨name, hname, h⟩ := Except.bind_eq_ok_iff.mp h
      -- a key before this one is forgotten
      obtain ⟨entries, hentries, rfl⟩ := ih (.some hkey hname) h
      cases hp <;> exact ⟨entries, hentries, rfl⟩
    · obtain ⟨value, hvalue, h⟩ := Except.bind_eq_ok_iff.mp h
      cases hp with
      | none => cases h
      | some hkey hname =>
        obtain ⟨entries, hentries, rfl⟩ := ih .none h
        refine ⟨(_, value) :: entries, ?_, rfl⟩
        rw [List.singleton_append, assignments_key_value, assignments_value]
        exact .cons ⟨_, hkey, hname, hvalue⟩ hentries

theorem toEntries_of_stores {pairs : List (Datum × Datum)} {entries : List (String × Value)}
    (h : List.Forall₂ Stores pairs entries) (table : Entries Value) :
    toEntries table none (pairs.flatMap fun (key, value) => [(.key, key), (.value, value)]) =
      .ok (table.enterAll entries) := by
  induction h generalizing table with
  | nil => rfl
  | @cons pair entry pairs entries hstores _ ih =>
    obtain ⟨key, hkey, hname, hvalue⟩ := hstores
    rw [List.flatMap_cons, List.cons_append, toEntries, hkey]
    show (keyName key >>= _) = _
    rw [hname]
    show (pair.2.toValue >>= _) = _
    rw [hvalue]
    exact ih (table.insert entry.1 entry.2)

theorem toFields_stores {fields : List (String × Datum)} {table result : Entries Value}
    (h : toFields table fields = .ok result) :
    ∃ entries, fields.map (·.1) = entries.map (·.1) ∧
      List.Forall₂ (fun d v => d.toValue = .ok v) (fields.map (·.2)) (entries.map (·.2)) ∧
      result = table.enterAll entries := by
  induction fields generalizing table with
  | nil =>
    cases h
    exact ⟨[], rfl, .nil, rfl⟩
  | cons field rest ih =>
    obtain ⟨name, d⟩ := field
    obtain ⟨value, hvalue, h⟩ := Except.bind_eq_ok_iff.mp h
    obtain ⟨entries, hnames, hvalues, rfl⟩ := ih h
    exact ⟨(name, value) :: entries, congrArg (name :: ·) hnames, .cons hvalue hvalues, rfl⟩

theorem mem_of_mem_assignments {steps : List (Role × Datum)} {pair : Datum × Datum}
    (h : pair ∈ assignments steps) : (.key, pair.1) ∈ steps ∧ (.value, pair.2) ∈ steps := by
  obtain ⟨⟨⟨first, key⟩, ⟨second, value⟩⟩, hzip, hpair⟩ := List.mem_filterMap.mp h
  obtain ⟨hkey, hvalue⟩ := List.of_mem_zip hzip
  cases first <;> cases second <;> cases hpair
  exact ⟨hkey, List.mem_of_mem_tail hvalue⟩

theorem converted_of_forall₂ {items : List Datum} {values : List Value}
    (h : ∀ item ∈ items, ∀ v, item.toValue = .ok v → Converted item v)
    (hv : List.Forall₂ (fun item v => item.toValue = .ok v) items values) :
    List.Forall₂ Converted items values := by
  induction hv with
  | nil => exact .nil
  | cons hitem _ ih =>
    obtain ⟨hfirst, hrest⟩ := List.forall_mem_cons.mp h
    exact .cons (hfirst _ hitem) (ih hrest)

theorem forall₂_of_stores {pairs : List (Datum × Datum)} {entries : List (String × Value)}
    (h : List.Forall₂ Stores pairs entries) :
    ∃ keys, List.Forall₂ (fun d key => d.toValue = .ok key) (pairs.map (·.1)) keys ∧
      List.Forall₂ (fun key name => keyName key = .ok name) keys (entries.map (·.1)) ∧
      List.Forall₂ (fun d v => d.toValue = .ok v) (pairs.map (·.2)) (entries.map (·.2)) := by
  induction h with
  | nil => exact ⟨[], .nil, .nil, .nil⟩
  | cons hstores _ ih =>
    obtain ⟨key, hkey, hname, hvalue⟩ := hstores
    obtain ⟨keys, hkeys, hnames, hvalues⟩ := ih
    exact ⟨key :: keys, .cons hkey hkeys, .cons hname hnames, .cons hvalue hvalues⟩

theorem converted_map {steps : List (Role × Datum)} {table : Entries Value}
    (h : ∀ step ∈ steps, ∀ v, step.2.toValue = .ok v → Converted step.2 v)
    (ht : toEntries [] none steps = .ok table) : Converted (.map steps) (.map table) := by
  obtain ⟨entries, hentries, rfl⟩ := toEntries_stores .none ht
  obtain ⟨keys, hkeys, hnames, hvalues⟩ := forall₂_of_stores hentries
  refine .map (converted_of_forall₂ ?_ hkeys) hnames (converted_of_forall₂ ?_ hvalues)
    (Entries.gathers_enterAll entries)
  · intro d hd
    obtain ⟨pair, hpair, rfl⟩ := List.mem_map.mp hd
    exact h _ (mem_of_mem_assignments hpair).1
  · intro d hd
    obtain ⟨pair, hpair, rfl⟩ := List.mem_map.mp hd
    exact h _ (mem_of_mem_assignments hpair).2

theorem converted_record {fields : List (String × Datum)} {table : Entries Value}
    (h : ∀ field ∈ fields, ∀ v, field.2.toValue = .ok v → Converted field.2 v)
    (ht : toFields [] fields = .ok table) : Converted (.record fields) (.map table) := by
  obtain ⟨entries, hnames, hvalues, rfl⟩ := toFields_stores ht
  refine .record hnames (converted_of_forall₂ ?_ hvalues) (Entries.gathers_enterAll entries)
  intro d hd
  obtain ⟨field, hfield, rfl⟩ := List.mem_map.mp hd
  exact h field hfield

theorem converted_of_toValue (d : Datum) : ∀ v, d.toValue = .ok v → Converted d v := by
  induction d using Datum.induction with
  | leaf d hd =>
    intro v h
    cases d with
    | bytes | wrapped | sequence | map | record => exact hd.elim
    | wide => cases h
    | unsigned n =>
      have hv : IsScalar ((Value.ofInt? n.toNat).getD (.float (Float.ofNat n.toNat))) := by
        rw [Value.ofInt?]
        split <;> trivial
      cases h
      exact .scalar hd hv rfl
    | _ =>
      have hv := h
      cases h
      exact .scalar hd trivial hv
  | bytes octets =>
    intro v h
    cases h
    exact .bytes
  | wrapped inner ih => exact fun v h => .wrapped (ih v h)
  | sequence items ih =>
    intro v h
    obtain ⟨values, hvalues, hv⟩ := Except.bind_eq_ok_iff.mp h
    cases hv
    rw [toValues_eq_mapM] at hvalues
    exact .sequence (converted_of_forall₂ ih (Except.forall₂_of_mapM hvalues))
  | map steps ih =>
    intro v h
    obtain ⟨table, ht, hv⟩ := Except.bind_eq_ok_iff.mp h
    cases hv
    exact converted_map ih ht
  | record fields ih =>
    intro v h
    obtain ⟨table, ht, hv⟩ := Except.bind_eq_ok_iff.mp h
    cases hv
    exact converted_record ih ht

/-- Whether a datum is converted, which fault is told, and what it becomes. -/
theorem toValue_outcome (d : Datum) :
    (∀ fault, d.toValue = .error fault ↔ ∃ passed check rest, d.checks = passed ++ check :: rest ∧
      check.fault? = some fault ∧ ∀ earlier ∈ passed, earlier.fault? = none) ∧
    ((∃ fault, d.toValue = .error fault) ↔ ∃ check ∈ d.checks, check.fault?.isSome) ∧
    ∀ v, d.toValue = .ok v → Converted d v := by
  have hfault : ∀ fault, d.toValue = .error fault ↔ firstFault? d.checks = some fault := fun fault => by
    rw [← error?_toValue, Except.error?_eq_some_iff]
  refine ⟨fun fault => (hfault fault).trans List.findSome?_eq_some_iff, ?_, converted_of_toValue d⟩
  rw [exists_congr hfault, ← Option.isSome_iff_exists, firstFault?, List.findSome?_isSome_iff]

/-- The first of two faults is told; a key is forgotten when another follows and when nothing does; a name
that comes again keeps its place. -/
theorem toValue_outcome_again :
    (∃ passed check rest,
      (sequence [nothing, map [(.key, sequence []), (.value, wide true)]]).checks = passed ++ check :: rest ∧
      check.fault? = some (.badKey (.list [])) ∧ ∀ earlier ∈ passed, earlier.fault? = none) ∧
    Converted (map [(.key, text "x"), (.key, signed 1), (.value, nothing), (.key, text "y"),
        (.value, bytes []), (.key, text "1"), (.value, bool true), (.key, text "z")])
      (.map [("1", .bool true), ("y", .list [])]) :=
  ⟨((toValue_outcome _).1 _).mp rfl, (toValue_outcome _).2.2 _ rfl⟩

end Datum

end Stencil
