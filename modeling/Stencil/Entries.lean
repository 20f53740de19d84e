/-! Tables from names to values that remember the order in which the names came. A name that is
entered again keeps its place and takes the new value. -/

namespace Stencil

abbrev Entries (α : Type) :=
  List (String × α)

namespace Entries

variable {α : Type}

def keys (table : Entries α) : List String :=
  table.map (·.1)

def get? (key : String) : Entries α → Option α
  | [] => none
  | (k, value) :: rest => if k = key then some value else get? key rest

def contains (key : String) (table : Entries α) : Bool :=
  (table.get? key).isSome

def insert (key : String) (value : α) : Entries α → Entries α
  | [] => [(key, value)]
  | (k, old) :: rest => if k = key then (k, value) :: rest else (k, old) :: insert key value rest

def erase (key : String) (table : Entries α) : Entries α :=
  table.filter (·.1 ≠ key)

/-- The first value under the name, and the table without that entry. -/
def takeOut? (key : String) : Entries α → Option (α × Entries α)
  | [] => none
  | (k, value) :: rest =>
    if k = key then some (value, rest)
    else (takeOut? key rest).map fun (found, others) => (found, (k, value) :: others)

theorem get?_insert (table : Entries α) (key name : String) (value : α) :
    (table.insert key value).get? name = if key = name then some value else table.get? name := by
  induction table with
  | nil => rfl
  | cons entry rest ih => grind [insert, get?]

theorem get?_erase (table : Entries α) (key name : String) :
    (table.erase key).get? name = if key = name then none else table.get? name := by
  induction table with
  | nil => simp [erase, get?]
  | cons entry rest ih => grind [erase, get?]

theorem mem_keys_iff (table : Entries α) (name : String) :
    name ∈ table.keys ↔ table.contains name := by
  induction table with
  | nil => simp [keys, contains, get?]
  | cons entry rest ih => grind [keys, contains, get?]

theorem nodup_keys_insert {table : Entries α} (h : table.keys.Nodup) (key : String) (value : α) :
    (table.insert key value).keys.Nodup := by
  induction table with
  | nil => simp [insert, keys]
  | cons entry rest ih =>
    have hmem := mem_keys_iff (insert key value rest) entry.1
    have hrest := mem_keys_iff rest entry.1
    grind [insert, keys, contains, get?_insert]

theorem nodup_keys_erase {table : Entries α} (h : table.keys.Nodup) (key : String) :
    (table.erase key).keys.Nodup :=
  h.sublist (List.filter_sublist.map _)

end Entries

end Stencil
