import Stencil.Fault
import Stencil.Number.Binary32

/-! The data a template is rendered with, as programs hand it over, and the value it becomes. Kinds of
data that programs tell apart can become the same kind of value; two kinds of integers, and maps whose
keys have no name, become none. -/

namespace Stencil

/-- What a step of writing down a map gives. -/
inductive Role where
  | key
  | value
deriving DecidableEq, Repr

inductive Datum where
  | nothing
  | bool (b : Bool)
  | signed (n : Int64)
  | unsigned (n : UInt64)
  | wide (hasSign : Bool)
  | float32 (x : Float32)
  | float (x : Float)
  | char (c : Char)
  | text (s : String)
  | bytes (octets : List UInt8)
  | wrapped (inner : Datum)
  | sequence (items : List Datum)
  | map (steps : List (Role × Datum))
  | record (fields : List (String × Datum))

namespace Datum

/-- A map given by its entries: each key comes right before its value. -/
def ofEntries (entries : List (Datum × Datum)) : Datum :=
  .map (entries.flatMap fun (key, value) => [(.key, key), (.value, value)])

/-- Texts are names, and so are the displays of numbers and truth values. -/
def keyName : Value → Except ContextFault String
  | .str s => .ok s
  | .int n => .ok (Value.int n).display
  | .float x => .ok (Value.float x).display
  | .bool b => .ok (Value.bool b).display
  | key => .error (.badKey key)

mutual

def toValue : Datum → Except ContextFault Value
  | .nothing => .ok .null
  | .bool b => .ok (.bool b)
  | .signed n => .ok (.int n)
  | .unsigned n => .ok ((Value.ofInt? n.toNat).getD (.float (Float.ofNat n.toNat)))
  | .wide hasSign => .error (.wideInteger hasSign)
  | .float32 x => .ok (.float (Number.Binary32.widen x))
  | .float x => .ok (.float x)
  | .char c => .ok (.str (String.singleton c))
  | .text s => .ok (.str s)
  | .bytes octets => .ok (.list (octets.map fun b => .int (Int64.ofNat b.toNat)))
  | .wrapped inner => toValue inner
  | .sequence items => do return .list (← toValues items)
  | .map steps => do return .map (← toEntries [] none steps)
  | .record fields => do return .map (← toFields [] fields)
termination_by structural d => d

def toValues : List Datum → Except ContextFault (List Value)
  | [] => .ok []
  | item :: rest => do
    let value ← toValue item
    return value :: (← toValues rest)
termination_by structural items => items

/-- A value goes under the last key given since the value before it. -/
def toEntries (entries : Entries Value) (pending : Option String) :
    List (Role × Datum) → Except ContextFault (Entries Value)
  | [] => .ok entries
  | (.key, key) :: rest => do
    let name ← keyName (← toValue key)
    toEntries entries (some name) rest
  | (.value, value) :: rest => do
    let value ← toValue value
    match pending with
    | some name => toEntries (entries.insert name value) none rest
    | none => .error .valueWithoutKey
termination_by structural steps => steps

def toFields (entries : Entries Value) :
    List (String × Datum) → Except ContextFault (Entries Value)
  | [] => .ok entries
  | (name, value) :: rest => do
    let value ← toValue value
    toFields (entries.insert name value) rest
termination_by structural fields => fields

end

end Datum

end Stencil
