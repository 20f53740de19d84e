import Stencil.Condition
import Stencil.Helper

/-! A template as a tree. Helpers are in it as functions, found when the template was compiled. -/

namespace Stencil

inductive Node where
  | text (text : String)
  | variable (source : Accessor) (escape : Bool)
  | call (name : String) (helper : Helper) (arguments : List Operand)
  | conditional (arms : List (Option Condition × List Node))
  | loop (source : Accessor) (body : List Node)

end Stencil
