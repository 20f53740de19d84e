import Stencil.Compilation
import Stencil.Datum
import Stencil.Rendering

/-! Templates that have been compiled, and what they make of a context. -/

namespace Stencil
open Text.Blank

structure Template where
  nodes : List Node

namespace Template

def compile (settings : Settings) (source : String) : Except Error Template := do
  return ⟨← Compilation.compile settings source⟩

/-- The text for a context, without the blanks at its ends. -/
def render (template : Template) (context : Value) : Except Error String :=
  match renderAll template.nodes ⟨Scope.ofRoot context, ""⟩ with
  | .ok () page => .ok (trimmed page.out)
  | .error e _ => .error e

def renderDatum (template : Template) (context : Datum) : Except Error String := do
  template.render (← context.toValue.mapError .context)

end Template

end Stencil
