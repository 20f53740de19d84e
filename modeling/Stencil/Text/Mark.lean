/-! Quotation marks, the single and the double one. A quoted text ends at the next mark of the kind that
opened it. -/

namespace Stencil.Text.Mark

def isMark (c : Char) : Bool :=
  c = '\x27' || c = '"'

end Stencil.Text.Mark
