import Stencil.Template

/-! An engine keeps helpers, and compiled templates under names. A template compiled earlier goes on
calling the helpers it has found, whatever becomes of them in the engine. -/

namespace Stencil

structure Options where
  delimiters : Delimiters := {}
  maxDepth : Nat := 64
  cache : Bool := true

/-- A template in the cache, with the text it was compiled from. -/
structure Cached where
  source : String
  template : Template

structure Engine where
  options : Options := {}
  helpers : Entries Helper := []
  cache : Entries Cached := []

namespace Engine

def register (engine : Engine) (name : String) (helper : Helper) : Engine :=
  { engine with helpers := engine.helpers.insert name helper }

def registerAll (engine : Engine) (more : List (String × Helper)) : Engine :=
  { engine with helpers := Helper.registerAll engine.helpers more }

def hasHelper (engine : Engine) (name : String) : Bool :=
  engine.helpers.contains name

def unregister (engine : Engine) (name : String) : Engine :=
  { engine with helpers := engine.helpers.erase name }

def settings (engine : Engine) : Settings :=
  ⟨engine.options.delimiters, engine.helpers, engine.options.maxDepth⟩

def compile (engine : Engine) (source : String) : Except Error Template :=
  Template.compile engine.settings source

/-- The template cached under the name, if it was compiled from this very text. -/
def cached? (engine : Engine) (name source : String) : Option Template :=
  match engine.cache.get? name with
  | some cached => if cached.source = source then some cached.template else none
  | none => none

/-- The template to be rendered under the name. Only a new one that could be compiled is put into the
cache, in the place of an older one. -/
def load (engine : Engine) (name source : String) : Except Error Template × Engine :=
  if engine.options.cache then
    match engine.cached? name source with
    | some template => (.ok template, engine)
    | none =>
      match engine.compile source with
      | .ok template =>
        (.ok template, { engine with cache := engine.cache.insert name ⟨source, template⟩ })
      | .error e => (.error e, engine)
  else (engine.compile source, engine)

def renderTemplate (engine : Engine) (name source : String) (context : Datum) :
    Except Error String × Engine :=
  let (template, engine) := engine.load name source
  (do (← template).renderDatum context, engine)

def hasTemplate (engine : Engine) (name : String) : Bool :=
  engine.cache.contains name

def removeTemplate (engine : Engine) (name : String) : Engine :=
  { engine with cache := engine.cache.erase name }

def cachedTemplates (engine : Engine) : Nat :=
  engine.cache.length

end Engine

end Stencil
