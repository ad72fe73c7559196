import ContentModels.Spelling

set_option autoImplicit false

namespace ContentModels

structure Renderer where
  id : String
  name : String
  -- The extension of its files.
  extension : String
  text : GeneratedUnit → String

structure RenderedUnit where
  name : String
  -- The path below the output root.
  path : String
  content : String
  deriving Repr, DecidableEq

namespace Renderer

def csharp (nullable : Bool) : Renderer where
  id := "csharp"
  name := "C# Model Renderer"
  extension := "cs"
  text := Spelling.text nullable

def render (r : Renderer) (u : GeneratedUnit) : RenderedUnit :=
  ⟨u.name, u.relativePath r.extension, r.text u⟩

def renderAll (r : Renderer) (units : List GeneratedUnit) : List RenderedUnit := units.map r.render

end Renderer

end ContentModels
