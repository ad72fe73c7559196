import ContentModels.Config
import ContentModels.Emission
import ContentModels.Rendering
import ContentModels.Source

set_option autoImplicit false

namespace ContentModels

structure Models where
  stack : Stack
  contentTypes : Nat
  globalFields : Nat
  policy : ReferencePolicy
  units : List RenderedUnit
  diagnostics : List Diagnostic

namespace Models

def warnings (models : Models) : List Diagnostic := models.diagnostics.filter (·.kind.isWarning)

def ofRegistry (config : Config) (stack : Stack) (registry : Registry) : Except Failure Models :=
  let policy := config.features.references.policy stack.schemaVersion
  match Emission.generate registry (config.emissionOptions policy) with
  | .error failure => .error (.generate failure)
  | .ok output =>
    .ok {
      stack := stack
      contentTypes := registry.contentTypes.length
      globalFields := registry.globalFields.length
      policy := policy
      units := (Renderer.csharp config.features.nullable).renderAll output.units
      diagnostics := output.diagnostics }

abbrev FallibleSource (m : Type → Type) := Source (ExceptT FetchFailure m)

variable {m : Type → Type} [Monad m]

def fetching {α : Type} (act : ExceptT FetchFailure m α) : ExceptT Failure m α :=
  act.adapt .fetch

def ofSource (config : Config) (source : FallibleSource m) : ExceptT Failure m Models := do
  let stack ← fetching source.stack
  let registry ← fetching source.loadRegistry
  ExceptT.mk (pure (ofRegistry config stack registry))

end Models

end ContentModels
