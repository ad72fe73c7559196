import ContentModels.Emission.Walk
import ContentModels.SupportUnits

set_option autoImplicit false

namespace ContentModels.Emission

open Naming

structure Output where
  units : List GeneratedUnit
  diagnostics : List Diagnostic
  deriving Repr, DecidableEq

namespace Output

def unit? (o : Output) (name : String) : Option GeneratedUnit := o.units.find? (·.name = name)

def unitsOf (o : Output) (kind : UnitKind) : List GeneratedUnit :=
  o.units.filter (·.kind = kind)

def diagnosticsOf (o : Output) (kind : DiagnosticKind) : List Diagnostic :=
  o.diagnostics.filter (·.kind = kind)

end Output

def Ledger.output (l : Ledger) : Output := ⟨l.units.toList, l.diagnostics.toList⟩

def emitSupport (c : Context) (l : Ledger) : Ledger :=
  (supportUnits c.registry (c.namespacePath c.rootScope) c.rootScope).foldl
    (fun l unit => l.pushOnce ⟨unit.name, .support, unit.qualifiedName⟩ unit) l

def emitDefinition (c : Context) (d : Definition) : Emitter Unit :=
  let o := Outline.ofEntry c d
  emitModel c o (emitNested c o.scope o.name d.fields)

def emitDefinitions (c : Context) : List Definition → Emitter Unit
  | [] => pure ()
  | d :: rest => do
    emitDefinition c d
    emitDefinitions c rest

inductive Request where
  | definition (d : Definition)
  | registered (uid : String)
  | support

namespace Request

def target (c : Context) : Request → Except GenerationFailure (Option Definition)
  | .definition d => .ok (some d)
  | .registered uid =>
    match c.registry.lookup uid with
    | some d => .ok (some d)
    | none => .error (.unknownContentType uid)
  | .support => .ok none

def emit (c : Context) (r : Request) : Emitter (Option String) := do
  match ← MonadExcept.ofExcept (r.target c) with
  | none =>
    modify (emitSupport c)
    return none
  | some d =>
    emitDefinition c d
    return some (definitionName d.title d.uid)

def answer (c : Context) (r : Request) (l : Ledger) :
    Except GenerationFailure (Option String) × Ledger :=
  (r.emit c).runFrom l

end Request

def answerAll (c : Context) : List Request → Ledger →
    List (Except GenerationFailure (Option String)) × Ledger
  | [], l => ([], l)
  | request :: rest, l =>
    let (answer, l) := request.answer c l
    let (answers, l) := answerAll c rest l
    (answer :: answers, l)

def emitAll (c : Context) : Emitter Unit := do
  if c.options.supportUnits then
    modify (emitSupport c)
  emitDefinitions c c.registry.all

def generate (registry : Registry) (options : Options) : Except GenerationFailure Output :=
  let (outcome, l) := (emitAll ⟨registry, options⟩).runFrom {}
  outcome.map fun _ => l.output

end ContentModels.Emission
