import Std.Data.TreeMap
import ContentModels.Diagnostic
import ContentModels.Failure
import ContentModels.Unit

set_option autoImplicit false

namespace ContentModels.Emission

inductive Role where
  | entry
  | blockVariant
  | blockSet
  | group
  | support
  deriving Repr, DecidableEq

structure Key where
  uid : String
  role : Role
  qualified : String
  deriving Repr, DecidableEq

structure Ledger where
  -- The keys that are done, under their qualified names.
  completed : Std.TreeMap String (List Key) := {}
  -- The emissions that have begun, the outermost first.
  inProgress : List Key := []
  -- The qualified names of the units, each with the key it was emitted under.
  claimed : Std.TreeMap String Key := {}
  units : Array GeneratedUnit := #[]
  diagnostics : Array Diagnostic := #[]

namespace Ledger

def report (l : Ledger) (diagnostics : List Diagnostic) : Ledger :=
  { l with diagnostics := l.diagnostics ++ diagnostics }

def completedAs (l : Ledger) (qualified : String) : List Key := l.completed.getD qualified []

def isCompleted (l : Ledger) (key : Key) : Bool := (l.completedAs key.qualified).contains key

def settle (l : Ledger) (key : Key) : Ledger :=
  if l.isCompleted key then l
  else
    { l with
      completed := l.completed.insert key.qualified (key :: l.completedAs key.qualified) }

def complete (l : Ledger) (key : Key) : Ledger :=
  { l with inProgress := l.inProgress.filter (· ≠ key) }.settle key

def collision (key owner : Key) (qualified : String) : Diagnostic :=
  ⟨.nameCollision, qualified,
    "'" ++ key.uid ++ "' derives the same name as '" ++ owner.uid ++ "', keeping the first"⟩

def push (l : Ledger) (key : Key) (unit : GeneratedUnit) : Ledger :=
  match l.claimed[unit.qualifiedName]? with
  | none =>
    { l with
      claimed := l.claimed.insert unit.qualifiedName key
      units := l.units.push unit }
  | some owner => if owner = key then l else l.report [collision key owner unit.qualifiedName]

def pushOnce (l : Ledger) (key : Key) (unit : GeneratedUnit) : Ledger :=
  if l.isCompleted key then l else (l.settle key).push key unit

end Ledger

end ContentModels.Emission
