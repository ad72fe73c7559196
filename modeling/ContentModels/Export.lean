import ContentModels.Failure
import ContentModels.Json.Reader
import ContentModels.Schema.Reading
import ContentModels.Source

set_option autoImplicit false

namespace ContentModels

open Json

structure Export where
  stack : Option Stack := none
  contentTypes : List Definition := []
  globalFields : List Definition := []

namespace Export

structure Columns where
  stack : Option (Option Stack) := none
  contentTypes : Option (List Definition) := none
  globalFields : Option (List Definition) := none

def Columns.exported (c : Columns) : Export where
  stack := c.stack.getD none
  contentTypes := c.contentTypes.getD []
  globalFields := c.globalFields.getD []

def record (budget : Nat) : Record Columns where
  keys := ["stack", "content_types", "global_fields"]
  start := {}
  put key d c :=
    match key with
    | "stack" => (fun v => { c with stack := v }) <$> fill c.stack (d.nullable (Stack.read budget))
    | "content_types" =>
      (fun v => { c with contentTypes := v }) <$> fill c.contentTypes (readDefinitions budget d)
    | _ => (fun v => { c with globalFields := v }) <$> fill c.globalFields (readDefinitions budget d)

def read : Nat → Draft → Except Fault Export
  | 0, d => .error d.overrun
  | budget + 1, d => Columns.exported <$> (record budget).read d

def ofDocument (path : String) (document : Document) : Except FetchFailure Export :=
  match document.decode (read nestingBudget) with
  | .ok exported => .ok exported
  | .error fault => .error (.invalidExport path fault)

def ofText (path text : String) : Except FetchFailure Export := ofDocument path (.ofText text)

def definitions (e : Export) : Collection → List Definition
  | .contentTypes => e.contentTypes
  | .globalFields => e.globalFields

def page (e : Export) (collection : Collection) (skip : Nat) : Page :=
  let all := e.definitions collection
  ⟨(all.drop skip).take pageSize, .ofNat all.length⟩

def source {m : Type → Type} [Monad m] (e : Export) : Source m where
  stack := pure (e.stack.getD {})
  page collection skip := pure (e.page collection skip)

end Export

end ContentModels
