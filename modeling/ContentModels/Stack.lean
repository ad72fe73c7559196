import ContentModels.Date
import ContentModels.Json.Draft

set_option autoImplicit false

namespace ContentModels

open Json

structure Stack where
  name : String := ""
  uid : Option String := none
  masterLocale : Option String := none
  -- When the schemas were last reworked, as the stack writes it.
  version : Option String := none
  deriving Repr, DecidableEq

namespace Stack

def schemaVersion (s : Stack) : Option Date := s.version.bind Date.ofVersion?

def settings : Record (Option (Option String)) where
  keys := ["version"]
  start := none
  put _ d version := fill version (d.nullable Draft.text)

def readSettings : Nat → Draft → Except Fault (Option String)
  | 0, d => .error d.overrun
  | _ + 1, d => (·.getD none) <$> settings.read d

structure Columns where
  name : Option String := none
  uid : Option (Option String) := none
  masterLocale : Option (Option String) := none
  settings : Option (Option String) := none

def Columns.stack (c : Columns) : Stack where
  name := c.name.getD ""
  uid := c.uid.getD none
  masterLocale := c.masterLocale.getD none
  version := c.settings.getD none

def record (budget : Nat) : Record Columns where
  keys := ["name", "uid", "master_locale", "settings"]
  start := {}
  put key d c :=
    match key with
    | "name" => (fun v => { c with name := v }) <$> fill c.name d.text
    | "uid" => (fun v => { c with uid := v }) <$> fill c.uid (d.nullable Draft.text)
    | "master_locale" =>
      (fun v => { c with masterLocale := v }) <$> fill c.masterLocale (d.nullable Draft.text)
    | _ => (fun v => { c with settings := v }) <$> fill c.settings (readSettings budget d)

def read : Nat → Draft → Except Fault Stack
  | 0, d => .error d.overrun
  | budget + 1, d => Columns.stack <$> (record budget).read d

end Stack

end ContentModels
