import ContentModels.Json.Value

set_option autoImplicit false

namespace ContentModels.Json

structure Quoted where
  text : Except Fault String
  fault : Option Fault

def Quoted.of (s : String) : Quoted := ⟨.ok s, none⟩

def Quoted.broken (fault : Fault) : Quoted := ⟨.error fault, some fault⟩

inductive Draft where
  | null
  | boolean (value : Bool)
  -- No number when it is out of range.
  | number (value : Option Number)
  | string (quoted : Quoted)
  | array (items : List Draft) (fault : Option Fault)
  | object (members : List (Quoted × Draft)) (fault : Option Fault)
  -- The place where a value should be and cannot be read.
  | broken (fault : Fault)
  -- A number or a word that the text ends in. A reader who asks for it meets the end of the text,
  -- and one who skips it the given fault.
  | cut (fault : Fault)

def nestingBudget : Nat := 127

def closed : Option Fault → Except Fault Unit
  | none => .ok ()
  | some fault => .error fault

namespace Draft

def mismatch : Draft → Fault
  | .broken fault => fault
  | .cut _ => .unfinished
  | .number none => .malformed
  | .string ⟨.error fault, _⟩ => fault
  | _ => .unfit

def text : Draft → Except Fault String
  | .string quoted => quoted.text
  | draft => .error draft.mismatch

def flag : Draft → Except Fault Bool
  | .boolean value => .ok value
  | draft => .error draft.mismatch

def nullable {α : Type} (read : Draft → Except Fault α) : Draft → Except Fault (Option α)
  | .null => .ok none
  | draft => some <$> read draft

mutual

def skip : Draft → Except Fault Unit
  | .null => .ok ()
  | .boolean _ => .ok ()
  | .number _ => .ok ()
  | .string quoted => closed quoted.fault
  | .array items fault => do
    skipItems items
    closed fault
  | .object members fault => do
    skipMembers members
    closed fault
  | .broken fault => .error fault
  | .cut fault => .error fault

def skipItems : List Draft → Except Fault Unit
  | [] => .ok ()
  | item :: rest => do
    item.skip
    skipItems rest

def skipMembers : List (Quoted × Draft) → Except Fault Unit
  | [] => .ok ()
  | (key, value) :: rest => do
    closed key.fault
    value.skip
    skipMembers rest

end

def overrun : Draft → Fault
  | .array _ _ => .malformed
  | .object _ _ => .malformed
  | draft => draft.mismatch

def overrunList : Draft → Fault
  | .array _ _ => .malformed
  | draft => draft.mismatch

def listOf {α : Type} (read : Draft → Except Fault α) : Draft → Except Fault (List α)
  | .array items fault => do
    let values ← items.mapM read
    closed fault
    .ok values
  | draft => .error draft.mismatch

def value : Nat → Draft → Except Fault Value
  | _, .null => .ok .null
  | _, .boolean b => .ok (.boolean b)
  | _, .number (some n) => .ok (.number n)
  | _, .string quoted => .string <$> quoted.text
  | budget + 1, .array items fault => .array <$> listOf (value budget) (.array items fault)
  | budget + 1, .object members fault => do
    let values ← members.foldlM (fun done (key, item) => do
      let key ← key.text
      let item ← value budget item
      .ok (Value.insert key item done)) []
    closed fault
    .ok (.object values)
  | _, draft => .error draft.overrun

end Draft

def fill {α : Type} (slot : Option α) (read : Except Fault α) : Except Fault (Option α) :=
  if slot.isSome then .error .unfit else some <$> read

structure Record (σ : Type) where
  keys : List String
  start : σ
  -- Takes in the value of a known key.
  put : String → Draft → σ → Except Fault σ

namespace Record

variable {σ : Type}

def member (r : Record σ) (s : σ) (key : Quoted) (value : Draft) : Except Fault σ := do
  let key ← key.text
  if key ∈ r.keys then r.put key value s
  else do
    value.skip
    .ok s

def items (r : Record σ) : List String → List Draft → σ → Except Fault σ
  | _, [], s => .ok s
  | [], _ :: _, _ => .error .malformed
  | key :: keys, value :: rest, s => do
    let s ← r.put key value s
    r.items keys rest s

def read (r : Record σ) : Draft → Except Fault σ
  | .object members fault => do
    let s ← members.foldlM (fun s (key, value) => r.member s key value) r.start
    closed fault
    .ok s
  | .array items fault => do
    let s ← r.items r.keys items r.start
    closed fault
    .ok s
  | draft => .error draft.mismatch

end Record

end ContentModels.Json
