set_option autoImplicit false

namespace ContentModels.Json

inductive Fault where
  -- The text ends too early.
  | unfinished
  -- The text breaks the grammar or a limit on what is read.
  | malformed
  -- The text is a document of another shape.
  | unfit
  deriving Repr, DecidableEq, Inhabited

inductive Number where
  | integer (value : Int)
  | float (value : Float)
  deriving Repr, Inhabited

inductive Value where
  | null
  | boolean (value : Bool)
  | number (value : Number)
  | string (value : String)
  | array (items : List Value)
  | object (members : List (String × Value))
  deriving Repr, Inhabited

namespace Value

def int (n : Int) : Value := .number (.integer n)

def nat (n : Nat) : Value := int n

def option {α : Type} (encode : α → Value) : Option α → Value
  | none => .null
  | some a => encode a

def insert (key : String) (value : Value) : List (String × Value) → List (String × Value)
  | [] => [(key, value)]
  | (k, v) :: rest =>
    if key < k then (key, value) :: (k, v) :: rest
    else if key = k then (key, value) :: rest
    else (k, v) :: insert key value rest

def member? (key : String) : Value → Option Value
  | .object members => members.lookup key
  | _ => none

end Value

end ContentModels.Json
