set_option autoImplicit false

namespace ContentModels.Toml

inductive Standing where
  | defined
  -- On the way of a header to a deeper table.
  | implied
  -- On the way of a dotted key.
  | dotted
  -- As a value. Nothing can be added to it.
  | inline
  deriving Repr, DecidableEq

inductive Value where
  | string (text : String)
  | integer (value : Option Int)
  | float (isFinite : Bool)
  | boolean (value : Bool)
  | moment
  | array (items : List Value) (areTables : Bool)
  | table (standing : Standing) (entries : List (String × Value))

abbrev Entries := List (String × Value)

namespace Entries

def has (key : String) (entries : Entries) : Bool := (entries.lookup key).isSome

def assign (key : String) (value : Value) : Entries → Entries
  | [] => [(key, value)]
  | (k, v) :: rest => if k = key then (key, value) :: rest else (k, v) :: assign key value rest

def within (dotted : Bool) (change : Standing → Entries → Option (Standing × Entries)) :
    List String → Standing → Entries → Option (Standing × Entries)
  | [], standing, entries => change standing entries
  | key :: path, standing, entries =>
    let changed (s : Standing) (e : Entries) (around : Value → Value) : Option (Standing × Entries) := do
      let (s, e) ← within dotted change path s e
      some (standing, assign key (around (.table s e)) entries)
    match entries.lookup key with
    | none => changed (if dotted then .dotted else .implied) [] id
    | some (.table s e) =>
      if s = .inline || (dotted && s = .defined) then none else changed s e id
    | some (.array items true) =>
      match items.getLast? with
      | some (.table s e) => changed s e fun last => .array (items.dropLast ++ [last]) true
      | _ => none
    | some _ => none

def addPair (path : List String) (key : String) (value : Value) (standing : Standing)
    (entries : Entries) : Option (Standing × Entries) :=
  within (!path.isEmpty)
    (fun standing entries =>
      if (standing = .dotted : Bool) = path.isEmpty || has key entries then none
      else some (standing, entries ++ [(key, value)]))
    path standing entries

def openTable (key : String) (standing : Standing) (entries : Entries) :
    Option (Standing × Entries) :=
  match entries.lookup key with
  | none => some (standing, entries ++ [(key, .table .defined [])])
  | some (.table .implied e) => some (standing, assign key (.table .defined e) entries)
  | some _ => none

def openElement (key : String) (standing : Standing) (entries : Entries) :
    Option (Standing × Entries) :=
  match entries.lookup key with
  | none => some (standing, entries ++ [(key, .array [.table .defined []] true)])
  | some (.array items true) =>
    some (standing, assign key (.array (items ++ [.table .defined []]) true) entries)
  | some _ => none

end Entries

structure Progress where
  root : Entries := []
  current : List String := []

namespace Progress

def addPair (p : Progress) (path : List String) (key : String) (value : Value) : Option Progress := do
  let (_, root) ←
    Entries.within false (Entries.addPair path key value) p.current .defined p.root
  some { p with root := root }

def openTable (p : Progress) (path : List String) (key : String) : Option Progress := do
  let (_, root) ← Entries.within false (Entries.openTable key) path .defined p.root
  some ⟨root, path ++ [key]⟩

def openElement (p : Progress) (path : List String) (key : String) : Option Progress := do
  let (_, root) ← Entries.within false (Entries.openElement key) path .defined p.root
  some ⟨root, path ++ [key]⟩

end Progress

namespace Value

def leastInteger : Int := -Int.pow 2 127

def greatestInteger : Int := Int.pow 2 128 - 1

mutual

def isInRange : Value → Bool
  | .integer n => n.any fun n => leastInteger ≤ n && n ≤ greatestInteger
  | .float isFinite => isFinite
  | .array items _ => areInRange items
  | .table _ entries => entriesAreInRange entries
  | _ => true

def areInRange : List Value → Bool
  | [] => true
  | value :: rest => value.isInRange && areInRange rest

def entriesAreInRange : Entries → Bool
  | [] => true
  | (_, value) :: rest => value.isInRange && entriesAreInRange rest

end

end Value

end ContentModels.Toml
