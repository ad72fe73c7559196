import ContentModels.Toml.Text

set_option autoImplicit false

namespace ContentModels.Toml

def nestingLimit : Nat := 80

def isWordChar (c : Char) : Bool :=
  c ∉ [' ', '\t', '\r', '\n', '#', ',', '=', '[', ']', '\x7b', '\x7d']

-- Takes a word. A date and a time may have a space between them.
def takeWord (text : List Char) : List Char × List Char :=
  let (word, rest) := text.span isWordChar
  match rest with
  | ' ' :: c :: more =>
    if Scalar.isDate word && c.isDigit then
      let (time, rest) := (c :: more).span isWordChar
      (word ++ ' ' :: time, rest)
    else (word, rest)
  | _ => (word, rest)

def takeScalar (text : List Char) : Option (Value × List Char) :=
  let (word, rest) := takeWord text
  (Scalar.value? word).map fun value => (value, rest)

def takeComma (closing : Char) (text : List Char) : Option (Bool × List Char) :=
  match skipLines text with
  | ',' :: rest => some (true, rest)
  | c :: rest => if c = closing then some (false, rest) else none
  | [] => none

mutual

def takeValue (bound nesting : Nat) (text : List Char) : Option (Value × List Char) :=
  match bound with
  | 0 => none
  | bound + 1 =>
    match text with
    | '[' :: rest =>
      match nesting with
      | 0 => none
      | nesting + 1 => do
        let (items, rest) ← takeItems bound nesting [] rest
        some (.array items false, rest)
    | '\x7b' :: rest =>
      match nesting with
      | 0 => none
      | nesting + 1 => do
        let (entries, rest) ← takePairs bound nesting [] rest
        some (.table .inline entries, rest)
    | '"' :: _ => (takeString text).map fun (s, rest) => (.string s, rest)
    | '\x27' :: _ => (takeString text).map fun (s, rest) => (.string s, rest)
    | _ => takeScalar text

def takeItems (bound nesting : Nat) (done : List Value) (text : List Char) :
    Option (List Value × List Char) :=
  match bound with
  | 0 => none
  | bound + 1 =>
    match skipLines text with
    | ']' :: rest => some (done.reverse, rest)
    | text => do
      let (value, rest) ← takeValue bound nesting text
      match ← takeComma ']' rest with
      | (true, rest) => takeItems bound nesting (value :: done) rest
      | (false, rest) => some ((value :: done).reverse, rest)

def takePairs (bound nesting : Nat) (entries : Entries) (text : List Char) :
    Option (Entries × List Char) :=
  match bound with
  | 0 => none
  | bound + 1 =>
    match skipLines text with
    | '\x7d' :: rest => some (entries, rest)
    | text => do
      let (path, key, rest) ← takeKey text
      match skipLines rest with
      | '=' :: rest =>
        let (value, rest) ← takeValue bound nesting (skipLines rest)
        let (_, entries) ← Entries.addPair path key value .defined entries
        match ← takeComma '\x7d' rest with
        | (true, rest) => takePairs bound nesting entries rest
        | (false, rest) => some (entries, rest)
      | _ => none

end

def takeHeader (text : List Char) : Option (List String × String × List Char) := do
  let (path, key, rest) ← takeKey (skipBlanks text)
  some (path, key, skipBlanks rest)

namespace Progress

def takeLine (p : Progress) (text : List Char) : Option (Progress × List Char) :=
  match skipBlanks text with
  | [] => (endLine text).map fun rest => (p, rest)
  | '#' :: _ => (endLine text).map fun rest => (p, rest)
  | '\n' :: _ => (endLine text).map fun rest => (p, rest)
  | '\r' :: _ => (endLine text).map fun rest => (p, rest)
  | '[' :: '[' :: rest => do
    match ← takeHeader rest with
    | (path, key, ']' :: ']' :: rest) => some (← p.openElement path key, ← endLine rest)
    | _ => none
  | '[' :: rest => do
    match ← takeHeader rest with
    | (path, key, ']' :: rest) => some (← p.openTable path key, ← endLine rest)
    | _ => none
  | text => do
    let (path, key, rest) ← takeKey text
    match skipBlanks rest with
    | '=' :: rest =>
      let (value, rest) ← takeValue (rest.length + 1) nestingLimit (skipBlanks rest)
      some (← p.addPair path key value, ← endLine rest)
    | _ => none

def takeLines (bound : Nat) (p : Progress) (text : List Char) : Option Progress :=
  match bound, text with
  | _, [] => some p
  | 0, _ => none
  | bound + 1, text => do
    let (p, rest) ← p.takeLine text
    takeLines bound p rest

end Progress

def dropMark : List Char → List Char
  | '\ufeff' :: rest => rest
  | text => text

def read (text : String) : Option Entries :=
  let text := dropMark text.toList
  (Progress.takeLines text.length {} text).map Progress.root

end ContentModels.Toml
