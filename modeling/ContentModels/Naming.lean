import ContentModels.Schema

set_option autoImplicit false

namespace ContentModels.Naming

def isLetter (c : Char) : Bool := ('a' ≤ c && c ≤ 'z') || ('A' ≤ c && c ≤ 'Z')

def isDigit (c : Char) : Bool := '0' ≤ c && c ≤ '9'

-- Digits, hyphens, underscores and white space end a word; any other character that is no letter is
-- left out without ending it.
def endsWord (c : Char) : Bool := isDigit c || c = '-' || c = '_' || Text.isBlank c

def capitalWords : Bool → List Char → List Char
  | _, [] => []
  | start, c :: rest =>
    if isLetter c then (if start then c.toUpper else c) :: capitalWords false rest
    else capitalWords (start || endsWord c) rest

def typeName (raw : String) : String := String.ofList (capitalWords true raw.toList)

def hashStart : UInt32 := 0x811C9DC5

def hashStep (hash : UInt32) (byte : UInt8) : UInt32 := (hash ^^^ byte.toUInt32) * 0x01000193

def hash (key : String) : UInt32 := key.toUTF8.toList.foldl hashStep hashStart

def hexDigit (n : Nat) : Char := if n < 10 then Char.ofNat (48 + n) else Char.ofNat (87 + n)

def hexDigits : Nat → Nat → List Char
  | 0, _ => []
  | places + 1, n => hexDigits places (n / 16) ++ [hexDigit (n % 16)]

def placeholder (key : String) : String :=
  "Type" ++ String.ofList (hexDigits 8 (hash key).toNat)

def firstName (key : String) : List String → String
  | [] => placeholder key
  | label :: rest => if (typeName label).isEmpty then firstName key rest else typeName label

def typeNameOr (label uid : String) : String := firstName uid [label, uid]

def definitionName (title uid : String) : String := typeNameOr title uid

def propertyName (uid : String) : String := typeNameOr uid uid

-- Tags are named after the uid first, since the uid is what a payload holds.
def tagMemberName (uid title : String) : String := firstName uid [uid, title]

inductive NestedRole where
  | blocks
  | group
  deriving Repr, DecidableEq

def NestedRole.suffix : NestedRole → String
  | .blocks => "Blocks"
  | .group => "Group"

def NestedRole.kind : NestedRole → DataKind
  | .blocks => .blocks
  | .group => .group

structure Prefixes where
  modularBlock : String := "MB"
  group : String := "Group"
  deriving Repr, DecidableEq

def Prefixes.of (p : Prefixes) : NestedRole → String
  | .blocks => p.modularBlock
  | .group => p.group

def blockGroupTypeName (before owner label : String) : String :=
  String.ofList ((before ++ owner ++ typeName label).toList.filter (· ≠ ' '))

def nestedTypeName (prefixes : Prefixes) (role : NestedRole) (owner : String) (field : Field) :
    String :=
  blockGroupTypeName (prefixes.of role) owner (typeNameOr field.label field.uid)

def nestedDirectory (owner : String) (role : NestedRole) : String := owner ++ role.suffix

def variantTypeName (wrapper title uid : String) : String := wrapper ++ typeNameOr title uid

def tagEnumName (wrapper : String) : String := wrapper ++ "Enum"

def converterName (wrapper : String) : String := wrapper ++ "Converter"

end ContentModels.Naming
