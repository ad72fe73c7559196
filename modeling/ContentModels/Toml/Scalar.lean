import ContentModels.Date
import ContentModels.Toml.Value

set_option autoImplicit false

namespace ContentModels.Toml

def isHexDigit (c : Char) : Bool :=
  c.isDigit || ('a' ≤ c && c ≤ 'f') || ('A' ≤ c && c ≤ 'F')

def hexValue (c : Char) : Nat :=
  if c.isDigit then c.toNat - 48 else if 'a' ≤ c then c.toNat - 87 else c.toNat - 55

def numberIn (radix : Nat) (digits : List Char) : Nat :=
  digits.foldl (fun n c => n * radix + hexValue c) 0

namespace Scalar

def isGrouped (isDigit : Char → Bool) : List Char → Bool
  | [] => false
  | [d] => isDigit d
  | d :: '_' :: rest => isDigit d && isGrouped isDigit rest
  | d :: rest => isDigit d && isGrouped isDigit rest

def ungrouped (digits : List Char) : List Char := digits.filter (· ≠ '_')

def isDecimal : List Char → Bool
  | '0' :: _ :: _ => false
  | digits => isGrouped Char.isDigit digits

def unsigned : List Char → Bool × List Char
  | '-' :: rest => (true, rest)
  | '+' :: rest => (false, rest)
  | text => (false, text)

def ofRadix? (radix : Nat) (isDigit : Char → Bool) (digits : List Char) : Option Value :=
  if digits.isEmpty then some (.integer none)
  else if isGrouped isDigit digits then
    some (.integer (some (numberIn radix (ungrouped digits) : Int)))
  else none

def areSeparated : List Char → Bool
  | [] => true
  | [_, '_'] => false
  | c :: '_' :: d :: rest => isHexDigit c && isHexDigit d && areSeparated (d :: rest)
  | _ :: rest => areSeparated rest

-- Whether an underscore ends the first decimal digits of a word. Such a word is an integer if only
-- its underscores are placed well, but has no value unless all of it is digits.
def isCutShort (word : List Char) : Bool :=
  let (digits, rest) := word.span Char.isDigit
  isDecimal digits && digits ≠ ['0'] && rest.head? = some '_' && areSeparated word &&
    rest.all fun c => c ≠ '.' && c ≠ 'e' && c ≠ 'E'

def integer? (word : List Char) : Option Value :=
  match word with
  | '0' :: 'x' :: digits => ofRadix? 16 isHexDigit digits
  | '0' :: 'o' :: digits => ofRadix? 8 (fun c => '0' ≤ c && c ≤ '7') digits
  | '0' :: 'b' :: digits => ofRadix? 2 (fun c => c = '0' || c = '1') digits
  | word =>
    let (negative, digits) := unsigned word
    if isDecimal digits then
      let n : Int := numberIn 10 (ungrouped digits)
      some (.integer (some (if negative then -n else n)))
    else if isCutShort digits then some (.integer none)
    else none

-- A decimal number of at least this value has no floating point number beside it.
def floatLimit : Nat := Nat.pow 2 1024 - Nat.pow 2 970

def isBelowLimit (digits : List Char) (exponent : Int) : Bool :=
  let significant := digits.dropWhile (· = '0')
  let length : Int := significant.length + exponent
  if significant.isEmpty || length < 300 then true
  else if 310 < length then false
  else
    let n := numberIn 10 significant
    if 0 ≤ exponent then n * Nat.pow 10 exponent.toNat < floatLimit
    else n < floatLimit * Nat.pow 10 (-exponent).toNat

def exponent? (text : List Char) : Option Int :=
  let (negative, digits) := unsigned text
  if isGrouped Char.isDigit digits then
    let n : Int := numberIn 10 (ungrouped digits)
    some (if negative then -n else n)
  else none

def float? (word : List Char) : Option Value := do
  let (_, text) := unsigned word
  if text = ['i', 'n', 'f'] || text = ['n', 'a', 'n'] then return .float true
  let (mantissa, tail) := text.span fun c => c ≠ 'e' && c ≠ 'E'
  let (whole, fraction) := mantissa.span (· ≠ '.')
  guard (isDecimal whole && !(fraction.isEmpty && tail.isEmpty))
  let fraction := fraction.drop 1
  guard (fraction.isEmpty && !mantissa.contains '.' || isGrouped Char.isDigit fraction)
  let exponent ← if tail.isEmpty then some 0 else exponent? (tail.drop 1)
  let fraction := ungrouped fraction
  return .float (isBelowLimit (ungrouped whole ++ fraction) (exponent - fraction.length))

def isDate (text : List Char) : Bool :=
  match Date.takeExactly 4 text with
  | some (year, '-' :: rest) =>
    match Date.takeExactly 2 rest with
    | some (month, '-' :: rest) =>
      match Date.takeExactly 2 rest with
      | some (day, []) => (Date.of? year month day).isSome
      | _ => false
    | _ => false
  | _ => false

def skipSeconds : List Char → Option (List Char)
  | ':' :: rest => do
    let (second, rest) ← Date.takeExactly 2 rest
    guard (second ≤ 60)
    Date.skipFraction rest
  | text => some text

def skipTime (text : List Char) : Option (List Char) := do
  let (hour, rest) ← Date.takeExactly 2 text
  let rest ← Date.takeChar ':' rest
  let (minute, rest) ← Date.takeExactly 2 rest
  guard (hour < 24 && minute < 60)
  skipSeconds rest

def isTime (text : List Char) : Bool := skipTime text = some []

def isDateTime (text : List Char) : Bool :=
  isDate (text.take 10) &&
    match text.drop 10 with
    | c :: rest =>
      (c = 'T' || c = 't' || c = ' ') &&
        match skipTime rest with
        | some rest => rest.isEmpty || Date.isOffset ['+', '-'] rest
        | none => false
    | [] => false

def moment? (word : List Char) : Option Value :=
  if isDate word || isTime word || isDateTime word then some .moment else none

def boolean? (word : List Char) : Option Value :=
  if word = ['t', 'r', 'u', 'e'] then some (.boolean true)
  else if word = ['f', 'a', 'l', 's', 'e'] then some (.boolean false)
  else none

def value? (word : List Char) : Option Value :=
  boolean? word <|> integer? word <|> float? word <|> moment? word

end Scalar

end ContentModels.Toml
