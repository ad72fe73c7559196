import ContentModels.Text.Blank

set_option autoImplicit false

namespace ContentModels

structure Date where
  year : Int
  month : Nat
  day : Nat
  deriving Repr, DecidableEq

namespace Date

def isLeap (year : Int) : Bool := year % 4 = 0 && (year % 100 ≠ 0 || year % 400 = 0)

def daysIn (year : Int) (month : Nat) : Nat :=
  match month with
  | 2 => if isLeap year then 29 else 28
  | 4 | 6 | 9 | 11 => 30
  | _ => 31

def earliestYear : Int := -262143

def latestYear : Int := 262142

def isValid (d : Date) : Bool :=
  earliestYear ≤ d.year && d.year ≤ latestYear && 1 ≤ d.month && d.month ≤ 12 && 1 ≤ d.day &&
    d.day ≤ daysIn d.year d.month

def of? (year : Int) (month day : Nat) : Option Date :=
  let d : Date := ⟨year, month, day⟩
  if d.isValid then some d else none

def isFrom (start d : Date) : Bool :=
  start.year < d.year ||
    (start.year = d.year &&
      (start.month < d.month || (start.month = d.month && start.day ≤ d.day)))

def padded (width n : Nat) : String :=
  let digits := Nat.toDigits 10 n
  String.ofList (List.replicate (width - digits.length) '0' ++ digits)

def yearText (year : Int) : String :=
  if 0 ≤ year ∧ year ≤ 9999 then padded 4 year.toNat
  else (if year < 0 then "-" else "+") ++ padded 4 year.natAbs

def text (d : Date) : String := yearText d.year ++ "-" ++ padded 2 d.month ++ "-" ++ padded 2 d.day

def digitValue? (c : Char) : Option Nat := if c.isDigit then some (c.toNat - 48) else none

def digitsValue (digits : List Char) : Nat :=
  digits.foldl (fun n c => n * 10 + (c.toNat - 48)) 0

def takeNumber (most : Nat) (text : List Char) : Option (Nat × List Char) :=
  let digits := (text.take most).takeWhile Char.isDigit
  if digits.isEmpty then none else some (digitsValue digits, text.drop digits.length)

def takeExactly (count : Nat) (text : List Char) : Option (Nat × List Char) :=
  let digits := text.take count
  if digits.length = count && digits.all Char.isDigit then
    some (digitsValue digits, text.drop count)
  else none

def takeChar (c : Char) : List Char → Option (List Char)
  | [] => none
  | d :: rest => if d = c then some rest else none

-- A signed year may have any number of digits, an unsigned one at most four.
def takeYear (text : List Char) : Option (Int × List Char) :=
  match Text.trimStart text with
  | '-' :: rest => (takeNumber rest.length rest).map fun (n, rest) => (-(n : Int), rest)
  | '+' :: rest => (takeNumber rest.length rest).map fun (n, rest) => ((n : Int), rest)
  | text => (takeNumber 4 text).map fun (n, rest) => ((n : Int), rest)

def ofHyphenated? (text : List Char) : Option Date := do
  let (year, rest) ← takeYear text
  let rest ← takeChar '-' rest
  let (month, rest) ← takeNumber 2 (Text.trimStart rest)
  let rest ← takeChar '-' rest
  let (day, rest) ← takeNumber 2 (Text.trimStart rest)
  if rest.isEmpty then of? year month day else none

-- The first characters of a text that fill exactly `count` bytes.
def takeBytes : Nat → List Char → Option (List Char)
  | 0, _ => some []
  | _ + 1, [] => none
  | count + 1, c :: rest =>
    if c.utf8Size ≤ count + 1 then (takeBytes (count + 1 - c.utf8Size) rest).map (c :: ·) else none
termination_by count => count
decreasing_by
  have := c.utf8Size_pos
  omega

def skipFraction : List Char → Option (List Char)
  | '.' :: rest => (takeNumber rest.length rest).map Prod.snd
  | text => some text

def isOffset (signs : List Char) : List Char → Bool
  | ['Z'] => true
  | ['z'] => true
  | sign :: rest =>
    signs.contains sign &&
      match takeExactly 2 rest with
      | some (hours, ':' :: rest) =>
        match takeExactly 2 rest with
        | some (minutes, []) => hours < 24 && minutes < 60
        | _ => false
      | _ => false
  | [] => false

def offsetSigns : List Char := ['+', '-', '\u2212']

def ofRfc3339? (text : List Char) : Option Date := do
  let (year, rest) ← takeExactly 4 text
  let rest ← takeChar '-' rest
  let (month, rest) ← takeExactly 2 rest
  let rest ← takeChar '-' rest
  let (day, rest) ← takeExactly 2 rest
  let rest ← takeChar 'T' rest <|> takeChar 't' rest <|> takeChar ' ' rest
  let (hour, rest) ← takeExactly 2 rest
  let rest ← takeChar ':' rest
  let (minute, rest) ← takeExactly 2 rest
  let rest ← takeChar ':' rest
  let (second, rest) ← takeExactly 2 rest
  let rest ← skipFraction rest
  if hour < 24 && minute < 60 && second ≤ 60 && isOffset offsetSigns rest then of? year month day else none

def ofVersion? (version : String) : Option Date :=
  let text := (Text.trim version).toList
  ofRfc3339? text <|> ((takeBytes 10 text).bind ofHyphenated?)

end Date

end ContentModels
