import ContentModels.Json.Shortest
import ContentModels.Json.Value

set_option autoImplicit false

namespace ContentModels.Json

def hexDigit (n : Nat) : Char :=
  if n < 10 then Char.ofNat (48 + n) else Char.ofNat (87 + n)

def escape : Char → List Char
  | '"' => ['\\', '"']
  | '\\' => ['\\', '\\']
  | '\x08' => ['\\', 'b']
  | '\x0c' => ['\\', 'f']
  | '\n' => ['\\', 'n']
  | '\r' => ['\\', 'r']
  | '\t' => ['\\', 't']
  | c =>
    if c.toNat < 0x20 then ['\\', 'u', '0', '0', hexDigit (c.toNat / 16), hexDigit (c.toNat % 16)]
    else [c]

def quote (s : String) (rest : List Char) : List Char :=
  '"' :: s.toList.foldr (fun c tail => escape c ++ tail) ('"' :: rest)

def naturalText (n : Nat) : List Char := Nat.toDigits 10 n

def integerText : Int → List Char
  | .ofNat n => naturalText n
  | .negSucc n => '-' :: naturalText (n + 1)

def exponentText (exponent : Int) : List Char :=
  'e' :: (if 0 ≤ exponent then ['+'] else ['-']) ++ naturalText exponent.natAbs

def decimalText (d : Decimal) : List Char :=
  let digits := naturalText d.digits
  let point := (digits.length : Int) + d.exponent
  if 0 ≤ d.exponent ∧ point ≤ 16 then
    digits ++ List.replicate d.exponent.toNat '0' ++ ['.', '0']
  else if 0 < point ∧ point ≤ 16 then
    digits.take point.toNat ++ '.' :: digits.drop point.toNat
  else if -5 < point ∧ point ≤ 0 then
    '0' :: '.' :: List.replicate (-point).toNat '0' ++ digits
  else
    match digits with
    | [digit] => digit :: exponentText (point - 1)
    | digits => digits.take 1 ++ '.' :: digits.drop 1 ++ exponentText (point - 1)

def floatText (x : Float) : List Char :=
  let bits := x.toBits.toNat
  let size := bits % Nat.pow 2 63
  let text := if size = 0 then ['0', '.', '0'] else decimalText (shortest (.ofBits size))
  if bits / Nat.pow 2 63 = 1 then '-' :: text else text

namespace Value

mutual

def write : Value → List Char → List Char
  | .null, rest => 'n' :: 'u' :: 'l' :: 'l' :: rest
  | .boolean true, rest => 't' :: 'r' :: 'u' :: 'e' :: rest
  | .boolean false, rest => 'f' :: 'a' :: 'l' :: 's' :: 'e' :: rest
  | .number (.integer n), rest => integerText n ++ rest
  | .number (.float x), rest => floatText x ++ rest
  | .string s, rest => quote s rest
  | .array [], rest => '[' :: ']' :: rest
  | .array (item :: items), rest => '[' :: item.write (writeItems items (']' :: rest))
  | .object [], rest => '\x7b' :: '\x7d' :: rest
  | .object ((key, value) :: members), rest =>
    '\x7b' :: quote key (':' :: value.write (writeMembers members ('\x7d' :: rest)))

def writeItems : List Value → List Char → List Char
  | [], rest => rest
  | item :: items, rest => ',' :: item.write (writeItems items rest)

def writeMembers : List (String × Value) → List Char → List Char
  | [], rest => rest
  | (key, value) :: members, rest =>
    ',' :: quote key (':' :: value.write (writeMembers members rest))

end

def text (v : Value) : String := String.ofList (v.write [])

end Value

end ContentModels.Json
