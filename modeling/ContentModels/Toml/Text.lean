import ContentModels.Toml.Scalar

set_option autoImplicit false

namespace ContentModels.Toml

def isBlank (c : Char) : Bool := c = ' ' || c = '\t'

def skipBlanks (text : List Char) : List Char := text.dropWhile isBlank

def isPrintable (c : Char) : Bool := c = '\t' || (0x20 ≤ c.toNat && c.toNat ≠ 0x7f)

def skipComment : List Char → List Char
  | '#' :: rest => rest.dropWhile isPrintable
  | text => text

def takeNewline : List Char → Option (List Char)
  | '\n' :: rest => some rest
  | '\r' :: '\n' :: rest => some rest
  | _ => none

def endLine (text : List Char) : Option (List Char) :=
  match skipComment (skipBlanks text) with
  | [] => some []
  | rest => takeNewline rest

theorem skipBlanks_length (text : List Char) : (skipBlanks text).length ≤ text.length :=
  (List.dropWhile_sublist isBlank).length_le

theorem skipComment_length (text : List Char) : (skipComment text).length ≤ text.length := by
  unfold skipComment
  split
  next rest =>
    exact Nat.le_succ_of_le (List.dropWhile_sublist isPrintable (l := rest)).length_le
  · exact Nat.le_refl _

theorem takeNewline_length {text rest : List Char} (taken : takeNewline text = some rest) :
    rest.length < text.length := by
  unfold takeNewline at taken
  split at taken <;> cases taken <;> simp only [List.length_cons] <;> omega

def skipLines (text : List Char) : List Char :=
  match _taken : takeNewline (skipComment (skipBlanks text)) with
  | some rest => skipLines rest
  | none => skipComment (skipBlanks text)
termination_by text.length
decreasing_by
  have line := takeNewline_length _taken
  have comment := skipComment_length (skipBlanks text)
  have blanks := skipBlanks_length text
  omega

def takeHex (count : Nat) (text : List Char) : Option (Char × List Char) :=
  let digits := text.take count
  let n := numberIn 16 digits
  if digits.length = count && digits.all isHexDigit && n.isValidChar then
    some (Char.ofNat n, text.drop count)
  else none

def takeEscape : List Char → Option (Char × List Char)
  | 'b' :: rest => some ('\x08', rest)
  | 't' :: rest => some ('\t', rest)
  | 'n' :: rest => some ('\n', rest)
  | 'f' :: rest => some ('\x0c', rest)
  | 'r' :: rest => some ('\r', rest)
  | 'e' :: rest => some ('\x1b', rest)
  | '"' :: rest => some ('"', rest)
  | '\\' :: rest => some ('\\', rest)
  | 'x' :: rest => takeHex 2 rest
  | 'u' :: rest => takeHex 4 rest
  | 'U' :: rest => takeHex 8 rest
  | _ => none

theorem takeHex_length {count : Nat} {text rest : List Char} {c : Char}
    (taken : takeHex count text = some (c, rest)) : rest.length ≤ text.length := by
  simp only [takeHex] at taken
  split at taken
  · cases taken
    simp
  · cases taken

theorem takeEscape_length {text rest : List Char} {c : Char}
    (taken : takeEscape text = some (c, rest)) : rest.length ≤ text.length := by
  unfold takeEscape at taken
  split at taken
  all_goals first
    | exact Nat.le_succ_of_le (takeHex_length taken)
    | (cases taken; exact Nat.le_succ _)
    | cases taken

def basicString (done : List Char) : List Char → Option (String × List Char)
  | [] => none
  | '"' :: rest => some (String.ofList done.reverse, rest)
  | '\\' :: rest =>
    match _taken : takeEscape rest with
    | some (c, rest) => basicString (c :: done) rest
    | none => none
  | c :: rest => if isPrintable c then basicString (c :: done) rest else none
termination_by text => text.length
decreasing_by
  · exact Nat.lt_succ_of_le (takeEscape_length _taken)
  · simp

def literalString (done : List Char) : List Char → Option (String × List Char)
  | [] => none
  | '\x27' :: rest => some (String.ofList done.reverse, rest)
  | c :: rest => if isPrintable c then literalString (c :: done) rest else none

def skipSpace : List Char → List Char
  | ' ' :: rest => skipSpace rest
  | '\t' :: rest => skipSpace rest
  | '\n' :: rest => skipSpace rest
  | '\r' :: '\n' :: rest => skipSpace rest
  | text => text

def joinLines (text : List Char) : Option (List Char) :=
  (takeNewline (skipBlanks text)).map skipSpace

theorem skipSpace_length (text : List Char) : (skipSpace text).length ≤ text.length := by
  fun_induction skipSpace text <;> simp_all <;> omega

theorem joinLines_length {text rest : List Char} (joined : joinLines text = some rest) :
    rest.length ≤ text.length := by
  simp only [joinLines, Option.map_eq_some_iff] at joined
  obtain ⟨after, taken, rfl⟩ := joined
  have line := takeNewline_length taken
  have blanks := skipBlanks_length text
  have space := skipSpace_length after
  omega

-- Closing quotes of a string over several lines. Up to two more of them belong to the text.
def closing (quote : Char) (text : List Char) : Option (List Char × List Char) :=
  let count := (text.take 5).takeWhile (· = quote) |>.length
  if 3 ≤ count then some (List.replicate (count - 3) quote, text.drop count) else none

def multilineBasic (done : List Char) : List Char → Option (String × List Char)
  | [] => none
  | '\\' :: rest =>
    match _joined : joinLines rest with
    | some rest => multilineBasic done rest
    | none =>
      match _taken : takeEscape rest with
      | some (c, rest) => multilineBasic (c :: done) rest
      | none => none
  | '\n' :: rest => multilineBasic ('\n' :: done) rest
  | '\r' :: '\n' :: rest => multilineBasic ('\n' :: '\r' :: done) rest
  | c :: rest =>
    match closing '"' (c :: rest) with
    | some (quotes, rest) => some (String.ofList (quotes ++ done).reverse, rest)
    | none => if isPrintable c then multilineBasic (c :: done) rest else none
termination_by text => text.length
decreasing_by
  · exact Nat.lt_succ_of_le (joinLines_length _joined)
  · exact Nat.lt_succ_of_le (takeEscape_length _taken)
  all_goals simp only [List.length_cons]; omega

def multilineLiteral (done : List Char) : List Char → Option (String × List Char)
  | [] => none
  | '\n' :: rest => multilineLiteral ('\n' :: done) rest
  | '\r' :: '\n' :: rest => multilineLiteral ('\n' :: '\r' :: done) rest
  | c :: rest =>
    match closing '\x27' (c :: rest) with
    | some (quotes, rest) => some (String.ofList (quotes ++ done).reverse, rest)
    | none => if isPrintable c then multilineLiteral (c :: done) rest else none

def dropFirstNewline (text : List Char) : List Char := (takeNewline text).getD text

def takeString : List Char → Option (String × List Char)
  | '"' :: '"' :: '"' :: rest => multilineBasic [] (dropFirstNewline rest)
  | '"' :: rest => basicString [] rest
  | '\x27' :: '\x27' :: '\x27' :: rest => multilineLiteral [] (dropFirstNewline rest)
  | '\x27' :: rest => literalString [] rest
  | _ => none

def isBareKey (c : Char) : Bool := c.isAlphanum || c = '_' || c = '-'

def takeKeyPart : List Char → Option (String × List Char)
  | '"' :: rest => basicString [] rest
  | '\x27' :: rest => literalString [] rest
  | text =>
    let bare := text.takeWhile isBareKey
    if bare.isEmpty then none else some (String.ofList bare, text.drop bare.length)

def mostParts : Nat := 80

def takeParts : Nat → List Char → Option (List String × String × List Char)
  | 0, _ => none
  | more + 1, text => do
    let (part, rest) ← takeKeyPart text
    match skipBlanks rest with
    | '.' :: rest =>
      let (path, last, rest) ← takeParts more (skipBlanks rest)
      some (part :: path, last, rest)
    | _ => some ([], part, rest)

def takeKey (text : List Char) : Option (List String × String × List Char) :=
  takeParts mostParts text

end ContentModels.Toml
