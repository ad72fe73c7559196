import ContentModels.Json.Draft
import ContentModels.Json.Numeral

set_option autoImplicit false

namespace ContentModels.Json

def isSpace (c : Char) : Bool := c = ' ' || c = '\t' || c = '\n' || c = '\r'

inductive Token where
  | openArray
  | closeArray
  | openObject
  | closeObject
  | comma
  | colon
  | text (quoted : Quoted)
  -- Any other scalar, or a place where the text cannot be read.
  | scalar (draft : Draft)

inductive Piece where
  | char (c : Char)
  | half (unit : Nat)

def isHigh (unit : Nat) : Bool := 0xD800 ≤ unit && unit < 0xDC00

def isLow (unit : Nat) : Bool := 0xDC00 ≤ unit && unit < 0xE000

def joinHalves (high low : Nat) : Char :=
  Char.ofNat (0x10000 + (high - 0xD800) * 0x400 + (low - 0xDC00))

def pairHalves (fault : Option Fault) : List Piece → List Char → Except Fault String
  | [], done =>
    match fault with
    | none => .ok (String.ofList done.reverse)
    | some fault => .error fault
  | .char c :: rest, done => pairHalves fault rest (c :: done)
  | [.half high], _ =>
    if isHigh high then .error (fault.getD .malformed) else .error .malformed
  | .half high :: .half low :: rest, done =>
    if isHigh high && isLow low then pairHalves fault rest (joinHalves high low :: done)
    else .error .malformed
  | .half _ :: .char _ :: _, _ => .error .malformed

def Quoted.ofPieces (pieces : List Piece) (fault : Option Fault) : Quoted :=
  ⟨pairHalves fault pieces [], fault⟩

def hexValue? (c : Char) : Option Nat :=
  if '0' ≤ c ∧ c ≤ '9' then some (c.toNat - 48)
  else if 'a' ≤ c ∧ c ≤ 'f' then some (c.toNat - 87)
  else if 'A' ≤ c ∧ c ≤ 'F' then some (c.toNat - 55)
  else none

def hexUnit? (a b c d : Char) : Option Nat := do
  let a ← hexValue? a
  let b ← hexValue? b
  let c ← hexValue? c
  let d ← hexValue? d
  some (((a * 16 + b) * 16 + c) * 16 + d)

def Piece.ofUnit (unit : Nat) : Piece :=
  if isHigh unit || isLow unit then .half unit else .char (Char.ofNat unit)

def escaped? : Char → Option Char
  | '"' => some '"'
  | '\\' => some '\\'
  | '/' => some '/'
  | 'b' => some '\x08'
  | 'f' => some '\x0c'
  | 'n' => some '\n'
  | 'r' => some '\r'
  | 't' => some '\t'
  | _ => none

def shortEscape (rest : List Char) : Fault :=
  if (String.ofList (rest.take 4)).utf8ByteSize < 4 then .unfinished else .malformed

def scanQuoted (done : List Piece) : List Char → Quoted × List Char
  | [] => (.ofPieces done.reverse (some .unfinished), [])
  | '"' :: rest => (.ofPieces done.reverse none, rest)
  | '\\' :: 'u' :: a :: b :: c :: d :: rest =>
    match hexUnit? a b c d with
    | some unit => scanQuoted (.ofUnit unit :: done) rest
    | none => (.ofPieces done.reverse (some .malformed), [])
  | '\\' :: 'u' :: rest => (.ofPieces done.reverse (some (shortEscape rest)), [])
  | ['\\'] => (.ofPieces done.reverse (some .unfinished), [])
  | '\\' :: c :: rest =>
    match escaped? c with
    | some c => scanQuoted (.char c :: done) rest
    | none => (.ofPieces done.reverse (some .malformed), [])
  | c :: rest =>
    if c.toNat < 0x20 then (.ofPieces done.reverse (some .malformed), [])
    else scanQuoted (.char c :: done) rest

def scanWord (draft : Draft) : List Char → List Char → Draft × List Char
  | [], rest => (draft, rest)
  | _ :: _, [] => (.cut .unfinished, [])
  | w :: word, c :: rest => if c = w then scanWord draft word rest else (.broken .malformed, [])

def scanDigits (text : List Char) : Except Fault (List Char × List Char) :=
  match text with
  | [] => .error .unfinished
  | c :: _ =>
    if c.isDigit then .ok (text.takeWhile Char.isDigit, text.dropWhile Char.isDigit)
    else .error .malformed

def scanWhole : List Char → Except Fault (List Char × List Char)
  | '0' :: c :: rest => if c.isDigit then .error .malformed else .ok (['0'], c :: rest)
  | text => scanDigits text

def scanFraction : List Char → Except Fault (Option (List Char) × List Char)
  | '.' :: rest => do
    let (digits, rest) ← scanDigits rest
    .ok (some digits, rest)
  | text => .ok (none, text)

def isExponentMark (c : Char) : Bool := c = 'e' || c = 'E'

def scanSign : List Char → Bool × List Char
  | '+' :: rest => (false, rest)
  | '-' :: rest => (true, rest)
  | text => (false, text)

def scanExponent : List Char → Except Fault (Option (Bool × List Char) × List Char)
  | [] => .ok (none, [])
  | c :: rest =>
    if isExponentMark c then do
      let (down, rest) := scanSign rest
      let (digits, rest) ← scanDigits rest
      .ok (some (down, digits), rest)
    else .ok (none, c :: rest)

def scanNumeral (negative : Bool) (text : List Char) : Except Fault (Numeral × List Char) := do
  let (whole, rest) ← scanWhole text
  let (fraction, rest) ← scanFraction rest
  let (exponent, rest) ← scanExponent rest
  .ok (⟨negative, whole, fraction, exponent⟩, rest)

def scanNumber (negative : Bool) (text : List Char) : Token × List Char :=
  match scanNumeral negative text with
  | .ok (numeral, rest) => (.scalar (.number numeral.number?), rest)
  | .error .unfinished => (.scalar (.cut .malformed), [])
  | .error fault => (.scalar (.broken fault), [])

def scanToken (c : Char) (rest : List Char) : Token × List Char :=
  match c with
  | '[' => (.openArray, rest)
  | ']' => (.closeArray, rest)
  | '{' => (.openObject, rest)
  | '}' => (.closeObject, rest)
  | ',' => (.comma, rest)
  | ':' => (.colon, rest)
  | '"' =>
    let (quoted, rest) := scanQuoted [] rest
    (.text quoted, rest)
  | 't' =>
    let (draft, rest) := scanWord (.boolean true) ['r', 'u', 'e'] rest
    (.scalar draft, rest)
  | 'f' =>
    let (draft, rest) := scanWord (.boolean false) ['a', 'l', 's', 'e'] rest
    (.scalar draft, rest)
  | 'n' =>
    let (draft, rest) := scanWord .null ['u', 'l', 'l'] rest
    (.scalar draft, rest)
  | '-' => scanNumber true rest
  | c => if c.isDigit then scanNumber false (c :: rest) else (.scalar (.broken .malformed), [])

inductive Frame where
  | item (done : List Draft)
  | member (done : List (Quoted × Draft)) (key : Quoted)

inductive Progress where
  | value (frames : List Frame)
  -- The first item of an array, or its end.
  | firstItem (frames : List Frame)
  | after (draft : Draft) (frames : List Frame)
  | firstKey (frames : List Frame)
  | nextKey (done : List (Quoted × Draft)) (frames : List Frame)
  | colon (done : List (Quoted × Draft)) (key : Quoted) (frames : List Frame)

namespace Progress

def takeValue (frames : List Frame) : Token → Option Progress
  | .openArray => some (.firstItem frames)
  | .openObject => some (.firstKey frames)
  | .text quoted => some (.after (.string quoted) frames)
  | .scalar draft => some (.after draft frames)
  | _ => none

def take : Progress → Token → Option Progress
  | .value frames, token => takeValue frames token
  | .firstItem frames, .closeArray => some (.after (.array [] none) frames)
  | .firstItem frames, token => takeValue (.item [] :: frames) token
  | .after draft (.item done :: frames), .comma => some (.value (.item (draft :: done) :: frames))
  | .after draft (.item done :: frames), .closeArray =>
    some (.after (.array (draft :: done).reverse none) frames)
  | .after draft (.member done key :: frames), .comma => some (.nextKey ((key, draft) :: done) frames)
  | .after draft (.member done key :: frames), .closeObject =>
    some (.after (.object ((key, draft) :: done).reverse none) frames)
  | .firstKey frames, .closeObject => some (.after (.object [] none) frames)
  | .firstKey frames, .text quoted => some (.colon [] quoted frames)
  | .nextKey done frames, .text quoted => some (.colon done quoted frames)
  | .colon done key frames, .colon => some (.value (.member done key :: frames))
  | _, _ => none

def unwind (fault : Fault) : Draft → List Frame → Draft
  | draft, [] => draft
  | draft, .item done :: frames => unwind fault (.array (draft :: done).reverse (some fault)) frames
  | draft, .member done key :: frames =>
    unwind fault (.object ((key, draft) :: done).reverse (some fault)) frames

def stop (fault : Fault) : Progress → Draft
  | .value frames => unwind fault (.broken fault) frames
  | .firstItem frames => unwind fault (.array [] (some fault)) frames
  | .after draft frames => unwind fault draft frames
  | .firstKey frames => unwind fault (.object [] (some fault)) frames
  | .nextKey done frames =>
    unwind fault (.object ((.broken fault, .broken fault) :: done).reverse (some fault)) frames
  | .colon done key frames =>
    unwind fault (.object ((key, .broken fault) :: done).reverse (some fault)) frames

end Progress

structure Document where
  draft : Draft
  trailing : Bool

namespace Document

def decode {α : Type} (document : Document) (read : Draft → Except Fault α) : Except Fault α := do
  let a ← read document.draft
  if document.trailing then .error .malformed else .ok a

end Document

def Progress.refuse : Progress → Document
  | .after draft [] => ⟨draft, true⟩
  | progress => ⟨progress.stop .malformed, false⟩

theorem scanQuoted_length (done : List Piece) (text : List Char) :
    (scanQuoted done text).2.length ≤ text.length := by
  fun_induction scanQuoted done text <;> simp_all <;> omega

theorem scanWord_length (draft : Draft) (word text : List Char) :
    (scanWord draft word text).2.length ≤ text.length := by
  fun_induction scanWord draft word text <;> simp_all <;> omega

theorem scanDigits_length {text digits rest : List Char}
    (scanned : scanDigits text = .ok (digits, rest)) : rest.length < text.length := by
  unfold scanDigits at scanned
  split at scanned
  · cases scanned
  next c tail =>
    split at scanned
    next digit =>
      cases scanned
      have shorter := (List.dropWhile_sublist Char.isDigit (l := tail)).length_le
      simp only [List.dropWhile_cons, digit, if_true, List.length_cons]
      omega
    · cases scanned

theorem scanWhole_length {text digits rest : List Char}
    (scanned : scanWhole text = .ok (digits, rest)) : rest.length < text.length := by
  unfold scanWhole at scanned
  split at scanned
  · split at scanned <;> cases scanned
    simp
  · exact scanDigits_length scanned

theorem scanFraction_length {text rest : List Char} {fraction : Option (List Char)}
    (scanned : scanFraction text = .ok (fraction, rest)) : rest.length ≤ text.length := by
  unfold scanFraction at scanned
  split at scanned
  next tail =>
    simp only [bind, Except.bind] at scanned
    split at scanned
    · cases scanned
    next found =>
      cases scanned
      have shorter := scanDigits_length found
      simp only [List.length_cons]
      omega
  · cases scanned
    simp

theorem scanSign_length (text : List Char) : (scanSign text).2.length ≤ text.length := by
  unfold scanSign
  split <;> simp

theorem scanExponent_length {text rest : List Char} {exponent : Option (Bool × List Char)}
    (scanned : scanExponent text = .ok (exponent, rest)) : rest.length ≤ text.length := by
  unfold scanExponent at scanned
  split at scanned
  · cases scanned
    simp
  next c tail =>
    split at scanned
    · simp only [bind, Except.bind] at scanned
      split at scanned
      · cases scanned
      next found =>
        cases scanned
        have shorter := scanDigits_length found
        have sign := scanSign_length tail
        simp only [List.length_cons]
        omega
    · cases scanned
      simp

theorem scanNumber_length (negative : Bool) (text : List Char) :
    (scanNumber negative text).2.length ≤ text.length - 1 := by
  unfold scanNumber scanNumeral
  simp only [bind, Except.bind]
  split
  next numeral rest scanned =>
    split at scanned
    · cases scanned
    next whole =>
      split at scanned
      · cases scanned
      next fraction =>
        split at scanned
        · cases scanned
        next exponent =>
          cases scanned
          have first := scanWhole_length whole
          have second := scanFraction_length fraction
          have third := scanExponent_length exponent
          simp only
          omega
  all_goals simp

theorem scanToken_length (c : Char) (rest : List Char) :
    (scanToken c rest).2.length ≤ rest.length := by
  unfold scanToken
  split
  all_goals first
    | exact Nat.le_refl _
    | exact scanQuoted_length [] rest
    | exact scanWord_length _ _ rest
    | skip
  · exact Nat.le_trans (scanNumber_length true rest) (Nat.sub_le _ _)
  · split
    · exact scanNumber_length false _
    · simp

namespace Progress

def run (progress : Progress) : List Char → Document
  | [] => ⟨progress.stop .unfinished, false⟩
  | c :: rest =>
    if isSpace c then progress.run rest
    else
      match progress.take (scanToken c rest).1 with
      | none => progress.refuse
      | some next => next.run (scanToken c rest).2
termination_by text => text.length
decreasing_by
  · simp
  · exact Nat.lt_succ_of_le (scanToken_length c rest)

end Progress

def Document.ofText (text : String) : Document :=
  (Progress.value []).run text.toList

def Document.ofDraft (draft : Draft) : Document := ⟨draft, false⟩

end ContentModels.Json
