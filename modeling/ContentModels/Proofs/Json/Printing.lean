import Mathlib
import ContentModels.Json.Printer
import ContentModels.Json.Reader

set_option autoImplicit false

namespace ContentModels.Json

namespace Number

def isInteger : Number → Bool
  | .integer _ => true
  | .float _ => false

def InRange : Number → Prop
  | .integer n => -2 ^ 63 ≤ n ∧ n < 2 ^ 64
  | .float _ => True

instance : (n : Number) → Decidable n.InRange
  | .integer n => inferInstanceAs (Decidable (-2 ^ 63 ≤ n ∧ n < 2 ^ 64))
  | .float _ => .isTrue trivial

end Number

namespace Value

mutual

def numbers : Value → List Number
  | .number n => [n]
  | .array items => itemNumbers items
  | .object members => memberNumbers members
  | _ => []

def itemNumbers : List Value → List Number
  | [] => []
  | item :: rest => item.numbers ++ itemNumbers rest

def memberNumbers : List (String × Value) → List Number
  | [] => []
  | (_, value) :: rest => value.numbers ++ memberNumbers rest

end

mutual

def draft : Value → Draft
  | .null => .null
  | .boolean b => .boolean b
  | .number n => .number (some n)
  | .string s => .string (.of s)
  | .array items => .array (itemDrafts items) none
  | .object members => .object (memberDrafts members) none

def itemDrafts : List Value → List Draft
  | [] => []
  | item :: rest => item.draft :: itemDrafts rest

def memberDrafts : List (String × Value) → List (Quoted × Draft)
  | [] => []
  | (key, value) :: rest => (.of key, value.draft) :: memberDrafts rest

end

end Value

def Ends (rest : List Char) : Prop := ∀ c ∈ rest.head?, c = ',' ∨ c = ']' ∨ c = '\x7d'

theorem Ends.cons_iff (c : Char) (rest : List Char) :
    Ends (c :: rest) ↔ c = ',' ∨ c = ']' ∨ c = '\x7d' := by
  simp [Ends]

theorem Ends.nil : Ends [] := by
  simp [Ends]

theorem gather_eq (digits : List Char) (significand : Nat)
    (bounded : Nat.ofDigitChars 10 digits significand < significandBound) :
    gather significand digits = (Nat.ofDigitChars 10 digits significand, 0) := by
  induction digits generalizing significand with
  | nil => rfl
  | cons c digits ih =>
    have next : significand * 10 + digitValue c = 10 * significand + (c.toNat - '0'.toNat) := by
      rw [Nat.mul_comm]
      rfl
    rw [Nat.ofDigitChars_cons, ← next] at bounded ⊢
    -- What is gathered first is below what is gathered in the end.
    have grows : Nat.ofDigitChars 10 digits (significand * 10 + digitValue c) =
        10 ^ digits.length * (significand * 10 + digitValue c) + Nat.ofDigitChars 10 digits 0 :=
      Nat.ofDigitChars_eq_ofDigitChars_zero
    have power := Nat.le_mul_of_pos_left (significand * 10 + digitValue c)
      (show 0 < 10 ^ digits.length from Nat.pow_pos (by decide))
    have room : significand * 10 + digitValue c < significandBound := by omega
    unfold gather
    rw [if_pos room]
    exact ih _ bounded

theorem naturalText_cons (n : Nat) :
    ∃ digit rest, naturalText n = digit :: rest ∧ digit.isDigit = true := by
  obtain ⟨digit, rest, first⟩ :=
    List.exists_cons_of_ne_nil (Nat.toDigits_ne_nil (n := n) (b := 10))
  have among : digit ∈ Nat.toDigits 10 n := by
    rw [first]
    exact List.mem_cons_self
  exact ⟨digit, rest, first, Nat.isDigit_of_mem_toDigits (by decide) (by decide) among⟩

theorem naturalText_zero_head {n : Nat} {rest : List Char}
    (written : naturalText n = '0' :: rest) : rest = [] := by
  induction n using Nat.strongRecOn generalizing rest with
  | ind n ih =>
    rcases Nat.lt_or_ge n 10 with small | large
    · rw [naturalText, Nat.toDigits_of_lt_base small] at written
      exact (List.cons.inj written).2.symm
    · have parts : naturalText n = naturalText (n / 10) ++ [(n % 10).digitChar] :=
        Nat.toDigits_of_base_le (by decide) large
      obtain ⟨digit, front, first, -⟩ := naturalText_cons (n / 10)
      rw [parts, first] at written
      obtain ⟨rfl, -⟩ := List.cons.inj written
      -- What comes before the last digit is zero on its own, so there is nothing before it.
      obtain rfl := ih (n / 10) (by omega) first
      have value : Nat.ofDigitChars 10 (naturalText (n / 10)) 0 = n / 10 :=
        Nat.ofDigitChars_ten_toDigits
      rw [first] at value
      have zero : 0 = n / 10 := value
      omega

theorem scanDigits_natural (n : Nat) {rest : List Char} (ends : Ends rest) :
    scanDigits (naturalText n ++ rest) = .ok (naturalText n, rest) := by
  have digits : ∀ c ∈ naturalText n, c.isDigit = true := fun c =>
    Nat.isDigit_of_mem_toDigits (by decide) (by decide)
  have stops : ∀ c ∈ rest.head?, ¬ c.isDigit = true := by
    intro c first
    rcases ends c first with rfl | rfl | rfl <;> decide
  have after : rest.takeWhile Char.isDigit = [] ∧ rest.dropWhile Char.isDigit = rest := by
    cases rest with
    | nil => exact ⟨rfl, rfl⟩
    | cons c rest => simp [stops c rfl]
  obtain ⟨c, front, shape, digit⟩ := naturalText_cons n
  have taken : (naturalText n ++ rest).takeWhile Char.isDigit = naturalText n := by
    rw [List.takeWhile_append_of_pos digits, after.1, List.append_nil]
  have dropped : (naturalText n ++ rest).dropWhile Char.isDigit = rest := by
    rw [List.dropWhile_append_of_pos digits, after.2]
  unfold scanDigits
  rw [taken, dropped, shape]
  simp [digit]

theorem scanWhole_natural (n : Nat) {rest : List Char} (ends : Ends rest) :
    scanWhole (naturalText n ++ rest) = .ok (naturalText n, rest) := by
  have scanned := scanDigits_natural n ends
  unfold scanWhole
  split
  next c tail same =>
    obtain ⟨digit, front, shape, -⟩ := naturalText_cons n
    rw [shape, List.cons_append] at same
    obtain ⟨rfl, follows⟩ := List.cons.inj same
    obtain rfl := naturalText_zero_head shape
    rw [List.nil_append] at follows
    subst follows
    rw [shape]
    rcases (Ends.cons_iff c tail).mp ends with rfl | rfl | rfl <;> rfl
  · exact scanned

theorem scanNumeral_natural (negative : Bool) (n : Nat) {rest : List Char} (ends : Ends rest) :
    scanNumeral negative (naturalText n ++ rest) =
      .ok (⟨negative, naturalText n, none, none⟩, rest) := by
  have fraction : scanFraction rest = .ok (none, rest) := by
    unfold scanFraction
    split
    next tail => simpa using (Ends.cons_iff '.' tail).mp ends
    · rfl
  have exponent : scanExponent rest = .ok (none, rest) := by
    cases rest with
    | nil => rfl
    | cons c tail => rcases (Ends.cons_iff c tail).mp ends with rfl | rfl | rfl <;> rfl
  unfold scanNumeral
  rw [scanWhole_natural n ends]
  simp [bind, Except.bind, fraction, exponent]

theorem number?_natural {n : Nat} (small : n < 2 ^ 64) :
    (⟨false, naturalText n, none, none⟩ : Numeral).number? = some (.integer n) := by
  have value : Nat.ofDigitChars 10 (naturalText n) 0 = n := Nat.ofDigitChars_ten_toDigits
  have gathered := gather_eq (naturalText n) 0 (by rw [value]; exact small)
  rw [value] at gathered
  simp [Numeral.number?, gathered]

theorem number?_negative {n : Nat} (small : n + 1 ≤ 2 ^ 63) :
    (⟨true, naturalText (n + 1), none, none⟩ : Numeral).number? =
      some (.integer (.negSucc n)) := by
  have value : Nat.ofDigitChars 10 (naturalText (n + 1)) 0 = n + 1 :=
    Nat.ofDigitChars_ten_toDigits
  have bounded : n + 1 < significandBound := Nat.lt_of_le_of_lt small (by decide)
  have gathered := gather_eq (naturalText (n + 1)) 0 (by rw [value]; exact bounded)
  rw [value] at gathered
  have inside : ¬ 2 ^ 63 < n + 1 := by omega
  simp [Numeral.number?, gathered, Int.negSucc_eq]
  omega

theorem hexValue?_hexDigit {n : Nat} (small : n < 16) : hexValue? (hexDigit n) = some n := by
  revert n
  decide

theorem scanQuoted_plain (done : List Piece) {c : Char} (rest : List Char) (quote : c ≠ '"')
    (backslash : c ≠ '\\') (printable : ¬ c.toNat < 0x20) :
    scanQuoted done (c :: rest) = scanQuoted (.char c :: done) rest := by
  rw [scanQuoted.eq_def]
  split <;> simp_all

theorem scanQuoted_escape (done : List Piece) (c : Char) (rest : List Char) :
    scanQuoted done (escape c ++ rest) = scanQuoted (.char c :: done) rest := by
  unfold escape
  split
  case h_8 quote backslash _ _ _ _ _ =>
    split
    next control =>
      have high := hexValue?_hexDigit (n := c.toNat / 16) (by omega)
      have low := hexValue?_hexDigit (n := c.toNat % 16) (by omega)
      have unit : hexUnit? '0' '0' (hexDigit (c.toNat / 16)) (hexDigit (c.toNat % 16)) =
          some c.toNat := by
        have zero : hexValue? '0' = some 0 := by decide
        simp only [hexUnit?, zero, high, low, bind, Option.bind]
        congr 1
        omega
      have whole : Piece.ofUnit c.toNat = .char c := by
        have low : isHigh c.toNat = false ∧ isLow c.toNat = false := by
          simp [isHigh, isLow]
          omega
        simp [Piece.ofUnit, low]
      simp only [List.cons_append, List.nil_append]
      rw [scanQuoted, unit]
      simp only [whole]
    next printable => exact scanQuoted_plain done rest quote backslash printable
  all_goals rfl

theorem scanQuoted_quote (s : List Char) (done : List Piece) (rest : List Char) :
    scanQuoted done (s.foldr (fun c tail => escape c ++ tail) ('"' :: rest)) =
      (.ofPieces (done.reverse ++ s.map .char) none, rest) := by
  induction s generalizing done with
  | nil => simp [scanQuoted]
  | cons c s ih => rw [List.foldr_cons, scanQuoted_escape, ih]; simp

theorem pairHalves_chars (s done : List Char) :
    pairHalves none (s.map .char) done = .ok (String.ofList (done.reverse ++ s)) := by
  induction s generalizing done with
  | nil => simp [pairHalves]
  | cons c s ih => simp [pairHalves, ih]

theorem scanToken_quote (s : String) (rest : List Char) :
    scanToken '"' (s.toList.foldr (fun c tail => escape c ++ tail) ('"' :: rest)) =
      (.text (.of s), rest) := by
  simp only [scanToken, scanQuoted_quote]
  simp [Quoted.ofPieces, pairHalves_chars, Quoted.of]

theorem isSpace_digit {c : Char} (digit : c.isDigit = true) : isSpace c = false := by
  by_contra space
  simp only [isSpace, Bool.not_eq_false, Bool.or_eq_true, decide_eq_true_eq] at space
  rcases space with ((rfl | rfl) | rfl) | rfl <;> revert digit <;> decide

theorem scanToken_digit {c : Char} (digit : c.isDigit = true) (rest : List Char) :
    scanToken c rest = scanNumber false (c :: rest) := by
  unfold scanToken
  split
  case h_12 => rw [if_pos digit]
  all_goals exact absurd digit (by decide)

theorem scanNumber_natural {n : Nat} (small : n < 2 ^ 64) {rest : List Char}
    (ends : Ends rest) :
    scanNumber false (naturalText n ++ rest) = (.scalar (.number (some (.integer n))), rest) := by
  unfold scanNumber
  rw [scanNumeral_natural false n ends]
  simp only [number?_natural small]

theorem scanNumber_negative {n : Nat} (small : n + 1 ≤ 2 ^ 63) {rest : List Char}
    (ends : Ends rest) :
    scanNumber true (naturalText (n + 1) ++ rest) =
      (.scalar (.number (some (.integer (.negSucc n)))), rest) := by
  unfold scanNumber
  rw [scanNumeral_natural true (n + 1) ends]
  simp only [number?_negative small]

namespace Progress

def Awaits (progress : Progress) (frames : List Frame) : Prop :=
  ∀ token next, takeValue frames token = some next → progress.take token = some next

theorem awaits_value (frames : List Frame) : Awaits (.value frames) frames :=
  fun _ _ taken => taken

theorem awaits_firstItem (frames : List Frame) :
    Awaits (.firstItem frames) (.item [] :: frames) := by
  intro token next taken
  cases token <;> first | exact taken | cases taken

theorem run_token (c : Char) (token : Token) {progress next : Progress} {rest left : List Char}
    (space : isSpace c = false) (scanned : scanToken c rest = (token, left))
    (taken : progress.take token = some next) : progress.run (c :: rest) = next.run left := by
  rw [run, if_neg (by simp [space]), scanned]
  simp only [taken]

theorem run_integer {progress : Progress} {frames : List Frame}
    (awaits : progress.Awaits frames) {n : Int} (small : (Number.integer n).InRange)
    {rest : List Char} (ends : Ends rest) :
    progress.run (integerText n ++ rest) =
      (Progress.after (.number (some (.integer n))) frames).run rest := by
  have taken := awaits (.scalar (.number (some (.integer n)))) _ rfl
  obtain ⟨least, most⟩ := small
  cases n with
  | ofNat n =>
    obtain ⟨digit, front, shape, isDigit⟩ := naturalText_cons n
    have scanned := scanNumber_natural (n := n) (by simpa using most) ends
    rw [shape, List.cons_append, ← scanToken_digit isDigit] at scanned
    show progress.run (naturalText n ++ rest) = _
    rw [shape]
    exact run_token digit _ (isSpace_digit isDigit) scanned taken
  | negSucc n =>
    have scanned := scanNumber_negative (n := n) (by omega) ends
    exact run_token '-' _ rfl scanned taken

theorem run_quote {progress : Progress} (s : String) (next : Progress) {rest : List Char}
    (taken : progress.take (.text (.of s)) = some next) :
    progress.run (quote s rest) = next.run rest :=
  run_token '"' _ rfl (scanToken_quote s rest) taken

end Progress

def Value.Exact (v : Value) : Prop := ∀ n ∈ v.numbers, n.isInteger = true ∧ n.InRange

instance (v : Value) : Decidable v.Exact :=
  inferInstanceAs (Decidable (∀ n ∈ v.numbers, n.isInteger = true ∧ n.InRange))

theorem Value.mem_itemNumbers (n : Number) (items : List Value) :
    n ∈ itemNumbers items ↔ ∃ item ∈ items, n ∈ item.numbers := by
  induction items with
  | nil => simp [itemNumbers]
  | cons item items ih => simp [itemNumbers, ih]

theorem Value.mem_memberNumbers (n : Number) (members : List (String × Value)) :
    n ∈ memberNumbers members ↔ ∃ member ∈ members, n ∈ member.2.numbers := by
  induction members with
  | nil => simp [memberNumbers]
  | cons member members ih => simp [memberNumbers, ih]

theorem Value.exact_array (items : List Value) :
    (Value.array items).Exact ↔ ∀ item ∈ items, item.Exact := by
  simp only [Exact, numbers, mem_itemNumbers]
  exact ⟨fun exact item member n held => exact n ⟨item, member, held⟩,
    fun exact n ⟨item, member, held⟩ => exact item member n held⟩

theorem Value.exact_object (members : List (String × Value)) :
    (Value.object members).Exact ↔ ∀ member ∈ members, member.2.Exact := by
  simp only [Exact, numbers, mem_memberNumbers]
  exact ⟨fun exact item member n held => exact n ⟨item, member, held⟩,
    fun exact n ⟨item, member, held⟩ => exact item member n held⟩

theorem Value.ends_writeItems (items : List Value) (rest : List Char) :
    Ends (writeItems items (']' :: rest)) := by
  cases items <;> simp [writeItems, Ends.cons_iff]

theorem Value.ends_writeMembers (members : List (String × Value)) (rest : List Char) :
    Ends (writeMembers members ('\x7d' :: rest)) := by
  rcases members with _ | ⟨⟨key, value⟩, members⟩ <;> simp [writeMembers, Ends.cons_iff]

namespace Progress

-- A value takes one step to each of its tokens; what is read of an array or an object so far stays
-- on its frame, in reverse.
mutual

theorem run_write : ∀ (v : Value), v.Exact → ∀ {progress : Progress} {frames : List Frame},
    progress.Awaits frames → ∀ {rest : List Char}, Ends rest →
      progress.run (v.write rest) = (Progress.after v.draft frames).run rest
  | .null, _, _, _, awaits, _, _ => run_token 'n' _ rfl rfl (awaits _ _ rfl)
  | .boolean true, _, _, _, awaits, _, _ => run_token 't' _ rfl rfl (awaits _ _ rfl)
  | .boolean false, _, _, _, awaits, _, _ => run_token 'f' _ rfl rfl (awaits _ _ rfl)
  | .number (.integer _), exact, _, _, awaits, _, ends =>
    run_integer awaits (exact _ (List.mem_singleton_self _)).2 ends
  | .number (.float _), exact, _, _, _, _, _ => nomatch (exact _ (List.mem_singleton_self _)).1
  | .string s, _, _, _, awaits, rest, _ => run_quote s _ (awaits _ _ rfl)
  | .array [], _, _, frames, awaits, rest, _ => by
    rw [Value.write, run_token '[' _ rfl rfl (awaits .openArray _ rfl)]
    exact run_token ']' _ rfl rfl rfl
  | .array (item :: items), exact, _, frames, awaits, rest, _ => by
    rw [Value.exact_array, List.forall_mem_cons] at exact
    rw [Value.write, run_token '[' _ rfl rfl (awaits .openArray _ rfl),
      run_write item exact.1 (awaits_firstItem frames) (Value.ends_writeItems items rest),
      run_writeItems items exact.2]
    rfl
  | .object [], _, _, frames, awaits, rest, _ => by
    rw [Value.write, run_token '\x7b' _ rfl rfl (awaits .openObject _ rfl)]
    exact run_token '\x7d' _ rfl rfl rfl
  | .object ((key, v) :: members), exact, _, frames, awaits, rest, _ => by
    rw [Value.exact_object, List.forall_mem_cons] at exact
    rw [Value.write, run_token '\x7b' _ rfl rfl (awaits .openObject _ rfl),
      run_quote key (.colon [] (.of key) frames) rfl,
      run_token ':' .colon rfl rfl rfl,
      run_write v exact.1 (awaits_value _) (Value.ends_writeMembers members rest),
      run_writeMembers members exact.2]
    rfl

theorem run_writeItems : ∀ (items : List Value), (∀ item ∈ items, item.Exact) →
    ∀ {draft : Draft} {done : List Draft} {frames : List Frame} {rest : List Char},
      (Progress.after draft (.item done :: frames)).run (Value.writeItems items (']' :: rest)) =
        (Progress.after (.array ((draft :: done).reverse ++ Value.itemDrafts items) none)
          frames).run rest
  | [], _, draft, done, frames, rest => by
    rw [Value.writeItems, run_token ']' .closeArray rfl rfl rfl]
    simp [Value.itemDrafts]
  | item :: items, exact, draft, done, frames, rest => by
    rw [List.forall_mem_cons] at exact
    rw [Value.writeItems, run_token ',' .comma rfl rfl rfl,
      run_write item exact.1 (awaits_value _) (Value.ends_writeItems items rest),
      run_writeItems items exact.2]
    simp [Value.itemDrafts]

theorem run_writeMembers : ∀ (members : List (String × Value)),
    (∀ member ∈ members, member.2.Exact) →
    ∀ {draft : Draft} {done : List (Quoted × Draft)} {key : Quoted} {frames : List Frame}
      {rest : List Char},
      (Progress.after draft (.member done key :: frames)).run
          (Value.writeMembers members ('\x7d' :: rest)) =
        (Progress.after
          (.object (((key, draft) :: done).reverse ++ Value.memberDrafts members) none)
          frames).run rest
  | [], _, draft, done, key, frames, rest => by
    rw [Value.writeMembers, run_token '\x7d' .closeObject rfl rfl rfl]
    simp [Value.memberDrafts]
  | (next, v) :: members, exact, draft, done, key, frames, rest => by
    rw [List.forall_mem_cons] at exact
    rw [Value.writeMembers, run_token ',' .comma rfl rfl rfl,
      run_quote next (.colon ((key, draft) :: done) (.of next) frames) rfl,
      run_token ':' .colon rfl rfl rfl,
      run_write v exact.1 (awaits_value _) (Value.ends_writeMembers members rest),
      run_writeMembers members exact.2]
    simp [Value.memberDrafts]

end

end Progress

theorem Document.ofText_text {v : Value} (exact : v.Exact) :
    Document.ofText v.text = .ofDraft v.draft := by
  unfold Document.ofText Value.text
  rw [String.toList_ofList, Progress.run_write v exact (Progress.awaits_value []) Ends.nil,
    Progress.run]
  rfl

end ContentModels.Json
