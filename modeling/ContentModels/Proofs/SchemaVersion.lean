import Mathlib
import ContentModels.Config
import ContentModels.Stack

set_option autoImplicit false

namespace ContentModels.Text

theorem trimEnd_append {front : List Char} (dark : ∀ c ∈ front, isBlank c = false)
    (rest : List Char) : trimEnd (front ++ rest) = front ++ trimEnd rest := by
  have kept : front.reverse.dropWhile isBlank = front.reverse := by
    rw [List.dropWhile_eq_self_iff]
    intro _
    rw [dark _ (List.mem_reverse.mp (List.getElem_mem _))]
    exact Bool.false_ne_true
  rw [trimEnd, trimEnd, List.reverse_append, List.dropWhile_append, kept]
  split
  case isTrue nothing => simp [List.isEmpty_iff.mp nothing]
  case isFalse => simp

theorem trim_append {blank front : String} (white : ∀ c ∈ blank.toList, isBlank c = true)
    (dark : ∀ c ∈ front.toList, isBlank c = false) (some : front.toList ≠ []) (rest : String) :
    (trim (blank ++ front ++ rest)).toList = front.toList ++ trimEnd rest.toList := by
  have start : trimStart (front.toList ++ rest.toList) = front.toList ++ rest.toList := by
    obtain ⟨c, cs, written⟩ := List.exists_cons_of_ne_nil some
    simp [trimStart, written, dark c (by simp [written])]
  rw [trim, String.toList_ofList, String.toList_append, String.toList_append, List.append_assoc,
    trimStart, List.dropWhile_append_of_pos white, ← trimStart, start, trimEnd_append dark]

end ContentModels.Text

namespace ContentModels.Date

instance : LinearOrder Date :=
  LinearOrder.lift' (fun d => toLex (d.year, toLex (d.month, d.day))) <| by
    rintro ⟨_, _, _⟩ ⟨_, _, _⟩ same
    simpa using same

theorem le_iff (d e : Date) :
    d ≤ e ↔ d.year < e.year ∨
      d.year = e.year ∧ (d.month < e.month ∨ d.month = e.month ∧ d.day ≤ e.day) := by
  change toLex (d.year, toLex (d.month, d.day)) ≤ toLex (e.year, toLex (e.month, e.day)) ↔ _
  rw [Prod.Lex.toLex_le_toLex, Prod.Lex.toLex_le_toLex]

theorem isFrom_iff (start d : Date) : isFrom start d = true ↔ start ≤ d := by
  simp [isFrom, le_iff]

theorem padded_toList (width n : Nat) :
    (padded width n).toList =
      List.replicate (width - (Nat.toDigits 10 n).length) '0' ++ Nat.toDigits 10 n := by
  simp [padded]

theorem isDigit_of_mem_padded {width n : Nat} {c : Char} (member : c ∈ (padded width n).toList) :
    c.isDigit = true := by
  rw [padded_toList, List.mem_append] at member
  rcases member with zero | digit
  · rw [List.eq_of_mem_replicate zero]
    rfl
  · exact Nat.isDigit_of_mem_toDigits (by decide) (by decide) digit

theorem length_padded {width n : Nat} (some : 0 < width) (small : n < 10 ^ width) :
    (padded width n).toList.length = width := by
  have short := (Nat.length_toDigits_le_iff (by decide) some).mpr small
  simp [padded_toList]
  omega

theorem digitsValue_eq (digits : List Char) : digitsValue digits = Nat.ofDigitChars 10 digits 0 := by
  simp only [digitsValue, Nat.ofDigitChars, Nat.mul_comm]
  rfl

theorem digitsValue_padded (width n : Nat) : digitsValue (padded width n).toList = n := by
  have zeros (count : Nat) : Nat.ofDigitChars 10 (List.replicate count '0') 0 = 0 := by
    induction count with
    | zero => rfl
    | succ count ih => simp [List.replicate_succ, Nat.ofDigitChars_cons, ih]
  rw [digitsValue_eq, padded_toList, Nat.ofDigitChars_append, zeros, Nat.ofDigitChars_ten_toDigits]

theorem isBlank_of_isDigit {c : Char} (digit : c.isDigit = true) : Text.isBlank c = false := by
  simp [Char.isDigit, Text.isBlank, UInt32.le_iff_toNat_le] at digit ⊢
  omega

section fixed

variable {width n : Nat} (some : 0 < width) (small : n < 10 ^ width) (rest : List Char)

include some small

theorem exists_first_digit :
    ∃ c digits, (padded width n).toList = c :: digits ∧ c.isDigit = true := by
  have wide := length_padded some small
  cases written : (padded width n).toList with
  | nil => simp_all
  | cons c digits =>
    have member : c ∈ (padded width n).toList := by simp [written]
    exact ⟨c, digits, rfl, isDigit_of_mem_padded member⟩

theorem trimStart_padded :
    Text.trimStart ((padded width n).toList ++ rest) = (padded width n).toList ++ rest := by
  obtain ⟨c, digits, written, digit⟩ := exists_first_digit some small
  simp [Text.trimStart, written, isBlank_of_isDigit digit]

theorem takeExactly_padded :
    takeExactly width ((padded width n).toList ++ rest) = .some (n, rest) := by
  have wide := length_padded some small
  have digits : (padded width n).toList.all Char.isDigit = true :=
    List.all_eq_true.mpr fun _ => isDigit_of_mem_padded
  simp [takeExactly, List.take_left' wide, List.drop_left' wide, wide, digits, digitsValue_padded]

theorem takeNumber_padded :
    takeNumber width ((padded width n).toList ++ rest) = .some (n, rest) := by
  have wide := length_padded some small
  have digits : (padded width n).toList.takeWhile Char.isDigit = (padded width n).toList :=
    List.takeWhile_eq_self_iff.mpr fun _ => isDigit_of_mem_padded
  have written : (padded width n).toList.isEmpty = false := by
    rw [← Bool.not_eq_true, List.isEmpty_iff_length_eq_zero]
    omega
  simp [takeNumber, List.take_left' wide, List.drop_left' wide, wide, digits, written,
    digitsValue_padded]

end fixed

structure Common (d : Date) : Prop where
  valid : d.isValid = true
  nonnegative : 0 ≤ d.year
  fourDigits : d.year ≤ 9999

namespace Common

variable {d : Date} (common : d.Common)

include common

theorem of?_eq : of? d.year d.month d.day = some d := by
  simp [of?, common.valid]

theorem year_eq : (d.year.toNat : Int) = d.year := Int.toNat_of_nonneg common.nonnegative

theorem year_lt : d.year.toNat < 10 ^ 4 := by
  have := common.fourDigits
  omega

theorem month_lt : d.month < 10 ^ 2 := by
  have valid := common.valid
  simp only [isValid, Bool.and_eq_true, decide_eq_true_eq] at valid
  omega

theorem day_lt : d.day < 10 ^ 2 := by
  have valid := common.valid
  simp only [isValid, Bool.and_eq_true, decide_eq_true_eq] at valid
  have month : daysIn d.year d.month ≤ 31 := by
    unfold daysIn
    repeat' split
    all_goals decide
  omega

theorem text_toList : d.text.toList = (padded 4 d.year.toNat).toList ++
    '-' :: ((padded 2 d.month).toList ++ '-' :: (padded 2 d.day).toList) := by
  simp [text, yearText, common.nonnegative, common.fourDigits]

theorem ofRfc3339?_text {rest : List Char} {found : Date}
    (read : ofRfc3339? (d.text.toList ++ rest) = some found) : found = d := by
  rw [common.text_toList] at read
  simp only [ofRfc3339?, List.append_assoc, List.cons_append,
    takeExactly_padded (by decide) common.year_lt, takeExactly_padded (by decide) common.month_lt,
    takeExactly_padded (by decide) common.day_lt, takeChar, if_true, Option.bind_eq_bind,
    Option.bind_some, common.year_eq, common.of?_eq] at read
  -- the time of day and the offset only decide whether there is a date
  simp only [Option.bind_eq_some_iff, Option.ite_none_right_eq_some] at read
  obtain ⟨_, _, _, _, _, _, _, _, _, _, _, _, _, _, _, same⟩ := read
  exact (Option.some.inj same).symm

theorem takeYear_text (rest : List Char) :
    takeYear ((padded 4 d.year.toNat).toList ++ rest) = some (d.year, rest) := by
  have number := takeNumber_padded (by decide) common.year_lt rest
  have kept := trimStart_padded (by decide) common.year_lt rest
  obtain ⟨c, digits, written, digit⟩ := exists_first_digit (by decide) common.year_lt
  have unsigned : c ≠ '-' ∧ c ≠ '+' := by
    constructor <;> rintro rfl <;> simp at digit
  rw [written, List.cons_append] at number kept ⊢
  rw [takeYear, kept]
  simp [unsigned, number, common.year_eq]

theorem ofHyphenated?_text : ofHyphenated? d.text.toList = some d := by
  have month (rest : List Char) := takeNumber_padded (by decide) common.month_lt rest
  have day := takeNumber_padded (by decide) common.day_lt []
  rw [List.append_nil] at day
  have spaced := trimStart_padded (by decide) common.day_lt []
  rw [List.append_nil] at spaced
  rw [common.text_toList, ofHyphenated?, common.takeYear_text]
  simp [takeChar, trimStart_padded (by decide) common.month_lt, month, spaced, day, common.of?_eq]

end Common

theorem takeBytes_append {front : List Char} (single : ∀ c ∈ front, c.utf8Size = 1)
    (rest : List Char) : takeBytes front.length (front ++ rest) = some front := by
  induction front with
  | nil => simp [takeBytes]
  | cons c front ih =>
    obtain ⟨head, tail⟩ := List.forall_mem_cons.mp single
    simp [takeBytes, head, ih tail]

namespace Common

variable {d : Date} (common : d.Common)

include common

theorem length_text : d.text.toList.length = 10 := by
  simp only [common.text_toList, List.length_append, List.length_cons,
    length_padded (by decide) common.year_lt, length_padded (by decide) common.month_lt,
    length_padded (by decide) common.day_lt]

theorem mem_text {c : Char} (member : c ∈ d.text.toList) : c.isDigit = true ∨ c = '-' := by
  simp only [common.text_toList, List.mem_append, List.mem_cons] at member
  rcases member with year | rfl | month | rfl | day
  case inr.inl | inr.inr.inr.inl => exact .inr rfl
  all_goals exact .inl (isDigit_of_mem_padded ‹_›)

theorem takeBytes_text (rest : List Char) :
    takeBytes 10 (d.text.toList ++ rest) = some d.text.toList := by
  rw [← common.length_text]
  apply takeBytes_append
  intro c member
  rcases common.mem_text member with digit | rfl
  · simp only [Char.isDigit, Bool.and_eq_true, decide_eq_true_eq] at digit
    exact Char.utf8Size_eq_one_iff.mpr (UInt32.le_trans digit.2 (by decide))
  · rfl

theorem text_dark : ∀ c ∈ d.text.toList, Text.isBlank c = false := by
  intro c member
  rcases common.mem_text member with digit | rfl
  · exact isBlank_of_isDigit digit
  · rfl

theorem trim_text {blank : String} (white : ∀ c ∈ blank.toList, Text.isBlank c = true)
    (suffix : String) :
    ∃ rest, (Text.trim (blank ++ d.text ++ suffix)).toList = d.text.toList ++ rest :=
  ⟨_, Text.trim_append white common.text_dark (by simp [common.text_toList]) suffix⟩

theorem ofVersion?_text {version : String} {rest : List Char}
    (written : (Text.trim version).toList = d.text.toList ++ rest) :
    ofVersion? version = some d := by
  rw [ofVersion?, written, common.takeBytes_text, Option.bind_some, common.ofHyphenated?_text]
  cases read : ofRfc3339? (d.text.toList ++ rest) with
  | none => rfl
  | some found => exact congrArg some (common.ofRfc3339?_text read)

end Common

end ContentModels.Date

namespace ContentModels

theorem ReferenceMode.auto_policy_some (d : Date) :
    ReferenceMode.auto.policy (some d) = .alwaysList ↔ ReferencePolicy.listsSince ≤ d := by
  rw [← Date.isFrom_iff]
  simp [policy, ReferencePolicy.ofVersion]

namespace Stack

-- White space may come before the date that a stack states, and anything after it.
def States (s : Stack) (d : Date) : Prop :=
  d.Common ∧ ∃ blank suffix : String, (∀ c ∈ blank.toList, Text.isBlank c = true) ∧
    s.version = some (blank ++ d.text ++ suffix)

theorem States.schemaVersion_eq {s : Stack} {d : Date} (stated : s.States d) :
    s.schemaVersion = some d := by
  obtain ⟨common, blank, suffix, white, written⟩ := stated
  obtain ⟨rest, trimmed⟩ := common.trim_text white suffix
  rw [schemaVersion, written, Option.bind_some, common.ofVersion?_text trimmed]

theorem schemaVersion_stated {s t : Stack} {d e : Date} (first : s.States d) (second : t.States e) :
    (∃ version, s.version = some version ∧
        (∀ found, Date.ofRfc3339? (Text.trim version).toList = some found → found = d) ∧
        (Date.takeBytes 10 (Text.trim version).toList).bind Date.ofHyphenated? = some d) ∧
      s.schemaVersion = some d ∧
      (ReferenceMode.auto.policy s.schemaVersion = .alwaysList ↔ ⟨2019, 4, 4⟩ ≤ d) ∧
      (d ≤ e → ReferenceMode.auto.policy s.schemaVersion = .alwaysList →
        ReferenceMode.auto.policy t.schemaVersion = .alwaysList) := by
  refine ⟨?_, first.schemaVersion_eq, ?_, ?_⟩
  · obtain ⟨common, blank, suffix, white, written⟩ := first
    obtain ⟨rest, trimmed⟩ := common.trim_text white suffix
    refine ⟨_, written, ?_⟩
    rw [trimmed, common.takeBytes_text, Option.bind_some]
    exact ⟨fun _ => common.ofRfc3339?_text, common.ofHyphenated?_text⟩
  · rw [first.schemaVersion_eq]
    exact ReferenceMode.auto_policy_some d
  · rw [first.schemaVersion_eq, second.schemaVersion_eq, ReferenceMode.auto_policy_some,
      ReferenceMode.auto_policy_some]
    exact fun later since => since.trans later

-- In universal time the first version is a day later, the second one is no time at all.
def evening : Stack where
  version := some "\t2019-04-03T23:30:60.5-05:00"

def morning : Stack where
  version := some "2019-04-04 \u00e0 midi"

theorem evening_schemaVersion : evening.States ⟨2019, 4, 3⟩ ∧ morning.States ⟨2019, 4, 4⟩ ∧
    evening.schemaVersion = some ⟨2019, 4, 3⟩ ∧
    (ReferenceMode.auto.policy evening.schemaVersion = .alwaysList ↔
      (⟨2019, 4, 4⟩ : Date) ≤ ⟨2019, 4, 3⟩) ∧
    ((⟨2019, 4, 3⟩ : Date) ≤ ⟨2019, 4, 4⟩ →
      ReferenceMode.auto.policy evening.schemaVersion = .alwaysList →
        ReferenceMode.auto.policy morning.schemaVersion = .alwaysList) := by
  have first : evening.States ⟨2019, 4, 3⟩ :=
    ⟨⟨by decide, by decide, by decide⟩, "\t", "T23:30:60.5-05:00", by simp [Text.isBlank], rfl⟩
  have second : morning.States ⟨2019, 4, 4⟩ :=
    ⟨⟨by decide, by decide, by decide⟩, "", " \u00e0 midi", by simp [Text.isBlank], rfl⟩
  exact ⟨first, second, (schemaVersion_stated first second).2⟩

end Stack

end ContentModels
