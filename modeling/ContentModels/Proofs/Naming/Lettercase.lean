import ContentModels.Proofs.Naming.Candidate
import ContentModels.Unit

set_option autoImplicit false

namespace ContentModels.Naming

theorem isDigit_cases {c : Char} (digit : c.isDigit = true) :
    c.toLower = c ∧ c.isAlpha = false := by
  have notUpper : ¬ c.isUpper = true := by
    simp [Char.isDigit, Char.isUpper, UInt32.le_iff_toNat_le] at digit ⊢
    omega
  have notLower : ¬ c.isLower = true := by
    simp [Char.isDigit, Char.isLower, UInt32.le_iff_toNat_le] at digit ⊢
    omega
  exact ⟨Char.toLower_eq_of_not_isUpper notUpper, by simp [Char.isAlpha, notUpper, notLower]⟩

theorem toUpper_of_isUpper {c : Char} (upper : c.isUpper = true) : c.toUpper = c := by
  apply Char.toUpper_eq_of_not_isLower
  simp [Char.isUpper, Char.isLower, UInt32.le_iff_toNat_le] at upper ⊢
  omega

theorem capitalWords_eq_nil_iff (start : Bool) (cs : List Char) :
    capitalWords start cs = [] ↔ ∀ c ∈ cs, c.isAlpha = false := by
  induction cs generalizing start with
  | nil => simp [capitalWords]
  | cons c rest ih =>
    cases letter : c.isAlpha with
    | true => simp [capitalWords, isLetter_eq, letter]
    | false => simp [capitalWords, isLetter_eq, letter, ih]

theorem capitalWords_append {cs ds : List Char} (letters : ∀ c ∈ cs, c.isAlpha = true)
    (others : ∀ d ∈ ds, d.isAlpha = false) : capitalWords false (cs ++ ds) = cs := by
  induction cs with
  | nil => exact (capitalWords_eq_nil_iff false ds).mpr others
  | cons c rest ih =>
    have letter := letters c List.mem_cons_self
    have later := ih fun d member => letters d (List.mem_cons_of_mem c member)
    simp [capitalWords, isLetter_eq, letter, later]

theorem typeName_append {base suffix : String} (letters : ∀ c ∈ base.toList, c.isAlpha = true)
    (capital : Capitalized base) (others : ∀ c ∈ suffix.toList, c.isAlpha = false) :
    typeName (base ++ suffix) = base := by
  obtain ⟨c, rest, written, upper⟩ := capital
  rw [written] at letters
  have further := fun d member => letters d (List.mem_cons_of_mem c member)
  have kept : c.toUpper = c := toUpper_of_isUpper upper
  rw [typeName, String.toList_append, written, List.cons_append, capitalWords, isLetter_eq,
    if_pos (letters c List.mem_cons_self), capitalWords_append further others, if_pos rfl,
    kept, ← written, String.ofList_toList]

namespace MemberNames

theorem candidate_eq_append (base : String) (n : Nat) :
    candidate base n = base ++ candidate "" n := by
  unfold candidate
  split <;> simp

theorem isDigit_of_mem_candidate (n : Nat) : ∀ c ∈ (candidate "" n).toList, c.isDigit = true := by
  unfold candidate
  split
  · simp
  · simpa using isDigit_of_mem_toString n

theorem lowerCase_candidate (base : String) (n : Nat) :
    lowerCase (candidate base n) = lowerCase base ++ (candidate "" n).toList := by
  have digits : (candidate "" n).toList.map Char.toLower = (candidate "" n).toList := by
    refine (List.map_congr_left fun c member => ?_).trans (List.map_id _)
    exact (isDigit_cases (isDigit_of_mem_candidate n c member)).1
  rw [candidate_eq_append, lowerCase, String.toList_append, List.map_append, digits, lowerCase]

theorem Capitalized.candidate {base : String} (capital : Capitalized base) (n : Nat) :
    Capitalized (candidate base n) :=
  candidate_eq_append base n ▸ capital.append _

theorem typeName_candidate {base : String} (letters : ∀ c ∈ base.toList, c.isAlpha = true)
    (capital : Capitalized base) (n : Nat) : typeName (candidate base n) = base := by
  rw [candidate_eq_append]
  refine typeName_append letters capital fun c member => ?_
  exact (isDigit_cases (isDigit_of_mem_candidate n c member)).2

theorem typeName_of_lowerCase {key other : String} (same : lowerCase key = lowerCase other)
    (capital : Capitalized other) : (typeName key).isEmpty = false := by
  obtain ⟨c, rest, written, upper⟩ := capital
  rw [lowerCase, lowerCase, written, List.map_cons] at same
  obtain ⟨d, more, letters, alike, _⟩ := List.map_eq_cons_iff.mp same
  have first : d.isAlpha = true := by
    rw [← Char.isAlpha_toLower_eq_isAlpha, alike, Char.isAlpha_toLower_eq_isAlpha]
    simp [Char.isAlpha, upper]
  by_contra empty
  have none : capitalWords true key.toList = [] := by simpa [typeName] using empty
  have no := (capitalWords_eq_nil_iff true key.toList).mp none d (by simp [letters])
  simp [first] at no

theorem propertyName_eq {key : String} (named : (typeName key).isEmpty = false) :
    propertyName key = typeName key := by
  simp [propertyName, typeNameOr, firstName, named]

theorem candidate_eq_of_lowerCase {key other : String} {n k : Nat}
    (same : lowerCase key = lowerCase other) (named : other = candidate (propertyName key) n)
    (alike : lowerCase (candidate (propertyName other) k) = lowerCase other) :
    candidate (propertyName other) k = other := by
  have capital : Capitalized (propertyName key) := capitalized_firstName _ _
  have worded := typeName_of_lowerCase same (named ▸ Capitalized.candidate capital n)
  have base := propertyName_eq worded
  have letters : ∀ c ∈ (propertyName key).toList, c.isAlpha = true :=
    base ▸ typeName_isAlpha key
  -- the numeral has no letters, so the other key derives the name without it
  have back : typeName other = propertyName key :=
    named ▸ typeName_candidate letters capital n
  have whole : propertyName other = propertyName key := by
    rw [propertyName_eq, back]
    rw [back, base]
    exact worded
  rw [whole] at alike ⊢
  rw [named, lowerCase_candidate, lowerCase_candidate] at alike
  have numerals := String.toList_inj.mp (List.append_cancel_left alike)
  rw [named, candidate_eq_append, numerals, ← candidate_eq_append]

end MemberNames

end ContentModels.Naming
