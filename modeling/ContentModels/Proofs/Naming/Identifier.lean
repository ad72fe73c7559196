import Mathlib
import ContentModels.Config
import ContentModels.Emission.Outline

set_option autoImplicit false

namespace ContentModels.Naming

open Config

def isNameChar (c : Char) : Bool := isLetterOrLine c || c.isDigit

def AllNameChars (s : String) : Prop := ∀ c ∈ s.toList, isNameChar c = true

theorem isIdentifier_iff (s : String) :
    isIdentifier s = true ↔ ∃ c rest, s.toList = c :: rest ∧ isLetterOrLine c = true ∧
      ∀ d ∈ rest, isNameChar d = true := by
  unfold isIdentifier
  cases s.toList <;> simp [isNameChar]

theorem allNameChars_of_isIdentifier {s : String} (valid : isIdentifier s = true) :
    AllNameChars s := by
  obtain ⟨c, rest, written, letter, tail⟩ := (isIdentifier_iff s).mp valid
  unfold AllNameChars
  rw [written]
  simpa [isNameChar, letter] using tail

theorem isIdentifier_append {s t : String} (valid : isIdentifier s = true) (more : AllNameChars t) :
    isIdentifier (s ++ t) = true := by
  obtain ⟨c, rest, written, letter, tail⟩ := (isIdentifier_iff s).mp valid
  refine (isIdentifier_iff _).mpr ⟨c, rest ++ t.toList, by simp [written], letter, ?_⟩
  intro d member
  rcases List.mem_append.mp member with member | member
  · exact tail d member
  · exact more d member

theorem ne_empty_of_isIdentifier {s : String} (valid : isIdentifier s = true) : s ≠ "" := by
  rintro rfl
  exact absurd valid (by decide)

theorem notMem_of_isIdentifier {s : String} (valid : isIdentifier s = true) {c : Char}
    (other : isNameChar c = false) : c ∉ s.toList := by
  intro member
  have := allNameChars_of_isIdentifier valid c member
  simp_all

theorem isNameChar_of_isAlpha {c : Char} (letter : c.isAlpha = true) : isNameChar c = true := by
  simp [isNameChar, isLetterOrLine, letter]

theorem isLetter_eq (c : Char) : isLetter c = c.isAlpha := by
  have lower : (decide ('a' ≤ c) && decide (c ≤ 'z')) = c.isLower := rfl
  have upper : (decide ('A' ≤ c) && decide (c ≤ 'Z')) = c.isUpper := by
    simp only [Char.isUpper, Char.le_def, Bool.decide_and, ge_iff_le]
  rw [isLetter, lower, upper, Char.isAlpha, Bool.or_comm]

theorem capitalWords_isAlpha (start : Bool) (cs : List Char) :
    ∀ c ∈ capitalWords start cs, c.isAlpha = true := by
  induction cs generalizing start with
  | nil => simp [capitalWords]
  | cons c rest ih =>
    by_cases letter : isLetter c
    · have alpha : c.isAlpha = true := isLetter_eq c ▸ letter
      cases start <;> simpa [capitalWords, letter, alpha] using ih false
    · simpa [capitalWords, letter] using ih _

theorem typeName_isAlpha (raw : String) : ∀ c ∈ (typeName raw).toList, c.isAlpha = true := by
  simpa [typeName] using capitalWords_isAlpha true raw.toList

theorem typeName_allNameChars (raw : String) : AllNameChars (typeName raw) :=
  fun c member => isNameChar_of_isAlpha (typeName_isAlpha raw c member)

theorem isIdentifier_typeName {raw : String} (named : (typeName raw).isEmpty = false) :
    isIdentifier (typeName raw) = true := by
  have letters := typeName_isAlpha raw
  cases written : (typeName raw).toList with
  | nil => simp_all
  | cons c rest =>
    rw [written] at letters
    refine (isIdentifier_iff _).mpr ⟨c, rest, written, ?_, ?_⟩
    · simp [isLetterOrLine, letters c]
    · intro d member
      exact isNameChar_of_isAlpha (letters d (List.mem_cons_of_mem _ member))

theorem hexDigit_isNameChar (n : Nat) (small : n < 16) : isNameChar (hexDigit n) = true := by
  decide +revert

theorem exists_hexDigit {places n : Nat} {c : Char} (member : c ∈ hexDigits places n) :
    ∃ d < 16, c = hexDigit d := by
  induction places generalizing n with
  | zero => simp [hexDigits] at member
  | succ places ih =>
    rcases List.mem_append.mp member with high | low
    · exact ih high
    · exact ⟨n % 16, Nat.mod_lt n (by decide), List.mem_singleton.mp low⟩

theorem hexDigits_isNameChar (places n : Nat) : ∀ c ∈ hexDigits places n, isNameChar c = true := by
  intro c member
  obtain ⟨d, small, rfl⟩ := exists_hexDigit member
  exact hexDigit_isNameChar d small

theorem isIdentifier_placeholder (key : String) : isIdentifier (placeholder key) = true := by
  apply isIdentifier_append (by decide)
  simpa [AllNameChars] using hexDigits_isNameChar 8 (hash key).toNat

theorem isIdentifier_firstName (key : String) (labels : List String) :
    isIdentifier (firstName key labels) = true := by
  induction labels with
  | nil => exact isIdentifier_placeholder key
  | cons label rest ih =>
    cases named : (typeName label).isEmpty with
    | true => simpa [firstName, named] using ih
    | false => simpa [firstName, named] using isIdentifier_typeName named

theorem isIdentifier_definitionName (title uid : String) :
    isIdentifier (definitionName title uid) = true :=
  isIdentifier_firstName uid [title, uid]

theorem isIdentifier_nestedDirectory {owner : String} (valid : isIdentifier owner = true)
    (role : NestedRole) : isIdentifier (nestedDirectory owner role) = true :=
  isIdentifier_append valid (by cases role <;> exact allNameChars_of_isIdentifier (by decide))

theorem isIdentifier_variantTypeName {wrapper : String} (valid : isIdentifier wrapper = true)
    (title uid : String) : isIdentifier (variantTypeName wrapper title uid) = true :=
  isIdentifier_append valid (allNameChars_of_isIdentifier (isIdentifier_firstName uid [title, uid]))

theorem isIdentifier_tagEnumName {wrapper : String} (valid : isIdentifier wrapper = true) :
    isIdentifier (tagEnumName wrapper) = true :=
  isIdentifier_append valid (allNameChars_of_isIdentifier (by decide))

theorem isIdentifier_converterName {wrapper : String} (valid : isIdentifier wrapper = true) :
    isIdentifier (converterName wrapper) = true :=
  isIdentifier_append valid (allNameChars_of_isIdentifier (by decide))

def Capitalized (s : String) : Prop := ∃ c rest, s.toList = c :: rest ∧ c.isUpper = true

theorem Capitalized.append {s : String} (capital : Capitalized s) (t : String) :
    Capitalized (s ++ t) := by
  obtain ⟨c, rest, written, upper⟩ := capital
  exact ⟨c, rest ++ t.toList, by simp [written], upper⟩

theorem capitalWords_head (cs : List Char) :
    ∀ c ∈ (capitalWords true cs).head?, c.isUpper = true := by
  induction cs with
  | nil => simp [capitalWords]
  | cons c rest ih =>
    by_cases letter : isLetter c
    · have alpha : c.isAlpha = true := isLetter_eq c ▸ letter
      simp [capitalWords, letter, alpha]
    · simpa [capitalWords, letter] using ih

theorem capitalized_typeName {raw : String} (named : (typeName raw).isEmpty = false) :
    Capitalized (typeName raw) := by
  have head := capitalWords_head raw.toList
  cases written : capitalWords true raw.toList with
  | nil => simp [typeName, written] at named
  | cons c rest => exact ⟨c, rest, by simp [typeName, written], head c (by simp [written])⟩

theorem capitalized_firstName (key : String) (labels : List String) :
    Capitalized (firstName key labels) := by
  induction labels with
  | nil => exact Capitalized.append ⟨'T', _, rfl, by decide⟩ _
  | cons label rest ih =>
    cases named : (typeName label).isEmpty with
    | true => simpa [firstName, named] using ih
    | false => simpa [firstName, named] using capitalized_typeName named

structure Prefixes.Valid (p : Prefixes) : Prop where
  modularBlock : isIdentifier p.modularBlock = true
  group : isIdentifier p.group = true

theorem Prefixes.Valid.of {p : Prefixes} (valid : p.Valid) (role : NestedRole) :
    isIdentifier (p.of role) = true := by
  cases role
  · exact valid.modularBlock
  · exact valid.group

-- No part of the name has a space in it, so nothing is left out.
theorem nestedTypeName_eq {prefixes : Prefixes} (valid : prefixes.Valid) (role : NestedRole)
    {owner : String} (owned : isIdentifier owner = true) (field : Field) :
    isIdentifier (nestedTypeName prefixes role owner field) = true ∧
      nestedTypeName prefixes role owner field =
        prefixes.of role ++ owner ++ typeName (typeNameOr field.label field.uid) := by
  let label := typeNameOr field.label field.uid
  have whole : isIdentifier (prefixes.of role ++ owner ++ typeName label) = true :=
    isIdentifier_append
      (isIdentifier_append (valid.of role) (allNameChars_of_isIdentifier owned))
      (typeName_allNameChars label)
  have noSpace := notMem_of_isIdentifier whole (c := ' ') (by decide)
  have kept : nestedTypeName prefixes role owner field =
      prefixes.of role ++ owner ++ typeName label := by
    rw [nestedTypeName, blockGroupTypeName, List.filter_eq_self.mpr, String.ofList_toList]
    intro c member
    exact decide_eq_true (ne_of_mem_of_not_mem member noSpace)
  exact ⟨kept ▸ whole, kept⟩

theorem isIdentifier_nestedTypeName {prefixes : Prefixes} (valid : prefixes.Valid)
    (role : NestedRole) {owner : String} (owned : isIdentifier owner = true) (field : Field) :
    isIdentifier (nestedTypeName prefixes role owner field) = true :=
  (nestedTypeName_eq valid role owned field).1

end ContentModels.Naming

namespace ContentModels.Emission.Options

structure Valid (o : Options) : Prop where
  directory : Config.isIdentifier o.directory = true
  prefixes : o.prefixes.Valid

theorem default_valid : Valid {} := ⟨by decide, by decide, by decide⟩

end ContentModels.Emission.Options
