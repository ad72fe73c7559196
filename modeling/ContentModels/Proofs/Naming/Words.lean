import Mathlib
import ContentModels.Proofs.Naming.Lettercase

set_option autoImplicit false

namespace ContentModels.Naming

def isBoundary (c : Char) : Bool := c.isDigit || c == '-' || c == '_' || Text.isBlank c

def pieces (raw : String) : List (List Char) := raw.toList.splitOnP isBoundary

def letters (piece : List Char) : List Char := piece.filter Char.isAlpha

def word (piece : List Char) : List Char := (letters piece).modifyHead Char.toUpper

theorem isBoundary_eq (c : Char) : isBoundary c = endsWord c := by
  have digit : (decide ('0' ≤ c) && decide (c ≤ '9')) = c.isDigit := rfl
  simp only [isBoundary, endsWord, isDigit, digit, Bool.beq_eq_decide_eq]

theorem isAlpha_of_isBoundary {c : Char} (boundary : isBoundary c = true) : c.isAlpha = false := by
  simp only [isBoundary, Bool.or_eq_true, beq_iff_eq] at boundary
  rcases boundary with ((digit | rfl) | rfl) | blank
  · exact (isDigit_cases digit).2
  · rfl
  · rfl
  · simp [Text.isBlank, Char.isAlpha, Char.isUpper, Char.isLower, UInt32.le_iff_toNat_le] at blank ⊢
    omega

-- The flag says whether the first piece starts at the first character or has started before it.
theorem capitalWords_eq {cs first : List Char} {rest : List (List Char)}
    (split : cs.splitOnP isBoundary = first :: rest) (start : Bool) :
    capitalWords start cs = (if start then word first else letters first) ++ rest.flatMap word := by
  induction cs generalizing first rest start with
  | nil =>
    obtain ⟨rfl, rfl⟩ := List.cons.inj split
    cases start <;> rfl
  | cons c cs ih =>
    obtain ⟨piece, more, later⟩ := List.exists_cons_of_ne_nil (List.splitOnP_ne_nil isBoundary cs)
    rw [List.splitOnP_cons_eq_if_modifyHead, later] at split
    cases boundary : isBoundary c with
    | true =>
      rw [boundary, if_pos rfl] at split
      obtain ⟨rfl, rfl⟩ := List.cons.inj split
      have next : capitalWords start (c :: cs) = capitalWords true cs := by
        simp [capitalWords, isLetter_eq, isAlpha_of_isBoundary boundary, ← isBoundary_eq, boundary]
      rw [next, ih later]
      cases start <;> simp [word, letters]
    | false =>
      rw [boundary, if_neg Bool.false_ne_true, List.modifyHead_cons] at split
      obtain ⟨rfl, rfl⟩ := List.cons.inj split
      cases letter : c.isAlpha with
      | true =>
        rw [capitalWords, isLetter_eq, letter, if_pos rfl, ih later]
        cases start <;> simp [word, letters, letter]
      | false =>
        rw [capitalWords, isLetter_eq, letter, if_neg Bool.false_ne_true, ← isBoundary_eq, boundary,
          Bool.or_false, ih later]
        simp [word, letters, letter]

theorem typeName_eq (raw : String) : typeName raw = String.ofList ((pieces raw).flatMap word) := by
  obtain ⟨first, rest, split⟩ :=
    List.exists_cons_of_ne_nil (List.splitOnP_ne_nil isBoundary raw.toList)
  rw [typeName, capitalWords_eq split, pieces, split]
  rfl

theorem pieces_append (a b : String) {c : Char} (boundary : isBoundary c = true) :
    pieces (a ++ String.singleton c ++ b) = pieces a ++ pieces b := by
  simp only [pieces, String.toList_append, String.toList_singleton, List.append_assoc,
    List.singleton_append]
  exact List.splitOnP_append_cons _ _ boundary

theorem typeName_append_boundary (a b : String) {c : Char} (boundary : isBoundary c = true) :
    typeName (a ++ String.singleton c ++ b) = typeName a ++ typeName b := by
  simp only [typeName_eq, pieces_append a b boundary, List.flatMap_append, String.ofList_append]

def Wordless (s : String) : Prop := ∀ c ∈ s.toList, c.isAlpha = false

theorem typeName_eq_empty_iff (raw : String) : typeName raw = "" ↔ Wordless raw := by
  rw [typeName, String.ofList_eq_empty_iff, capitalWords_eq_nil_iff, Wordless]

theorem typeName_typeName (raw : String) : typeName (typeName raw) = typeName raw := by
  cases named : (typeName raw).isEmpty with
  | true =>
    rw [String.isEmpty_iff.mp named]
    rfl
  | false =>
    have nothing : ∀ c ∈ "".toList, c.isAlpha = false := by simp
    simpa using typeName_append (typeName_isAlpha raw) (capitalized_typeName named) nothing

def PascalCase (name : String) : Prop :=
  ∃ c rest, name.toList = c :: rest ∧ c.isUpper = true ∧ ∀ d ∈ rest, d.isAlpha = true

theorem pascalCase_typeName {raw : String} (named : typeName raw ≠ "") :
    PascalCase (typeName raw) := by
  have some : (typeName raw).isEmpty = false := by simpa using named
  obtain ⟨c, rest, written, upper⟩ := capitalized_typeName some
  refine ⟨c, rest, written, upper, fun d member => ?_⟩
  exact typeName_isAlpha raw d (written ▸ List.mem_cons_of_mem c member)

theorem typeName_worded (raw a b : String) :
    typeName raw = String.ofList ((pieces raw).flatMap word) ∧
    typeName (typeName raw) = typeName raw ∧
    typeName (a ++ "_" ++ b) = typeName a ++ typeName b ∧
    (typeName raw = "" ↔ Wordless raw) ∧
    (typeName raw = "" ∨ PascalCase (typeName raw)) :=
  ⟨typeName_eq raw, typeName_typeName raw, typeName_append_boundary a b (c := '_') rfl,
    typeName_eq_empty_iff raw, Classical.or_iff_not_imp_left.mpr pascalCase_typeName⟩

-- The apostrophe ends no word, and two boundaries in a row start none.
example : (pieces "what's -new?").map word = ["Whats".toList, [], "New".toList] := by decide

end ContentModels.Naming
