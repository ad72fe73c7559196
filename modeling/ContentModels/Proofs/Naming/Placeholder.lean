import Mathlib
import ContentModels.Proofs.Naming.Words

set_option autoImplicit false

namespace ContentModels.Naming

-- The factor is odd, so it has an inverse.
theorem mul_factor_injective : Function.Injective fun hash : UInt32 => hash * 0x01000193 := by
  intro first second same
  have undone (hash : UInt32) : hash * 0x01000193 * 0x359C449B = hash := by
    have inverse : (0x01000193 : UInt32) * 0x359C449B = 1 := by decide
    rw [UInt32.mul_assoc, inverse, UInt32.mul_one]
  calc first = first * 0x01000193 * 0x359C449B := (undone first).symm
    _ = second * 0x01000193 * 0x359C449B := congrArg (· * 0x359C449B) same
    _ = second := undone second

theorem hashStep_injective (byte : UInt8) : Function.Injective (hashStep · byte) := by
  intro first second same
  exact (UInt32.xor_left_inj _).mp (mul_factor_injective same)

theorem hashStep_injective_byte (hash : UInt32) : Function.Injective (hashStep hash) := by
  intro first second same
  have widened := (UInt32.xor_right_inj _).mp (mul_factor_injective same)
  simpa using congrArg UInt32.toUInt8 widened

theorem foldl_hashStep_injective (bytes : List UInt8) :
    Function.Injective (bytes.foldl hashStep) := by
  induction bytes with
  | nil => exact fun _ _ same => same
  | cons byte rest ih => exact ih.comp (hashStep_injective byte)

theorem foldl_hashStep_ne {x y : UInt8} (other : x ≠ y) (front back : List UInt8)
    (start : UInt32) :
    (front ++ x :: back).foldl hashStep start ≠ (front ++ y :: back).foldl hashStep start := by
  simp only [List.foldl_append, List.foldl_cons]
  exact (foldl_hashStep_injective back).ne ((hashStep_injective_byte _).ne other)

def bytes (key : String) : List UInt8 := key.toUTF8.toList

def DifferInOneByte (a b : String) : Prop :=
  (bytes a).length = (bytes b).length ∧ ∃! i : Nat, (bytes a)[i]? ≠ (bytes b)[i]?

theorem DifferInOneByte.exists_split {a b : String} (near : DifferInOneByte a b) :
    ∃ front x y back, bytes a = front ++ x :: back ∧ bytes b = front ++ y :: back ∧ x ≠ y := by
  obtain ⟨size, i, differ, only⟩ := near
  have alike (j : Nat) (elsewhere : j ≠ i) : (bytes a)[j]? = (bytes b)[j]? :=
    not_not.mp fun other => elsewhere (only j other)
  have within : i < (bytes a).length := by
    by_contra beyond
    apply differ
    rw [List.getElem?_eq_none (by omega), List.getElem?_eq_none (by omega)]
  have within' : i < (bytes b).length := by omega
  have front : (bytes a).take i = (bytes b).take i := by
    apply List.ext_getElem?
    intro j
    by_cases before : j < i
    · simp [before, alike j (by omega)]
    · simp [before]
  have back : (bytes a).drop (i + 1) = (bytes b).drop (i + 1) := by
    apply List.ext_getElem?
    intro j
    rw [List.getElem?_drop, List.getElem?_drop, alike _ (by omega)]
  refine ⟨(bytes a).take i, (bytes a)[i], (bytes b)[i], (bytes a).drop (i + 1), ?_, ?_, ?_⟩
  · rw [List.getElem_cons_drop, List.take_append_drop]
  · rw [front, back, List.getElem_cons_drop, List.take_append_drop]
  · simpa [within, within'] using differ

theorem DifferInOneByte.hash_ne {a b : String} (near : DifferInOneByte a b) :
    hash a ≠ hash b := by
  obtain ⟨front, x, y, back, first, second, other⟩ := near.exists_split
  have apart := foldl_hashStep_ne other front back hashStart
  rwa [← first, ← second] at apart

def hexAlphabet : List Char := "0123456789abcdef".toList

theorem hexDigit_mem : ∀ n < 16, hexDigit n ∈ hexAlphabet := by decide

theorem hexDigit_injective : ∀ n < 16, ∀ m < 16, hexDigit n = hexDigit m → n = m := by decide

theorem length_hexDigits (places n : Nat) : (hexDigits places n).length = places := by
  induction places generalizing n with
  | zero => rfl
  | succ places ih => simp [hexDigits, ih]

theorem hexDigits_mem (places n : Nat) : ∀ c ∈ hexDigits places n, c ∈ hexAlphabet := by
  intro c member
  obtain ⟨d, small, rfl⟩ := exists_hexDigit member
  exact hexDigit_mem d small

theorem hexDigits_injective {places n m : Nat} (fits : n < 16 ^ places) (fits' : m < 16 ^ places)
    (same : hexDigits places n = hexDigits places m) : n = m := by
  induction places generalizing n m with
  | zero => omega
  | succ places ih =>
    obtain ⟨high, low⟩ := List.append_inj' same rfl
    have upper := ih (by omega) (by omega) high
    have lower := hexDigit_injective (n % 16) (by omega) (m % 16) (by omega)
      (List.singleton_inj.mp low)
    omega

theorem placeholder_ne {a b : String} (other : hash a ≠ hash b) :
    placeholder a ≠ placeholder b := by
  intro same
  have digits := String.ofList_injective ((String.append_right_inj _).mp same)
  exact other (UInt32.toNat.inj (hexDigits_injective (hash a).toNat_lt (hash b).toNat_lt digits))

theorem definitionName_wordless {title uid : String} (untitled : Wordless title)
    (wordless : Wordless uid) : definitionName title uid = placeholder uid := by
  rw [← typeName_eq_empty_iff] at untitled wordless
  simp [definitionName, typeNameOr, firstName, untitled, wordless]

theorem placeholder_separates (key title other : String) {a b : String}
    (near : DifferInOneByte a b) :
    placeholder a ≠ placeholder b ∧
      (∃ digits, placeholder key = "Type" ++ String.ofList digits ∧ digits.length = 8 ∧
        ∀ c ∈ digits, c ∈ hexAlphabet) ∧
      (Wordless title → Wordless other → Wordless a → Wordless b →
        definitionName title a ≠ definitionName other b) := by
  have apart := placeholder_ne near.hash_ne
  refine ⟨apart, ?_, ?_⟩
  · exact ⟨hexDigits 8 (hash key).toNat, rfl, length_hexDigits _ _, hexDigits_mem _ _⟩
  · intro untitled untitled' wordless wordless'
    rwa [definitionName_wordless untitled wordless, definitionName_wordless untitled' wordless']

theorem years_separate :
    DifferInOneByte "2024" "2025" ∧ Wordless "" ∧ Wordless "2024" ∧ Wordless "2025" ∧
      placeholder "2024" ≠ placeholder "2025" ∧
      (∃ digits, placeholder "2024" = "Type" ++ String.ofList digits ∧ digits.length = 8 ∧
        ∀ c ∈ digits, c ∈ hexAlphabet) ∧
      definitionName "" "2024" ≠ definitionName "" "2025" := by
  have first : bytes "2024" = [50, 48, 50, 52] := by decide +kernel
  have second : bytes "2025" = [50, 48, 50, 53] := by decide +kernel
  have near : DifferInOneByte "2024" "2025" := by
    rw [DifferInOneByte, first, second]
    refine ⟨rfl, 3, by decide, fun i differ => ?_⟩
    match i with
    | 0 | 1 | 2 => exact absurd rfl differ
    | 3 => rfl
    | i + 4 => exact absurd rfl differ
  have untitled : Wordless "" := by simp [Wordless]
  have wordless : Wordless "2024" ∧ Wordless "2025" := by simp [Wordless]
  obtain ⟨apart, written, names⟩ := placeholder_separates "2024" "" "" near
  exact ⟨near, untitled, wordless.1, wordless.2, apart, written,
    names untitled untitled wordless.1 wordless.2⟩

end ContentModels.Naming
