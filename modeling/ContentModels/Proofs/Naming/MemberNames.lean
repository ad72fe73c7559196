import Mathlib
import ContentModels.Naming.MemberNames

set_option autoImplicit false

namespace ContentModels.Naming.MemberNames

theorem candidate_eq_base (base : String) (n : Nat) : candidate base n = base ↔ n = 1 := by
  unfold candidate
  by_cases first : n = 1 <;> simp [first]

theorem candidate_injective (base : String) : Function.Injective (candidate base) := by
  intro n m same
  by_cases first : n = 1
  · rw [first, (candidate_eq_base base 1).mpr rfl, eq_comm, candidate_eq_base] at same
    rw [first, same]
  · have second : m ≠ 1 := by
      rintro rfl
      rw [(candidate_eq_base base 1).mpr rfl, candidate_eq_base] at same
      exact first same
    simp only [candidate, first, second, if_false] at same
    exact Nat.repr_injective ((String.append_right_inj base).mp same)

theorem family_eq (base : String) (companions : List String) (n : Nat) :
    family base companions n = ("" :: companions).map (candidate base n ++ ·) := by
  simp [family]

theorem family_nodup (base : String) {companions : List String} (proper : ("" :: companions).Nodup)
    (n : Nat) : (family base companions n).Nodup := by
  rw [family_eq]
  exact proper.map fun _ _ same => (String.append_right_inj _).mp same

theorem isFree_iff {m : MemberNames} {base : String} {companions : List String} {n : Nat} :
    m.isFree base companions n = true ↔ ∀ name ∈ family base companions n, name ∉ m.used := by
  simp [isFree, contains]

-- The search as a loop without a limit: it goes on until a number passes.
inductive Reaches (passes : Nat → Bool) : Nat → Nat → Prop where
  | here {n : Nat} : passes n = true → Reaches passes n n
  | next {n found : Nat} :
    passes n = false → Reaches passes (n + 1) found → Reaches passes n found

theorem Reaches.isLeast {passes : Nat → Bool} {n found : Nat} (reaches : Reaches passes n found) :
    IsLeast {k | n ≤ k ∧ passes k = true} found := by
  induction reaches with
  | here passed => exact ⟨⟨le_rfl, passed⟩, fun _ member => member.1⟩
  | @next n found failed _ ih =>
    obtain ⟨⟨after, passed⟩, least⟩ := ih
    constructor
    · exact ⟨by omega, passed⟩
    · intro k ⟨later, good⟩
      have other : n ≠ k := by
        rintro rfl
        exact Bool.false_ne_true (failed ▸ good)
      exact least ⟨by omega, good⟩

theorem firstFrom_reaches {passes : Nat → Bool} {n misses k : Nat} (within : k ≤ misses)
    (found : passes (n + k) = true) : Reaches passes n (firstFrom passes n misses) := by
  induction misses generalizing n k with
  | zero =>
    obtain rfl := Nat.le_zero.mp within
    exact .here found
  | succ misses ih =>
    rw [firstFrom]
    split
    next passed => exact .here passed
    next blocked =>
      obtain ⟨k, rfl⟩ : ∃ before, k = before + 1 := by
        apply Nat.exists_eq_succ_of_ne_zero
        rintro rfl
        exact blocked found
      have next : n + 1 + k = n + (k + 1) := by omega
      exact .next (Bool.eq_false_of_not_eq_true blocked)
        (ih (Nat.le_of_succ_le_succ within) (next ▸ found))

theorem exists_free (m : MemberNames) (base : String) (companions : List String) :
    ∃ k ≤ m.mostMisses companions, m.isFree base companions (1 + k) = true := by
  by_contra none
  have blocked : ∀ k ∈ Finset.range (m.mostMisses companions + 1),
      ∃ suffix ∈ "" :: companions, candidate base (1 + k) ++ suffix ∈ m.used := by
    intro k within
    by_contra clear
    refine none ⟨k, Nat.lt_succ_iff.mp (Finset.mem_range.mp within), isFree_iff.mpr ?_⟩
    intro name member used
    rw [family_eq] at member
    obtain ⟨suffix, among, rfl⟩ := List.mem_map.mp member
    exact clear ⟨suffix, among, used⟩
  choose! suffix among used using blocked
  -- a used name and the suffix it is met with tell the number it stands in the way of
  let blocker (k : Nat) := (candidate base (1 + k) ++ suffix k, suffix k)
  have maps : ∀ k ∈ Finset.range (m.mostMisses companions + 1),
      blocker k ∈ m.used.toFinset ×ˢ ("" :: companions).toFinset := by
    intro k within
    simp only [blocker, Finset.mem_product, List.mem_toFinset]
    exact ⟨used k within, among k within⟩
  have injective : Set.InjOn blocker (Finset.range (m.mostMisses companions + 1)) := by
    intro i _ j _ same
    obtain ⟨names, suffixes⟩ := Prod.mk.inj same
    rw [suffixes] at names
    have numbers := candidate_injective base ((String.append_left_inj _).mp names)
    omega
  have count := Finset.card_le_card_of_injOn blocker maps injective
  have bound : (m.used.toFinset ×ˢ ("" :: companions).toFinset).card ≤ m.mostMisses companions := by
    rw [Finset.card_product]
    exact Nat.mul_le_mul (List.toFinset_card_le _) (List.toFinset_card_le _)
  rw [Finset.card_range] at count
  omega

theorem freeNumber_reaches (m : MemberNames) (base : String) (companions : List String) :
    Reaches (m.isFree base companions) 1 (m.freeNumber base companions) := by
  obtain ⟨k, within, free⟩ := m.exists_free base companions
  exact firstFrom_reaches within free

theorem freeNumber_isFree (m : MemberNames) (base : String) (companions : List String) :
    m.isFree base companions (m.freeNumber base companions) = true :=
  (m.freeNumber_reaches base companions).isLeast.1.2

theorem claim_cases (m : MemberNames) (base : String) (companions : List String) :
    ∃ n, (m.claim base companions).1 = candidate base n ∧
      (m.claim base companions).2.used = family base companions n ++ m.used ∧
      ∀ name ∈ family base companions n, name ∉ m.used :=
  ⟨_, rfl, rfl, isFree_iff.mp (m.freeNumber_isFree base companions)⟩

theorem claim_contains (m : MemberNames) (base : String) (companions : List String) :
    (m.claim base companions).2.contains (m.claim base companions).1 = true := by
  simp [claim, contains, family]

theorem claim_keeps {m : MemberNames} {name : String} (known : m.contains name = true)
    (base : String) (companions : List String) :
    (m.claim base companions).2.contains name = true := by
  have used : name ∈ m.used := by simpa [contains] using known
  simp [claim, contains, used]

theorem contains_eq_false_of_claim {m : MemberNames} {base : String} {companions : List String}
    (kept : (m.claim base companions).1 = base) : m.contains base = false := by
  obtain ⟨n, named, _, unused⟩ := m.claim_cases base companions
  have own : base ∈ family base companions n := by
    rw [family, ← named, kept]
    exact List.mem_cons_self
  simpa [contains] using unused base own

end ContentModels.Naming.MemberNames
