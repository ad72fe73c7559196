import ContentModels.Proofs.Naming.Identifier
import ContentModels.Proofs.Naming.MemberNames

set_option autoImplicit false

namespace ContentModels.Naming

open Config

theorem isDigit_of_mem_toString (n : Nat) : ∀ c ∈ (toString n).toList, c.isDigit = true := by
  intro c member
  have digits : c ∈ Nat.toDigits 10 n := by
    simpa [toString, Nat.repr_eq_ofList_toDigits] using member
  exact Nat.isDigit_of_mem_toDigits (by decide) (by decide) digits

namespace MemberNames

theorem isIdentifier_candidate {base : String} (valid : isIdentifier base = true) (n : Nat) :
    isIdentifier (candidate base n) = true := by
  unfold candidate
  split
  · exact valid
  · refine isIdentifier_append valid fun c member => ?_
    simp [isNameChar, isDigit_of_mem_toString n c member]

theorem isIdentifier_of_mem_family {base : String} (valid : isIdentifier base = true)
    {companions : List String} (proper : ∀ suffix ∈ companions, AllNameChars suffix) (n : Nat) :
    ∀ name ∈ family base companions n, isIdentifier name = true := by
  have named := isIdentifier_candidate valid n
  intro name member
  rcases List.mem_cons.mp member with rfl | member
  · exact named
  · obtain ⟨suffix, among, rfl⟩ := List.mem_map.mp member
    exact isIdentifier_append named (proper suffix among)

end MemberNames

end ContentModels.Naming
