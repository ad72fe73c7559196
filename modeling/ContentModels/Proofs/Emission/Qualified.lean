import Mathlib
import ContentModels.Emission.Walk
import ContentModels.Proofs.Naming.Identifier

set_option autoImplicit false

namespace ContentModels

theorem intercalate_injective {separator : String} {c : Char} (single : separator.toList = [c])
    {xs ys : List String} (someX : xs ≠ []) (someY : ys ≠ []) (plainX : ∀ x ∈ xs, c ∉ x.toList)
    (plainY : ∀ y ∈ ys, c ∉ y.toList)
    (same : separator.intercalate xs = separator.intercalate ys) : xs = ys := by
  -- splitting at the separator gives the segments back, since none of them has it inside
  have split (zs : List String) (nonempty : zs ≠ []) (plain : ∀ z ∈ zs, c ∉ z.toList) :
      (separator.intercalate zs).toList.splitOn c = zs.map String.toList := by
    rw [String.toList_intercalate, single]
    apply List.splitOn_intercalate c _ (by simpa using nonempty)
    simpa using plain
  have lists : xs.map String.toList = ys.map String.toList := by
    rw [← split xs someX plainX, ← split ys someY plainY, same]
  exact List.map_injective_iff.mpr (fun _ _ => String.toList_inj.mp) lists

namespace Naming

theorem nestedDirectory_injective {owner other : String} {role otherRole : NestedRole}
    (same : nestedDirectory owner role = nestedDirectory other otherRole) :
    owner = other ∧ role = otherRole := by
  have lists : owner.toList ++ role.suffix.toList = other.toList ++ otherRole.suffix.toList := by
    simpa [nestedDirectory] using congrArg String.toList same
  have ends := congrArg List.getLast? lists
  cases role <;> cases otherRole <;> simp [NestedRole.suffix] at ends
  all_goals exact ⟨String.toList_inj.mp (List.append_cancel_right lists), rfl⟩

end Naming

namespace Emission

open Naming

namespace Context

def qualified (c : Context) (scope : Scope) (name : String) : String :=
  ".".intercalate (c.namespacePath scope ++ [name])

@[simp] theorem key_qualified (c : Context) (uid : String) (role : Role) (name : String)
    (scope : Scope) : (c.key uid role name scope).qualified = c.qualified scope name := rfl

@[simp] theorem key_uid (c : Context) (uid : String) (role : Role) (name : String)
    (scope : Scope) : (c.key uid role name scope).uid = uid := rfl

@[simp] theorem key_role (c : Context) (uid : String) (role : Role) (name : String)
    (scope : Scope) : (c.key uid role name scope).role = role := rfl

theorem qualified_eq (c : Context) (scope : Scope) (name : String) :
    c.qualified scope name = c.namespaceName scope ++ "." ++ name := by
  unfold qualified namespaceName
  rw [String.intercalate_append_of_ne_nil (by simp [namespacePath]) (by simp)]
  simp

theorem qualified_injective (c : Context) {scope other : Scope} {name otherName : String}
    (plain : ∀ s ∈ scope ++ [name], '.' ∉ s.toList)
    (otherPlain : ∀ s ∈ other ++ [otherName], '.' ∉ s.toList)
    (same : c.qualified scope name = c.qualified other otherName) :
    scope = other ∧ name = otherName := by
  -- the namespace itself may be any text, so it is taken off before the rest is split
  have tails : ".".intercalate (scope ++ [name]) = ".".intercalate (other ++ [otherName]) := by
    unfold qualified namespacePath at same
    rw [List.cons_append, List.cons_append, String.intercalate_cons_of_ne_nil (by simp),
      String.intercalate_cons_of_ne_nil (by simp)] at same
    exact String.append_right_inj _ |>.mp same
  have paths := intercalate_injective (by rfl) (by simp) (by simp) plain otherPlain tails
  simpa using List.append_inj' paths rfl

theorem namespaceName_eq (c : Context) {scope : Scope} (nonempty : scope ≠ []) :
    c.namespaceName scope = c.options.namespaceName ++ "." ++ ".".intercalate scope :=
  String.intercalate_cons_of_ne_nil nonempty

theorem namespaceName_injective (c : Context) {scope other : Scope} (nonempty : scope ≠ [])
    (otherNonempty : other ≠ []) (plain : ∀ s ∈ scope, '.' ∉ s.toList)
    (otherPlain : ∀ s ∈ other, '.' ∉ s.toList)
    (same : c.namespaceName scope = c.namespaceName other) : scope = other := by
  rw [c.namespaceName_eq nonempty, c.namespaceName_eq otherNonempty] at same
  exact intercalate_injective (by rfl) nonempty otherNonempty plain otherPlain
    (String.append_right_inj _ |>.mp same)

theorem qualified_length_lt (c : Context) (scope : Scope) (owner name : String)
    (role : NestedRole) :
    (c.qualified scope owner).length < (c.qualified (nestedScope scope owner role) name).length := by
  -- the namespace below an owner goes on where the qualified name of the owner ends
  have inner : c.namespaceName (nestedScope scope owner role) =
      c.qualified scope owner ++ role.suffix := by
    rw [qualified_eq]
    unfold namespaceName nestedScope namespacePath
    rw [← List.cons_append, String.intercalate_append_of_ne_nil (by simp) (by simp)]
    simp [nestedDirectory, String.append_assoc]
  rw [qualified_eq c (nestedScope scope owner role), inner]
  simp only [String.length_append]
  have dot : ".".length = 1 := rfl
  omega

end Context

end Emission

end ContentModels
