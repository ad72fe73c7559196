import ContentModels.Proofs.Naming.Identifier
import ContentModels.Proofs.Text.Split

set_option autoImplicit false

namespace ContentModels.Config

open Naming

theorem isDottedIdentifier_of_isIdentifier {s : String} (valid : isIdentifier s = true) :
    isDottedIdentifier s = true := by
  have plain : '.' ∉ s.toList := notMem_of_isIdentifier valid (by decide)
  simp [isDottedIdentifier, Text.splitOn_plain (show ".".toList = ['.'] from rfl) plain, valid]

theorem isDottedIdentifier_intercalate {parts : List String} (some : parts ≠ [])
    (valid : ∀ part ∈ parts, isDottedIdentifier part = true) :
    isDottedIdentifier (".".intercalate parts) = true := by
  rw [isDottedIdentifier, Text.splitOn_intercalate (by rfl) some, List.all_flatMap]
  exact List.all_eq_true.mpr valid

theorem checkPrefix_eq_ok_iff (key text : String) :
    checkPrefix key text = .ok () ↔ isIdentifier text = true := by
  unfold checkPrefix
  split <;> simp_all

theorem guard_eq_ok_iff {refused : Bool} {failure : ConfigFailure}
    {rest : Unit → Except ConfigFailure Unit} :
    (if refused = true then throw failure >>= rest else rest ()) = .ok () ↔
      refused = false ∧ rest () = .ok () := by
  cases refused <;> simp [throw, throwThe, MonadExceptOf.throw, bind, Except.bind]

theorem check_eq_ok_iff {check : Except ConfigFailure Unit}
    {rest : Unit → Except ConfigFailure Unit} :
    (check >>= rest) = .ok () ↔ check = .ok () ∧ rest () = .ok () := by
  cases check <;> simp [bind, Except.bind]

theorem validate_eq_ok_iff (c : Config) : c.validate = .ok () ↔
    isDottedIdentifier c.output.namespaceName = true ∧ isIdentifier c.output.directory = true ∧
      isIdentifier c.naming.modularBlock = true ∧ isIdentifier c.naming.group = true ∧
      Text.isBlankText c.api.host = false := by
  unfold validate
  dsimp only
  rw [guard_eq_ok_iff, guard_eq_ok_iff, check_eq_ok_iff, check_eq_ok_iff, checkPrefix_eq_ok_iff,
    checkPrefix_eq_ok_iff]
  cases Text.isBlankText c.api.host
  all_goals simp [throw, throwThe, MonadExceptOf.throw, pure, Except.pure]

theorem emissionOptions_valid {c : Config} (accepted : c.validate = .ok ())
    (policy : ReferencePolicy) : (c.emissionOptions policy).Valid := by
  obtain ⟨_, directory, modularBlock, group, _⟩ := c.validate_eq_ok_iff.mp accepted
  exact ⟨directory, modularBlock, group⟩

theorem default_validate : validate {} = .ok () := by
  have root : isIdentifier ({} : Config).output.namespaceName = true := by decide
  refine (validate_eq_ok_iff {}).mpr ⟨isDottedIdentifier_of_isIdentifier root, ?_⟩
  decide

end ContentModels.Config
