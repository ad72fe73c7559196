import ContentModels.Resolution
import ContentModels.Proofs.Registry.History

set_option autoImplicit false

namespace ContentModels

open Naming

namespace Field

def Refers (field : Field) : Prop := field.kind = .reference ∨ field.kind = .globalField

-- Whether the target a field declares leaves open what it refers to. A field that may refer to
-- several content types is not taken to mean the only one it states.
def Ambiguous (field : Field) : Prop :=
  ∃ target, field.reference = some target ∧ (target.uids.length ≠ 1 ∨
    field.kind = .reference ∧ field.metadata.refMultipleTargets = true ∧
      ∃ uid, target = .single uid)

end Field

theorem ReferenceTarget.sole_eq_some {target : ReferenceTarget} {uid : String} :
    target.sole? = some uid ↔ target.uids = [uid] := by
  rcases target with _ | ⟨_ | ⟨_, _ | _⟩⟩ <;> simp [sole?, uids]

namespace Resolver

theorem isTruncated_iff {field : Field} {target : ReferenceTarget}
    (declared : field.reference = some target) :
    isTruncated field = true ↔ field.kind = .reference ∧
      field.metadata.refMultipleTargets = true ∧ ∃ uid, target = .single uid := by
  rw [isTruncated, declared]
  cases target <;> simp

theorem definite_eq_some {field : Field} {target : ReferenceTarget} {uid : String}
    (declared : field.reference = some target) :
    definite? field target = some uid ↔ target.uids = [uid] ∧ ¬ field.Ambiguous := by
  have settled : target.uids = [uid] → (field.Ambiguous ↔ isTruncated field = true) := by
    intro only
    simp [Field.Ambiguous, declared, isTruncated_iff declared, only]
  rw [definite?]
  split
  next truncated =>
    simp only [reduceCtorEq, false_iff, not_and, not_not]
    exact fun only => (settled only).mpr truncated
  next whole =>
    rw [ReferenceTarget.sole_eq_some]
    exact ⟨fun only => ⟨only, fun undecided => whole ((settled only).mp undecided)⟩, And.left⟩

theorem definite_eq_none {field : Field} {target : ReferenceTarget}
    (declared : field.reference = some target) :
    definite? field target = none ↔ field.Ambiguous := by
  constructor
  · intro undecided
    by_contra settled
    have only : target.uids.length = 1 := by
      by_contra several
      exact settled ⟨target, declared, .inl several⟩
    obtain ⟨uid, only⟩ := List.length_eq_one_iff.mp only
    have decided := (definite_eq_some declared).mpr ⟨only, settled⟩
    simp [undecided] at decided
  · intro ambiguous
    cases decided : definite? field target with
    | none => rfl
    | some uid => exact absurd ambiguous ((definite_eq_some declared).mp decided).2

inductive Finds (r : Resolver) (field : Field) (owner : String) : Resolution → Prop
  | own {type : TypeRef} (inner : ¬ field.Refers) (known : ∀ name, field.kind ≠ .other name)
      (typed : type ≠ .opaqueObject) (single : type.isList = false) :
      Finds r field owner (Resolver.typed type)
  | unknown {name message : String} (kind : field.kind = .other name) :
      Finds r field owner (untyped .unknownDataKind owner field message)
  | undeclared {message : String} (refers : field.Refers) (none : field.reference = none) :
      Finds r field owner (untyped .unresolvedReference owner field message)
  | ambiguous {message : String} (refers : field.Refers) (undecided : field.Ambiguous) :
      Finds r field owner (untyped .ambiguousReference owner field message)
  | missing {target : ReferenceTarget} {uid message : String} (refers : field.Refers)
      (declared : field.reference = some target) (only : target.uids = [uid])
      (decided : ¬ field.Ambiguous) (unregistered : r.registry.lookup uid = none) :
      Finds r field owner (untyped .unresolvedReference owner field message)
  | found {target : ReferenceTarget} {uid : String} {d : Definition} (refers : field.Refers)
      (declared : field.reference = some target) (only : target.uids = [uid])
      (decided : ¬ field.Ambiguous) (registered : r.registry.lookup uid = some d) :
      Finds r field owner (typed (.named (definitionName d.title d.uid)))

variable (r : Resolver) (field : Field) (owner : String)

theorem reference_finds (refers : field.Refers) : r.Finds field owner (r.reference field owner) := by
  unfold reference
  split
  next none => exact .undeclared refers none
  next target declared =>
    split
    next undecided => exact .ambiguous refers ((definite_eq_none declared).mp undecided)
    next uid decided =>
      obtain ⟨only, decided⟩ := (definite_eq_some declared).mp decided
      split
      next d registered => exact .found refers declared only decided registered
      next unregistered => exact .missing refers declared only decided unregistered

theorem element_finds : r.Finds field owner (r.element field owner) := by
  cases kind : field.kind <;> simp only [element, kind]
  case reference => exact r.reference_finds field owner (.inl kind)
  case globalField => exact r.reference_finds field owner (.inr kind)
  case other => exact .unknown kind
  case json =>
    cases field.metadata.jsonRichText <;>
      exact .own (by simp [Field.Refers, kind]) (by simp [kind]) nofun rfl
  all_goals exact .own (by simp [Field.Refers, kind]) (by simp [kind]) nofun rfl

theorem resolve_type : (r.resolve field owner).type =
    if r.isSequence field then .list (r.element field owner).type
    else (r.element field owner).type := by
  unfold resolve
  dsimp only
  split <;> rfl

theorem resolve_diagnostic :
    (r.resolve field owner).diagnostic = (r.element field owner).diagnostic := by
  unfold resolve
  dsimp only
  split <;> rfl

theorem isSequence_iff : r.isSequence field = true ↔ field.isMultiple = true ∨
    field.metadata.refMultiple = true ∨ field.kind = .reference ∧ r.policy = .alwaysList := by
  simp [isSequence, or_assoc]

end Resolver

theorem TypeRef.element_of_not_isList {type : TypeRef} (single : type.isList = false) :
    type.element = type := by
  cases type with
  | list item => cases single
  | _ => rfl

structure Resolution.Explained (found : Resolution) (policy : ReferencePolicy)
    (history : List Definition) (field : Field) : Prop where
  list : found.type.isList = true ↔ field.isMultiple = true ∨
    field.metadata.refMultiple = true ∨ field.kind = .reference ∧ policy = .alwaysList
  flat : ∀ item, found.type = .list item → item.isList = false
  untyped : found.type.element = .opaqueObject ↔ ∃ d, found.diagnostic = some d
  reported : ∀ d, found.diagnostic = some d →
    d.kind = .unknownDataKind ∨ d.kind = .ambiguousReference ∨ d.kind = .unresolvedReference
  unknown : found.diagnostic.map (·.kind) = some .unknownDataKind ↔
    ∃ name, field.kind = .other name
  ambiguous : found.diagnostic.map (·.kind) = some .ambiguousReference ↔
    field.Refers ∧ field.Ambiguous
  unresolved : found.diagnostic.map (·.kind) = some .unresolvedReference ↔
    field.Refers ∧ ¬ field.Ambiguous ∧ (field.reference = none ∨
      ∃ target uid, field.reference = some target ∧ target.uids = [uid] ∧
        uid ∉ history.map (·.uid))
  named : field.Refers → found.diagnostic = none →
    ∃ target uid d, field.reference = some target ∧ target.uids = [uid] ∧
      Registry.Latest history uid d ∧
      found.type.element = .named (definitionName d.title d.uid)

namespace Resolver

variable {r : Resolver} {field : Field} {owner : String} {found : Resolution}

theorem Finds.single (finds : r.Finds field owner found) : found.type.isList = false := by
  cases finds with
  | own _ _ _ single => exact single
  | _ => rfl

theorem Finds.untyped_iff (finds : r.Finds field owner found) :
    found.type = .opaqueObject ↔ ∃ d, found.diagnostic = some d := by
  cases finds with
  | own _ _ named _ => simpa [typed] using named
  | _ => simp [typed, untyped]

theorem Finds.subject (finds : r.Finds field owner found) {d : Diagnostic}
    (reported : found.diagnostic = some d) :
    d.subject = owner ++ "." ++ field.uid ∧ (d.kind = .unknownDataKind ∨
      d.kind = .ambiguousReference ∨ d.kind = .unresolvedReference) := by
  cases finds <;> cases reported <;> exact ⟨rfl, by simp⟩

theorem Finds.unknown_iff (finds : r.Finds field owner found) :
    found.diagnostic.map (·.kind) = some .unknownDataKind ↔ ∃ name, field.kind = .other name := by
  cases finds with
  | own _ known => simpa [typed] using known
  | unknown kind => simp [untyped, kind]
  | undeclared refers | ambiguous refers | missing refers | found refers =>
    rcases refers with kind | kind <;> simp [typed, untyped, kind]

theorem Finds.ambiguous_iff (finds : r.Finds field owner found) :
    found.diagnostic.map (·.kind) = some .ambiguousReference ↔ field.Refers ∧ field.Ambiguous := by
  cases finds with
  | own inner => simp [typed, inner]
  | unknown kind => simp [untyped, Field.Refers, kind]
  | undeclared _ none => simp [untyped, Field.Ambiguous, none]
  | ambiguous refers undecided => simp [untyped, refers, undecided]
  | missing _ _ _ decided => simp [untyped, decided]
  | found _ _ _ decided => simp [typed, decided]

theorem Finds.unresolved_iff (finds : r.Finds field owner found) :
    found.diagnostic.map (·.kind) = some .unresolvedReference ↔
      field.Refers ∧ ¬ field.Ambiguous ∧ (field.reference = none ∨
        ∃ target uid, field.reference = some target ∧ target.uids = [uid] ∧
          r.registry.lookup uid = none) := by
  cases finds with
  | own inner => simp [typed, inner]
  | unknown kind => simp [untyped, Field.Refers, kind]
  | undeclared refers none => simp [untyped, refers, Field.Ambiguous, none]
  | ambiguous _ undecided => simp [untyped, undecided]
  | missing refers declared only decided unregistered =>
    simp [untyped, refers, decided, declared, only, unregistered]
  | found _ declared only _ registered => simp [typed, declared, only, registered]

theorem Finds.named (finds : r.Finds field owner found) (refers : field.Refers)
    (quiet : found.diagnostic = none) :
    ∃ target uid d, field.reference = some target ∧ target.uids = [uid] ∧
      r.registry.lookup uid = some d ∧ found.type = .named (definitionName d.title d.uid) := by
  cases finds with
  | own inner => exact absurd refers inner
  | found _ declared only _ registered => exact ⟨_, _, _, declared, only, registered, rfl⟩
  | _ => cases quiet

theorem resolve_element (r : Resolver) (field : Field) (owner : String) :
    (r.resolve field owner).type.element = (r.element field owner).type := by
  have single := (r.element_finds field owner).single
  rw [resolve_type]
  split
  · exact TypeRef.element_of_not_isList single
  · exact TypeRef.element_of_not_isList single

theorem resolve_explained (calls : List Registry.Call) (prefixes : Prefixes)
    (policy : ReferencePolicy) (field : Field) (owner : String) :
    Resolution.Explained (resolve ⟨Registry.after calls, prefixes, policy⟩ field owner) policy
      (Registry.history calls) field := by
  let r : Resolver := ⟨Registry.after calls, prefixes, policy⟩
  have finds := r.element_finds field owner
  have maps := (Registry.after_keeps calls).maps (Registry.after_coherent calls)
  have unregistered (uid : String) :
      r.registry.lookup uid = none ↔ uid ∉ (Registry.history calls).map (·.uid) := by
    rw [← maps.found uid, Option.not_isSome_iff_eq_none]
  change (r.resolve field owner).Explained r.policy _ field
  constructor
  case list =>
    rw [← r.isSequence_iff, resolve_type]
    cases r.isSequence field with
    | true => simp [TypeRef.isList]
    | false => simp [finds.single]
  case flat =>
    intro item listed
    rw [resolve_type] at listed
    split at listed
    · exact TypeRef.list.inj listed ▸ finds.single
    · have single := finds.single
      rw [listed] at single
      cases single
  case named =>
    rw [resolve_diagnostic, resolve_element]
    intro refers quiet
    obtain ⟨target, uid, d, declared, only, registered, named⟩ := finds.named refers quiet
    exact ⟨target, uid, d, declared, only, (maps.lookup uid d).mp registered, named⟩
  case unresolved =>
    simp only [resolve_diagnostic, ← unregistered]
    exact finds.unresolved_iff
  case untyped =>
    rw [resolve_diagnostic, resolve_element]
    exact finds.untyped_iff
  all_goals rw [resolve_diagnostic]
  case reported => exact fun d reported => (finds.subject reported).2
  case unknown => exact finds.unknown_iff
  case ambiguous => exact finds.ambiguous_iff

end Resolver

end ContentModels
