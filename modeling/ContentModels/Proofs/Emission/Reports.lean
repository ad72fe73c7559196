import ContentModels.Proofs.Emission.Provenance
import ContentModels.Proofs.Naming.Lettercase
import ContentModels.Proofs.Resolution

set_option autoImplicit false

namespace ContentModels

open Naming

-- Whether diagnostics tell all that is wrong with a member of a unit.
structure Member.Reported (diagnostics : List Diagnostic) (owner unitName : String)
    (m : Member) : Prop where
  untyped : m.type.element = .opaqueObject → ∃ d ∈ diagnostics,
    d.subject = owner ++ "." ++ m.wire ∧ (d.kind = .unknownDataKind ∨
      d.kind = .ambiguousReference ∨ d.kind = .unresolvedReference)
  renamed : m.name ≠ propertyName m.wire → ∃ d ∈ diagnostics,
    d.kind = .nameCollision ∧ d.subject = unitName ++ "." ++ m.wire
  unnamed : (∀ c ∈ m.wire.toList, c.isAlpha = false) → ∃ d ∈ diagnostics,
    d.kind = .emptyName ∧ d.subject = unitName ++ "." ++ m.wire

theorem Member.Reported.mono {diagnostics more : List Diagnostic} {owner unitName : String}
    {m : Member} (reported : m.Reported diagnostics owner unitName) (kept : diagnostics ⊆ more) :
    m.Reported more owner unitName where
  untyped unknown := (reported.untyped unknown).imp fun _ told => ⟨kept told.1, told.2⟩
  renamed given := (reported.renamed given).imp fun _ told => ⟨kept told.1, told.2⟩
  unnamed letterless := (reported.unnamed letterless).imp fun _ told => ⟨kept told.1, told.2⟩

theorem Member.Reported.quiet {owner unitName : String} {m : Member}
    (reported : m.Reported [] owner unitName) :
    m.type.element ≠ .opaqueObject ∧ m.name = propertyName m.wire := by
  constructor
  · intro untyped
    obtain ⟨_, member, _⟩ := reported.untyped untyped
    cases member
  · by_contra renamed
    obtain ⟨_, member, _⟩ := reported.renamed renamed
    cases member

theorem Naming.typeName_isEmpty_iff (raw : String) :
    (typeName raw).isEmpty = true ↔ ∀ c ∈ raw.toList, c.isAlpha = false := by
  rw [← capitalWords_eq_nil_iff true, typeName]
  simp

namespace Emission

theorem exists_unnamed {label : String} (name subject : String)
    (letterless : ∀ c ∈ label.toList, c.isAlpha = false) :
    ∃ d ∈ unnamed label name subject, d.kind = .emptyName ∧ d.subject = subject := by
  rw [unnamed, if_pos ((typeName_isEmpty_iff label).mpr letterless)]
  exact ⟨_, List.mem_cons_self, rfl, rfl⟩

theorem exists_renamed (uid subject : String) {derived name : String} (given : name ≠ derived) :
    ∃ d ∈ renamed uid derived name subject, d.kind = .nameCollision ∧ d.subject = subject := by
  rw [renamed, if_neg given]
  exact ⟨_, List.mem_cons_self, rfl, rfl⟩

namespace Outline

theorem declare_reported (r : Resolver) (owner unitName : String) (names : MemberNames)
    (fields : List Field) : ∀ m ∈ (declare r owner unitName names fields).1,
      m.Reported (declare r owner unitName names fields).2 owner unitName := by
  induction fields generalizing names with
  | nil => simp [declare]
  | cons field rest ih =>
    let resolution := r.resolve field owner
    let subject := unitName ++ "." ++ field.uid
    let derived := propertyName field.uid
    let claimed := names.claim derived (accessor field).companions
    let found := resolution.diagnostic.toList ++ unnamed field.uid derived subject ++
      renamed field.uid derived claimed.1 subject
    let later := declare r owner unitName claimed.2 rest
    change ∀ m ∈ ⟨claimed.1, field.uid, resolution.type, accessor field⟩ :: later.1,
      m.Reported (found ++ later.2) owner unitName
    rintro m (_ | ⟨_, further⟩)
    · apply Member.Reported.mono _ (List.subset_append_left found later.2)
      constructor
      case untyped =>
        intro untyped
        have finds := r.element_finds field owner
        rw [Resolver.resolve_element] at untyped
        obtain ⟨d, told⟩ := finds.untyped_iff.mp untyped
        have own : d ∈ resolution.diagnostic.toList := by
          rw [Option.mem_toList, Resolver.resolve_diagnostic]
          exact told
        exact ⟨d, by simp [found, own], finds.subject told⟩
      case renamed =>
        intro given
        obtain ⟨d, told, kind⟩ := exists_renamed field.uid subject given
        exact ⟨d, List.mem_append_right _ told, kind⟩
      case unnamed =>
        intro letterless
        obtain ⟨d, told, kind⟩ := exists_unnamed derived subject letterless
        exact ⟨d, by simp [found, told], kind⟩
    · exact (ih claimed.2 m further).mono (List.subset_append_right found later.2)

end Outline

theorem finished_reported {c : Context} {u : GeneratedUnit}
    (member : u ∈ (finished c).units.toList) (model : u.kind = .model) :
    ∃ p s, At c c.registry.all p s ∧ s.Models c u ∧
      ∀ m ∈ u.members, m.Reported (finished c).diagnostics.toList s.owner u.name := by
  obtain ⟨target, emits, -, purpose⟩ := exists_purpose (generationPlans_rooted c) member
  cases purpose with
  | note => cases emits
  | support _ known =>
    cases emits
    exact absurd model (supportUnits_kind known)
  | blockSet _ _ _ own =>
    cases emits
    exact absurd model (blockSet_kind own)
  | @model p s o nested site outlines inner _ =>
    cases emits
    refine ⟨p, s, site, outlines.models, fun m declared => ?_⟩
    have told := Outline.declare_reported c.resolver o.owner o.name (.reserving o.reserved)
      o.fields m declared
    exact outlines.owner ▸ told.mono inner.2

theorem generate_reports (registry : Registry) (options : Options) :
    ∃ output, generate registry options = .ok output ∧
      (∀ u ∈ output.units, u.kind = .model →
        ∃ p s, At ⟨registry, options⟩ registry.all p s ∧ s.Models ⟨registry, options⟩ u ∧
          ∀ m ∈ u.members, m.Reported output.diagnostics s.owner u.name) ∧
      (output.diagnostics = [] → ∀ u ∈ output.units, u.kind = .model → ∀ m ∈ u.members,
        m.type.element ≠ .opaqueObject ∧ m.name = propertyName m.wire) := by
  let c : Context := ⟨registry, options⟩
  refine ⟨_, generate_eq registry options, fun _ => finished_reported, ?_⟩
  intro quiet u member model m declared
  obtain ⟨_, s, -, -, reported⟩ := finished_reported (c := c) member model
  have told := reported m declared
  rw [← Ledger.output_diagnostics, quiet] at told
  exact told.quiet

end Emission

end ContentModels
