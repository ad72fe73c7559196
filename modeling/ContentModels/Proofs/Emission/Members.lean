import ContentModels.Proofs.Emission.Tags
import ContentModels.Proofs.Spelling.Declarations

set_option autoImplicit false

namespace ContentModels.Emission

open Naming

theorem companions_proper (a : Accessor) : ("" :: a.companions).Nodup := by
  cases a <;> decide

namespace Outline

theorem declare_names (r : Resolver) (owner unitName : String) (names : MemberNames)
    (fields : List Field) :
    ((declare r owner unitName names fields).1.flatMap Member.names).Nodup ∧
      ∀ name ∈ (declare r owner unitName names fields).1.flatMap Member.names,
        name ∉ names.used ∧ Capitalized name := by
  induction fields generalizing names with
  | nil => simp [declare]
  | cons field rest ih =>
    let base := propertyName field.uid
    let companions := (accessor field).companions
    obtain ⟨n, named, used, unused⟩ := names.claim_cases base companions
    obtain ⟨distinct, apart⟩ := ih (names.claim base companions).2
    have own : (declare r owner unitName names (field :: rest)).1.flatMap Member.names =
        MemberNames.family base companions n ++
          (declare r owner unitName (names.claim base companions).2 rest).1.flatMap
            Member.names := by
      rw [MemberNames.family, ← named]
      rfl
    rw [own]
    rw [used] at apart
    constructor
    · refine List.nodup_append.mpr ⟨?_, distinct, ?_⟩
      · exact MemberNames.family_nodup base (companions_proper _) n
      · rintro name first other second rfl
        exact (apart name second).1 (List.mem_append_left _ first)
    · intro name member
      rcases List.mem_append.mp member with member | member
      · refine ⟨unused name member, ?_⟩
        -- a candidate starts with the derived name, and so does what its companion takes
        rw [MemberNames.family_eq] at member
        obtain ⟨suffix, _, rfl⟩ := List.mem_map.mp member
        have capital : Capitalized base := capitalized_firstName _ _
        apply Capitalized.append
        unfold MemberNames.candidate
        split
        · exact capital
        · exact capital.append _
      · obtain ⟨free, capital⟩ := apart name member
        exact ⟨fun taken => free (List.mem_append_right _ taken), capital⟩

end Outline

theorem not_capitalized_embeddedItems : ¬ Capitalized "embeddedItems" := by
  rintro ⟨c, rest, written, upper⟩
  have first : c = 'e' := by
    have head : "embeddedItems".toList.head? = some c := by rw [written]; rfl
    exact (Option.some.inj head).symm
  subst first
  exact absurd upper (by decide)

theorem At.role_of_wrapper {c : Context} {roots : List Definition} {p : Position} {s : Site}
    (site : At c roots p s) {wrapper : String} (extended : s.wrapper = some wrapper) :
    s.role = .blockVariant := by
  cases site with
  | definition => cases extended
  | nested _ nests =>
    cases nests with
    | group => cases extended
    | variant => rfl

structure DeclaresOnce (u : GeneratedUnit) (contentTypeUid : Option String) : Prop where
  rendered : ∀ nullable, Spelling.code nullable u =
    Spelling.file (Spelling.modelUsings ++ u.imports) u.namespaceName
      [.block (Spelling.classHeader u.name u.bases)
        ((Spelling.declarations nullable u contentTypeUid).flatMap Spelling.Declaration.code)]
  names : ∀ nullable,
    (Spelling.declarations nullable u contentTypeUid).map Spelling.Declaration.name =
      u.declaredNames contentTypeUid
  distinct : (u.declaredNames contentTypeUid).Nodup
  own : u.name ∉ u.members.flatMap Member.names
  -- A model that is no entry has a base only if it is that of a variant, which inherits from it.
  inherited : contentTypeUid = none → u.bases ≠ [] →
    blockTypeMember ∉ u.members.flatMap Member.names

theorem declaredNames_nodup {u : GeneratedUnit} {contentTypeUid : Option String}
    (distinct : (u.members.flatMap Member.names).Nodup)
    (capital : ∀ name ∈ u.members.flatMap Member.names, Capitalized name)
    (entry : contentTypeUid.isSome = true →
      ∀ name ∈ entryMembers, name ∉ u.members.flatMap Member.names) :
    (u.declaredNames contentTypeUid).Nodup := by
  have fixed : ((if contentTypeUid.isSome then entryMembers else []) ++
      u.members.flatMap Member.names).Nodup := by
    cases top : contentTypeUid.isSome with
    | false => simpa using distinct
    | true =>
      refine List.nodup_append.mpr ⟨by decide, distinct, ?_⟩
      rintro name first other second rfl
      exact entry top name first second
  have clear : "embeddedItems" ∉ (if contentTypeUid.isSome then entryMembers else []) ++
      u.members.flatMap Member.names := by
    intro member
    rcases List.mem_append.mp member with member | member
    · split at member
      · exact absurd member (by decide)
      · exact List.not_mem_nil member
    · exact not_capitalized_embeddedItems (capital _ member)
  rw [GeneratedUnit.declaredNames]
  cases u.bases.contains entryEmbeddable with
  | false => simpa using fixed
  | true =>
    refine List.nodup_append.mpr ⟨fixed, List.nodup_singleton _, ?_⟩
    rintro name first other second rfl
    exact clear (List.mem_singleton.mp second ▸ first)

theorem Site.Outlines.declaresOnce {c : Context} {roots : List Definition} {p : Position} {s : Site}
    (site : At c roots p s) {o : Outline} {nested : List Plan} (outlines : s.Outlines c o nested) :
    DeclaresOnce (o.unit c) o.contentTypeUid := by
  obtain ⟨distinct, apart⟩ :=
    Outline.declare_names c.resolver o.owner o.name (.reserving o.reserved) o.fields
  change ((o.unit c).members.flatMap Member.names).Nodup at distinct
  change ∀ name ∈ (o.unit c).members.flatMap Member.names, name ∉ o.reserved ∧ Capitalized name
    at apart
  rw [outlines.reserved] at apart
  have free {name : String} (reserved : name ∈ s.name :: s.role.ownMembers) :
      name ∉ (o.unit c).members.flatMap Member.names :=
    fun member => (apart name member).1 reserved
  refine ⟨fun nullable => Spelling.declarations_code nullable _ _,
    fun nullable => Spelling.declarations_names nullable _ _, ?_, ?_, ?_⟩
  · apply declaredNames_nodup distinct fun name member => (apart name member).2
    intro top name member
    have entry : s.role = .entry := by
      by_contra other
      simp [outlines.contentTypeUid, other] at top
    exact free (List.mem_cons_of_mem _ (entry ▸ member))
  · have named : (o.unit c).name = s.name := outlines.name
    exact named ▸ free List.mem_cons_self
  · intro notEntry based
    obtain ⟨base, member⟩ := List.exists_mem_of_ne_nil _ based
    have variant := site.role_of_wrapper (outlines.wrapper notEntry base member)
    exact free (List.mem_cons_of_mem _ (by simp [variant, Role.ownMembers]))

theorem generate_declares_once (registry : Registry) (options : Options) :
    ∃ output, generate registry options = .ok output ∧ ∀ u ∈ output.units,
      (∀ contentTypeUid, u.body = .model contentTypeUid → DeclaresOnce u contentTypeUid) ∧
      ∀ tags, u.body = .tagEnum tags → (tags.map (·.member)).Nodup := by
  refine ⟨_, generate_eq registry options, fun u member => ⟨?_, ?_⟩⟩
  · intro contentTypeUid body
    obtain ⟨_, _, o, nested, site, outlines, rfl⟩ :=
      (finished_made member).outlined (congrArg UnitBody.kind body)
    cases body
    exact outlines.declaresOnce site
  · intro tags body
    obtain ⟨_, s, field, _, _, _, _, rfl⟩ := exists_tagged member (congrArg UnitBody.tags? body)
    exact BlockField.tags_members_nodup _ _ _ _

-- Both names of the markdown field are numbered where a text field has taken the one of its store.
example : (generate
    (.ofList
      [.new "post" "Post"
        [.new "body_store" .text, (Field.new "body" .text).withMetadata { markdown := true },
          .new "uid" .text, .new "post" .text]])
    { supportUnits := false }).toOption.map
      (fun output => output.units.map (·.members.flatMap Member.names)) =
        some [["BodyStore", "Body2", "Body2Store", "Uid2", "Post2"]] := by
  decide +kernel

end ContentModels.Emission
