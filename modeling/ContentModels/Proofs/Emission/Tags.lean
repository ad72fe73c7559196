import ContentModels.Proofs.Emission.Generation
import ContentModels.Proofs.Naming.MemberNames

set_option autoImplicit false

namespace ContentModels

open Naming

def UnitBody.tags? : UnitBody → Option (List VariantTag)
  | .tagEnum tags => some tags
  | .converter (.keyPresence _ _ arms) => some arms
  | _ => none

def VariantTag.variant (t : VariantTag) : String × String := (t.uid, t.variantType)

namespace Emission

def typedVariant (wrapper : String) (v : Definition) : String × String :=
  (v.uid, variantTypeName wrapper v.title v.uid)

def firstVariants (variants : List Definition) : List Definition :=
  variants.eraseDupsBy fun v earlier => v.uid == earlier.uid

namespace BlockField

variable (b : BlockField)

theorem tags_cons_known {seen : List String} {v : Definition} (known : v.uid ∈ seen)
    (names : MemberNames) (rest : List Definition) :
    b.tags seen names (v :: rest) = b.tags seen names rest := by
  simp [tags, known]

theorem tags_cons_new {seen : List String} {v : Definition} (new : v.uid ∉ seen)
    (names : MemberNames) (rest : List Definition) :
    b.tags seen names (v :: rest) =
      (b.tag names v).1 :: b.tags (v.uid :: seen) (b.tag names v).2.1 rest := by
  simp [tags, new]

theorem tag_names (names : MemberNames) (v : Definition) :
    (b.tag names v).1.member ∉ names.used ∧
      (b.tag names v).2.1.used = (b.tag names v).1.member :: names.used := by
  obtain ⟨n, named, used, unused⟩ := names.claim_cases (tagMemberName v.uid v.title) []
  have own : (b.tag names v).1.member = MemberNames.candidate (tagMemberName v.uid v.title) n := named
  rw [own]
  exact ⟨unused _ (by simp [MemberNames.family]), used⟩

theorem tags_distinct (seen : List String) (names : MemberNames) (variants : List Definition) :
    (b.tags seen names variants).Pairwise (fun t u => t.uid ≠ u.uid ∧ t.member ≠ u.member) ∧
      ∀ t ∈ b.tags seen names variants, t.uid ∉ seen ∧ t.member ∉ names.used := by
  induction variants generalizing seen names with
  | nil => simp [tags]
  | cons v rest ih =>
    by_cases known : v.uid ∈ seen
    · rw [b.tags_cons_known known]
      exact ih seen names
    · obtain ⟨unused, used⟩ := b.tag_names names v
      obtain ⟨distinct, apart⟩ := ih (v.uid :: seen) (b.tag names v).2.1
      simp only [used, List.mem_cons, not_or] at apart
      rw [b.tags_cons_new known]
      constructor
      · refine List.pairwise_cons.mpr ⟨fun t member => ?_, distinct⟩
        obtain ⟨⟨uid, _⟩, ⟨name, _⟩⟩ := apart t member
        exact ⟨Ne.symm uid, Ne.symm name⟩
      · intro t member
        rcases List.mem_cons.mp member with rfl | member
        · exact ⟨known, unused⟩
        · obtain ⟨⟨_, unmet⟩, ⟨_, free⟩⟩ := apart t member
          exact ⟨unmet, free⟩

theorem tags_uids_nodup (seen : List String) (names : MemberNames) (variants : List Definition) :
    ((b.tags seen names variants).map (·.uid)).Nodup :=
  List.pairwise_map.mpr ((b.tags_distinct seen names variants).1.imp And.left)

theorem tags_members_nodup (seen : List String) (names : MemberNames) (variants : List Definition) :
    ((b.tags seen names variants).map (·.member)).Nodup :=
  List.pairwise_map.mpr ((b.tags_distinct seen names variants).1.imp And.right)

theorem tags_firstVariants (seen : List String) (names : MemberNames) (variants : List Definition) :
    (b.tags seen names variants).map VariantTag.variant =
      (firstVariants (variants.filter (·.uid ∉ seen))).map (typedVariant b.wrapper) := by
  induction variants generalizing seen names with
  | nil => rfl
  | cons v rest ih =>
    by_cases known : v.uid ∈ seen
    · rw [b.tags_cons_known known, ih seen names, List.filter_cons_of_neg (by simpa using known)]
    · rw [b.tags_cons_new known, List.map_cons, ih, List.filter_cons_of_pos (by simpa using known),
        firstVariants, firstVariants, List.eraseDupsBy_cons, List.map_cons, List.filter_filter]
      congr 4
      funext w
      simp

-- A uid has one tag, and two uids with the same letters are told apart by a number.
example : (BlockField.tags ⟨"", "MBPageRows", []⟩ [] (.reserving [])
    [.new "hero-1" "Hero" [], .new "hero_1" "Hero" [], .new "hero-1" "Image" []]).map
      (fun t => (t.uid, t.member)) = [("hero-1", "Hero"), ("hero_1", "Hero2")] := by
  decide +kernel

theorem tags_find? {seen : List String} {present : String → Bool}
    (absent : ∀ uid ∈ seen, present uid = false) (names : MemberNames)
    (variants : List Definition) :
    ((b.tags seen names variants).find? (present ·.uid)).map VariantTag.variant =
      (variants.find? (present ·.uid)).map (typedVariant b.wrapper) := by
  induction variants generalizing seen names with
  | nil => rfl
  | cons v rest ih =>
    by_cases known : v.uid ∈ seen
    · rw [b.tags_cons_known known, ih absent, List.find?_cons_of_neg (by simp [absent v.uid known])]
    · have own : (b.tag names v).1.uid = v.uid := rfl
      rw [b.tags_cons_new known]
      cases here : present v.uid with
      | true =>
        rw [List.find?_cons_of_pos (by rw [own, here]), List.find?_cons_of_pos (by rw [here])]
        rfl
      | false =>
        rw [List.find?_cons_of_neg (by simp [own, here]), List.find?_cons_of_neg (by simp [here])]
        apply ih
        simpa [here] using absent

theorem exists_tag {b : BlockField} {seen : List String} {names : MemberNames}
    {variants : List Definition} {t : VariantTag} (member : t ∈ b.tags seen names variants) :
    ∃ v ∈ variants, ∃ n, t =
      ⟨v.uid, MemberNames.candidate (tagMemberName v.uid v.title) n,
        variantTypeName b.wrapper v.title v.uid⟩ := by
  induction variants generalizing seen names with
  | nil => simp [tags] at member
  | cons v rest ih =>
    have among {w : Definition} (inside : w ∈ rest) : w ∈ v :: rest := List.mem_cons_of_mem v inside
    by_cases known : v.uid ∈ seen
    · rw [b.tags_cons_known known] at member
      obtain ⟨w, inside, tagged⟩ := ih member
      exact ⟨w, among inside, tagged⟩
    · rw [b.tags_cons_new known] at member
      rcases List.mem_cons.mp member with rfl | later
      · exact ⟨v, List.mem_cons_self, _, rfl⟩
      · obtain ⟨w, inside, tagged⟩ := ih later
        exact ⟨w, among inside, tagged⟩

end BlockField

theorem blockSet_tags? {c : Context} {scope : Scope} {wrapper : String} {tags own : List VariantTag}
    {u : GeneratedUnit} (member : u ∈ blockSet c scope wrapper tags)
    (holds : u.body.tags? = some own) : own = tags := by
  simp only [blockSet, List.mem_cons, List.not_mem_nil, or_false] at member
  rcases member with rfl | rfl | rfl
  · exact (Option.some.inj holds).symm
  · cases holds
  · exact (Option.some.inj holds).symm

theorem supportUnits_tags? {registry : Registry} {path directory : List String}
    {u : GeneratedUnit} (member : u ∈ supportUnits registry path directory) :
    u.body.tags? = none := by
  simp only [supportUnits, List.mem_cons, List.not_mem_nil, or_false] at member
  rcases member with rfl | rfl | rfl | rfl | rfl <;> rfl

def Site.tags (c : Context) (s : Site) (field : Field) : List VariantTag :=
  (s.blockField c field).tags [] (.reserving []) field.variants

theorem exists_tagged {c : Context} {u : GeneratedUnit} (member : u ∈ (finished c).units.toList)
    {tags : List VariantTag} (holds : u.body.tags? = some tags) :
    ∃ p s field, At c c.registry.all p s ∧ field ∈ s.declared ∧ field.kind = .blocks ∧
      u ∈ s.blockUnits c field ∧ tags = s.tags c field := by
  cases finished_made member with
  | support known =>
    rw [supportUnits_tags? known] at holds
    cases holds
  | blockSet site declared kind own =>
    exact ⟨_, _, _, site, declared, kind, own, blockSet_tags? own holds⟩
  | model => cases holds

end Emission

end ContentModels
