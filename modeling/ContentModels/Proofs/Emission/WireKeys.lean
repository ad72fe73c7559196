import ContentModels.Proofs.Emission.Coverage
import ContentModels.Proofs.Emission.Members
import ContentModels.Proofs.Naming.Lettercase

set_option autoImplicit false

namespace ContentModels

open Naming

namespace Spelling

def Declaration.key? : Declaration → Option String
  | .constant _ _ => none
  | .property wire _ name => some (wire.getD name)
  | .computed wire _ name _ => some (wire.getD name)
  | .stored _ _ _ => none

def memberKeys (nullable : Bool) (members : List Member) : List String :=
  (members.flatMap (memberDeclarations nullable)).filterMap Declaration.key?

end Spelling

def Member.key (m : Member) : String := if m.needsWireName then m.wire else m.name

-- Whether the name of a member is the key of another field, which is that of its own field but for
-- the case of letters.
def Member.Preempts (m other : Member) : Prop :=
  m.name = other.wire ∧ lowerCase m.wire = lowerCase other.wire

theorem Spelling.memberKeys_eq (nullable : Bool) (members : List Member) :
    memberKeys nullable members = members.map Member.key := by
  have single (m : Member) :
      (memberDeclarations nullable m).filterMap Declaration.key? = [m.key] := by
    unfold memberDeclarations Member.key
    cases m.accessor <;> cases m.needsWireName <;> rfl
  simp only [memberKeys, List.filterMap_flatMap, single]
  exact List.map_eq_flatMap.symm

namespace Member

theorem needsWireName_eq_false {m : Member} (plain : ¬ m.needsWireName = true) :
    lowerCase m.wire = lowerCase m.name := by
  simpa [needsWireName] using plain

section keys

variable {members : List Member} (names : (members.map (·.name)).Nodup)
  (wires : (members.map (·.wire)).Nodup)

include names wires

theorem preempts_of_key_eq {m other : Member} (first : m ∈ members) (second : other ∈ members)
    (different : m ≠ other) (same : m.key = other.key) : m.Preempts other ∨ other.Preempts m := by
  unfold key at same
  split at same
  next =>
    split at same
    next => exact absurd (List.inj_on_of_nodup_map wires first second same) different
    next plain => exact .inr ⟨same.symm, by rw [needsWireName_eq_false plain, same]⟩
  next plain =>
    split at same
    next => exact .inl ⟨same, by rw [needsWireName_eq_false plain, same]⟩
    next => exact absurd (List.inj_on_of_nodup_map names first second same) different

omit wires in
theorem key_eq_of_preempts
    (derived : ∀ m ∈ members, ∃ n, m.name = MemberNames.candidate (propertyName m.wire) n)
    {m other : Member} (first : m ∈ members) (second : other ∈ members)
    (preempts : m.Preempts other) : m.key = other.key := by
  obtain ⟨named, alike⟩ := preempts
  have plain : m.needsWireName = false := by simp [needsWireName, named, alike]
  by_cases stated : other.needsWireName = true
  · simp [key, plain, stated, named]
  · -- without a key of its own the other member would have the same name
    obtain ⟨n, numbered⟩ := derived m first
    obtain ⟨k, numbered'⟩ := derived other second
    have same := MemberNames.candidate_eq_of_lowerCase alike (named ▸ numbered)
      (numbered' ▸ (needsWireName_eq_false stated).symm)
    rw [List.inj_on_of_nodup_map names first second (named.trans (numbered'.trans same).symm)]

theorem keys_nodup_iff
    (derived : ∀ m ∈ members, ∃ n, m.name = MemberNames.candidate (propertyName m.wire) n) :
    (members.map key).Nodup ↔
      ∀ m ∈ members, ∀ other ∈ members, m ≠ other → ¬ m.Preempts other := by
  rw [List.nodup_map_iff_inj_on (List.Nodup.of_map _ names)]
  constructor
  · intro distinct m first other second different preempts
    exact different
      (distinct m first other second (key_eq_of_preempts names derived first second preempts))
  · intro apart m first other second same
    by_contra different
    rcases preempts_of_key_eq names wires first second different same with preempts | preempts
    · exact apart m first other second different preempts
    · exact apart other second m first (Ne.symm different) preempts

end keys

end Member

inductive Unrepeated : List Field → Prop
  | intro {fields : List Field} (uids : (fields.map (·.uid)).Nodup)
      (nested : ∀ field ∈ fields, Unrepeated field.nested)
      (variants : ∀ field ∈ fields, ∀ v ∈ field.variants, Unrepeated v.fields) : Unrepeated fields

theorem Unrepeated.empty : Unrepeated [] := .intro .nil nofun nofun

namespace Emission

section finished

variable {c : Context} (distinct : ∀ d ∈ c.registry.all, Unrepeated d.fields)

include distinct

theorem At.unrepeated {p : Position} {s : Site} (site : At c c.registry.all p s) :
    Unrepeated s.fields := by
  induction site with
  | definition root => exact distinct _ (List.mem_of_getElem? root)
  | @nested p s t branch owner nests ih =>
    have declared : Unrepeated s.declared := by
      rcases owner.declared_cases with same | none
      · exact same ▸ ih
      · exact none ▸ .empty
    obtain ⟨_, nested, variants⟩ := declared
    cases nests with
    | group declared => exact nested _ (List.mem_of_getElem? declared)
    | variant declared kind among =>
      unfold Site.variant
      rcases Content.ofVariant_cases c _ _ _ with own | none | ⟨_, g, found, global⟩
      · rw [own]
        exact variants _ (List.mem_of_getElem? declared) _ (List.mem_of_getElem? among)
      · rw [none]
        exact .empty
      · rw [global]
        exact distinct g (Registry.mem_of_lookup found)

theorem finished_keys_nodup_iff {u : GeneratedUnit} (member : u ∈ (finished c).units.toList)
    (model : u.kind = .model) (nullable : Bool) :
    (Spelling.memberKeys nullable u.members).Nodup ↔
      ∀ m ∈ u.members, ∀ other ∈ u.members, m ≠ other → ¬ m.Preempts other := by
  obtain ⟨_, s, o, _, site, outlines, rfl⟩ := (finished_made member).outlined model
  obtain ⟨uids, _, _⟩ := site.unrepeated distinct
  have declared :=
    (Outline.declare_names c.resolver o.owner o.name (.reserving o.reserved) o.fields).1
  rw [Spelling.memberKeys_eq]
  apply Member.keys_nodup_iff
  · refine List.pairwise_map.mpr ((List.nodup_flatMap.mp declared).2.imp fun apart same => ?_)
    exact apart List.mem_cons_self (same ▸ List.mem_cons_self)
  · rw [outlines.shownBy.wires]
    exact uids
  · intro m member
    obtain ⟨field, _, n, rfl⟩ := Outline.exists_declared member
    exact ⟨n, rfl⟩

end finished

theorem generate_keys_nodup_iff {registry : Registry}
    (distinct : ∀ d ∈ registry.all, Unrepeated d.fields) (options : Options) :
    ∃ output, generate registry options = .ok output ∧
      ∀ u ∈ output.units, u.kind = .model → ∀ nullable,
        (Spelling.memberKeys nullable u.members).Nodup ↔
          ∀ m ∈ u.members, ∀ other ∈ u.members, m ≠ other → ¬ m.Preempts other :=
  ⟨_, generate_eq registry options, fun _ member model nullable =>
    finished_keys_nodup_iff distinct member model nullable⟩

-- The second field gets the key that the first one has by its name alone.
def headlines : Registry := .ofList [.new "page" "Page" [.new "title" .text, .new "Title" .text]]

theorem headlines_unrepeated : ∀ d ∈ headlines.all, Unrepeated d.fields := by
  intro d registered
  obtain rfl := List.mem_singleton.mp registered
  refine .intro (by decide) ?_ ?_
  all_goals
    intro field member
    simp only [Definition.new, List.mem_cons, List.not_mem_nil, or_false] at member
    rcases member with rfl | rfl
  · exact .empty
  · exact .empty
  · exact nofun
  · exact nofun

theorem headlines_keys_nodup_iff : (∀ d ∈ headlines.all, Unrepeated d.fields) ∧
    ∃ output, generate headlines {} = .ok output ∧
      ∀ u ∈ output.units, u.kind = .model → ∀ nullable,
        (Spelling.memberKeys nullable u.members).Nodup ↔
          ∀ m ∈ u.members, ∀ other ∈ u.members, m ≠ other → ¬ m.Preempts other :=
  ⟨headlines_unrepeated, generate_keys_nodup_iff headlines_unrepeated {}⟩

theorem headlines_share_key : (∀ d ∈ headlines.all, Unrepeated d.fields) ∧
    ∃ output, generate headlines { supportUnits := false } = .ok output ∧
      ∃ u ∈ output.units, u.kind = .model ∧ u.members.map (·.wire) = ["title", "Title"] ∧
        Spelling.memberKeys false u.members = ["Title", "Title"] := by
  have written : (generate headlines { supportUnits := false }).toOption.map (fun output =>
      output.units.map fun u =>
        (u.kind, u.members.map (·.wire), Spelling.memberKeys false u.members)) =
        some [(.model, ["title", "Title"], ["Title", "Title"])] := by
    decide +kernel
  have generated := generate_eq headlines { supportUnits := false }
  rw [generated] at written
  obtain ⟨u, member, shown⟩ := List.mem_map.mp
    (Option.some.inj written ▸ List.mem_singleton_self _ :
      (_, _, _) ∈ (finished ⟨headlines, { supportUnits := false }⟩).output.units.map _)
  simp only [Prod.mk.injEq] at shown
  exact ⟨headlines_unrepeated, _, generated, u, member, shown⟩

end Emission

end ContentModels
