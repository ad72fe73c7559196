import ContentModels.Proofs.Code.Texts
import ContentModels.Proofs.Emission.Closure
import ContentModels.Proofs.Path
import ContentModels.Proofs.Spelling.Tree

set_option autoImplicit false

namespace ContentModels

namespace UnitBody

def names : UnitBody → List String
  | .tagEnum tags => tags.flatMap fun tag => [tag.member, tag.variantType]
  | .converter (.keyPresence base tags arms) =>
    base :: tags :: arms.flatMap fun arm => [arm.member, arm.variantType]
  | .converter (.contentTypeUid arms) => arms.map Prod.snd
  | .model _ | .wrapper | .link | .helper _ => []

def uids : UnitBody → List String
  | .model contentTypeUid => contentTypeUid.toList
  | .tagEnum tags => tags.map (·.uid)
  | .converter (.keyPresence _ _ arms) => arms.map (·.uid)
  | .converter (.contentTypeUid arms) => arms.map Prod.fst
  | .wrapper | .link | .helper _ => []

end UnitBody

namespace GeneratedUnit

def names (u : GeneratedUnit) : List String :=
  u.name :: u.bases ++ u.members.flatMap (fun m => m.name :: m.type.names) ++ u.body.names

def places (u : GeneratedUnit) : List String := u.namespacePath ++ u.imports

def uids (u : GeneratedUnit) : List String := u.members.map (·.wire) ++ u.body.uids

-- All strings of a unit but the names of directories, which no source shows.
def strings (u : GeneratedUnit) : List String := u.names ++ u.places ++ u.uids

end GeneratedUnit

namespace Spelling

open Code Text

def foreign : List Char := ['?', '\n']

-- Whether types are still marked without a character.
def marked (c : Char) (nullable : Bool) : Bool := nullable && c ≠ '?'

section source

variable {c : Char} (alien : c ∈ foreign)

include alien

theorem notMem_fixed {text : String} {written : List Char} (same : text = String.ofList written)
    (free : (written.all fun d => !foreign.contains d) = true) : c ∉ text.toList := by
  rw [same, String.toList_ofList]
  intro member
  have := List.all_eq_true.mp free c member
  simp_all

theorem without_mark (nullable : Bool) : without c (mark nullable) = mark (marked c nullable) := by
  simp only [foreign, List.mem_cons, List.not_mem_nil, or_false] at alien
  rcases alien with rfl | rfl <;> cases nullable <;> decide

theorem notMem_typeName {type : TypeRef} (clear : ∀ name ∈ type.names, c ∉ name.toList) :
    c ∉ (typeName type).toList := by
  induction type with
  | named name => exact clear name (List.mem_singleton_self name)
  | list item ih =>
    simp only [typeName, String.toList_append, List.mem_append, not_or]
    exact ⟨⟨notMem_fixed alien rfl rfl, ih clear⟩, notMem_fixed alien rfl rfl⟩
  | _ => exact notMem_fixed alien rfl rfl

theorem notMem_quoted {text : String} (clear : c ∉ text.toList) : c ∉ (quoted text).toList := by
  simp only [quoted, String.toList_append, List.mem_append, not_or]
  exact ⟨⟨notMem_fixed alien rfl rfl, clear⟩, notMem_fixed alien rfl rfl⟩

theorem usings_without {names : List String} (clear : ∀ name ∈ names, c ∉ name.toList) :
    (usings names).map (map (without c)) = usings names := by
  rw [usings, List.map_map]
  refine List.map_congr_left fun name member => ?_
  have plain := clear name member
  simp (disch := first | assumption | exact notMem_fixed alien rfl rfl) only
    [Function.comp_apply, map_line, ↓without_append, without_eq]

theorem property_without {type type' name : String} (typed : without c type = type')
    (named : c ∉ name.toList) : (property type name).map (without c) = property type' name := by
  unfold property propertyText
  simp (disch := first | assumption | exact notMem_fixed alien rfl rfl) only
    [map_line, ↓without_append, without_eq, typed]

theorem wireName_without {name : String} (clear : c ∉ name.toList) :
    (wireName name).map (without c) = wireName name := by
  have literal := notMem_quoted alien clear
  unfold wireName wireNameText
  simp (disch := first | assumption | exact notMem_fixed alien rfl rfl) only
    [map_line, ↓without_append, without_eq]

theorem classHeader_without {name : String} {bases : List String} (clear : c ∉ name.toList)
    (plain : ∀ base ∈ bases, c ∉ base.toList) :
    without c (classHeader name bases) = classHeader name bases := by
  have joined : c ∉ (", ".intercalate bases).toList :=
    Path.notMem_intercalate (notMem_fixed alien rfl rfl) plain
  unfold classHeader
  split
  all_goals
    simp (disch := first | assumption | exact notMem_fixed alien rfl rfl) only
      [↓without_append, without_eq]

theorem file_without {used : List String} {namespaceName : String} {body body' : List Code}
    (clear : ∀ name ∈ used, c ∉ name.toList) (place : c ∉ namespaceName.toList)
    (inner : body.map (map (without c)) = body') :
    (file used namespaceName body).map (map (without c)) = file used namespaceName body' := by
  simp (disch := first | assumption | exact notMem_fixed alien rfl rfl) only
    [file, List.map_append, usings_without alien clear, List.map_cons, List.map_nil, map_blank,
      map_block, ↓without_append, without_eq, inner]

theorem markdownMember_without {m : Member} (named : c ∉ m.name.toList)
    (typed : c ∉ (typeName m.type).toList) :
    (markdownMember m).map (map (without c)) = markdownMember m := by
  have empty := notMem_quoted alien (notMem_fixed alien rfl rfl : c ∉ "".toList)
  unfold markdownMember
  cases m.type.isList
  all_goals
    simp (disch := first | assumption | exact notMem_fixed alien rfl rfl) only
      [List.map_cons, List.map_nil, map_line, map_block, if_true, if_false,
        Bool.false_eq_true, ↓without_append, without_eq]

theorem member_without (nullable : Bool) {m : Member} (named : c ∉ m.name.toList)
    (typed : c ∉ (typeName m.type).toList) (wired : c ∉ m.wire.toList) :
    (member nullable m).map (map (without c)) = member (marked c nullable) m := by
  have wire := wireName_without alien wired
  have marks : without c (typeName m.type ++ mark nullable) =
      typeName m.type ++ mark (marked c nullable) := by
    rw [without_append, without_eq typed, without_mark alien]
  unfold member
  cases m.needsWireName <;> cases m.accessor
  all_goals simp [wire, property_without alien marks named, markdownMember_without alien named typed]

theorem members_without (nullable : Bool) {ms : List Member}
    (named : ∀ m ∈ ms, c ∉ m.name.toList) (typed : ∀ m ∈ ms, c ∉ (typeName m.type).toList)
    (wired : ∀ m ∈ ms, c ∉ m.wire.toList) :
    (members nullable ms).map (map (without c)) = members (marked c nullable) ms := by
  rw [members, List.map_flatMap, members]
  exact List.flatMap_congr fun m among =>
    member_without alien nullable (named m among) (typed m among) (wired m among)

theorem entryPart_without (nullable : Bool) {uid : String} (clear : c ∉ uid.toList) :
    (entryPart nullable uid).map (map (without c)) = entryPart (marked c nullable) uid := by
  have own := notMem_quoted alien clear
  have key := wireName_without alien (notMem_fixed alien rfl rfl : c ∉ "_content_type_uid".toList)
  unfold entryPart property propertyText
  simp (disch := first | assumption | exact notMem_fixed alien rfl rfl) only
    [key, List.map_cons, List.map_nil, map_line, ↓without_append, without_eq, without_mark alien]

theorem embeddedItems_without (nullable : Bool) :
    (embeddedItems nullable).map (map (without c)) = embeddedItems (marked c nullable) := by
  have key := wireName_without alien (notMem_fixed alien rfl rfl : c ∉ "_embedded_items".toList)
  unfold embeddedItems property propertyText
  simp (disch := exact notMem_fixed alien rfl rfl) only
    [key, List.map_cons, List.map_nil, map_line, ↓without_append, without_eq, without_mark alien]

theorem enumMembers_without {tags : List VariantTag} (keyed : ∀ tag ∈ tags, c ∉ tag.uid.toList)
    (named : ∀ tag ∈ tags, c ∉ tag.member.toList) :
    (enumMembers tags).map (map (without c)) = enumMembers tags := by
  induction tags with
  | nil => rfl
  | cons tag tags ih =>
    obtain ⟨key, keys⟩ := List.forall_mem_cons.mp keyed
    obtain ⟨name, names⟩ := List.forall_mem_cons.mp named
    have comma : c ∉ (if tags.isEmpty then "" else ",").toList := by
      split <;> exact notMem_fixed alien rfl rfl
    have literal := notMem_quoted alien key
    simp (disch := first | assumption | exact notMem_fixed alien rfl rfl) only
      [enumMembers, List.map_append, List.map_cons, List.map_nil, map_line, ↓without_append,
        without_eq, ih keys names]

theorem writeMethod_without (nullable : Bool) {type : String} (clear : c ∉ type.toList) :
    (writeMethod nullable type).map (without c) = writeMethod (marked c nullable) type := by
  unfold writeMethod writeHeader
  simp (disch := first | assumption | exact notMem_fixed alien rfl rfl) only
    [List.map_cons, List.map_nil, map_line, map_block, ↓without_append, without_eq,
      without_mark alien]

theorem readHeader_without (nullable : Bool) {type : String} (clear : c ∉ type.toList) :
    without c (readHeader nullable type) = readHeader (marked c nullable) type := by
  unfold readHeader
  simp (disch := first | assumption | exact notMem_fixed alien rfl rfl) only
    [↓without_append, without_eq, without_mark alien]

theorem converter_without {u : GeneratedUnit} {type : String} {body body' : List Code}
    (named : c ∉ u.name.toList) (clear : c ∉ type.toList)
    (inner : body.map (map (without c)) = body') :
    (converter u type body).map (map (without c)) = converter u type body' := by
  have literal := notMem_quoted alien named
  unfold converter converterText converterHeader
  simp (disch := first | assumption | exact notMem_fixed alien rfl rfl) only
    [List.map_cons, List.map_nil, map_line, map_block, ↓without_append, without_eq, inner]

theorem blockArm_without {tagEnum : String} {arm : VariantTag} (tagged : c ∉ tagEnum.toList)
    (named : c ∉ arm.member.toList) (typed : c ∉ arm.variantType.toList) :
    (blockArm tagEnum arm).map (without c) = blockArm tagEnum arm := by
  simp (disch := first | assumption | exact notMem_fixed alien rfl rfl) only
    [blockArm, List.map_cons, List.map_nil, map_line, map_block, ↓without_append, without_eq]

theorem embeddedArm_without (nullable : Bool) {keyword : String} {arm : String × String}
    (key : c ∉ keyword.toList) (known : c ∉ arm.1.toList) (typed : c ∉ arm.2.toList) :
    (embeddedArm nullable keyword arm).map (without c) =
      embeddedArm (marked c nullable) keyword arm := by
  have literal := notMem_quoted alien known
  simp (disch := first | assumption | exact notMem_fixed alien rfl rfl) only
    [embeddedArm, List.map_cons, List.map_nil, map_line, map_block, ↓without_append,
      without_eq, without_mark alien]

theorem embeddedArms_without (nullable : Bool) {arms : List (String × String)}
    (known : ∀ arm ∈ arms, c ∉ arm.1.toList) (typed : ∀ arm ∈ arms, c ∉ arm.2.toList) :
    (embeddedArms nullable arms).map (map (without c)) = embeddedArms (marked c nullable) arms := by
  cases arms with
  | nil => rfl
  | cons arm arms =>
    obtain ⟨uid, uids⟩ := List.forall_mem_cons.mp known
    obtain ⟨type, types⟩ := List.forall_mem_cons.mp typed
    rw [embeddedArms, List.map_cons, List.map_map, embeddedArms]
    refine congrArg₂ _ (embeddedArm_without alien nullable (notMem_fixed alien rfl rfl) uid type) ?_
    exact List.map_congr_left fun other among =>
      embeddedArm_without alien nullable (notMem_fixed alien rfl rfl) (uids other among)
        (types other among)

theorem helperClass_without : helperClass.map (without c) = helperClass := by
  simp (disch := exact notMem_fixed alien rfl rfl) only
    [helperClass, List.map_cons, List.map_nil, map_line, map_block, map_blank, ↓without_append,
      without_eq]

theorem stringExtensionClass_without :
    stringExtensionClass.map (without c) = stringExtensionClass := by
  simp (disch := exact notMem_fixed alien rfl rfl) only
    [stringExtensionClass, List.map_cons, List.map_nil, map_line, map_block, map_blank,
      ↓without_append, without_eq]

theorem displayNameClass_without : displayNameClass.map (map (without c)) = displayNameClass := by
  simp (disch := exact notMem_fixed alien rfl rfl) only
    [displayNameClass, List.map_cons, List.map_nil, map_line, map_block, map_blank,
      ↓without_append, without_eq]

theorem notMem_usings : (∀ name ∈ modelUsings, c ∉ name.toList) ∧
    (∀ name ∈ converterUsings, c ∉ name.toList) ∧
    ∀ name ∈ embeddedConverterUsings, c ∉ name.toList := by
  simp only [modelUsings, converterUsings, embeddedConverterUsings, List.forall_mem_cons,
    List.not_mem_nil, false_implies, implies_true, and_true, and_assoc]
  and_intros <;> exact notMem_fixed alien rfl rfl

section unit

variable {u : GeneratedUnit} (clear : ∀ text ∈ u.strings, c ∉ text.toList)

include clear

theorem notMem_namespaceName : c ∉ u.namespaceName.toList :=
  Path.notMem_intercalate (notMem_fixed alien rfl rfl) fun name among =>
    clear name (by simp [GeneratedUnit.strings, GeneratedUnit.places, among])

omit alien in
theorem notMem_header : c ∉ u.name.toList ∧ (∀ base ∈ u.bases, c ∉ base.toList) ∧
    ∀ name ∈ u.imports, c ∉ name.toList := by
  refine ⟨clear u.name ?_, fun base among => clear base ?_, fun name among => clear name ?_⟩
  all_goals simp [GeneratedUnit.strings, GeneratedUnit.names, GeneratedUnit.places, *]

theorem notMem_members : (∀ m ∈ u.members, c ∉ m.name.toList) ∧
    (∀ m ∈ u.members, c ∉ (typeName m.type).toList) ∧ ∀ m ∈ u.members, c ∉ m.wire.toList := by
  have part {text : String} {m : Member} (among : m ∈ u.members)
      (own : text = m.name ∨ text ∈ m.type.names ∨ text = m.wire) : c ∉ text.toList := by
    refine clear text ?_
    simp only [GeneratedUnit.strings, GeneratedUnit.names, GeneratedUnit.uids, List.mem_append,
      List.mem_cons, List.mem_flatMap, List.mem_map]
    grind
  exact ⟨fun m among => part among (.inl rfl),
    fun m among => notMem_typeName alien fun name mentioned => part among (.inr (.inl mentioned)),
    fun m among => part among (.inr (.inr rfl))⟩

omit alien in
theorem notMem_body : (∀ name ∈ u.body.names, c ∉ name.toList) ∧
    ∀ uid ∈ u.body.uids, c ∉ uid.toList := by
  refine ⟨fun name among => clear name ?_, fun uid among => clear uid ?_⟩
  all_goals simp [GeneratedUnit.strings, GeneratedUnit.names, GeneratedUnit.uids, among]

theorem unitMembers_without (nullable : Bool) :
    (members nullable u.members).map (map (without c)) =
      members (marked c nullable) u.members := by
  obtain ⟨named, typed, wired⟩ := notMem_members alien clear
  exact members_without alien nullable named typed wired

theorem model_without (nullable : Bool) {contentTypeUid : Option String}
    (own : u.body = .model contentTypeUid) :
    (model nullable u contentTypeUid).map (map (without c)) =
      model (marked c nullable) u contentTypeUid := by
  obtain ⟨named, based, imported⟩ := notMem_header clear
  have known := (notMem_body clear).2
  rw [own] at known
  have inner := unitMembers_without alien clear nullable
  have trailer := embeddedItems_without alien nullable
  refine file_without alien (List.forall_mem_append.mpr ⟨(notMem_usings alien).1, imported⟩)
    (notMem_namespaceName alien clear) ?_
  cases contentTypeUid with
  | none =>
    simp [classHeader_without alien named based, inner, apply_ite (List.map _), trailer]
  | some uid =>
    have entry := entryPart_without alien nullable (known uid (by simp [UnitBody.uids]))
    simp [classHeader_without alien named based, inner, apply_ite (List.map _), trailer, entry]

theorem wrapper_without : (wrapper u).map (map (without c)) = wrapper u := by
  obtain ⟨named, based, -⟩ := notMem_header clear
  obtain ⟨titled, typed, -⟩ := notMem_members alien clear
  have place := notMem_namespaceName alien clear
  have inner : (u.members.map fun m => property (typeName m.type) m.name).map (map (without c)) =
      u.members.map fun m => property (typeName m.type) m.name := by
    rw [List.map_map]
    exact List.map_congr_left fun m among =>
      property_without alien (without_eq (typed m among)) (titled m among)
  simp (disch := first | assumption | exact notMem_fixed alien rfl rfl) only
    [wrapper, List.map_cons, List.map_nil, map_block, classHeader_without alien named based, inner,
      ↓without_append, without_eq]

theorem tagEnum_without {tags : List VariantTag} (own : u.body = .tagEnum tags) :
    (tagEnum u tags).map (map (without c)) = tagEnum u tags := by
  obtain ⟨named, -, -⟩ := notMem_header clear
  obtain ⟨mentioned, known⟩ := notMem_body clear
  rw [own] at mentioned known
  have inner : (enumMembers tags).map (map (without c)) = enumMembers tags := by
    refine enumMembers_without alien (fun tag among => ?_) fun tag among => ?_
    · exact known tag.uid (List.mem_map_of_mem among)
    · exact List.forall_mem_flatMap.mp mentioned tag among tag.member (by simp)
  refine file_without alien ?_ (notMem_namespaceName alien clear) ?_
  · exact List.forall_mem_singleton.mpr (notMem_fixed alien rfl rfl)
  · simp (disch := first | assumption | exact notMem_fixed alien rfl rfl) only
      [List.map_cons, List.map_nil, map_block, inner, ↓without_append, without_eq]

theorem blockConverter_without (nullable : Bool) {base tags : String} {arms : List VariantTag}
    (own : u.body = .converter (.keyPresence base tags arms)) :
    (blockConverter nullable u base tags arms).map (map (without c)) =
      blockConverter (marked c nullable) u base tags arms := by
  obtain ⟨named, -, -⟩ := notMem_header clear
  have mentioned := (notMem_body clear).1
  rw [own] at mentioned
  simp only [UnitBody.names, List.forall_mem_cons, List.forall_mem_flatMap] at mentioned
  obtain ⟨typed, tagged, each⟩ := mentioned
  have choices : (arms.map (blockArm tags)).map (map (without c)) = arms.map (blockArm tags) := by
    rw [List.map_map]
    exact List.map_congr_left fun arm among =>
      blockArm_without alien tagged (each arm among).1 (each arm among).2.1
  refine file_without alien (notMem_usings alien).2.1 (notMem_namespaceName alien clear) ?_
  refine converter_without alien named typed ?_
  simp (disch := first | assumption | exact notMem_fixed alien rfl rfl) only
    [List.map_cons, List.map_nil, List.map_append, map_block, map_line, map_blank, choices,
      readHeader_without alien nullable typed, writeMethod_without alien nullable typed,
      ↓without_append, without_eq]

theorem embeddedConverter_without (nullable : Bool) {arms : List (String × String)}
    (own : u.body = .converter (.contentTypeUid arms)) :
    (embeddedConverter nullable u arms).map (map (without c)) =
      embeddedConverter (marked c nullable) u arms := by
  obtain ⟨named, -, -⟩ := notMem_header clear
  obtain ⟨mentioned, known⟩ := notMem_body clear
  rw [own] at mentioned known
  have typed : c ∉ "List<IEmbeddedObject>".toList := notMem_fixed alien rfl rfl
  have key := notMem_quoted alien (notMem_fixed alien rfl rfl : c ∉ "_content_type_uid".toList)
  have choices : (embeddedArms nullable (arms ++ [assetArm])).map (map (without c)) =
      embeddedArms (marked c nullable) (arms ++ [assetArm]) := by
    refine embeddedArms_without alien nullable (List.forall_mem_append.mpr ⟨fun arm among => ?_, ?_⟩)
      (List.forall_mem_append.mpr ⟨fun arm among => ?_, ?_⟩)
    · exact known arm.1 (List.mem_map_of_mem among)
    · exact List.forall_mem_singleton.mpr (notMem_fixed alien rfl rfl)
    · exact mentioned arm.2 (List.mem_map_of_mem among)
    · exact List.forall_mem_singleton.mpr (notMem_fixed alien rfl rfl)
  refine file_without alien (notMem_usings alien).2.2 (notMem_namespaceName alien clear) ?_
  refine converter_without alien named typed ?_
  simp (disch := first | assumption | exact notMem_fixed alien rfl rfl) only
    [List.map_cons, List.map_nil, map_block, map_line, map_blank, choices,
      readHeader_without alien nullable typed, writeMethod_without alien nullable typed,
      without_mark alien, ↓without_append, without_eq]

theorem link_without (nullable : Bool) :
    (link nullable u).map (map (without c)) = link (marked c nullable) u := by
  refine file_without alien (notMem_usings alien).1 (notMem_namespaceName alien clear) ?_
  have type : c ∉ linkType.toList := notMem_fixed alien rfl rfl
  simp (disch := first | assumption | exact notMem_fixed alien rfl rfl) only
    [List.map_cons, List.map_nil, map_block, unitMembers_without alien clear, ↓without_append,
      without_eq]

theorem helper_without (kind : HelperKind) :
    (helper u kind).map (map (without c)) = helper u kind := by
  have usual := (notMem_usings alien).1
  have place := notMem_namespaceName alien clear
  cases kind with
  | helper =>
    refine file_without alien (List.forall_mem_append.mpr ⟨usual, ?_⟩) place ?_
    · simp only [List.forall_mem_cons, List.not_mem_nil, false_implies, implies_true, and_true]
      exact ⟨notMem_fixed alien rfl rfl, notMem_fixed alien rfl rfl⟩
    · simp [helperClass_without alien]
  | stringExtension =>
    refine file_without alien (List.forall_mem_cons.mpr ⟨notMem_fixed alien rfl rfl, usual⟩) place ?_
    simp [stringExtensionClass_without alien]
  | displayNameAttribute =>
    refine file_without alien ?_ place (displayNameClass_without alien)
    exact List.forall_mem_singleton.mpr (notMem_fixed alien rfl rfl)

theorem code_without (nullable : Bool) :
    (code nullable u).map (map (without c)) = code (marked c nullable) u := by
  unfold code
  split
  next own => exact model_without alien clear nullable own
  next => exact wrapper_without alien clear
  next own => exact tagEnum_without alien clear own
  next own => exact blockConverter_without alien clear nullable own
  next own => exact embeddedConverter_without alien clear nullable own
  next => exact link_without alien clear nullable
  next kind _ => exact helper_without alien clear kind

end unit

end source

theorem text_unmarked {u : GeneratedUnit} (clear : ∀ text ∈ u.strings, '?' ∉ text.toList) :
    without '?' (text true u) = text false u ∧ '?' ∉ (text false u).toList := by
  have unmarked (nullable : Bool) : without '?' (text nullable u) = text false u := by
    rw [text_eq, ← text_without (by decide), code_without (by decide) clear, text_eq]
    simp [marked]
  exact ⟨unmarked true, without_eq_self_iff.mp (unmarked false)⟩

def leaflet : GeneratedUnit where
  name := "Leaflet"
  namespacePath := ["Shop", "Models"]
  directoryPath := ["Models"]
  body := .model (some "leaflet")
  members :=
    [{ name := "Body", wire := "body_text", type := .list .string, accessor := .markdown },
      { name := "Author", wire := "author", type := .named "Person" }]
  imports := ["Shop.Models.Groups"]
  bases := [entryEmbeddable]

theorem leaflet_unmarked : (∀ text ∈ leaflet.strings, '?' ∉ text.toList) ∧
    text true leaflet ≠ text false leaflet ∧
    without '?' (text true leaflet) = text false leaflet ∧ '?' ∉ (text false leaflet).toList := by
  have clear : ∀ text ∈ leaflet.strings, '?' ∉ text.toList := by decide
  have differ : text true leaflet ≠ text false leaflet := by decide +kernel
  exact ⟨clear, differ, text_unmarked clear⟩

end Spelling

end ContentModels
