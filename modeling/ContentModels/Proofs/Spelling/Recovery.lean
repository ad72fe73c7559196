import ContentModels.Proofs.Code.Reading
import ContentModels.Proofs.Spelling.Layout

set_option autoImplicit false

namespace ContentModels

open Naming Config

-- Members that are spelled alike. The key in a payload counts where it is stated.
structure Member.Alike (m n : Member) : Prop where
  name : m.name = n.name
  type : Spelling.typeName m.type = Spelling.typeName n.type
  accessor : m.accessor = n.accessor
  stated : m.needsWireName = n.needsWireName
  wire : m.needsWireName = true → m.wire = n.wire

structure GeneratedUnit.Alike (u v : GeneratedUnit) : Prop where
  namespacePath : u.namespacePath = v.namespacePath
  name : u.name = v.name
  body : u.body = v.body
  imports : u.imports = v.imports
  bases : u.bases = v.bases
  members : List.Forall₂ Member.Alike u.members v.members

namespace GeneratedUnit.Sound

variable {u : GeneratedUnit} (sound : u.Sound)

include sound

theorem header : isIdentifier u.name = true ∧ ∀ base ∈ u.bases, isIdentifier base = true :=
  ⟨sound.named u.name (by simp [names]), fun base among => sound.named base (by simp [names, among])⟩

theorem typed : ∀ m ∈ u.members, ∀ name ∈ m.type.names, isIdentifier name = true := by
  intro m among name mentioned
  refine sound.named name ?_
  simp only [names, List.mem_append, List.mem_flatMap, List.mem_cons]
  exact .inl (.inr ⟨m, among, .inr mentioned⟩)

end GeneratedUnit.Sound

namespace Spelling

open Code Text

theorem usings_injective : Function.Injective usings := by
  refine List.map_injective_iff.mpr fun name other same => ?_
  simpa using same

theorem notMem_typeName_space {type : TypeRef}
    (named : ∀ name ∈ type.names, isIdentifier name = true) : ' ' ∉ (typeName type).toList := by
  induction type with
  | named name => exact notMem_of_isIdentifier (named name (List.mem_singleton_self name)) (by decide)
  | list item ih => simpa [typeName] using ih named
  | _ => exact notMem_literal rfl rfl

theorem typed_injective {type other name otherName : String} (plain : ' ' ∉ type.toList)
    (clear : ' ' ∉ other.toList)
    (same : "public " ++ type ++ " " ++ name = "public " ++ other ++ " " ++ otherName) :
    type = other ∧ name = otherName := by
  rw [String.append_assoc, String.append_assoc, String.append_assoc, String.append_assoc,
    String.append_right_inj, ← String.append_assoc, ← String.append_assoc] at same
  exact cut_injective rfl plain clear same

theorem wireName_injective {name other : String} (same : wireName name = wireName other) :
    name = other := by
  unfold wireName wireNameText at same
  simpa only [quoted, Code.line.injEq, String.append_left_inj, String.append_right_inj] using same

theorem wireName_ne_property (wire type name : String) : wireName wire ≠ property type name := by
  intro same
  unfold wireName wireNameText property propertyText at same
  have heads := congrArg (fun text => text.toList.head?) (Code.line.inj same)
  simp at heads

def constant (uid : String) : Code :=
  line ("public const string ContentType = " ++ quoted uid ++ ";")

theorem constant_ne_property (uid type name : String) : constant uid ≠ property type name := by
  intro same
  unfold constant property propertyText at same
  have ends := congrArg (fun text => text.toList.getLast?) (Code.line.inj same)
  simp only [String.toList_append, List.getLast?_append] at ends
  simp at ends

theorem constant_ne_wireName (uid name : String) : constant uid ≠ wireName name := by
  intro same
  unfold constant wireName wireNameText at same
  have heads := congrArg (fun text => text.toList.head?) (Code.line.inj same)
  simp at heads

def declared (nullable : Bool) (m : Member) : List Code :=
  match m.accessor with
  | .plain => [property (typeName m.type ++ mark nullable) m.name]
  | .markdown => markdownMember m

theorem member_eq (nullable : Bool) (m : Member) : member nullable m =
    (if m.needsWireName then [wireName m.wire] else []) ++ declared nullable m := rfl

theorem markdownMember_eq (m : Member) : ∃ body stored, markdownMember m =
    [block ("public " ++ typeName m.type ++ " " ++ m.name) body, line stored] := ⟨_, _, rfl⟩

theorem declared_starts (nullable : Bool) (m : Member) : ∃ c rest, declared nullable m = c :: rest ∧
    (∀ wire, c ≠ wireName wire) ∧ ∀ uid, c ≠ constant uid := by
  unfold declared
  cases m.accessor with
  | plain =>
    exact ⟨_, [], rfl, fun wire => (wireName_ne_property wire _ _).symm,
      fun uid => (constant_ne_property uid _ _).symm⟩
  | markdown => exact ⟨_, _, rfl, by simp [wireName], by simp [constant]⟩

theorem member_starts (nullable : Bool) (m : Member) : ∃ c rest, member nullable m = c :: rest ∧
    ∀ uid, c ≠ constant uid := by
  obtain ⟨c, rest, written, -, apart⟩ := declared_starts nullable m
  rw [member_eq, written]
  split
  · exact ⟨_, _, rfl, fun uid => (constant_ne_wireName uid _).symm⟩
  · exact ⟨c, rest, rfl, apart⟩

section cancel

variable (nullable : Bool) {m n : Member} {rest other : List Code}
  (typed : ∀ name ∈ m.type.names, isIdentifier name = true)
  (valid : ∀ name ∈ n.type.names, isIdentifier name = true)

include typed valid

theorem declared_cancel (same : declared nullable m ++ rest = declared nullable n ++ other) :
    m.name = n.name ∧ typeName m.type = typeName n.type ∧ m.accessor = n.accessor ∧
      rest = other := by
  have plain := notMem_typeName_space typed
  have clear := notMem_typeName_space valid
  have marked : ' ' ∉ (mark nullable).toList := by cases nullable <;> simp [mark]
  obtain ⟨body, stored, written⟩ := markdownMember_eq m
  obtain ⟨otherBody, otherStored, otherWritten⟩ := markdownMember_eq n
  unfold declared at same
  cases kind : m.accessor <;> cases otherKind : n.accessor
  case plain.plain =>
    simp only [kind, otherKind, List.singleton_append, List.cons.injEq, property, propertyText,
      Code.line.injEq, String.append_left_inj] at same
    obtain ⟨types, names⟩ := typed_injective (by simp [plain, marked]) (by simp [clear, marked]) same.1
    exact ⟨names, by simpa using types, rfl, same.2⟩
  case markdown.markdown =>
    simp only [kind, otherKind, written, otherWritten, List.cons_append, List.nil_append,
      List.cons.injEq, Code.block.injEq] at same
    obtain ⟨types, names⟩ := typed_injective plain clear same.1.1
    exact ⟨names, types, rfl, same.2.2⟩
  all_goals simp [kind, otherKind, written, otherWritten, property] at same

theorem member_cancel (same : member nullable m ++ rest = member nullable n ++ other) :
    m.Alike n ∧ rest = other := by
  obtain ⟨c, later, written, apart, -⟩ := declared_starts nullable m
  obtain ⟨d, otherLater, otherWritten, otherApart, -⟩ := declared_starts nullable n
  rw [member_eq, member_eq, List.append_assoc, List.append_assoc] at same
  cases stated : m.needsWireName <;> cases otherStated : n.needsWireName
  case false.false =>
    simp only [stated, otherStated, Bool.false_eq_true, if_false, List.nil_append] at same
    obtain ⟨names, types, accessors, rests⟩ := declared_cancel nullable typed valid same
    exact ⟨⟨names, types, accessors, by rw [stated, otherStated], by simp [stated]⟩, rests⟩
  case true.true =>
    simp only [stated, otherStated, if_true, List.singleton_append, List.cons.injEq] at same
    obtain ⟨names, types, accessors, rests⟩ := declared_cancel nullable typed valid same.2
    have wires := wireName_injective same.1
    exact ⟨⟨names, types, accessors, by rw [stated, otherStated], fun _ => wires⟩, rests⟩
  case true.false =>
    simp [stated, otherStated, otherWritten] at same
    exact absurd same.1.symm (otherApart m.wire)
  case false.true =>
    simp [stated, otherStated, written] at same
    exact absurd same.1 (apart n.wire)

end cancel

theorem members_injective (nullable : Bool) {ms ns : List Member}
    (typed : ∀ m ∈ ms, ∀ name ∈ m.type.names, isIdentifier name = true)
    (valid : ∀ m ∈ ns, ∀ name ∈ m.type.names, isIdentifier name = true)
    (same : members nullable ms = members nullable ns) : List.Forall₂ Member.Alike ms ns := by
  have some (m : Member) : member nullable m ≠ [] := by
    obtain ⟨c, rest, written, -⟩ := member_starts nullable m
    simp [written]
  induction ms generalizing ns with
  | nil =>
    cases ns with
    | nil => exact .nil
    | cons n ns => simp [members, some] at same
  | cons m ms ih =>
    cases ns with
    | nil => simp [members, some] at same
    | cons n ns =>
      obtain ⟨here, later⟩ := List.forall_mem_cons.mp typed
      obtain ⟨otherHere, otherLater⟩ := List.forall_mem_cons.mp valid
      simp only [members, List.flatMap_cons] at same
      obtain ⟨alike, rest⟩ := member_cancel nullable here otherHere same
      exact .cons alike (ih later otherLater rest)

theorem segments_injective {segments others : List String}
    (named : ∀ segment ∈ segments, isIdentifier segment = true)
    (valid : ∀ segment ∈ others, isIdentifier segment = true)
    (same : ".".intercalate segments = ".".intercalate others) : segments = others := by
  have undotted {names : List String} (all : ∀ name ∈ names, isIdentifier name = true) :
      ∀ name ∈ names, '.' ∉ name.toList :=
    fun name among => notMem_of_isIdentifier (all name among) (by decide)
  have empty {first : String} {rest : List String} (named : isIdentifier first = true) :
      ".".intercalate (first :: rest) ≠ "" := by
    cases rest <;> simp [String.intercalate_cons_cons, ne_empty_of_isIdentifier named]
  cases segments with
  | nil =>
    cases others with
    | nil => rfl
    | cons first rest => exact absurd same.symm (empty (valid first (.head _)))
  | cons first rest =>
    cases others with
    | nil => exact absurd same (empty (named first (.head _)))
    | cons => exact intercalate_injective rfl (by simp) (by simp) (undotted named) (undotted valid) same

theorem bases_injective {bases others : List String}
    (named : ∀ base ∈ bases, isIdentifier base = true)
    (valid : ∀ base ∈ others, isIdentifier base = true) (some : bases ≠ []) (any : others ≠ [])
    (same : ", ".intercalate bases = ", ".intercalate others) : bases = others := by
  -- without the spaces the separator is a single character, and no identifier has either of the two
  have commas (names : List String) (all : ∀ name ∈ names, isIdentifier name = true) :
      without ' ' (", ".intercalate names) = ",".intercalate names := by
    have each : names.map (without ' ') = names.map id := List.map_congr_left fun name among =>
      without_eq (notMem_of_isIdentifier (all name among) (by decide))
    have comma : without ' ' ", " = "," := by decide
    rw [without_intercalate, each, comma, List.map_id]
  have joined : ",".intercalate bases = ",".intercalate others := by
    rw [← commas bases named, ← commas others valid, same]
  exact intercalate_injective rfl some any
    (fun base among => notMem_of_isIdentifier (named base among) (by decide))
    (fun base among => notMem_of_isIdentifier (valid base among) (by decide)) joined

theorem classHeader_nil (name : String) :
    classHeader name [] = "public partial class " ++ name := by
  unfold classHeader
  exact String.append_empty

theorem classHeader_of_ne_nil {bases : List String} (some : bases ≠ []) (name : String) :
    classHeader name bases =
      "public partial class " ++ (name ++ " " ++ (": " ++ ", ".intercalate bases)) := by
  have colon : " : " = " " ++ ": " := by decide
  unfold classHeader
  rw [if_neg (by simpa using some), colon]
  simp only [String.append_assoc]

theorem classHeader_injective {name other : String} {bases others : List String}
    (named : isIdentifier name = true) (otherNamed : isIdentifier other = true)
    (based : ∀ base ∈ bases, isIdentifier base = true)
    (valid : ∀ base ∈ others, isIdentifier base = true)
    (same : classHeader name bases = classHeader other others) : name = other ∧ bases = others := by
  have plain : ' ' ∉ name.toList := notMem_of_isIdentifier named (by decide)
  have clear : ' ' ∉ other.toList := notMem_of_isIdentifier otherNamed (by decide)
  rcases eq_or_ne bases [] with rfl | some <;> rcases eq_or_ne others [] with rfl | any
  · rw [classHeader_nil, classHeader_nil, String.append_right_inj] at same
    exact ⟨same, rfl⟩
  · rw [classHeader_nil, classHeader_of_ne_nil any, String.append_right_inj] at same
    exact absurd (by simp [same]) plain
  · rw [classHeader_nil, classHeader_of_ne_nil some, String.append_right_inj] at same
    exact absurd (by simp [← same]) clear
  · rw [classHeader_of_ne_nil some, classHeader_of_ne_nil any, String.append_right_inj] at same
    obtain ⟨names, rests⟩ := cut_injective rfl plain clear same
    exact ⟨names, bases_injective based valid some any ((String.append_right_inj _).mp rests)⟩

theorem entryPart_injective (nullable : Bool) {uid other : String}
    (same : entryPart nullable uid = entryPart nullable other) : uid = other := by
  obtain ⟨constants, -⟩ := List.cons.inj same
  simpa only [quoted, Code.line.injEq, String.append_left_inj, String.append_right_inj]
    using constants

theorem entryPart_ne_members (nullable : Bool) (uid : String) (ms : List Member)
    (rest : List Code) : entryPart nullable uid ++ rest ≠ members nullable ms := by
  cases ms with
  | nil => simp [entryPart, members]
  | cons m ms =>
    obtain ⟨c, later, written, apart⟩ := member_starts nullable m
    rw [members, List.flatMap_cons, written]
    exact fun same => apart uid (List.cons.inj same).1.symm

theorem fields_injective (nullable : Bool) {first second : Option String} {ms ns : List Member}
    (typed : ∀ m ∈ ms, ∀ name ∈ m.type.names, isIdentifier name = true)
    (valid : ∀ m ∈ ns, ∀ name ∈ m.type.names, isIdentifier name = true)
    (same : (match first with | some uid => entryPart nullable uid | none => []) ++
        members nullable ms =
      (match second with | some uid => entryPart nullable uid | none => []) ++
        members nullable ns) :
    first = second ∧ List.Forall₂ Member.Alike ms ns := by
  cases first with
  | none =>
    cases second with
    | none => exact ⟨rfl, members_injective nullable typed valid same⟩
    | some uid => exact absurd same.symm (entryPart_ne_members nullable uid ms _)
  | some uid =>
    cases second with
    | none => exact absurd same (entryPart_ne_members nullable uid ns _)
    | some other =>
      obtain ⟨entries, rests⟩ := List.append_inj same rfl
      exact ⟨congrArg some (entryPart_injective nullable entries),
        members_injective nullable typed valid rests⟩

theorem text_recovers {u v : GeneratedUnit} {first second : Option String}
    (own : u.body = .model first) (other : v.body = .model second) (sound : u.Sound)
    (otherSound : v.Sound) (placed : ∀ segment ∈ u.namespacePath, isIdentifier segment = true)
    (otherPlaced : ∀ segment ∈ v.namespacePath, isIdentifier segment = true) (nullable : Bool)
    (same : text nullable u = text nullable v) : u.Alike v := by
  rw [text_eq, text_eq] at same
  have codes : model nullable u first = model nullable v second := by
    simpa only [code, own, other] using
      text_injective (code_tidy sound nullable) (code_tidy otherSound nullable) same
  -- the same number of codes stands after what is used: the blank line and the namespace
  obtain ⟨used, rest⟩ := List.append_inj' codes rfl
  simp only [List.cons.injEq, Code.block.injEq, String.append_right_inj, and_true, true_and] at rest
  obtain ⟨place, header, body⟩ := rest
  obtain ⟨name, bases⟩ := classHeader_injective sound.header.1 otherSound.header.1
    sound.header.2 otherSound.header.2 header
  rw [bases] at body
  obtain ⟨uids, members⟩ := fields_injective nullable sound.typed otherSound.typed
    (List.append_cancel_right body)
  exact {
    namespacePath := segments_injective placed otherPlaced place
    name := name
    body := by rw [own, other, uids]
    imports := List.append_cancel_left (usings_injective used)
    bases := bases
    members := members }

def flyer : GeneratedUnit :=
  { leaflet with
    directoryPath := ["Flyers"]
    members :=
      [{ name := "Body", wire := "body_text", type := .list .string, accessor := .markdown },
        { name := "Author", wire := "AUTHOR", type := .named "Person" }] }

theorem flyer_recovers : leaflet.body = .model (some "leaflet") ∧
    flyer.body = .model (some "leaflet") ∧ leaflet.Sound ∧ flyer.Sound ∧
    text true leaflet = text true flyer ∧ leaflet ≠ flyer ∧ leaflet.Alike flyer := by
  have same : text true leaflet = text true flyer := rfl
  have sound : leaflet.Sound := ⟨by decide, by decide, by decide⟩
  have other : flyer.Sound := ⟨by decide, by decide, by decide⟩
  exact ⟨rfl, rfl, sound, other, same, by decide,
    text_recovers rfl rfl sound other (by decide) (by decide) true same⟩

end Spelling

end ContentModels
