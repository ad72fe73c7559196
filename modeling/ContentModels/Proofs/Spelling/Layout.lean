import ContentModels.Proofs.Code.Blocks
import ContentModels.Proofs.Naming.Identifier
import ContentModels.Proofs.Spelling.Characters

set_option autoImplicit false

namespace ContentModels

open Naming Config

structure GeneratedUnit.Sound (u : GeneratedUnit) : Prop where
  named : ∀ name ∈ u.names, isIdentifier name = true
  placed : ∀ name ∈ u.places, '\n' ∉ name.toList
  keyed : ∀ uid ∈ u.uids, '\n' ∉ uid.toList

theorem GeneratedUnit.Sound.oneLine {u : GeneratedUnit} (sound : u.Sound) :
    ∀ text ∈ u.strings, '\n' ∉ text.toList := by
  have named (name : String) (among : name ∈ u.names) : '\n' ∉ name.toList :=
    notMem_of_isIdentifier (sound.named name among) (by decide)
  rw [GeneratedUnit.strings, List.forall_mem_append, List.forall_mem_append]
  exact ⟨⟨named, sound.placed⟩, sound.keyed⟩

namespace Spelling

open Code Text

abbrev Lead : String → Prop := Begins [' ', '\x7b', '\x7d']

abbrev Heading : String → Prop := Begins [' ', '\x7b', '\x7d', 'n']

theorem begins_of_isIdentifier {name : String} (valid : isIdentifier name = true) :
    Lead name := by
  obtain ⟨c, rest, written, letter, -⟩ := (isIdentifier_iff name).mp valid
  refine ⟨c, rest, written, ?_⟩
  simp only [List.mem_cons, List.not_mem_nil, or_false]
  rintro (rfl | rfl | rfl) <;> exact absurd letter (by decide)

abbrev Inner : Code → Prop := Every Lead Heading

theorem begins_classHeader (name : String) (bases : List String) :
    Heading (classHeader name bases) := by
  unfold classHeader
  repeat with_reducible apply Begins.append
  exact begins_literal rfl rfl

theorem inner_property (type name : String) : Inner (property type name) := by
  refine every_line_iff.mpr ?_
  unfold propertyText
  repeat with_reducible apply Begins.append
  exact begins_literal rfl rfl

theorem inner_wireName (name : String) : Inner (wireName name) := by
  refine every_line_iff.mpr ?_
  unfold wireNameText
  repeat with_reducible apply Begins.append
  exact begins_literal rfl rfl

theorem inner_member (nullable : Bool) (m : Member) : ∀ c ∈ member nullable m, Inner c := by
  have wire : ∀ c ∈ (if m.needsWireName then [wireName m.wire] else []), Inner c := by
    split <;> simp [inner_wireName]
  refine List.forall_mem_append.mpr ⟨wire, ?_⟩
  split
  · simp [inner_property]
  · simp only [markdownMember, List.forall_mem_cons, every_block_iff, every_line_iff,
      List.not_mem_nil, false_implies, implies_true, and_true]
    and_intros <;> (repeat with_reducible apply Begins.append) <;> exact begins_literal rfl rfl

theorem inner_members (nullable : Bool) (ms : List Member) :
    ∀ c ∈ members nullable ms, Inner c := by
  rw [members, List.forall_mem_flatMap]
  exact fun m _ => inner_member nullable m

theorem inner_entryPart (nullable : Bool) (uid : String) :
    ∀ c ∈ entryPart nullable uid, Inner c := by
  simp only [entryPart, List.forall_mem_cons, every_line_iff, inner_property, inner_wireName,
    List.not_mem_nil, false_implies, implies_true, and_true]
  repeat with_reducible apply Begins.append
  exact begins_literal rfl rfl

theorem inner_embeddedItems (nullable : Bool) : ∀ c ∈ embeddedItems nullable, Inner c := by
  simp [embeddedItems, inner_property, inner_wireName]

theorem inner_enumMembers {tags : List VariantTag}
    (named : ∀ tag ∈ tags, isIdentifier tag.member = true) : ∀ c ∈ enumMembers tags, Inner c := by
  induction tags with
  | nil => simp [enumMembers]
  | cons tag tags ih =>
    obtain ⟨valid, others⟩ := List.forall_mem_cons.mp named
    refine List.forall_mem_append.mpr ⟨?_, ih others⟩
    simp only [List.forall_mem_cons, every_line_iff, List.not_mem_nil, false_implies, implies_true,
      and_true]
    refine ⟨?_, (begins_of_isIdentifier valid).append _⟩
    repeat with_reducible apply Begins.append
    exact begins_literal rfl rfl

theorem inner_writeMethod (nullable : Bool) (type : String) : Inner (writeMethod nullable type) := by
  unfold writeMethod writeHeader
  simp only [every_block_iff, List.forall_mem_cons, every_line_iff, List.not_mem_nil,
    false_implies, implies_true, and_true]
  and_intros <;> (repeat with_reducible apply Begins.append) <;> exact begins_literal rfl rfl

theorem begins_readHeader (nullable : Bool) (type : String) :
    Heading (readHeader nullable type) := by
  unfold readHeader
  repeat with_reducible apply Begins.append
  exact begins_literal rfl rfl

theorem inner_blockArm (tagEnum : String) {arm : VariantTag}
    (valid : isIdentifier arm.variantType = true) : Inner (blockArm tagEnum arm) := by
  have typed := begins_of_isIdentifier valid
  simp only [blockArm, every_block_iff, List.forall_mem_cons, every_line_iff, List.not_mem_nil,
    false_implies, implies_true, and_true]
  and_intros <;> (repeat with_reducible apply Begins.append) <;>
    first | with_reducible assumption | exact begins_literal rfl rfl

theorem inner_embeddedArm (nullable : Bool) {keyword : String} {arm : String × String}
    (key : Heading keyword) (valid : isIdentifier arm.2 = true) :
    Inner (embeddedArm nullable keyword arm) := by
  have typed := begins_of_isIdentifier valid
  simp only [embeddedArm, every_block_iff, List.forall_mem_cons, every_line_iff, List.not_mem_nil,
    false_implies, implies_true, and_true]
  and_intros <;> (repeat with_reducible apply Begins.append) <;>
    first | with_reducible assumption | exact begins_literal rfl rfl

theorem inner_embeddedArms (nullable : Bool) {arms : List (String × String)}
    (valid : ∀ arm ∈ arms, isIdentifier arm.2 = true) :
    ∀ c ∈ embeddedArms nullable arms, Inner c := by
  cases arms with
  | nil => simp [embeddedArms]
  | cons arm arms =>
    obtain ⟨typed, others⟩ := List.forall_mem_cons.mp valid
    refine List.forall_mem_cons.mpr ⟨inner_embeddedArm nullable (begins_literal rfl rfl) typed, ?_⟩
    exact List.forall_mem_map.mpr fun other among =>
      inner_embeddedArm nullable (begins_literal rfl rfl) (others other among)

theorem inner_helperClass : Inner helperClass := by
  simp only [helperClass, every_block_iff, List.forall_mem_cons, every_line_iff, every_blank,
    List.not_mem_nil, false_implies, implies_true, and_true, true_and]
  and_intros <;> (repeat with_reducible apply Begins.append) <;> exact begins_literal rfl rfl

theorem inner_stringExtensionClass : Inner stringExtensionClass := by
  simp only [stringExtensionClass, every_block_iff, List.forall_mem_cons, every_line_iff,
    every_blank, List.not_mem_nil, false_implies, implies_true, and_true, true_and]
  and_intros <;> (repeat with_reducible apply Begins.append) <;> exact begins_literal rfl rfl

theorem inner_displayNameClass : ∀ c ∈ displayNameClass, Inner c := by
  simp only [displayNameClass, every_block_iff, List.forall_mem_cons, every_line_iff, every_blank,
    List.not_mem_nil, false_implies, implies_true, and_true, true_and]
  and_intros <;> (repeat with_reducible apply Begins.append) <;> exact begins_literal rfl rfl

def typeHeader (u : GeneratedUnit) : String :=
  match u.body with
  | .model _ | .wrapper => classHeader u.name u.bases
  | .tagEnum _ => "public enum " ++ u.name
  | .converter (.keyPresence wrapper _ _) => converterHeader u.name wrapper
  | .converter (.contentTypeUid _) => converterHeader u.name "List<IEmbeddedObject>"
  | .link => "public partial class " ++ linkType
  | .helper .helper => "public partial class " ++ helperType
  | .helper .stringExtension => "public static class " ++ stringExtensionType
  | .helper .displayNameAttribute => "public partial class " ++ displayNameAttribute ++ " : Attribute"

inductive Enclosed (place header : String) : List Code → Prop
  | intro {used body inside : List Code}
    (uses : ∀ c ∈ used, c = .blank ∨ ∃ name, c = .line ("using " ++ name ++ ";"))
    (inner : ∀ c ∈ body, Inner c) (declared : .block header inside ∈ body) :
    Enclosed place header (used ++ [.block place body])

theorem enclosed_file {used : List String} {namespaceName header : String}
    {body inside : List Code} (inner : ∀ c ∈ body, Inner c)
    (declared : .block header inside ∈ body) :
    Enclosed ("namespace " ++ namespaceName) header (file used namespaceName body) := by
  have uses : ∀ c ∈ usings used ++ [.blank],
      c = .blank ∨ ∃ name, c = .line ("using " ++ name ++ ";") := by
    simp +contextual [usings, or_imp]
  rw [file, List.append_cons]
  exact .intro uses inner declared

theorem inner_block {header : String} {body : List Code}
    (begins : Heading header) (inside : ∀ c ∈ body, Inner c) :
    ∀ c ∈ [block header body], Inner c := by
  simpa using ⟨begins, inside⟩

section unit

variable {u : GeneratedUnit}

theorem model_enclosed (nullable : Bool) (contentTypeUid : Option String) :
    Enclosed (namespaceHeader u) (classHeader u.name u.bases) (model nullable u contentTypeUid) := by
  refine enclosed_file (inner_block (begins_classHeader _ _) ?_) (.head _)
  refine List.forall_mem_append.mpr ⟨List.forall_mem_append.mpr ⟨?_, inner_members _ _⟩, ?_⟩
  · cases contentTypeUid with
    | none => simp
    | some uid => exact inner_entryPart nullable uid
  · split
    · exact inner_embeddedItems nullable
    · simp

theorem wrapper_enclosed :
    Enclosed (namespaceHeader u) (classHeader u.name u.bases) (wrapper u) := by
  have inside : ∀ c ∈ u.members.map fun m => property (typeName m.type) m.name, Inner c :=
    List.forall_mem_map.mpr fun m _ => inner_property (typeName m.type) m.name
  have inner := inner_block (begins_classHeader u.name u.bases) inside
  have enclosed : Enclosed (namespaceHeader u) (classHeader u.name u.bases) ([] ++ wrapper u) :=
    .intro (List.forall_mem_nil _) inner (.head _)
  exact enclosed

theorem tagEnum_enclosed {tags : List VariantTag}
    (named : ∀ tag ∈ tags, isIdentifier tag.member = true) :
    Enclosed (namespaceHeader u) ("public enum " ++ u.name) (tagEnum u tags) :=
  enclosed_file (inner_block ((begins_literal rfl rfl).append _) (inner_enumMembers named)) (.head _)

theorem converter_enclosed {used : List String} {type : String} {body : List Code}
    (inside : ∀ c ∈ body, Inner c) :
    Enclosed (namespaceHeader u) (converterHeader u.name type)
      (file used u.namespaceName (converter u type body)) := by
  refine enclosed_file (List.forall_mem_cons.mpr ⟨every_line_iff.mpr ?_, inner_block ?_ inside⟩)
    (.tail _ (.head _))
  all_goals
    first | unfold converterText | unfold converterHeader
    repeat with_reducible apply Begins.append
    exact begins_literal rfl rfl

theorem blockConverter_enclosed (nullable : Bool) {base tags : String} {arms : List VariantTag}
    (based : isIdentifier base = true) (typed : ∀ arm ∈ arms, isIdentifier arm.variantType = true) :
    Enclosed (namespaceHeader u) (converterHeader u.name base)
      (blockConverter nullable u base tags arms) := by
  have target := begins_of_isIdentifier based
  have choices : ∀ c ∈ arms.map (blockArm tags), Inner c :=
    List.forall_mem_map.mpr fun arm among => inner_blockArm tags (typed arm among)
  apply converter_enclosed
  simp only [List.forall_mem_cons, List.forall_mem_append, every_block_iff, every_line_iff,
    every_blank, inner_writeMethod, begins_readHeader, List.not_mem_nil, false_implies,
    implies_true, and_true, true_and]
  and_intros <;> (repeat with_reducible apply Begins.append) <;>
    first | with_reducible assumption | exact begins_literal rfl rfl

theorem embeddedConverter_enclosed (nullable : Bool) {arms : List (String × String)}
    (typed : ∀ arm ∈ arms, isIdentifier arm.2 = true) :
    Enclosed (namespaceHeader u) (converterHeader u.name "List<IEmbeddedObject>")
      (embeddedConverter nullable u arms) := by
  have choices : ∀ c ∈ embeddedArms nullable (arms ++ [assetArm]), Inner c :=
    inner_embeddedArms nullable (List.forall_mem_append.mpr ⟨typed, by decide⟩)
  apply converter_enclosed
  simp only [List.forall_mem_cons, every_block_iff, every_line_iff, every_blank, inner_writeMethod,
    begins_readHeader, List.not_mem_nil, false_implies, implies_true, and_true, true_and]
  and_intros <;> (repeat with_reducible apply Begins.append) <;>
    first | with_reducible assumption | exact begins_literal rfl rfl

theorem link_enclosed (nullable : Bool) :
    Enclosed (namespaceHeader u) ("public partial class " ++ linkType) (link nullable u) :=
  enclosed_file (inner_block ((begins_literal rfl rfl).append _) (inner_members _ _)) (.head _)

end unit

theorem code_enclosed {u : GeneratedUnit} (sound : u.Sound) (nullable : Bool) :
    Enclosed (namespaceHeader u) (typeHeader u) (code nullable u) := by
  have valid (name : String) (among : name ∈ u.body.names) : isIdentifier name = true :=
    sound.named name (by simp [GeneratedUnit.names, among])
  unfold code typeHeader
  cases own : u.body with
  | model contentTypeUid => exact model_enclosed nullable contentTypeUid
  | wrapper => exact wrapper_enclosed
  | tagEnum tags =>
    simp only [own, UnitBody.names, List.forall_mem_flatMap, List.forall_mem_cons] at valid
    exact tagEnum_enclosed fun tag among => (valid tag among).1
  | converter dispatch =>
    cases dispatch with
    | keyPresence base tags arms =>
      simp only [own, UnitBody.names, List.forall_mem_cons, List.forall_mem_flatMap] at valid
      exact blockConverter_enclosed nullable valid.1 fun arm among => (valid.2.2 arm among).2.1
    | contentTypeUid arms =>
      simp only [own, UnitBody.names, List.forall_mem_map] at valid
      exact embeddedConverter_enclosed nullable valid
  | link => exact link_enclosed nullable
  | helper kind =>
    cases kind with
    | helper => exact enclosed_file (List.forall_mem_singleton.mpr inner_helperClass) (.head _)
    | stringExtension =>
      exact enclosed_file (List.forall_mem_singleton.mpr inner_stringExtensionClass) (.head _)
    | displayNameAttribute => exact enclosed_file inner_displayNameClass (.tail _ (.head _))

def isNamespace (header : String) : Bool := "namespace ".toList.isPrefixOf header.toList

-- Lines that use namespaces and then open one, with all else and the header of a type in it.
inductive Placed (place header : String) : List Row → Prop
  | intro {used inside : List Row}
    (uses : ∀ row ∈ used, row = ⟨[], ""⟩ ∨ ∃ name, row = ⟨[], "using " ++ name ++ ";"⟩)
    (within : ∀ row ∈ inside, row.around.filter isNamespace = [place])
    (declared : ⟨[place], indented 1 header⟩ ∈ inside) :
    Placed place header (used ++ [⟨[], place⟩, ⟨[], "\x7b"⟩] ++ inside ++ [⟨[], "\x7d"⟩])

-- What a source is like that opens a namespace and declares a type in it, for a reader who follows
-- its lines.
structure Layered (place header source : String) (rows : List Row) : Prop where
  ended : ∃ front, source = front ++ "\n"
  lines : source.splitOn "\n" = rows.map Row.line ++ [""]
  followed : follow [] "" (rows.map Row.line) = some rows
  balanced : Balanced 0 (rows.map Row.line)
  indented : ∀ row ∈ rows, row.line ≠ "" → indent row.line = 4 * row.around.length
  placed : Placed place header rows

theorem Placed.ne_nil {place header : String} {rows : List Row}
    (placed : Placed place header rows) : rows ≠ [] := by
  cases placed
  simp

theorem isNamespace_eq_false {header : String} (begins : Heading header) :
    isNamespace header = false := by
  obtain ⟨c, rest, written, other⟩ := begins
  have : 'n' ≠ c := by rintro rfl; simp at other
  simp [isNamespace, written, List.isPrefixOf, this]

theorem isNamespace_namespaceHeader (u : GeneratedUnit) : isNamespace (namespaceHeader u) = true := by
  simp [isNamespace, namespaceHeader]

theorem rowsOf_placed {place header : String} {code : List Code}
    (known : isNamespace place = true) (enclosed : Enclosed place header code) :
    Placed place header (rowsOf [] code) := by
  obtain @⟨used, body, inside, uses, inner, declared⟩ := enclosed
  have rows : rowsOf [] (used ++ [.block place body]) = rowsOf [] used ++
      [⟨[], place⟩, ⟨[], "\x7b"⟩] ++ rowsOf [place] body ++ [⟨[], "\x7d"⟩] := by
    simp [rowsOf_eq, Code.rows, indented]
  rw [rows]
  constructor
  case uses =>
    intro row member
    rw [rowsOf_eq] at member
    obtain ⟨c, among, own⟩ := List.mem_flatMap.mp member
    rcases uses c among with rfl | ⟨name, rfl⟩
    · exact .inl (by simpa [Code.rows] using own)
    · exact .inr ⟨name, by simpa [Code.rows, indented] using own⟩
  case within =>
    intro row member
    rw [rowsOf_eq] at member
    obtain ⟨c, among, own⟩ := List.mem_flatMap.mp member
    obtain ⟨blocks, around, headers⟩ := (inner c among).rows_around [place] row own
    have none : blocks.filter isNamespace = [] := by
      simpa using fun text member => isNamespace_eq_false (headers text member)
    simp [around, none, known]
  case declared =>
    rw [rowsOf_eq]
    exact List.mem_flatMap.mpr ⟨_, declared, by simp [Code.rows]⟩

theorem begins_enclosed {place header : String} {code : List Code} (opened : Lead place)
    (enclosed : Enclosed place header code) : ∀ c ∈ code, c.Every Lead Lead := by
  obtain @⟨used, body, inside, uses, inner, -⟩ := enclosed
  refine List.forall_mem_append.mpr ⟨fun c among => ?_, List.forall_mem_singleton.mpr ?_⟩
  · rcases uses c among with rfl | ⟨name, rfl⟩
    · exact .blank
    · exact .line (((begins_literal rfl rfl).append _).append _)
  · refine .block opened fun c among => (inner c among).mono (fun _ begins => begins) ?_
    exact fun _ begins => begins.mono (by simp)

theorem code_tidy {u : GeneratedUnit} (sound : u.Sound) (nullable : Bool) :
    ∀ c ∈ code nullable u, c.Tidy := by
  have fixed : (code nullable u).map (map (without '\n')) = (code nullable u).map id := by
    rw [code_without (by decide) sound.oneLine]
    simp [marked]
  have begins : Lead (namespaceHeader u) := (begins_literal rfl rfl).append _
  intro c among
  have oneLine := every_of_map_eq (List.map_inj_left.mp fixed c among)
  have each := oneLine.and (begins_enclosed begins (code_enclosed sound nullable) c among)
  have plain (text : String) (holds : without '\n' text = text ∧ Lead text) :
      Plain text := ⟨without_eq_self_iff.mp holds.1, holds.2⟩
  exact each.mono plain plain

theorem text_layered {u : GeneratedUnit} (sound : u.Sound) (nullable : Bool) :
    (∃ rows, Layered (namespaceHeader u) (typeHeader u) (text nullable u) rows) ∧
      (∀ before after, render nullable u = before ++ .close :: after →
        0 < (LineBuffer.new.run before).depth) ∧
      (LineBuffer.new.run (render nullable u)).depth = 0 := by
  have paired := render_paired nullable u
  refine ⟨?_, paired.opened, paired.closed⟩
  have tidy := code_tidy sound nullable
  have lines : (rowsOf [] (code nullable u)).map Row.line = linesOf 0 (code nullable u) := by
    rw [rowsOf_eq, linesOf_eq, List.map_flatMap]
    exact List.flatMap_congr fun c among => (tidy c among).rows_line []
  have followed := follow_rowsOf tidy
  have placed := rowsOf_placed (isNamespace_namespaceHeader u) (code_enclosed sound nullable)
  rw [text_eq]
  refine ⟨rowsOf [] (code nullable u), ?_, ?_, ?_, ?_, ?_, placed⟩
  · refine text_ends fun none => placed.ne_nil ?_
    rwa [← lines, List.map_eq_nil_iff] at none
  · rw [lines, splitOn_text tidy]
  · rw [lines, followed]
  · rw [lines]
    exact balanced_of_follow followed
  · intro row member
    rw [rowsOf_eq] at member
    obtain ⟨c, among, inside⟩ := List.mem_flatMap.mp member
    exact (tidy c among).rows_indent [] row inside

theorem leaflet_layered : leaflet.Sound ∧ .close ∈ render true leaflet ∧
    (∃ rows, Layered (namespaceHeader leaflet) (typeHeader leaflet) (text true leaflet) rows) ∧
      (∀ before after, render true leaflet = before ++ .close :: after →
        0 < (LineBuffer.new.run before).depth) ∧
      (LineBuffer.new.run (render true leaflet)).depth = 0 := by
  have sound : leaflet.Sound := ⟨by decide, by decide, by decide⟩
  have closing : .close ∈ render true leaflet := by decide
  exact ⟨sound, closing, text_layered sound true⟩

end Spelling

end ContentModels
