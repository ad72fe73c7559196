import ContentModels.Proofs.Spelling.Tree

set_option autoImplicit false

namespace ContentModels

def Member.names (m : Member) : List String := m.name :: m.accessor.companions.map (m.name ++ ·)

def GeneratedUnit.declaredNames (u : GeneratedUnit) (contentTypeUid : Option String) :
    List String :=
  (if contentTypeUid.isSome then entryMembers else []) ++ u.members.flatMap Member.names ++
    if u.bases.contains entryEmbeddable then ["embeddedItems"] else []

namespace Spelling

open Code (line block)

inductive Declaration where
  | constant (name text : String)
  | property (wire : Option String) (type name : String)
  -- A property with a body of its own.
  | computed (wire : Option String) (type name : String) (body : List Code)
  | stored (type name initial : String)

namespace Declaration

def name : Declaration → String
  | .constant name _ => name
  | .property _ _ name => name
  | .computed _ _ name _ => name
  | .stored _ name _ => name

def code : Declaration → List Code
  | .constant name text => [line ("public const string " ++ name ++ " = " ++ quoted text ++ ";")]
  | .property wire type name => wire.toList.map wireName ++ [Spelling.property type name]
  | .computed wire type name body =>
    wire.toList.map wireName ++ [block ("public " ++ type ++ " " ++ name) body]
  | .stored type name initial =>
    [line ("private " ++ type ++ " " ++ name ++ " = " ++ initial ++ ";")]

end Declaration

def memberDeclarations (nullable : Bool) (m : Member) : List Declaration :=
  let wire := if m.needsWireName then some m.wire else none
  let type := typeName m.type
  match m.accessor with
  | .plain => [.property wire (type ++ mark nullable) m.name]
  | .markdown =>
    let store := m.name ++ markdownStoreSuffix
    let html := if m.type.isList then "ToListHtml()" else "ToHtml()"
    [.computed wire type m.name
        [line ("set \x7b this." ++ store ++ " = value; \x7d"),
          line ("get \x7b return this." ++ store ++ "." ++ html ++ "; \x7d")],
      .stored type store (if m.type.isList then "new " ++ type ++ "()" else quoted "")]

def declarations (nullable : Bool) (u : GeneratedUnit) (contentTypeUid : Option String) :
    List Declaration :=
  (match contentTypeUid with
    | some uid =>
      [.constant "ContentType" uid, .property none ("string" ++ mark nullable) "Uid",
        .property (some "_content_type_uid") ("string" ++ mark nullable) "ContentTypeUid"]
    | none => []) ++
    u.members.flatMap (memberDeclarations nullable) ++
    if u.bases.contains entryEmbeddable then
      [.property (some "_embedded_items")
        ("Dictionary<string, List<IEmbeddedObject>>" ++ mark nullable) "embeddedItems"]
    else []

theorem memberDeclarations_code (nullable : Bool) (m : Member) :
    (memberDeclarations nullable m).flatMap Declaration.code = member nullable m := by
  have wire : (if m.needsWireName then some m.wire else none).toList.map wireName =
      if m.needsWireName then [wireName m.wire] else [] := by
    split <;> rfl
  unfold memberDeclarations member
  cases m.accessor with
  | plain => simp [Declaration.code, wire]
  | markdown => cases list : m.type.isList <;> simp [Declaration.code, wire, markdownMember, list]

theorem memberDeclarations_names (nullable : Bool) (m : Member) :
    (memberDeclarations nullable m).map Declaration.name = m.names := by
  unfold memberDeclarations Member.names
  cases m.accessor <;> rfl

theorem declarations_code (nullable : Bool) (u : GeneratedUnit) (contentTypeUid : Option String) :
    model nullable u contentTypeUid =
      file (modelUsings ++ u.imports) u.namespaceName
        [block (classHeader u.name u.bases)
          ((declarations nullable u contentTypeUid).flatMap Declaration.code)] := by
  have fields : (u.members.flatMap (memberDeclarations nullable)).flatMap Declaration.code =
      members nullable u.members := by
    rw [List.flatMap_assoc, members]
    simp only [memberDeclarations_code]
  unfold model declarations
  simp only [List.flatMap_append, fields]
  congr
  · cases contentTypeUid <;> rfl
  · split <;> rfl

theorem declarations_names (nullable : Bool) (u : GeneratedUnit) (contentTypeUid : Option String) :
    (declarations nullable u contentTypeUid).map Declaration.name =
      u.declaredNames contentTypeUid := by
  have fields : (u.members.flatMap (memberDeclarations nullable)).map Declaration.name =
      u.members.flatMap Member.names := by
    rw [List.map_flatMap]
    simp only [memberDeclarations_names]
  unfold declarations GeneratedUnit.declaredNames
  simp only [List.map_append, fields]
  congr
  · cases contentTypeUid <;> rfl
  · split <;> rfl

end Spelling

end ContentModels
