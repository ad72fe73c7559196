import ContentModels.Proofs.Code.Tree
import ContentModels.Spelling

set_option autoImplicit false

namespace ContentModels.Spelling

open Code (line blank block calls callsOf callsOf_eq callsOf_append)

def usings (namespaces : List String) : List Code :=
  namespaces.map fun name => line ("using " ++ name ++ ";")

def property (type name : String) : Code := line (propertyText type name)

def wireName (name : String) : Code := line (wireNameText name)

def file (used : List String) (namespaceName : String) (body : List Code) : List Code :=
  usings used ++ [blank, block ("namespace " ++ namespaceName) body]

def markdownMember (m : Member) : List Code :=
  let type := typeName m.type
  let store := m.name ++ markdownStoreSuffix
  let (html, initial) :=
    if m.type.isList then ("ToListHtml()", "new " ++ type ++ "()") else ("ToHtml()", quoted "")
  [block ("public " ++ type ++ " " ++ m.name)
      [line ("set \x7b this." ++ store ++ " = value; \x7d"),
        line ("get \x7b return this." ++ store ++ "." ++ html ++ "; \x7d")],
    line ("private " ++ type ++ " " ++ store ++ " = " ++ initial ++ ";")]

def member (nullable : Bool) (m : Member) : List Code :=
  (if m.needsWireName then [wireName m.wire] else []) ++
    match m.accessor with
    | .plain => [property (typeName m.type ++ mark nullable) m.name]
    | .markdown => markdownMember m

def members (nullable : Bool) (ms : List Member) : List Code := ms.flatMap (member nullable)

def entryPart (nullable : Bool) (contentTypeUid : String) : List Code :=
  [line ("public const string ContentType = " ++ quoted contentTypeUid ++ ";"),
    property ("string" ++ mark nullable) "Uid",
    wireName "_content_type_uid",
    property ("string" ++ mark nullable) "ContentTypeUid"]

def embeddedItems (nullable : Bool) : List Code :=
  [wireName "_embedded_items",
    property ("Dictionary<string, List<IEmbeddedObject>>" ++ mark nullable) "embeddedItems"]

def model (nullable : Bool) (u : GeneratedUnit) (contentTypeUid : Option String) : List Code :=
  file (modelUsings ++ u.imports) u.namespaceName
    [block (classHeader u.name u.bases)
      ((match contentTypeUid with
        | some uid => entryPart nullable uid
        | none => []) ++
        members nullable u.members ++
        if u.bases.contains entryEmbeddable then embeddedItems nullable else [])]

def wrapper (u : GeneratedUnit) : List Code :=
  [block ("namespace " ++ u.namespaceName)
    [block (classHeader u.name u.bases)
      (u.members.map fun m => property (typeName m.type) m.name)]]

def enumMembers : List VariantTag → List Code
  | [] => []
  | tag :: rest =>
    [line ("[DisplayName(displayName: " ++ quoted tag.uid ++ ")]"),
      line (tag.member ++ if rest.isEmpty then "" else ",")] ++ enumMembers rest

def tagEnum (u : GeneratedUnit) (tags : List VariantTag) : List Code :=
  file ["System.ComponentModel"] u.namespaceName
    [block ("public enum " ++ u.name) (enumMembers tags)]

def writeMethod (nullable : Bool) (type : String) : Code :=
  block (writeHeader nullable type)
    [block "if (value != null)"
      [line "JToken t = JToken.FromObject(value);", line "t.WriteTo(writer);"]]

def converter (u : GeneratedUnit) (type : String) (body : List Code) : List Code :=
  [line (converterText u.name), block (converterHeader u.name type) body]

def blockArm (tagEnum : String) (arm : VariantTag) : Code :=
  let tag := tagEnum ++ "." ++ arm.member
  block
    ("if (ContentstackHelper.FieldExists(ContentstackHelper.GetDescription(" ++ tag ++
      "), jObject))")
    [line (arm.variantType ++ " block = new " ++ arm.variantType ++ "();"),
      line ("block.BlockType = " ++ tag ++ ";"),
      line "return block;"]

def blockConverter (nullable : Bool) (u : GeneratedUnit) (wrapper tagEnum : String)
    (arms : List VariantTag) : List Code :=
  file converterUsings u.namespaceName
    (converter u wrapper
      [block ("protected " ++ wrapper ++ " Create(Type objectType, JObject jObject)")
          (arms.map (blockArm tagEnum) ++ [line ("return new " ++ wrapper ++ "();")]),
        blank,
        block (readHeader nullable wrapper)
          [line "JObject jObject = JObject.Load(reader);",
            line (wrapper ++ " target = Create(objectType, jObject);"),
            line "var token = jObject.GetValue(ContentstackHelper.GetDescription(target.BlockType));",
            block "if (token != null)" [line "serializer.Populate(token.CreateReader(), target);"],
            line "return target;"],
        blank,
        writeMethod nullable wrapper])

def embeddedArm (nullable : Bool) (keyword : String) (arm : String × String) : Code :=
  block (keyword ++ " (contentTypeUid == " ++ quoted arm.1 ++ ")")
    [line (arm.2 ++ mark nullable ++ " item = obj.ToObject<" ++ arm.2 ++ ">();"),
      block "if (item != null)" [line "target.Add(item);"]]

def embeddedArms (nullable : Bool) : List (String × String) → List Code
  | [] => []
  | arm :: rest => embeddedArm nullable "if" arm :: rest.map (embeddedArm nullable "else if")

def embeddedConverter (nullable : Bool) (u : GeneratedUnit) (arms : List (String × String)) :
    List Code :=
  let type := "List<IEmbeddedObject>"
  let string := "string" ++ mark nullable
  file embeddedConverterUsings u.namespaceName
    (converter u type
      [block ("protected " ++ type ++ " Create(Type objectType, JArray jArray)")
          [line ("return new " ++ type ++ "();")],
        blank,
        block (readHeader nullable type)
          [line "JArray jArray = JArray.Load(reader);",
            line (type ++ " target = Create(objectType, jArray);"),
            block "foreach (JObject obj in jArray)"
              (line (string ++ " contentTypeUid = (" ++ string ++ ")obj.GetValue(" ++
                  quoted "_content_type_uid" ++ ");") ::
                embeddedArms nullable (arms ++ [assetArm])),
            line "return target;"],
        blank,
        writeMethod nullable type])

def link (nullable : Bool) (u : GeneratedUnit) : List Code :=
  file modelUsings u.namespaceName
    [block ("public partial class " ++ linkType) (members nullable u.members)]

def helperClass : Code :=
  block ("public partial class " ++ helperType)
    [block "public static string GetDescription(Enum en)"
        [line "Type type = en.GetType();",
          line "MemberInfo[] memInfo = type.GetMember(en.ToString());",
          block "if (memInfo != null && memInfo.Length > 0)"
            [line ("object[] attrs = memInfo[0].GetCustomAttributes(typeof(" ++
                displayNameAttribute ++ "), false);"),
              block "if (attrs != null && attrs.Length > 0)"
                [line ("return ((" ++ displayNameAttribute ++ ")attrs[0]).DisplayName;")]],
          line "return en.ToString();"],
      blank,
      block "public static bool FieldExists(string fieldName, JObject jObject)"
        [line "return jObject[fieldName] != null;"]]

def stringExtensionClass : Code :=
  block ("public static class " ++ stringExtensionType)
    [block "public static string ToHtml(this String str)"
        [block "if (str != null)"
            [line "var pipeline = new MarkdownPipelineBuilder().UseAdvancedExtensions().Build();",
              line "return Markdown.ToHtml(str, pipeline);"],
          line "return string.Empty;"],
      blank,
      block "public static List<string> ToListHtml(this List<string> str)"
        [line "List<string> result = new List<string>();",
          block "foreach (var value in str)" [line "result.Add(value.ToHtml());"],
          line "return result;"]]

def displayNameClass : List Code :=
  [line "[AttributeUsage(AttributeTargets.Field)]",
    block ("public partial class " ++ displayNameAttribute ++ " : Attribute")
      [line "private string displayName;",
        block "public string DisplayName" [line "get \x7b return displayName; \x7d"],
        blank,
        block ("public " ++ displayNameAttribute ++ "(string displayName)")
          [line "this.displayName = displayName;"]]]

def helper (u : GeneratedUnit) : HelperKind → List Code
  | .helper =>
    file (modelUsings ++ ["System.ComponentModel", "System.Reflection"]) u.namespaceName
      [helperClass]
  | .stringExtension => file ("Markdig" :: modelUsings) u.namespaceName [stringExtensionClass]
  | .displayNameAttribute => file ["System"] u.namespaceName displayNameClass

def code (nullable : Bool) (u : GeneratedUnit) : List Code :=
  match u.body with
  | .model contentTypeUid => model nullable u contentTypeUid
  | .wrapper => wrapper u
  | .tagEnum tags => tagEnum u tags
  | .converter (.keyPresence wrapper tagEnum arms) => blockConverter nullable u wrapper tagEnum arms
  | .converter (.contentTypeUid arms) => embeddedConverter nullable u arms
  | .link => link nullable u
  | .helper kind => helper u kind

section calls

variable (nullable : Bool)

@[simp] theorem usings_calls (names : List String) :
    callsOf (usings names) = LineBuffer.usings names := by
  induction names with
  | nil => rfl
  | cons name names ih => exact congrArg (_ :: ·) ih

theorem usings_append (first second : List String) :
    LineBuffer.usings (first ++ second) = LineBuffer.usings first ++ LineBuffer.usings second :=
  List.map_append

@[simp] theorem property_calls (type name : String) :
    (property type name).calls = [.line (propertyText type name)] := rfl

@[simp] theorem wireName_calls (name : String) :
    (wireName name).calls = [.line (wireNameText name)] := rfl

theorem renderProperty_eq (m : Member) :
    renderProperty nullable m = callsOf (member nullable m) := by
  unfold renderProperty member
  cases m.accessor <;> split <;> simp [markdownMember]

theorem renderProperties_eq (ms : List Member) :
    ms.flatMap (renderProperty nullable) = callsOf (members nullable ms) := by
  rw [members, callsOf_eq, List.flatMap_assoc]
  exact List.flatMap_congr fun m _ => by rw [renderProperty_eq, callsOf_eq]

theorem renderWriteJson_eq (type : String) :
    renderWriteJson nullable type = (writeMethod nullable type).calls := by
  simp [renderWriteJson, writeMethod]

theorem renderTags_eq (tags : List VariantTag) (start count : Nat)
    (counted : count = start + tags.length) :
    (tags.zipIdx start).flatMap (renderTag count) = callsOf (enumMembers tags) := by
  induction tags generalizing start with
  | nil => rfl
  | cons tag tags ih =>
    have rest := ih (start + 1) (by simp at counted; omega)
    have last : (start + 1 < count) ↔ ¬ tags.isEmpty := by
      cases tags <;> simp at counted ⊢ <;> omega
    simp [enumMembers, renderTag, rest, last]

theorem renderBlockArms_eq (tagEnum : String) (arms : List VariantTag) :
    arms.flatMap (renderBlockArm tagEnum) = callsOf (arms.map (blockArm tagEnum)) := by
  rw [callsOf_eq, List.flatMap_map]
  exact List.flatMap_congr fun arm _ => by simp [renderBlockArm, blockArm]

theorem renderEmbeddedArms_eq (arms : List (String × String)) :
    arms.zipIdx.flatMap (renderEmbeddedArm nullable) = callsOf (embeddedArms nullable arms) := by
  have later (rest : List (String × String)) (start : Nat) (after : start ≠ 0) :
      (rest.zipIdx start).flatMap (renderEmbeddedArm nullable) =
        callsOf (rest.map (embeddedArm nullable "else if")) := by
    induction rest generalizing start with
    | nil => rfl
    | cons arm rest ih =>
      simp [renderEmbeddedArm, embeddedArm, after, ih (start + 1) (by omega)]
  cases arms with
  | nil => rfl
  | cons arm rest => simp [embeddedArms, renderEmbeddedArm, embeddedArm, later rest 1 (by omega)]

variable (u : GeneratedUnit)

theorem renderModel_eq (contentTypeUid : Option String) :
    renderModel nullable u contentTypeUid = callsOf (model nullable u contentTypeUid) := by
  by_cases embeds : entryEmbeddable ∈ u.bases <;> cases contentTypeUid <;>
    simp [renderModel, model, embeds, file, namespaceHeader, entryPart, embeddedItems,
      usings_append, renderProperties_eq]

theorem renderWrapper_eq : renderWrapper u = callsOf (wrapper u) := by
  have rows : u.members.map (fun m => LineBuffer.Call.line (propertyText (typeName m.type) m.name)) =
      callsOf (u.members.map fun m => property (typeName m.type) m.name) := by
    induction u.members with
    | nil => rfl
    | cons m ms ih => simp [ih]
  simp [renderWrapper, wrapper, namespaceHeader, rows]

theorem renderTagEnum_eq (tags : List VariantTag) :
    renderTagEnum u tags = callsOf (tagEnum u tags) := by
  simp [renderTagEnum, tagEnum, file, namespaceHeader, renderTags_eq tags 0 tags.length]

theorem renderBlockConverter_eq (wrapper tagEnum : String) (arms : List VariantTag) :
    renderBlockConverter nullable u wrapper tagEnum arms =
      callsOf (blockConverter nullable u wrapper tagEnum arms) := by
  simp [renderBlockConverter, blockConverter, file, converter, namespaceHeader, renderBlockArms_eq,
    renderWriteJson_eq]

theorem renderEmbeddedConverter_eq (arms : List (String × String)) :
    renderEmbeddedConverter nullable u arms = callsOf (embeddedConverter nullable u arms) := by
  unfold renderEmbeddedConverter embeddedConverter
  rw [renderEmbeddedArms_eq]
  simp [file, converter, namespaceHeader, renderWriteJson_eq]

theorem renderLink_eq : renderLink nullable u = callsOf (link nullable u) := by
  simp [renderLink, link, file, namespaceHeader, renderProperties_eq]

theorem renderHelper_eq (kind : HelperKind) : renderHelper u kind = callsOf (helper u kind) := by
  cases kind with
  | helper => simp [renderHelper, helper, helperClass, file, namespaceHeader, usings_append]
  | stringExtension =>
    simp [renderHelper, helper, stringExtensionClass, file, namespaceHeader, LineBuffer.usings]
  | displayNameAttribute =>
    simp [renderHelper, helper, displayNameClass, file, namespaceHeader]

theorem render_eq : render nullable u = callsOf (code nullable u) := by
  unfold render code
  cases u.body with
  | model contentTypeUid => exact renderModel_eq nullable u contentTypeUid
  | wrapper => exact renderWrapper_eq u
  | tagEnum tags => exact renderTagEnum_eq u tags
  | converter dispatch =>
    cases dispatch with
    | keyPresence wrapper tagEnum arms => exact renderBlockConverter_eq nullable u wrapper tagEnum arms
    | contentTypeUid arms => exact renderEmbeddedConverter_eq nullable u arms
  | link => exact renderLink_eq nullable u
  | helper kind => exact renderHelper_eq u kind

theorem text_eq : text nullable u = Code.text (code nullable u) := by
  rw [text, render_eq, Code.print_callsOf]

theorem render_paired : LineBuffer.new.Paired (render nullable u) := by
  rw [render_eq]
  exact Code.paired_callsOf (code nullable u) LineBuffer.new

end calls

end ContentModels.Spelling
