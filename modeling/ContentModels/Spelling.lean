import ContentModels.LineBuffer
import ContentModels.SupportUnits

set_option autoImplicit false

namespace ContentModels.Spelling

open LineBuffer (Call usings print)
open LineBuffer.Call (line blank openBlock close)

def typeName : TypeRef → String
  | .string => "string"
  | .double => "double"
  | .dateTime => "DateTime"
  | .asset => "Asset"
  | .bool => "bool"
  | .richTextNode => "Node"
  | .dynamic => "dynamic"
  | .link => linkType
  | .named name => name
  | .opaqueObject => "object"
  | .list item => "List<" ++ typeName item ++ ">"

def modelUsings : List String :=
  ["System", "System.Collections.Generic", "System.Linq", "System.Text", "System.Threading.Tasks",
    "Contentstack.Core.Models", "Contentstack.Utils.Models", "Contentstack.Utils.Interfaces",
    "Newtonsoft.Json", "Newtonsoft.Json.Converters", "Newtonsoft.Json.Linq"]

def converterUsings : List String :=
  ["System", "Newtonsoft.Json", "System.Reflection", "Newtonsoft.Json.Linq",
    "System.ComponentModel", "Contentstack.Core"]

def embeddedConverterUsings : List String :=
  ["System", "Newtonsoft.Json", "Contentstack.Core", "Newtonsoft.Json.Linq",
    "Contentstack.Core.Models", "System.Collections.Generic", "Contentstack.Utils.Interfaces"]

def quoted (text : String) : String := "\"" ++ text ++ "\""

def mark (nullable : Bool) : String := if nullable then "?" else ""

def propertyText (type name : String) : String :=
  "public " ++ type ++ " " ++ name ++ " \x7b get; set; \x7d"

def wireNameText (name : String) : String :=
  "[JsonProperty(propertyName: " ++ quoted name ++ ")]"

def classHeader (name : String) (bases : List String) : String :=
  "public partial class " ++ name ++
    if bases.isEmpty then "" else " : " ++ ", ".intercalate bases

def namespaceHeader (u : GeneratedUnit) : String := "namespace " ++ u.namespaceName

def converterHeader (name type : String) : String :=
  "public partial class " ++ name ++ " : JsonConverter<" ++ type ++ ">"

def converterText (name : String) : String := "[CSJsonConverter(" ++ quoted name ++ ")]"

def readHeader (nullable : Bool) (type : String) : String :=
  "public override " ++ type ++ mark nullable ++
    " ReadJson(JsonReader reader, Type objectType, " ++ type ++ mark nullable ++
    " existingValue, bool hasExistingValue, JsonSerializer serializer)"

def writeHeader (nullable : Bool) (type : String) : String :=
  "public override void WriteJson(JsonWriter writer, " ++ type ++ mark nullable ++
    " value, JsonSerializer serializer)"

def renderProperty (nullable : Bool) (m : Member) : List Call :=
  let type := typeName m.type
  (if m.needsWireName then [line (wireNameText m.wire)] else []) ++
    match m.accessor with
    | .plain => [line (propertyText (type ++ mark nullable) m.name)]
    | .markdown =>
      let store := m.name ++ markdownStoreSuffix
      let (html, initial) :=
        if m.type.isList then ("ToListHtml()", "new " ++ type ++ "()") else ("ToHtml()", quoted "")
      [openBlock ("public " ++ type ++ " " ++ m.name),
        line ("set \x7b this." ++ store ++ " = value; \x7d"),
        line ("get \x7b return this." ++ store ++ "." ++ html ++ "; \x7d"),
        close,
        line ("private " ++ type ++ " " ++ store ++ " = " ++ initial ++ ";")]

def renderModel (nullable : Bool) (u : GeneratedUnit) (contentTypeUid : Option String) :
    List Call :=
  usings modelUsings ++ usings u.imports ++
    [blank, openBlock (namespaceHeader u), openBlock (classHeader u.name u.bases)] ++
    (match contentTypeUid with
      | some uid =>
        [line ("public const string ContentType = " ++ quoted uid ++ ";"),
          line (propertyText ("string" ++ mark nullable) "Uid"),
          line (wireNameText "_content_type_uid"),
          line (propertyText ("string" ++ mark nullable) "ContentTypeUid")]
      | none => []) ++
    u.members.flatMap (renderProperty nullable) ++
    (if u.bases.contains entryEmbeddable then
      [line (wireNameText "_embedded_items"),
        line (propertyText ("Dictionary<string, List<IEmbeddedObject>>" ++ mark nullable)
          "embeddedItems")]
      else []) ++
    [close, close]

def renderWrapper (u : GeneratedUnit) : List Call :=
  [openBlock (namespaceHeader u), openBlock (classHeader u.name u.bases)] ++
    u.members.map (fun m => line (propertyText (typeName m.type) m.name)) ++
    [close, close]

def renderTag (count : Nat) (tag : VariantTag × Nat) : List Call :=
  [line ("[DisplayName(displayName: " ++ quoted tag.1.uid ++ ")]"),
    line (tag.1.member ++ if tag.2 + 1 < count then "," else "")]

def renderTagEnum (u : GeneratedUnit) (tags : List VariantTag) : List Call :=
  usings ["System.ComponentModel"] ++
    [blank, openBlock (namespaceHeader u), openBlock ("public enum " ++ u.name)] ++
    tags.zipIdx.flatMap (renderTag tags.length) ++
    [close, close]

def renderWriteJson (nullable : Bool) (type : String) : List Call :=
  [openBlock (writeHeader nullable type),
    openBlock "if (value != null)",
    line "JToken t = JToken.FromObject(value);",
    line "t.WriteTo(writer);",
    close, close]

def renderBlockArm (tagEnum : String) (arm : VariantTag) : List Call :=
  let tag := tagEnum ++ "." ++ arm.member
  [openBlock ("if (ContentstackHelper.FieldExists(ContentstackHelper.GetDescription(" ++ tag ++
      "), jObject))"),
    line (arm.variantType ++ " block = new " ++ arm.variantType ++ "();"),
    line ("block.BlockType = " ++ tag ++ ";"),
    line "return block;",
    close]

def renderBlockConverter (nullable : Bool) (u : GeneratedUnit) (wrapper tagEnum : String)
    (arms : List VariantTag) : List Call :=
  usings converterUsings ++
    [blank, openBlock (namespaceHeader u), line (converterText u.name),
      openBlock (converterHeader u.name wrapper),
      openBlock ("protected " ++ wrapper ++ " Create(Type objectType, JObject jObject)")] ++
    arms.flatMap (renderBlockArm tagEnum) ++
    [line ("return new " ++ wrapper ++ "();"),
      close, blank,
      openBlock (readHeader nullable wrapper),
      line "JObject jObject = JObject.Load(reader);",
      line (wrapper ++ " target = Create(objectType, jObject);"),
      line "var token = jObject.GetValue(ContentstackHelper.GetDescription(target.BlockType));",
      openBlock "if (token != null)",
      line "serializer.Populate(token.CreateReader(), target);",
      close,
      line "return target;",
      close, blank] ++
    renderWriteJson nullable wrapper ++
    [close, close]

-- Assets are embedded like entries, under a uid that no content type has.
def assetArm : String × String := ("sys_assets", "Asset")

def renderEmbeddedArm (nullable : Bool) (arm : (String × String) × Nat) : List Call :=
  let keyword := if arm.2 = 0 then "if" else "else if"
  [openBlock (keyword ++ " (contentTypeUid == " ++ quoted arm.1.1 ++ ")"),
    line (arm.1.2 ++ mark nullable ++ " item = obj.ToObject<" ++ arm.1.2 ++ ">();"),
    openBlock "if (item != null)",
    line "target.Add(item);",
    close, close]

def renderEmbeddedConverter (nullable : Bool) (u : GeneratedUnit) (arms : List (String × String)) :
    List Call :=
  let type := "List<IEmbeddedObject>"
  let string := "string" ++ mark nullable
  usings embeddedConverterUsings ++
    [blank, openBlock (namespaceHeader u), line (converterText u.name),
      openBlock (converterHeader u.name type),
      openBlock ("protected " ++ type ++ " Create(Type objectType, JArray jArray)"),
      line ("return new " ++ type ++ "();"),
      close, blank,
      openBlock (readHeader nullable type),
      line "JArray jArray = JArray.Load(reader);",
      line (type ++ " target = Create(objectType, jArray);"),
      openBlock "foreach (JObject obj in jArray)",
      line (string ++ " contentTypeUid = (" ++ string ++ ")obj.GetValue(" ++
        quoted "_content_type_uid" ++ ");")] ++
    (arms ++ [assetArm]).zipIdx.flatMap (renderEmbeddedArm nullable) ++
    [close,
      line "return target;",
      close, blank] ++
    renderWriteJson nullable type ++
    [close, close]

def renderLink (nullable : Bool) (u : GeneratedUnit) : List Call :=
  usings modelUsings ++
    [blank, openBlock (namespaceHeader u), openBlock ("public partial class " ++ linkType)] ++
    u.members.flatMap (renderProperty nullable) ++
    [close, close]

def renderHelper (u : GeneratedUnit) (kind : HelperKind) : List Call :=
  (match kind with
    | .helper =>
      usings modelUsings ++ usings ["System.ComponentModel", "System.Reflection"] ++
        [blank, openBlock (namespaceHeader u), openBlock ("public partial class " ++ helperType),
          openBlock "public static string GetDescription(Enum en)",
          line "Type type = en.GetType();",
          line "MemberInfo[] memInfo = type.GetMember(en.ToString());",
          openBlock "if (memInfo != null && memInfo.Length > 0)",
          line ("object[] attrs = memInfo[0].GetCustomAttributes(typeof(" ++
            displayNameAttribute ++ "), false);"),
          openBlock "if (attrs != null && attrs.Length > 0)",
          line ("return ((" ++ displayNameAttribute ++ ")attrs[0]).DisplayName;"),
          close, close,
          line "return en.ToString();",
          close, blank,
          openBlock "public static bool FieldExists(string fieldName, JObject jObject)",
          line "return jObject[fieldName] != null;",
          close]
    | .stringExtension =>
      usings ["Markdig"] ++ usings modelUsings ++
        [blank, openBlock (namespaceHeader u),
          openBlock ("public static class " ++ stringExtensionType),
          openBlock "public static string ToHtml(this String str)",
          openBlock "if (str != null)",
          line "var pipeline = new MarkdownPipelineBuilder().UseAdvancedExtensions().Build();",
          line "return Markdown.ToHtml(str, pipeline);",
          close,
          line "return string.Empty;",
          close, blank,
          openBlock "public static List<string> ToListHtml(this List<string> str)",
          line "List<string> result = new List<string>();",
          openBlock "foreach (var value in str)",
          line "result.Add(value.ToHtml());",
          close,
          line "return result;",
          close]
    | .displayNameAttribute =>
      usings ["System"] ++
        [blank, openBlock (namespaceHeader u),
          line "[AttributeUsage(AttributeTargets.Field)]",
          openBlock ("public partial class " ++ displayNameAttribute ++ " : Attribute"),
          line "private string displayName;",
          openBlock "public string DisplayName",
          line "get \x7b return displayName; \x7d",
          close, blank,
          openBlock ("public " ++ displayNameAttribute ++ "(string displayName)"),
          line "this.displayName = displayName;",
          close]) ++
    [close, close]

def render (nullable : Bool) (u : GeneratedUnit) : List Call :=
  match u.body with
  | .model contentTypeUid => renderModel nullable u contentTypeUid
  | .wrapper => renderWrapper u
  | .tagEnum tags => renderTagEnum u tags
  | .converter (.keyPresence wrapper tagEnum arms) =>
    renderBlockConverter nullable u wrapper tagEnum arms
  | .converter (.contentTypeUid arms) => renderEmbeddedConverter nullable u arms
  | .link => renderLink nullable u
  | .helper kind => renderHelper u kind

def text (nullable : Bool) (u : GeneratedUnit) : String := print (render nullable u)

end ContentModels.Spelling
