import ContentModels.Naming
import ContentModels.Registry
import ContentModels.Unit

set_option autoImplicit false

namespace ContentModels

open Naming

def linkType : String := "ContentstackLink"

def helperType : String := "ContentstackHelper"

def stringExtensionType : String := "ContentstackStringExtension"

def displayNameAttribute : String := "DisplayNameAttribute"

def embeddedObjectConverter : String := "IEmbeddedObjectConverter"

def linkMembers : List Member := [⟨"Title", "title", .string, .plain⟩, ⟨"Href", "href", .string, .plain⟩]

def contentTypeArms (registry : Registry) : List (String × String) :=
  registry.contentTypes.map fun d => (d.uid, definitionName d.title d.uid)

def supportUnits (registry : Registry) (namespacePath directoryPath : List String) :
    List GeneratedUnit :=
  let unit (name : String) (body : UnitBody) : GeneratedUnit :=
    { name := name, namespacePath := namespacePath, directoryPath := directoryPath, body := body }
  [{ unit linkType .link with members := linkMembers },
    unit helperType (.helper .helper),
    unit stringExtensionType (.helper .stringExtension),
    unit displayNameAttribute (.helper .displayNameAttribute),
    unit embeddedObjectConverter (.converter (.contentTypeUid (contentTypeArms registry)))]

end ContentModels
