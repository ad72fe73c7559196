import ContentModels.Emission.Outline

set_option autoImplicit false

namespace ContentModels.Emission

open Naming

-- What has been entered in the ledger stays there when something fails later.
abbrev Emitter := ExceptT GenerationFailure (StateM Ledger)

def Emitter.runFrom {α : Type} (act : Emitter α) (l : Ledger) :
    Except GenerationFailure α × Ledger :=
  act.run.run l

def begin (key : Key) : Emitter Bool := do
  let l ← get
  if l.isCompleted key then
    return false
  else if l.inProgress.contains key then
    throw (.recursionCycle key.qualified (l.inProgress.map Key.qualified ++ [key.qualified]))
  else
    set { l with inProgress := l.inProgress ++ [key] }
    return true

def emitModel (c : Context) (o : Outline) (nested : Emitter Unit) : Emitter Unit := do
  let key := o.key c
  if ← begin key then
    modify (·.report (unnamed o.label o.name key.qualified))
    nested
    modify fun l => ((l.report (o.declared c).2).push key (o.unit c)).complete key

def blockSet (c : Context) (scope : Scope) (wrapper : String) (tags : List VariantTag) :
    List GeneratedUnit :=
  let tagEnum := tagEnumName wrapper
  let unit (name : String) (body : UnitBody) : GeneratedUnit :=
    { name := name, namespacePath := c.namespacePath scope, directoryPath := scope, body := body }
  [unit tagEnum (.tagEnum tags),
    { unit wrapper .wrapper with
      members := [⟨blockTypeMember, blockTypeMember, .named tagEnum, .plain⟩] },
    unit (converterName wrapper) (.converter (.keyPresence wrapper tagEnum tags))]

def pushBlockSet (c : Context) (uid : String) (scope : Scope) (wrapper : String)
    (tags : List VariantTag) (l : Ledger) : Ledger :=
  (blockSet c scope wrapper tags).foldl
    (fun l unit => l.pushOnce (c.key uid .blockSet unit.name scope) unit) l

def repeated (subject uid : String) : Diagnostic :=
  ⟨.duplicateVariant, subject, "variant '" ++ uid ++ "' is declared more than once"⟩

def unregistered (wrapper uid globalField : String) : Diagnostic :=
  ⟨.unresolvedReference, wrapper ++ "." ++ uid,
    "global field '" ++ globalField ++ "' is not registered"⟩

def emitGlobalFieldVariant (c : Context) (scope : Scope) (wrapper : String) (variant : Definition)
    (globalField : String) : Emitter Unit :=
  let found := c.registry.lookup globalField
  let missing :=
    if found.isSome then [] else [unregistered wrapper variant.uid globalField]
  emitModel c (Outline.ofGlobalField c scope wrapper variant found) (modify (·.report missing))

structure BlockField where
  -- The field, as diagnostics call it.
  subject : String
  wrapper : String
  -- Where its units are placed.
  scope : Scope

namespace BlockField

def tag (b : BlockField) (names : MemberNames) (variant : Definition) :
    VariantTag × MemberNames × List Diagnostic :=
  let subject := tagEnumName b.wrapper ++ "." ++ variant.uid
  let derived := tagMemberName variant.uid variant.title
  let (member, names) := names.claim derived []
  (⟨variant.uid, member, variantTypeName b.wrapper variant.title variant.uid⟩, names,
    unnamed variant.uid derived subject ++ renamed variant.uid derived member subject)

end BlockField

mutual

def emitFields (c : Context) (scope : Scope) (owner : String) (role : NestedRole) :
    List Field → Emitter Unit
  | [] => pure ()
  | field :: rest => do
    emitField c scope owner role field
    emitFields c scope owner role rest

def emitField (c : Context) (scope : Scope) (owner : String) (role : NestedRole) :
    Field → Emitter Unit
  | ⟨uid, displayName, kind, isMultiple, reference, metadata, nested, variants⟩ =>
    let field : Field :=
      ⟨uid, displayName, kind, isMultiple, reference, metadata, nested, variants⟩
    let scope := nestedScope scope owner role
    match role, kind with
    | .blocks, .blocks => do
      let wrapper := nestedTypeName c.options.prefixes .blocks owner field
      let subject := owner ++ "." ++ uid
      modify (·.report (unnamed field.label wrapper subject))
      let tags ← emitVariants c ⟨subject, wrapper, scope⟩ [] (.reserving []) variants
      modify (pushBlockSet c uid scope wrapper tags)
    | .group, .group =>
      let o := Outline.ofGroup c scope owner field
      emitModel c o do
        emitFields c scope o.name .blocks nested
        emitFields c scope o.name .group nested
    | _, _ => pure ()

def emitVariants (c : Context) (b : BlockField) (seen : List String) (names : MemberNames) :
    List Definition → Emitter (List VariantTag)
  | [] => pure []
  | variant :: rest =>
    if seen.contains variant.uid then do
      modify (·.report [repeated b.subject variant.uid])
      emitVariants c b seen names rest
    else do
      emitVariant c b.scope b.wrapper variant
      let (tag, names, found) := b.tag names variant
      modify (·.report found)
      let tags ← emitVariants c b (variant.uid :: seen) names rest
      return tag :: tags

def emitVariant (c : Context) (scope : Scope) (wrapper : String) : Definition → Emitter Unit
  | ⟨uid, title, fields, referenceTo, origin⟩ =>
    let variant : Definition := ⟨uid, title, fields, referenceTo, origin⟩
    match referenceTo with
    | some globalField => emitGlobalFieldVariant c scope wrapper variant globalField
    | none =>
      let o := Outline.ofVariant c scope wrapper variant
      emitModel c o do
        emitFields c scope o.name .blocks fields
        emitFields c scope o.name .group fields

end

def emitNested (c : Context) (scope : Scope) (owner : String) (fields : List Field) :
    Emitter Unit := do
  emitFields c scope owner .blocks fields
  emitFields c scope owner .group fields

end ContentModels.Emission
