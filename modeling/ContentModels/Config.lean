import ContentModels.Emission.Outline
import ContentModels.Failure
import ContentModels.Toml.Reader

set_option autoImplicit false

namespace ContentModels

inductive ReferenceMode where
  -- By the schema version of the stack.
  | auto
  | list
  | declared
  deriving Repr, DecidableEq

namespace ReferenceMode

def ofName? : String → Option ReferenceMode
  | "auto" => some .auto
  | "list" => some .list
  | "declared" => some .declared
  | _ => none

def policy (mode : ReferenceMode) (version : Option Date) : ReferencePolicy :=
  match mode with
  | .auto => .ofVersion version
  | .list => .alwaysList
  | .declared => .asDeclared

end ReferenceMode

structure ApiSettings where
  host : String := "api.contentstack.io"
  branch : Option String := none
  deriving Repr, DecidableEq

structure OutputSettings where
  path : String := "."
  directory : String := "Models"
  namespaceName : String := "ContentstackModels"
  force : Bool := false
  deriving Repr, DecidableEq

structure FeatureSettings where
  -- Whether types that admit null are marked.
  nullable : Bool := false
  references : ReferenceMode := .auto
  deriving Repr, DecidableEq

structure Config where
  api : ApiSettings := {}
  output : OutputSettings := {}
  naming : Naming.Prefixes := {}
  features : FeatureSettings := {}
  deriving Repr, DecidableEq

structure Section (σ : Type) where
  keys : List String
  put : String → Toml.Value → σ → Except String σ

namespace Section

variable {σ : Type}

def unfit (key : String) : String := "invalid value for '" ++ key ++ "'"

def entry (s : Section σ) (key : String) (value : Toml.Value) (settings : σ) : Except String σ :=
  if key ∈ s.keys then s.put key value settings
  else if value.isInRange then .ok settings
  else .error (unfit key)

-- A section is written as a table, or as an array of the values of its first keys. A date says
-- nothing about it.
def read (s : Section σ) (key : String) (value : Toml.Value) (settings : σ) : Except String σ :=
  match value with
  | .table _ entries =>
    entries.foldlM (fun settings (key, value) => s.entry key value settings) settings
  | .array items _ =>
    (s.keys.zip items).foldlM (fun settings (key, value) => s.put key value settings) settings
  | .moment => .ok settings
  | _ => .error (unfit key)

def text (key : String) : Toml.Value → Except String String
  | .string s => .ok s
  | _ => .error (unfit key)

def flag (key : String) : Toml.Value → Except String Bool
  | .boolean b => .ok b
  | _ => .error (unfit key)

end Section

namespace ReferenceMode

def isHollow : Toml.Value → Bool
  | .array items _ => items.isEmpty
  | .table _ entries => entries.isEmpty
  | _ => false

def read (key : String) : Toml.Value → Except String ReferenceMode
  | .string name => (ofName? name).elim (.error (Section.unfit key)) .ok
  | .table _ [(name, value)] =>
    if isHollow value then (ofName? name).elim (.error (Section.unfit key)) .ok
    else .error (Section.unfit key)
  | _ => .error (Section.unfit key)

end ReferenceMode

namespace Config

def apiSection : Section ApiSettings where
  keys := ["host", "branch"]
  put key value s :=
    match key with
    | "host" => (fun host => { s with host := host }) <$> Section.text key value
    | _ => (fun branch => { s with branch := some branch }) <$> Section.text key value

def outputSection : Section OutputSettings where
  keys := ["path", "directory", "namespace", "force"]
  put key value s :=
    match key with
    | "path" => (fun path => { s with path := path }) <$> Section.text key value
    | "directory" => (fun name => { s with directory := name }) <$> Section.text key value
    | "namespace" => (fun name => { s with namespaceName := name }) <$> Section.text key value
    | _ => (fun force => { s with force := force }) <$> Section.flag key value

def namingSection : Section Naming.Prefixes where
  keys := ["modular_block_prefix", "group_prefix"]
  put key value s :=
    match key with
    | "modular_block_prefix" =>
      (fun text => { s with modularBlock := text }) <$> Section.text key value
    | _ => (fun text => { s with group := text }) <$> Section.text key value

def featureSection : Section FeatureSettings where
  keys := ["nullable", "references"]
  put key value s :=
    match key with
    | "nullable" => (fun nullable => { s with nullable := nullable }) <$> Section.flag key value
    | _ => (fun mode => { s with references := mode }) <$> ReferenceMode.read key value

def sections : Section Config where
  keys := ["api", "output", "naming", "features"]
  put key value c :=
    match key with
    | "api" => (fun api => { c with api := api }) <$> apiSection.read key value c.api
    | "output" =>
      (fun output => { c with output := output }) <$> outputSection.read key value c.output
    | "naming" =>
      (fun naming => { c with naming := naming }) <$> namingSection.read key value c.naming
    | _ =>
      (fun features => { c with features := features }) <$>
        featureSection.read key value c.features

def ofText (path text : String) : Except ConfigFailure Config :=
  match Toml.read text with
  | none => .error (.invalidToml path "the text is not a TOML document")
  | some root =>
    match sections.read "" (.table .defined root) {} with
    | .ok config => .ok config
    | .error message => .error (.invalidToml path message)

structure Overrides where
  host : Option String := none
  branch : Option String := none
  path : Option String := none
  namespaceName : Option String := none
  force : Option Bool := none
  modularBlockPrefix : Option String := none
  groupPrefix : Option String := none
  nullable : Option Bool := none
  references : Option ReferenceMode := none
  deriving Repr, DecidableEq

def override (c : Config) (o : Overrides) : Config where
  api := {
    host := o.host.getD c.api.host
    branch := o.branch <|> c.api.branch }
  output := {
    path := o.path.getD c.output.path
    directory := c.output.directory
    namespaceName := o.namespaceName.getD c.output.namespaceName
    force := o.force.getD c.output.force }
  naming := {
    modularBlock := o.modularBlockPrefix.getD c.naming.modularBlock
    group := o.groupPrefix.getD c.naming.group }
  features := {
    nullable := o.nullable.getD c.features.nullable
    references := o.references.getD c.features.references }

def isLetterOrLine (c : Char) : Bool := c.isAlpha || c = '_'

def isIdentifier (s : String) : Bool :=
  match s.toList with
  | [] => false
  | c :: rest => isLetterOrLine c && rest.all fun c => isLetterOrLine c || c.isDigit

def isDottedIdentifier (s : String) : Bool := (s.splitOn ".").all isIdentifier

def checkPrefix (key text : String) : Except ConfigFailure Unit :=
  if isIdentifier text then .ok ()
  else
    .error (.invalidValue key
      ("'" ++ text ++
        "' must start with a letter or '_' and contain only letters, digits and '_'"))

def validate (c : Config) : Except ConfigFailure Unit := do
  if !isDottedIdentifier c.output.namespaceName then
    throw (.invalidValue "output.namespace"
      ("'" ++ c.output.namespaceName ++ "' is not a dotted identifier"))
  if !isIdentifier c.output.directory then
    throw (.invalidValue "output.directory"
      ("'" ++ c.output.directory ++ "' must be a single identifier"))
  checkPrefix "naming.modular_block_prefix" c.naming.modularBlock
  checkPrefix "naming.group_prefix" c.naming.group
  if Text.isBlankText c.api.host then
    throw (.invalidValue "api.host" "must not be empty")

def outputRoot (c : Config) : String := c.output.path

def emissionOptions (c : Config) (policy : ReferencePolicy) : Emission.Options where
  namespaceName := c.output.namespaceName
  directory := c.output.directory
  prefixes := c.naming
  policy := policy
  supportUnits := true

def standardPath : String := "modelgen.toml"

def standardText : String :=
  "\n".intercalate [
    "# contentstack-modelgen configuration file",
    "",
    "[api]",
    "# Content Management API host (e.g. eu-api.contentstack.com for the EU region)",
    "host = \"api.contentstack.io\"",
    "",
    "# Stack branch to read schemas from",
    "# branch = \"main\"",
    "",
    "[output]",
    "# Directory the model directory is created in",
    "path = \".\"",
    "",
    "# Name of the model directory, also the namespace segment after the root namespace",
    "directory = \"Models\"",
    "",
    "# Root namespace of generated classes",
    "namespace = \"ContentstackModels\"",
    "",
    "# Overwrite existing files without asking",
    "force = false",
    "",
    "[naming]",
    "# Prefix of modular block types (MB<Owner><Field>)",
    "modular_block_prefix = \"MB\"",
    "",
    "# Prefix of group types (Group<Owner><Field>)",
    "group_prefix = \"Group\"",
    "",
    "[features]",
    "# Emit nullable reference annotations (string?)",
    "nullable = false",
    "",
    "# How reference fields are typed:",
    "#   auto     - lists for stacks on schema version 2019-04-04 or later",
    "#   list     - always lists",
    "#   declared - lists only for multiple references",
    "references = \"auto\"",
    ""]

end Config

end ContentModels
