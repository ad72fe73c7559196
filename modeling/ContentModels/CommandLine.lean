import ContentModels.Config
import ContentModels.Program

set_option autoImplicit false

namespace ContentModels.CommandLine

inductive Stop where
  | help
  | version
  | misuse (message : String)
  deriving Repr, DecidableEq

inductive Effect (σ : Type) where
  | flag (set : σ → σ)
  -- A switch with a value, which may be refused.
  | value (set : String → σ → Option σ)

structure Switch (σ : Type) where
  long : String
  short : Option Char := none
  effect : Effect σ
  -- Whether it may be given more than once.
  isRepeatable : Bool := false

section Switches

variable {σ : Type}

structure Progress (σ : Type) where
  arguments : σ
  given : List String := []

def isSpent (p : Progress σ) (s : Switch σ) : Bool := !s.isRepeatable && p.given.contains s.long

def spent (s : Switch σ) : Stop := .misuse ("the argument '--" ++ s.long ++ "' cannot be used multiple times")

def unexpected (argument : String) : Stop := .misuse ("unexpected argument '" ++ argument ++ "' found")

def setFlag (p : Progress σ) (s : Switch σ) (set : σ → σ) : Except Stop (Progress σ) :=
  if isSpent p s then .error (spent s) else .ok ⟨set p.arguments, s.long :: p.given⟩

def setValue (p : Progress σ) (s : Switch σ) (set : String → σ → Option σ) (value : String) :
    Except Stop (Progress σ) :=
  if isSpent p s then .error (spent s)
  else
    match set value p.arguments with
    | some arguments => .ok ⟨arguments, s.long :: p.given⟩
    | none => .error (.misuse ("invalid value '" ++ value ++ "' for '--" ++ s.long ++ "'"))

def looksLikeSwitch (argument : String) : Bool := argument.startsWith "-" && argument ≠ "-"

abbrev Waiting (σ : Type) := Option (Switch σ × (String → σ → Option σ))

-- Reads the letters of one argument. A letter whose switch takes a value takes the rest of the
-- argument, after an equals sign if there is one.
def takeLetters (switches : List (Switch σ)) (p : Progress σ) :
    List Char → Except Stop (Progress σ × Waiting σ)
  | [] => .ok (p, none)
  | c :: rest =>
    if c = 'h' then .error .help
    else
      match switches.find? (·.short = some c) with
      | none => .error (unexpected ("-" ++ String.ofList [c]))
      | some s =>
        match s.effect with
        | .flag set => do
          let p ← setFlag p s set
          takeLetters switches p rest
        | .value set =>
          match rest with
          | [] => .ok (p, some (s, set))
          | '=' :: value => (·, none) <$> setValue p s set (String.ofList value)
          | value => (·, none) <$> setValue p s set (String.ofList value)

def splitLong (argument : List Char) : String × Option String :=
  let (name, rest) := argument.span (· ≠ '=')
  (String.ofList name, if rest.isEmpty then none else some (String.ofList (rest.drop 1)))

def takeLong (switches : List (Switch σ)) (p : Progress σ) (argument : List Char) :
    Except Stop (Progress σ × Waiting σ) :=
  let (name, attached) := splitLong argument
  if name = "help" then
    .error (if attached.isSome then unexpected "--help" else .help)
  else
    match switches.find? (·.long = name) with
    | none => .error (unexpected ("--" ++ name))
    | some s =>
      match s.effect, attached with
      | .flag set, none => (·, none) <$> setFlag p s set
      | .flag _, some _ => .error (unexpected ("--" ++ name))
      | .value set, some value => (·, none) <$> setValue p s set value
      | .value set, none => .ok (p, some (s, set))

def takeArgument (switches : List (Switch σ)) (p : Progress σ) (argument : String) :
    Except Stop (Progress σ × Waiting σ) :=
  match argument.toList with
  | '-' :: '-' :: rest => takeLong switches p rest
  | '-' :: c :: rest => takeLetters switches p (c :: rest)
  | _ => .error (unexpected argument)

def takeSwitches (switches : List (Switch σ)) (p : Progress σ) : List String → Except Stop σ
  | [] => .ok p.arguments
  | ["--"] => .ok p.arguments
  | "--" :: argument :: _ => .error (unexpected argument)
  | argument :: rest => do
    match ← takeArgument switches p argument with
    | (p, none) => takeSwitches switches p rest
    | (p, some (s, set)) =>
      match rest with
      | [] => .error (.misuse ("a value is required for '--" ++ s.long ++ "'"))
      | value :: rest =>
        if looksLikeSwitch value then
          .error (.misuse ("a value is required for '--" ++ s.long ++ "'"))
        else do
          let p ← setValue p s set value
          takeSwitches switches p rest

end Switches

structure GenerateArguments where
  apiKey : Option String := none
  sessionToken : Option String := none
  managementToken : Option String := none
  branch : Option String := none
  endpoint : Option String := none
  namespaceName : Option String := none
  path : Option String := none
  force : Bool := false
  modularBlockPrefix : Option String := none
  groupPrefix : Option String := none
  nullable : Bool := false
  references : Option ReferenceMode := none
  fromFile : Option String := none
  dryRun : Bool := false
  config : Option String := none
  verbosity : Nat := 0
  deriving Repr, DecidableEq

structure InitArguments where
  path : String := Config.standardPath
  force : Bool := false
  deriving Repr, DecidableEq

inductive Command where
  | generate (arguments : GenerateArguments)
  | init (arguments : InitArguments)
  deriving Repr, DecidableEq

def pathValue {σ : Type} (set : String → σ → σ) : Effect σ :=
  .value fun path s => if path.isEmpty then none else some (set path s)

def textValue {σ : Type} (set : String → σ → σ) : Effect σ := .value fun text s => some (set text s)

def generateSwitches : List (Switch GenerateArguments) := [
  ⟨"api-key", some 'a', textValue fun v a => { a with apiKey := some v }, false⟩,
  ⟨"authtoken", some 'A', textValue fun v a => { a with sessionToken := some v }, false⟩,
  ⟨"management-token", none, textValue fun v a => { a with managementToken := some v }, false⟩,
  ⟨"branch", some 'b', textValue fun v a => { a with branch := some v }, false⟩,
  ⟨"endpoint", some 'e', textValue fun v a => { a with endpoint := some v }, false⟩,
  ⟨"namespace", none, textValue fun v a => { a with namespaceName := some v }, false⟩,
  ⟨"path", some 'p', pathValue fun v a => { a with path := some v }, false⟩,
  ⟨"force", some 'f', .flag fun a => { a with force := true }, false⟩,
  ⟨"modular-block-prefix", none,
    textValue fun v a => { a with modularBlockPrefix := some v }, false⟩,
  ⟨"group-prefix", none, textValue fun v a => { a with groupPrefix := some v }, false⟩,
  ⟨"is-nullable", some 'N', .flag fun a => { a with nullable := true }, false⟩,
  ⟨"references", none,
    .value fun v a => (ReferenceMode.ofName? v).map fun mode => { a with references := some mode },
    false⟩,
  ⟨"from-file", none, pathValue fun v a => { a with fromFile := some v }, false⟩,
  ⟨"dry-run", none, .flag fun a => { a with dryRun := true }, false⟩,
  ⟨"config", some 'c', pathValue fun v a => { a with config := some v }, false⟩,
  ⟨"verbose", some 'v', .flag fun a => { a with verbosity := a.verbosity + 1 }, true⟩]

def initSwitches : List (Switch InitArguments) := [
  ⟨"output", some 'o', pathValue fun v a => { a with path := v }, false⟩,
  ⟨"force", none, .flag fun a => { a with force := true }, false⟩]

structure Environment where
  apiKey : Option String := none
  sessionToken : Option String := none
  managementToken : Option String := none

def Environment.read {m : Type → Type} [Monad m] (lookup : String → m (Option String)) :
    m Environment := do
  let apiKey ← lookup "CONTENTSTACK_API_KEY"
  let sessionToken ← lookup "CONTENTSTACK_AUTHTOKEN"
  let managementToken ← lookup "CONTENTSTACK_MANAGEMENT_TOKEN"
  return ⟨apiKey, sessionToken, managementToken⟩

def GenerateArguments.within (a : GenerateArguments) (e : Environment) : GenerateArguments :=
  { a with
    apiKey := a.apiKey <|> e.apiKey
    sessionToken := a.sessionToken <|> e.sessionToken
    managementToken := a.managementToken <|> e.managementToken }

def GenerateArguments.overrides (a : GenerateArguments) : Config.Overrides where
  host := a.endpoint
  branch := a.branch
  path := a.path
  namespaceName := a.namespaceName
  force := if a.force then some true else none
  modularBlockPrefix := a.modularBlockPrefix
  groupPrefix := a.groupPrefix
  nullable := if a.nullable then some true else none
  references := a.references

def commandNames : List String := ["generate", "init", "help"]

def helpStop : List String → Stop
  | [] => .help
  | [name] => if commandNames.contains name then .help else unexpected name
  | name :: next :: _ => unexpected (if commandNames.contains name then next else name)

def topStop (argument : String) : Stop :=
  match argument.toList with
  | '-' :: 'h' :: _ => .help
  | '-' :: 'V' :: _ => .version
  | _ =>
    if argument = "--help" then .help
    else if argument = "--version" then .version
    else unexpected argument

def parse (e : Environment) : List String → Except Stop Command
  | [] => .error (.misuse "a command is required")
  | "generate" :: rest => do
    let arguments ← takeSwitches generateSwitches ⟨{}, []⟩ rest
    .ok (.generate (arguments.within e))
  | "init" :: rest => .init <$> takeSwitches initSwitches ⟨{}, []⟩ rest
  | "help" :: rest => .error (helpStop rest)
  | argument :: _ => .error (topStop argument)

def versionText : String := Program.name ++ " " ++ Program.version

def helpText : String :=
  "\n".intercalate [
    "Generate C# models from Contentstack content types",
    "",
    "Usage: " ++ Program.name ++ " <COMMAND>",
    "",
    "Commands:",
    "  generate  Generate model classes for a stack",
    "  init      Initialize a new modelgen configuration file",
    "  help      Print this message",
    "",
    "Options of generate:",
    "  -a, --api-key <API_KEY>                  Stack API key",
    "  -A, --authtoken <AUTHTOKEN>              User authtoken",
    "      --management-token <TOKEN>           Stack management token",
    "  -b, --branch <BRANCH>                    Stack branch",
    "  -e, --endpoint <ENDPOINT>                Content Management API host",
    "      --namespace <NAMESPACE>              Root namespace of the generated classes",
    "  -p, --path <PATH>                        Directory of the model directory",
    "  -f, --force                              Overwrite existing files without asking",
    "      --modular-block-prefix <PREFIX>      Prefix of modular block types",
    "      --group-prefix <PREFIX>              Prefix of group types",
    "  -N, --is-nullable                        Emit nullable reference annotations",
    "      --references <auto|list|declared>    How reference fields are typed",
    "      --from-file <FILE>                   Read schemas from a JSON export",
    "      --dry-run                            Preview files without writing them",
    "  -c, --config <CONFIG>                    Configuration file path",
    "  -v, --verbose                            Increase log verbosity",
    "",
    "Options of init:",
    "  -o, --output <OUTPUT>                    Path of the configuration file",
    "      --force                              Overwrite an existing configuration file",
    "",
    "  -h, --help                               Print help",
    "  -V, --version                            Print version"]

end ContentModels.CommandLine
