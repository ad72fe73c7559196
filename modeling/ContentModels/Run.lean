import ContentModels.Client
import ContentModels.CommandLine
import ContentModels.Export
import ContentModels.Generation
import ContentModels.Writer

set_option autoImplicit false

namespace ContentModels.Run

open CommandLine

variable {m : Type → Type} [Monad m]

def say (host : Host m) (line : String) : ExceptT Failure m Unit := ExceptT.lift (host.say line)

def readConfig (host : Host m) (path : String) : ExceptT Failure m Config := do
  match ← (host.readText path : m (Except String String)) with
  | .error reason => throw (.config (.unreadable path reason))
  | .ok text =>
    match Config.ofText path text with
    | .ok config => return config
    | .error failure => throw (.config failure)

-- A configuration file that is named has to be there, the standard one may be missing.
def loadConfig (host : Host m) (path : Option String) : ExceptT Failure m Config := do
  match path with
  | some path => readConfig host path
  | none =>
    if ← host.contains Config.standardPath then readConfig host Config.standardPath else return {}

def configure (host : Host m) (path : Option String) (overrides : Config.Overrides) :
    ExceptT Failure m Config := do
  let config ← loadConfig host path
  let config := config.override overrides
  match config.validate with
  | .ok _ => return config
  | .error failure => throw (.config failure)

def openExport (host : Host m) (path : String) : ExceptT FetchFailure m Export := do
  match ← (host.readText path : m (Except String String)) with
  | .error reason => throw (.unreadable path reason)
  | .ok text => ExceptT.mk (pure (Export.ofText path text))

def openSource (host : Host m) (send : Client.Transport m) (config : Config)
    (a : GenerateArguments) : ExceptT Failure m (Models.FallibleSource m) := do
  match a.fromFile with
  | some path =>
    say host ("Reading schema export " ++ path)
    let exported ← Models.fetching (openExport host path)
    return exported.source
  | none =>
    match Credentials.ofParts a.apiKey a.sessionToken a.managementToken with
    | .error failure => throw (.fetch failure)
    | .ok credentials =>
      say host ("Connecting to " ++ Client.baseUrl config.api.host)
      return Client.source ⟨config.api.host, credentials, config.api.branch⟩ send

def collect (host : Host m) (config : Config) (source : Models.FallibleSource m) :
    ExceptT Failure m Models := do
  say host "Fetching stack details..."
  let stack ← Models.fetching source.stack
  if !stack.name.isEmpty then say host ("  Stack: " ++ stack.name)
  say host "Fetching content types and global fields..."
  let registry ← Models.fetching source.loadRegistry
  say host
    ("  Found " ++ toString registry.contentTypes.length ++ " content type(s) and " ++
      toString registry.globalFields.length ++ " global field(s)")
  say host "Generating models..."
  ExceptT.mk (pure (Models.ofRegistry config stack registry))

def reportWarnings (host : Host m) (models : Models) : ExceptT Failure m Unit := do
  let warnings := models.warnings
  if !warnings.isEmpty then
    say host ("Warning: " ++ toString warnings.length ++ " schema problem(s):")
    warnings.forM fun warning => say host ("  " ++ warning.display)

def rule : String := String.ofList (List.replicate 60 '─')

def resultLines : WriteResult → List String
  | .written path _ => ["✓ " ++ path]
  | .skipped path => ["Skipping " ++ path]
  | .dryRun path content => ["[dry-run] Would write " ++ path ++ ":", rule, content, rule]

def writeUnits (host : Host m) (w : Writer) : List RenderedUnit →
    ExceptT Failure m (List WriteResult)
  | [] => return []
  | unit :: rest => do
    let result ← w.write host unit
    (resultLines result).forM (say host)
    let results ← writeUnits host w rest
    return result :: results

def summary (config : Config) (results : List WriteResult) : String :=
  let written := results.countP (·.wasWritten)
  let skipped := results.length - written
  "✓ Created " ++ toString written ++ " file(s) in " ++
    Path.join config.outputRoot config.output.directory ++
    if skipped = 0 then "" else ", skipped " ++ toString skipped

def writer (config : Config) (dryRun : Bool) : Writer :=
  ⟨config.outputRoot, config.output.force, dryRun⟩

def generate (host : Host m) (send : Client.Transport m) (a : GenerateArguments) :
    ExceptT Failure m Unit := do
  let config ← configure host a.config a.overrides
  let source ← openSource host send config a
  let models ← collect host config source
  reportWarnings host models
  let results ← writeUnits host (writer config a.dryRun) models.units
  if !a.dryRun then say host (summary config results)

def init (host : Host m) (a : InitArguments) : ExceptT Failure m Unit := do
  if (← host.contains a.path) && !a.force then throw (.config (.alreadyExists a.path))
  else
    match ← (host.write a.path Config.standardText : m (Except String Unit)) with
    | .error reason => throw (.host reason)
    | .ok _ => say host ("✓ Created configuration file: " ++ a.path)

def command (host : Host m) (send : Client.Transport m) : Command → ExceptT Failure m Unit
  | .generate arguments => generate host send arguments
  | .init arguments => init host arguments

def stop (host : Host m) : Stop → m UInt8
  | .help => do
    host.say helpText
    return 0
  | .version => do
    host.say versionText
    return 0
  | .misuse message => do
    host.complain ("error: " ++ message)
    return 2

def program (host : Host m) (send : Client.Transport m) (environment : Environment)
    (arguments : List String) : m UInt8 := do
  match parse environment arguments with
  | .error reason => stop host reason
  | .ok chosen =>
    match ← (command host send chosen).run with
    | .ok _ => return 0
    | .error failure =>
      host.complain ("Error: " ++ failure.message)
      return failure.exitCode

end ContentModels.Run
