import ContentModels.Json.Value

set_option autoImplicit false

namespace ContentModels

inductive GenerationFailure where
  -- A unit is needed while it is still being emitted.
  | recursionCycle (unit : String) (path : List String)
  | unknownContentType (uid : String)
  deriving Repr, DecidableEq

def GenerationFailure.message : GenerationFailure → String
  | .recursionCycle unit path =>
    "Recursive emission of '" ++ unit ++ "' (path: " ++ " -> ".intercalate path ++ ")"
  | .unknownContentType uid => "Content type '" ++ uid ++ "' is not registered"

def Json.Fault.text : Json.Fault → String
  | .unfinished => "the text ends too early"
  | .malformed => "the text is not a JSON document"
  | .unfit => "the document has another shape"

inductive FetchFailure where
  | missingCredentials (missing : String)
  -- A request could not be sent or its answer could not be received.
  | http (url reason : String)
  | unauthorized (status : Nat) (message : String)
  | api (status : Nat) (code : Option Int) (message : String)
  -- An answer does not have the expected shape.
  | decode (url message : String)
  | unreadable (path reason : String)
  | invalidExport (path : String) (fault : Json.Fault)
  deriving Repr, DecidableEq

def FetchFailure.message : FetchFailure → String
  | .missingCredentials missing => "Missing credentials: " ++ missing
  | .http url reason => "Request to " ++ url ++ " failed: " ++ reason
  | .unauthorized status message => "Unauthorized (" ++ toString status ++ "): " ++ message
  | .api status code message =>
    "API error (" ++ toString status ++ ")" ++
      (code.map fun c => " code " ++ toString c).getD "" ++ ": " ++ message
  | .decode url message => "Unexpected response from " ++ url ++ ": " ++ message
  | .unreadable path reason => "Failed to read " ++ path ++ ": " ++ reason
  | .invalidExport path fault => "Invalid schema export " ++ path ++ ": " ++ fault.text

inductive ConfigFailure where
  | invalidToml (path message : String)
  | invalidValue (key message : String)
  -- A configuration file is not replaced unless that is asked for.
  | alreadyExists (path : String)
  | unreadable (path reason : String)
  deriving Repr, DecidableEq

def ConfigFailure.message : ConfigFailure → String
  | .invalidToml path message => "Invalid TOML in " ++ path ++ ": " ++ message
  | .invalidValue key message => "Invalid configuration value for '" ++ key ++ "': " ++ message
  | .alreadyExists path =>
    "Configuration file already exists: " ++ path ++ " (use --force to overwrite)"
  | .unreadable path reason => "Failed to read config " ++ path ++ ": " ++ reason

inductive WriteFailure where
  | createDirectory (path reason : String)
  | writeFile (path reason : String)
  -- The question whether to replace a file got no answer.
  | prompt (path message : String)
  deriving Repr, DecidableEq

def WriteFailure.message : WriteFailure → String
  | .createDirectory path reason => "Failed to create directory " ++ path ++ ": " ++ reason
  | .writeFile path reason => "Failed to write file " ++ path ++ ": " ++ reason
  | .prompt path message => "Overwrite prompt for " ++ path ++ " failed: " ++ message

inductive Failure where
  | fetch (failure : FetchFailure)
  | config (failure : ConfigFailure)
  | write (failure : WriteFailure)
  | generate (failure : GenerationFailure)
  | host (reason : String)
  deriving Repr, DecidableEq

namespace Failure

def message : Failure → String
  | .fetch failure => "Failed to fetch schemas: " ++ failure.message
  | .config failure => "Failed to load configuration: " ++ failure.message
  | .write failure => "Failed to write output: " ++ failure.message
  | .generate failure => "Failed to generate models: " ++ failure.message
  | .host reason => "IO error: " ++ reason

def exitCode : Failure → UInt8
  | .fetch _ => 1
  | .config _ => 1
  | .write _ => 2
  | .generate _ => 2
  | .host _ => 2

end Failure

end ContentModels
