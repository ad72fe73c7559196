import ContentModels.Failure
import ContentModels.Json.Reader
import ContentModels.Program
import ContentModels.Schema.Reading
import ContentModels.Source

set_option autoImplicit false

namespace ContentModels

inductive Token where
  -- The token of a user session.
  | session (token : String)
  -- The token of a stack.
  | management (token : String)
  deriving Repr, DecidableEq

structure Credentials where
  apiKey : String
  token : Token
  deriving Repr, DecidableEq

namespace Credentials

def given (text : Option String) : Option String := text.filter fun s => !Text.isBlankText s

-- A management token is preferred to a session token.
def token? (session management : Option String) : Option Token :=
  (given management).map .management <|> (given session).map .session

def ofParts (apiKey session management : Option String) : Except FetchFailure Credentials :=
  match given apiKey with
  | none => .error (.missingCredentials "an API key is required (--api-key)")
  | some key =>
    match token? session management with
    | some token => .ok ⟨key, token⟩
    | none =>
      .error (.missingCredentials
        "an authtoken (--authtoken) or management token (--management-token) is required")

end Credentials

structure Request where
  url : String
  query : List (String × String)
  headers : List (String × String)
  deriving Repr, DecidableEq

structure Client where
  host : String
  credentials : Credentials
  branch : Option String

namespace Client

open Json

def dropSlashes (text : List Char) : List Char :=
  (text.reverse.dropWhile (· = '/')).reverse

def baseUrl (host : String) : String :=
  let host := String.ofList (dropSlashes (Text.trim host).toList)
  let url :=
    if host.startsWith "http://" || host.startsWith "https://" then host else "https://" ++ host
  if url.endsWith "/v3" then url else url ++ "/v3"

def userAgent : String := Program.name ++ "/" ++ Program.version

def Token.header : Token → String × String
  | .session token => ("authtoken", token)
  | .management token => ("authorization", token)

def request (c : Client) (path : String) (query : List (String × String)) : Request where
  url := baseUrl c.host ++ "/" ++ path
  query := query
  headers :=
    [("api_key", c.credentials.apiKey), ("x-user-agent", userAgent),
      Token.header c.credentials.token] ++
      (c.branch.map fun branch => ("branch", branch)).toList

def stackRequest (c : Client) : Request := c.request "stacks" []

def pageRequest (c : Client) (collection : Collection) (skip : Nat) : Request :=
  c.request collection.key
    [("include_count", "true"), ("skip", toString skip), ("limit", toString pageSize)]

def stackAnswer : Record (Option Stack) where
  keys := ["stack"]
  start := none
  put _ d stack := fill stack (Stack.read (nestingBudget - 1) d)

structure Columns where
  items : Option (List Definition) := none
  count : Option (Option UInt64) := none

def size : Draft → Except Fault UInt64
  | .number (some (.integer n)) =>
    if 0 ≤ n ∧ n < Int.pow 2 64 then .ok (.ofNat n.toNat) else .error .unfit
  | draft => .error draft.mismatch

def pageAnswer : Record Columns where
  keys := ["content_types", "count", "global_fields"]
  start := {}
  put key d c :=
    match key with
    | "count" => (fun v => { c with count := v }) <$> fill c.count (d.nullable size)
    | _ =>
      (fun v => { c with items := v }) <$> fill c.items (readDefinitions (nestingBudget - 1) d)

def Columns.page (skip : Nat) (c : Columns) : Page :=
  let items := c.items.getD []
  ⟨items, (c.count.getD none).getD (.ofNat (skip + items.length))⟩

abbrev Transport (m : Type → Type) := Request → m (Except FetchFailure Document)

variable {m : Type → Type} [Monad m]

def ask {α : Type} (send : Transport m) (request : Request) (read : Draft → Except Fault α) :
    ExceptT FetchFailure m α := do
  let document ← ExceptT.mk (send request)
  match document.decode read with
  | .ok answer => return answer
  | .error fault => throw (.decode request.url fault.text)

def source (c : Client) (send : Transport m) : Source (ExceptT FetchFailure m) where
  stack := do
    match ← ask send c.stackRequest stackAnswer.read with
    | some stack => return stack
    | none => throw (.decode c.stackRequest.url Fault.unfit.text)
  page collection skip :=
    Columns.page skip <$> ask send (c.pageRequest collection skip) pageAnswer.read

end Client

end ContentModels
