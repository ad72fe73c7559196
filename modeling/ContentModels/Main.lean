import ContentModels.Run

set_option autoImplicit false

namespace ContentModels.Main

def reasoned {α : Type} (act : IO α) : IO (Except String α) := do
  try
    let a ← act
    return .ok a
  catch failure => return .error (toString failure)

def contains (path : String) : IO Bool := do
  match ← reasoned (IO.FS.Handle.mk path .read) with
  | .ok _ => return true
  | .error _ => return false

def freeName (directory : String) : Nat → Nat → IO String
  | 0, n => return Path.join directory (".tmp" ++ toString n)
  | tries + 1, n => do
    let path := Path.join directory (".tmp" ++ toString n)
    if ← contains path then freeName directory tries (n + 1) else return path

def createTemporary (directory : String) : IO Temporary := do
  let path ← freeName directory 1000 0
  IO.FS.writeFile path ""
  return { path := path }

-- Runs an act with a temporary file, which is removed where the act fails.
def guarding {α : Type} (temporary : Temporary) (act : IO α) : IO α := do
  try act
  catch failure =>
    IO.FS.removeFile temporary.path
    throw failure

def append (temporary : Temporary) (content : String) : IO Temporary := guarding temporary do
  let handle ← IO.FS.Handle.mk temporary.path .append
  handle.putStr content
  return { temporary with content := temporary.content ++ content }

def persist (temporary : Temporary) (path : String) : IO Unit :=
  guarding temporary (IO.FS.rename temporary.path path)

-- Asks on the terminal. Nothing but a no keeps the file.
def consent (path : String) : IO (Except String Bool) := do
  let input ← IO.getStdin
  if ← input.isTty then
    IO.print (path ++ " already exists. Overwrite? (Y/n) ")
    let output ← IO.getStdout
    output.flush
    let line ← input.getLine
    if line.isEmpty then return .error "the input has ended"
    else return .ok (!line.toLower.startsWith "n")
  else return .ok false

def host : Host IO where
  contains := contains
  read path := reasoned (IO.FS.readBinFile path)
  makeDirectories path := reasoned (IO.FS.createDirAll path)
  createTemporary directory := reasoned (createTemporary directory)
  append temporary content := reasoned (append temporary content)
  persist temporary path := reasoned (persist temporary path)
  write path content := reasoned (IO.FS.writeFile path content)
  say := IO.println
  complain := IO.eprintln
  consent := consent

def transport : Client.Transport IO := fun request =>
  return .error (.http request.url "no connection to the service is available")

end ContentModels.Main

def main (arguments : List String) : IO UInt32 := do
  let environment ← ContentModels.CommandLine.Environment.read fun name => IO.getEnv name
  let exit ← ContentModels.Run.program ContentModels.Main.host ContentModels.Main.transport
    environment arguments
  return exit.toUInt32
