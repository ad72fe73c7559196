import ContentModels.Failure
import ContentModels.Host
import ContentModels.Rendering

set_option autoImplicit false

namespace ContentModels

structure Writer where
  root : String
  -- Replaces existing files without asking.
  force : Bool := false
  -- Only reports what would be written.
  isDryRun : Bool := false
  deriving Repr, DecidableEq

inductive WriteResult where
  | written (path : String) (bytes : Nat)
  | skipped (path : String)
  | dryRun (path content : String)
  deriving Repr, DecidableEq

namespace WriteResult

def path : WriteResult → String
  | .written path _ => path
  | .skipped path => path
  | .dryRun path _ => path

def wasWritten : WriteResult → Bool
  | .written _ _ => true
  | _ => false

def bytes : WriteResult → Nat
  | .written _ bytes => bytes
  | _ => 0

end WriteResult

namespace Writer

variable {m : Type → Type} [Monad m]

def attempt {α : Type} (act : m (Except String α)) (failure : String → WriteFailure) :
    ExceptT Failure m α := do
  match ← (act : m (Except String α)) with
  | .ok a => return a
  | .error reason => throw (.write (failure reason))

def mayWrite (w : Writer) (host : Host m) (path : String) : ExceptT Failure m Bool := do
  if (← host.contains path) && !w.force then attempt (host.consent path) (.prompt path)
  else return true

def ensureDirectory (host : Host m) (path : String) : ExceptT Failure m Unit := do
  if ← host.contains path then return ()
  else attempt (host.makeDirectories path) (.createDirectory path)

def persist (host : Host m) (directory path content : String) : ExceptT Failure m Unit := do
  let temporary ← attempt (host.createTemporary directory) (.writeFile path)
  let temporary ← attempt (host.append temporary content) (.writeFile path)
  attempt (host.persist temporary path) (.writeFile path)

def write (w : Writer) (host : Host m) (unit : RenderedUnit) : ExceptT Failure m WriteResult := do
  let path := Path.join w.root unit.path
  if w.isDryRun then return .dryRun path unit.content
  else if ← w.mayWrite host path then
    let directory := (Path.parent? path).getD w.root
    ensureDirectory host directory
    persist host directory path unit.content
    return .written path unit.content.utf8ByteSize
  else return .skipped path

def writeAll (w : Writer) (host : Host m) : List RenderedUnit → ExceptT Failure m (List WriteResult)
  | [] => return []
  | unit :: rest => do
    let result ← w.write host unit
    let results ← w.writeAll host rest
    return result :: results

end Writer

end ContentModels
