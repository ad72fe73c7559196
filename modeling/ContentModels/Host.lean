import ContentModels.Disk

set_option autoImplicit false

namespace ContentModels

structure Host (m : Type → Type) where
  contains : String → m Bool
  read : String → m (Except String ByteArray)
  makeDirectories : String → m (Except String Unit)
  -- Creates an empty temporary file in a directory. It is gone once a call with it has failed.
  createTemporary : String → m (Except String Temporary)
  append : Temporary → String → m (Except String Temporary)
  -- Gives a temporary file its path, where it takes the place of the file that is there.
  persist : Temporary → String → m (Except String Unit)
  write : String → String → m (Except String Unit)
  say : String → m Unit
  complain : String → m Unit
  -- Asks whether the file at a path may be replaced, where nobody is there to answer it may not.
  consent : String → m (Except String Bool)

structure World where
  files : FileTree := {}
  disk : Disk := .faultless
  -- What was shown and which paths were asked about, the latest first.
  shown : List String := []
  complaints : List String := []
  asked : List String := []
  answer : String → Except String Bool := fun _ => .ok false

namespace World

def change (act : Disk → FileTree → FileTree × Except String Unit) :
    StateM World (Except String Unit) :=
  modifyGet fun w =>
    let (files, result) := act w.disk w.files
    (result, { w with files := files })

def host : Host (StateM World) where
  contains path := do return (← get).files.contains path
  read path := do return (← get).files.read path
  makeDirectories path := change fun disk files => disk.makeDirectories files path
  createTemporary directory := do
    let w ← get
    return w.disk.createTemporary w.files directory
  append temporary content := do
    let w ← get
    return w.disk.append w.files temporary content
  persist temporary path := change fun disk files => disk.persist files temporary path
  write path content := change fun _ files => files.write path content.toUTF8
  say line := modify fun w => { w with shown := line :: w.shown }
  complain line := modify fun w => { w with complaints := line :: w.complaints }
  consent path := modifyGet fun w => (w.answer path, { w with asked := path :: w.asked })

end World

def Host.readText {m : Type → Type} [Monad m] (host : Host m) (path : String) :
    m (Except String String) := do
  match ← host.read path with
  | .error reason => return .error reason
  | .ok content =>
    match String.fromUTF8? content with
    | some text => return .ok text
    | none => return .error "the file is not UTF-8 text"

end ContentModels
