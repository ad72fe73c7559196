import ContentModels.Path

set_option autoImplicit false

namespace ContentModels

abbrev Location := List String

inductive Node where
  | file (content : ByteArray)
  | directory

instance : DecidableEq Node
  | .file a, .file b =>
    match ByteArray.instDecidableEq a b with
    | isTrue same => isTrue (congrArg Node.file same)
    | isFalse different => isFalse fun same => different (Node.file.inj same)
  | .file _, .directory => isFalse nofun
  | .directory, .file _ => isFalse nofun
  | .directory, .directory => isTrue rfl

structure FileTree where
  -- What there is besides the root, which is a directory.
  entries : List (Location × Node) := []
  -- The directory that relative paths start from.
  current : Location := []

namespace FileTree

def longestName : Nat := 255

def node? (t : FileTree) (location : Location) : Option Node :=
  if location = [] then some .directory else t.entries.lookup location

def isDirectory (t : FileTree) (location : Location) : Bool :=
  t.node? location = some .directory

def place (location : Location) (node : Node) : List (Location × Node) → List (Location × Node)
  | [] => [(location, node)]
  | (l, n) :: rest =>
    if l = location then (location, node) :: rest else (l, n) :: place location node rest

def put (t : FileTree) (location : Location) (node : Node) : FileTree :=
  { t with entries := place location node t.entries }

def start (t : FileTree) (path : String) : Location :=
  if Path.isAbsolute path then [] else t.current

def step (t : FileTree) (location : Location) (segment : String) : Option Location :=
  if !t.isDirectory location then none
  else if segment = "" || segment = "." then some location
  else if segment = ".." then some location.dropLast
  else if segment.utf8ByteSize ≤ longestName then some (location ++ [segment])
  else none

def longestPath : Nat := 4095

def isPath (path : String) : Bool :=
  !path.isEmpty && !path.contains '\x00' && path.utf8ByteSize ≤ longestPath

def locate (t : FileTree) (path : String) : Option Location :=
  if isPath path then (Path.segments path).foldlM t.step (t.start path) else none

def find? (t : FileTree) (path : String) : Option Node := (t.locate path).bind t.node?

def contains (t : FileTree) (path : String) : Bool := (t.find? path).isSome

def missing : String := "No such file or directory"

def notDirectory : String := "Not a directory"

def isADirectory : String := "Is a directory"

def read (t : FileTree) (path : String) : Except String ByteArray :=
  match t.find? path with
  | some (.file content) => .ok content
  | some .directory => .error isADirectory
  | none => .error missing

-- Walks along segments and creates the directories that are missing, as far as an obstacle.
def makeFrom (t : FileTree) (location : Location) : List String → FileTree × Except String Unit
  | [] => (t, .ok ())
  | segment :: rest =>
    match t.step location segment with
    | none => (t, .error missing)
    | some next =>
      match t.node? next with
      | some .directory => makeFrom t next rest
      | some (.file _) => (t, .error notDirectory)
      | none => makeFrom (t.put next .directory) next rest

def makeDirectories (t : FileTree) (path : String) : FileTree × Except String Unit :=
  if path.isEmpty then (t, .ok ())
  else if isPath path then t.makeFrom (t.start path) (Path.segments path)
  else (t, .error missing)

-- Whether a tree comes from another by making directories on the way along a path.
def MakesPart (t : FileTree) (path : String) (made : FileTree) : Prop :=
  ∃ front, front <+: Path.segments path ∧ made = (t.makeFrom (t.start path) front).1

theorem makeDirectories_part {t made : FileTree} {path : String} {result : Except String Unit}
    (makes : t.makeDirectories path = (made, result)) : t.MakesPart path made := by
  obtain rfl := congrArg Prod.fst makes
  unfold makeDirectories
  split
  next => exact ⟨[], List.nil_prefix, rfl⟩
  next =>
    split
    next => exact ⟨Path.segments path, List.prefix_rfl, rfl⟩
    next => exact ⟨[], List.nil_prefix, rfl⟩

def write (t : FileTree) (path : String) (content : ByteArray) : FileTree × Except String Unit :=
  match t.locate path with
  | none => (t, .error missing)
  | some location =>
    if t.isDirectory location then (t, .error isADirectory)
    else (t.put location (.file content), .ok ())

theorem write_error {t later : FileTree} {path reason : String} {content : ByteArray}
    (failed : t.write path content = (later, .error reason)) : later = t := by
  unfold write at failed
  split at failed
  next => exact (Prod.mk.inj failed).1.symm
  next =>
    split at failed
    next => exact (Prod.mk.inj failed).1.symm
    next => cases failed

-- The full path of a temporary file in a directory. Temporary names differ, but not in length.
def temporaryPath (t : FileTree) (directory : String) : String :=
  Path.ofSegments ("/" :: t.current ++ [directory, ".tmpAAAAAA"])

def admitsFiles (t : FileTree) (directory : String) : Bool :=
  isPath (t.temporaryPath directory) &&
    (directory.isEmpty || t.find? directory = some .directory)

end FileTree

end ContentModels
