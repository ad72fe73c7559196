import ContentModels.FileTree

set_option autoImplicit false

namespace ContentModels

-- A file under a name that nobody else knows, with what has been written to it.
structure Temporary where
  path : String
  content : String := ""
  deriving Repr, DecidableEq

-- What the calls of a file system do to the files. Each of them may fail at any time and for any
-- reason, and all that a failed call leaves behind are directories.
structure Disk where
  makeDirectories : FileTree → String → FileTree × Except String Unit
  createTemporary : FileTree → String → Except String Temporary
  append : FileTree → Temporary → String → Except String Temporary
  persist : FileTree → Temporary → String → FileTree × Except String Unit
  makes {t made : FileTree} {path : String} :
    makeDirectories t path = (made, .ok ()) → t.makeDirectories path = (made, .ok ())
  leaves {t made : FileTree} {path reason : String} :
    makeDirectories t path = (made, .error reason) → t.MakesPart path made
  starts {t : FileTree} {directory : String} {temporary : Temporary} :
    createTemporary t directory = .ok temporary → temporary.content = ""
  appends {t : FileTree} {temporary longer : Temporary} {content : String} :
    append t temporary content = .ok longer → longer.content = temporary.content ++ content
  replaces {t later : FileTree} {temporary : Temporary} {path : String} :
    persist t temporary path = (later, .ok ()) →
      t.write path temporary.content.toUTF8 = (later, .ok ())
  untouched {t later : FileTree} {temporary : Temporary} {path reason : String} :
    persist t temporary path = (later, .error reason) → later = t

-- A file system whose calls fail only where the files there are stand in the way.
def Disk.faultless : Disk where
  makeDirectories := FileTree.makeDirectories
  createTemporary t directory :=
    if t.admitsFiles directory then .ok { path := t.temporaryPath directory }
    else .error FileTree.notDirectory
  append _ temporary content := .ok { temporary with content := temporary.content ++ content }
  persist t temporary path := t.write path temporary.content.toUTF8
  makes made := made
  leaves := FileTree.makeDirectories_part
  starts created := by
    split at created
    · cases created
      rfl
    · cases created
  appends appended := by
    cases appended
    rfl
  replaces replaced := replaced
  untouched := FileTree.write_error

end ContentModels
