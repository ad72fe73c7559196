set_option autoImplicit false

namespace ContentModels.Path

def isAbsolute (path : String) : Bool := path.startsWith "/"

-- Appends a segment. An absolute segment replaces what precedes it, and an empty one only marks the
-- path as that of a directory.
def join (path segment : String) : String :=
  if isAbsolute segment then segment
  else if path.isEmpty || path.endsWith "/" then path ++ segment
  else path ++ "/" ++ segment

def ofSegments (segments : List String) : String := segments.foldl join ""

def segments (path : String) : List String := path.splitOn "/"

-- Whether a segment stays where it is. At the start of a path such a segment counts all the same.
def isIdle (segment : String) : Bool := segment = "" || segment = "."

def startingWith (first : String) (rest : List String) : String :=
  if first = "" && rest.isEmpty then "/" else "/".intercalate (first :: rest)

def parent? (path : String) : Option String :=
  match segments path with
  | [] => none
  | first :: rest =>
    match rest.reverse.dropWhile isIdle with
    | [] => if first = "" then none else some ""
    | _ :: before => some (startingWith first (before.dropWhile isIdle).reverse)

end ContentModels.Path
