set_option autoImplicit false

namespace ContentModels

structure LineBuffer where
  out : String
  depth : Nat
  deriving Repr, DecidableEq

namespace LineBuffer

def new : LineBuffer := ⟨"", 0⟩

def line (b : LineBuffer) (text : String) : LineBuffer :=
  { b with out := b.out ++ String.join (List.replicate b.depth "    ") ++ text ++ "\n" }

def blank (b : LineBuffer) : LineBuffer := { b with out := b.out ++ "\n" }

def openBlock (b : LineBuffer) (header : String) : LineBuffer :=
  let opened := (b.line header).line "\x7b"
  { opened with depth := opened.depth + 1 }

-- The subtraction stops at zero, so a close too many would only show in the indentation.
def close (b : LineBuffer) : LineBuffer := { b with depth := b.depth - 1 }.line "\x7d"

def finish (b : LineBuffer) : String := b.out

inductive Call where
  | line (text : String)
  | blank
  | openBlock (header : String)
  | close
  deriving Repr, DecidableEq

def call (b : LineBuffer) : Call → LineBuffer
  | .line text => b.line text
  | .blank => b.blank
  | .openBlock header => b.openBlock header
  | .close => b.close

def run (b : LineBuffer) (calls : List Call) : LineBuffer := calls.foldl call b

def print (calls : List Call) : String := (new.run calls).finish

def usings (namespaces : List String) : List Call :=
  namespaces.map fun name => .line ("using " ++ name ++ ";")

end LineBuffer

end ContentModels
