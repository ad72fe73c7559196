import Std.Data.TreeMap
import ContentModels.Schema

set_option autoImplicit false

namespace ContentModels

structure Registry where
  entries : List Definition
  -- The position of each registered uid.
  index : Std.TreeMap String Nat

namespace Registry

def empty : Registry := ⟨[], {}⟩

def lookup (r : Registry) (uid : String) : Option Definition :=
  match r.index[uid]? with
  | none => none
  | some position => r.entries[position]?

def contains (r : Registry) (uid : String) : Bool := r.index.contains uid

-- A definition with a uid that is already registered replaces the earlier one in its place, and the
-- earlier one is returned.
def register (r : Registry) (d : Definition) : Option Definition × Registry :=
  match r.index[d.uid]? with
  | some position => (r.entries[position]?, { r with entries := r.entries.set position d })
  | none => (none, ⟨r.entries ++ [d], r.index.insert d.uid r.entries.length⟩)

def extend (r : Registry) (definitions : List Definition) : Registry :=
  definitions.foldl (fun r d => (r.register d).2) r

def ofList (definitions : List Definition) : Registry := empty.extend definitions

def all (r : Registry) : List Definition := r.entries

def ofOrigin (r : Registry) (origin : Origin) : List Definition :=
  r.entries.filter fun d => d.origin = origin

def contentTypes (r : Registry) : List Definition := r.ofOrigin .contentType

def globalFields (r : Registry) : List Definition := r.ofOrigin .globalField

def size (r : Registry) : Nat := r.entries.length

def isEmpty (r : Registry) : Bool := r.entries.isEmpty

end Registry

end ContentModels
