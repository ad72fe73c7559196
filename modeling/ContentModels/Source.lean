import ContentModels.Registry
import ContentModels.Stack

set_option autoImplicit false

namespace ContentModels

inductive Collection where
  | contentTypes
  | globalFields
  deriving Repr, DecidableEq

namespace Collection

def key : Collection → String
  | .contentTypes => "content_types"
  | .globalFields => "global_fields"

def label : Collection → String
  | .contentTypes => "content types"
  | .globalFields => "global fields"

def origin : Collection → Origin
  | .contentTypes => .contentType
  | .globalFields => .globalField

end Collection

def pageSize : Nat := 100

structure Page where
  items : List Definition
  -- The size of the whole collection.
  count : UInt64

structure Source (m : Type → Type) where
  stack : m Stack
  -- The page of a collection that starts after a number of definitions.
  page : Collection → Nat → m Page

namespace Source

variable {m : Type → Type} [Monad m]

-- Fetches what follows the definitions that have been fetched. An empty page ends a collection, and
-- so does reaching the size that the latest page states.
def fetchFrom (source : Source m) (collection : Collection) (fetched : List Definition) :
    m (List Definition) := do
  let page ← source.page collection fetched.length
  if _more : page.items = [] then return fetched
  else
    let all := fetched ++ page.items.map (·.withOrigin collection.origin)
    if _open : all.length < page.count.toNat then source.fetchFrom collection all
    else return all
termination_by UInt64.size - fetched.length
decreasing_by
  have bound := page.count.toNat_lt_size
  have grows : 0 < page.items.length := List.length_pos_iff.mpr _more
  simp only [all, List.length_append, List.length_map] at _open ⊢
  omega

def fetchCollection (source : Source m) (collection : Collection) : m (List Definition) :=
  source.fetchFrom collection []

def loadRegistry (source : Source m) : m Registry := do
  let contentTypes ← source.fetchCollection .contentTypes
  let globalFields ← source.fetchCollection .globalFields
  return (Registry.ofList contentTypes).extend globalFields

end Source

end ContentModels
