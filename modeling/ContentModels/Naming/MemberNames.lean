set_option autoImplicit false

namespace ContentModels.Naming

structure MemberNames where
  used : List String

namespace MemberNames

def reserving (names : List String) : MemberNames := ⟨names⟩

def contains (m : MemberNames) (name : String) : Bool := m.used.contains name

def candidate (base : String) (n : Nat) : String := if n = 1 then base else base ++ toString n

def family (base : String) (companions : List String) (n : Nat) : List String :=
  candidate base n :: companions.map (candidate base n ++ ·)

def isFree (m : MemberNames) (base : String) (companions : List String) (n : Nat) : Bool :=
  (family base companions n).all fun name => !m.contains name

def firstFrom (passes : Nat → Bool) : Nat → Nat → Nat
  | n, 0 => n
  | n, misses + 1 => if passes n then n else firstFrom passes (n + 1) misses

def mostMisses (m : MemberNames) (companions : List String) : Nat :=
  m.used.length * (companions.length + 1)

def freeNumber (m : MemberNames) (base : String) (companions : List String) : Nat :=
  firstFrom (m.isFree base companions) 1 (m.mostMisses companions)

def claim (m : MemberNames) (base : String) (companions : List String) : String × MemberNames :=
  let n := m.freeNumber base companions
  (candidate base n, ⟨family base companions n ++ m.used⟩)

end MemberNames

end ContentModels.Naming
