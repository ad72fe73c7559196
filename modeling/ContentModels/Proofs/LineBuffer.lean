import Mathlib
import ContentModels.LineBuffer

set_option autoImplicit false

namespace ContentModels.LineBuffer

@[simp] theorem run_nil (b : LineBuffer) : b.run [] = b := rfl

@[simp] theorem run_cons (b : LineBuffer) (first : Call) (rest : List Call) :
    b.run (first :: rest) = (b.call first).run rest := rfl

@[simp] theorem run_append (b : LineBuffer) (first second : List Call) :
    b.run (first ++ second) = (b.run first).run second := List.foldl_append

@[simp] theorem depth_line (b : LineBuffer) (text : String) : (b.line text).depth = b.depth := rfl

@[simp] theorem depth_blank (b : LineBuffer) : b.blank.depth = b.depth := rfl

@[simp] theorem depth_openBlock (b : LineBuffer) (header : String) :
    (b.openBlock header).depth = b.depth + 1 := rfl

@[simp] theorem depth_close (b : LineBuffer) : b.close.depth = b.depth - 1 := rfl

-- The calls never close the block that brought the depth above a base.
def StaysAbove (base : Nat) (b : LineBuffer) (calls : List Call) : Prop :=
  ∀ before after, calls = before ++ .close :: after → base < (b.run before).depth

structure Paired (b : LineBuffer) (calls : List Call) : Prop where
  opened : StaysAbove b.depth b calls
  closed : (b.run calls).depth = b.depth

variable {b : LineBuffer} {base : Nat}

theorem staysAbove_nil : StaysAbove base b [] := by
  intro before after same
  simp at same

theorem staysAbove_one {only : Call} (high : only = .close → base < b.depth) :
    StaysAbove base b [only] := by
  intro before after same
  obtain ⟨rfl, split⟩ | ⟨rfl, split⟩ := List.singleton_eq_append_iff.mp same
  · exact high (List.cons.inj split).1.symm
  · simp at split

theorem StaysAbove.append {first second : List Call} (one : StaysAbove base b first)
    (other : StaysAbove base (b.run first) second) : StaysAbove base b (first ++ second) := by
  intro before after same
  rcases List.append_eq_append_iff.mp same with ⟨middle, rfl, later⟩ | ⟨middle, early, later⟩
  · simpa using other middle after later
  · cases middle with
    | nil =>
      obtain rfl : first = before := by simpa using early
      exact other [] after later.symm
    | cons call middle =>
      obtain ⟨rfl, -⟩ := List.cons.inj later
      exact one before middle early

theorem StaysAbove.mono {lower : Nat} {calls : List Call} (above : StaysAbove base b calls)
    (less : lower ≤ base) : StaysAbove lower b calls :=
  fun before after same => Nat.lt_of_le_of_lt less (above before after same)

theorem paired_nil : Paired b [] := ⟨staysAbove_nil, rfl⟩

theorem paired_line (text : String) : Paired b [.line text] :=
  ⟨staysAbove_one (by simp), rfl⟩

theorem paired_blank : Paired b [.blank] := ⟨staysAbove_one (by simp), rfl⟩

theorem Paired.append {first second : List Call} (one : Paired b first)
    (other : Paired (b.run first) second) : Paired b (first ++ second) := by
  have level := one.closed
  have above := other.opened
  rw [level] at above
  exact ⟨one.opened.append above, by rw [run_append, other.closed, level]⟩

theorem Paired.block {header : String} {body : List Call}
    (inner : Paired (b.openBlock header) body) :
    Paired b (.openBlock header :: body ++ [.close]) := by
  have level : ((b.openBlock header).run body).depth = b.depth + 1 := inner.closed
  have above : StaysAbove b.depth (b.openBlock header) body := inner.opened.mono (by simp)
  have entering : StaysAbove b.depth b [.openBlock header] := staysAbove_one (by simp)
  have leaving : StaysAbove b.depth ((b.openBlock header).run body) [.close] :=
    staysAbove_one fun _ => by omega
  constructor
  · exact (entering.append above).append (by simpa [call] using leaving)
  · simp [call, level]

end ContentModels.LineBuffer
