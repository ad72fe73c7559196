import ContentModels.Proofs.LineBuffer

set_option autoImplicit false

namespace ContentModels

inductive Code where
  | line (text : String)
  | blank
  | block (header : String) (body : List Code)

namespace Code

mutual

@[induction_eliminator]
theorem induct {P : Code → Prop} (line : ∀ text, P (.line text)) (blank : P .blank)
    (block : ∀ header body, (∀ c ∈ body, P c) → P (.block header body)) : ∀ c, P c
  | .line text => line text
  | .blank => blank
  | .block header body => block header body (induct_all line blank block body)

theorem induct_all {P : Code → Prop} (line : ∀ text, P (.line text)) (blank : P .blank)
    (block : ∀ header body, (∀ c ∈ body, P c) → P (.block header body)) :
    ∀ body : List Code, ∀ c ∈ body, P c
  | [], _, member => nomatch member
  | _ :: _, _, .head _ => induct line blank block _
  | _ :: body, c, .tail _ member => induct_all line blank block body c member

end

def indented (depth : Nat) (text : String) : String :=
  String.ofList (List.replicate (4 * depth) ' ') ++ text

mutual

def lines (depth : Nat) : Code → List String
  | .line text => [indented depth text]
  | .blank => [""]
  | .block header body =>
    [indented depth header, indented depth "\x7b"] ++ linesOf (depth + 1) body ++
      [indented depth "\x7d"]

def linesOf (depth : Nat) : List Code → List String
  | [] => []
  | code :: rest => code.lines depth ++ linesOf depth rest

end

theorem linesOf_eq (depth : Nat) (code : List Code) :
    linesOf depth code = code.flatMap (lines depth) := by
  induction code with
  | nil => rfl
  | cons c code ih => simp [linesOf, ih]

def joined (lines : List String) : String := String.join (lines.map (· ++ "\n"))

def text (code : List Code) : String := joined (linesOf 0 code)

open LineBuffer (Call Paired)

mutual

def calls : Code → List Call
  | .line text => [.line text]
  | .blank => [.blank]
  | .block header body => .openBlock header :: callsOf body ++ [.close]

def callsOf : List Code → List Call
  | [] => []
  | code :: rest => code.calls ++ callsOf rest

end

@[simp] theorem calls_line (text : String) : (Code.line text).calls = [.line text] := rfl

@[simp] theorem calls_blank : Code.blank.calls = [.blank] := rfl

@[simp] theorem calls_block (header : String) (body : List Code) :
    (Code.block header body).calls = .openBlock header :: callsOf body ++ [.close] := rfl

@[simp] theorem callsOf_nil : callsOf [] = [] := rfl

@[simp] theorem callsOf_cons (c : Code) (code : List Code) :
    callsOf (c :: code) = c.calls ++ callsOf code := rfl

theorem callsOf_eq (code : List Code) : callsOf code = code.flatMap calls := by
  induction code with
  | nil => rfl
  | cons c code ih => simp [callsOf, ih]

@[simp] theorem callsOf_append (first second : List Code) :
    callsOf (first ++ second) = callsOf first ++ callsOf second := by
  simp [callsOf_eq]

theorem join_replicate (depth : Nat) :
    String.join (List.replicate depth "    ") = String.ofList (List.replicate (4 * depth) ' ') := by
  induction depth with
  | zero => rfl
  | succ depth ih =>
    have more : 4 * (depth + 1) = 4 + 4 * depth := by omega
    rw [List.replicate_succ, String.join_cons, ih, more, List.replicate_add, String.ofList_append]
    rfl

theorem joined_append (first second : List String) :
    joined (first ++ second) = joined first ++ joined second := by
  simp [joined]

theorem joined_cons (line : String) (lines : List String) :
    joined (line :: lines) = line ++ "\n" ++ joined lines := by
  simp [joined]

theorem line_eq (b : LineBuffer) (text : String) :
    b.line text = { b with out := b.out ++ joined [indented b.depth text] } := by
  simp [LineBuffer.line, joined, indented, join_replicate, String.append_assoc]

theorem run_callsOf_of_each {code : List Code}
    (each : ∀ c ∈ code, ∀ b : LineBuffer,
      b.run c.calls = { b with out := b.out ++ joined (c.lines b.depth) }) (b : LineBuffer) :
    b.run (callsOf code) = { b with out := b.out ++ joined (linesOf b.depth code) } := by
  induction code generalizing b with
  | nil => simp [callsOf, linesOf, joined]
  | cons c code ih =>
    obtain ⟨head, tail⟩ := List.forall_mem_cons.mp each
    simp only [callsOf, linesOf, LineBuffer.run_append, head, ih tail, joined_append,
      String.append_assoc]

theorem run_calls (c : Code) (b : LineBuffer) :
    b.run c.calls = { b with out := b.out ++ joined (c.lines b.depth) } := by
  induction c generalizing b with
  | line text => exact line_eq b text
  | blank => simp [calls, lines, joined, LineBuffer.call, LineBuffer.blank]
  | block header body ih =>
    have opened : b.openBlock header =
        ⟨b.out ++ joined [indented b.depth header, indented b.depth "\x7b"], b.depth + 1⟩ := by
      simp [LineBuffer.openBlock, line_eq, joined, String.append_assoc]
    have inner := run_callsOf_of_each ih (b.openBlock header)
    simp only [opened] at inner
    simp only [calls, lines, List.cons_append, LineBuffer.run_cons, LineBuffer.call,
      LineBuffer.run_append, opened, inner, LineBuffer.run_nil, LineBuffer.close, line_eq]
    simp [joined, String.append_assoc]

theorem run_callsOf (code : List Code) (b : LineBuffer) :
    b.run (callsOf code) = { b with out := b.out ++ joined (linesOf b.depth code) } :=
  run_callsOf_of_each (fun c _ => run_calls c) b

theorem print_callsOf (code : List Code) : LineBuffer.print (callsOf code) = text code := by
  simp [LineBuffer.print, LineBuffer.finish, LineBuffer.new, run_callsOf, text]

theorem paired_callsOf_of_each {code : List Code}
    (each : ∀ c ∈ code, ∀ b : LineBuffer, Paired b c.calls) (b : LineBuffer) :
    Paired b (callsOf code) := by
  induction code generalizing b with
  | nil => exact LineBuffer.paired_nil
  | cons c code ih =>
    obtain ⟨head, tail⟩ := List.forall_mem_cons.mp each
    exact (head b).append (ih tail _)

theorem paired_calls (c : Code) (b : LineBuffer) : Paired b c.calls := by
  induction c generalizing b with
  | line text => exact LineBuffer.paired_line text
  | blank => exact LineBuffer.paired_blank
  | block header body ih => exact (paired_callsOf_of_each ih (b.openBlock header)).block

theorem paired_callsOf (code : List Code) (b : LineBuffer) : Paired b (callsOf code) :=
  paired_callsOf_of_each (fun c _ => paired_calls c) b

end Code

end ContentModels
