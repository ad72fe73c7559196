import ContentModels.Proofs.Code

set_option autoImplicit false

namespace ContentModels.Code

structure Reading where
  -- The code of the innermost block that is open.
  current : List Code := []
  -- The code of the blocks around it, innermost first.
  outer : List (List Code) := []
  -- The body of a block whose header comes next.
  body : Option (List Code) := none

namespace Reading

def add (r : Reading) (c : Code) : Reading := { r with current := c :: r.current, body := none }

def step (line : String) (r : Reading) : Reading :=
  if content line = "\x7d" then { current := [], outer := r.current :: r.outer }
  else if content line = "\x7b" then
    match r.outer with
    | [] => r
    | around :: outer => { current := around, outer := outer, body := some r.current }
  else
    match r.body with
    | some body => r.add (.block (content line) body)
    | none => r.add (if line = "" then .blank else .line (content line))

theorem step_close (depth : Nat) (r : Reading) :
    step (indented depth "\x7d") r = { current := [], outer := r.current :: r.outer } := by
  rw [step, content_indented begins_closeBrace, if_pos rfl]

theorem step_open (depth : Nat) (body around : List Code) (outer : List (List Code)) :
    step (indented depth "\x7b") { current := body, outer := around :: outer } =
      { current := around, outer := outer, body := some body } := by
  rw [step, content_indented begins_openBrace, if_neg (by decide), if_pos rfl]

theorem step_blank {r : Reading} (ready : r.body = none) : step "" r = r.add .blank := by
  simp [step, content, ready]

section plain

variable {text : String} (plain : Plain text) (depth : Nat)

include plain

theorem step_header {r : Reading} {body : List Code} (ready : r.body = some body) :
    step (indented depth text) r = r.add (.block text body) := by
  rw [step, content_indented plain.bare, if_neg plain.ne_closeBrace, if_neg plain.ne_openBrace, ready]

theorem step_line {r : Reading} (ready : r.body = none) :
    step (indented depth text) r = r.add (.line text) := by
  have written : indented depth text ≠ "" := by
    simp [indented, plain.begins.ne_empty]
  rw [step, content_indented plain.bare, if_neg plain.ne_closeBrace, if_neg plain.ne_openBrace,
    ready]
  simp [written]

end plain

theorem foldr_step_all {code : List Code} {depth : Nat}
    (each : ∀ c ∈ code, ∀ r : Reading, r.body = none → (c.lines depth).foldr step r = r.add c)
    {r : Reading} (ready : r.body = none) :
    (linesOf depth code).foldr step r = { r with current := code ++ r.current } := by
  induction code with
  | nil => rfl
  | cons c code ih =>
    obtain ⟨head, tail⟩ := List.forall_mem_cons.mp each
    rw [linesOf, List.foldr_append, ih tail, head { r with current := code ++ r.current } ready]
    simp [add, ready]

theorem foldr_step {c : Code} (tidy : c.Tidy) (depth : Nat) {r : Reading} (ready : r.body = none) :
    (c.lines depth).foldr step r = r.add c := by
  induction tidy generalizing depth r with
  | line plain => exact step_line plain depth ready
  | blank => exact step_blank ready
  | @block text body plain _ ih =>
    -- from the last line to the first: the closing brace, the body, the opening brace, the header
    simp only [lines, List.foldr_append, List.foldr_cons, List.foldr_nil, step_close]
    rw [foldr_step_all (fun c member r => ih c member (depth + 1)) rfl, List.append_nil, step_open,
      step_header plain depth rfl]
    simp [add]

end Reading

def read (lines : List String) : List Code := (lines.foldr Reading.step {}).current

theorem read_linesOf {code : List Code} (tidy : ∀ c ∈ code, c.Tidy) (depth : Nat) :
    read (linesOf depth code) = code := by
  rw [read, Reading.foldr_step_all (fun c member r => Reading.foldr_step (tidy c member) depth) rfl]
  exact List.append_nil code

theorem text_injective {first second : List Code} (tidy : ∀ c ∈ first, c.Tidy)
    (other : ∀ c ∈ second, c.Tidy) (same : text first = text second) : first = second := by
  have lines : linesOf 0 first ++ [""] = linesOf 0 second ++ [""] := by
    rw [← splitOn_text tidy, ← splitOn_text other, same]
  rw [← read_linesOf tidy 0, ← read_linesOf other 0, List.append_cancel_right lines]

end ContentModels.Code
