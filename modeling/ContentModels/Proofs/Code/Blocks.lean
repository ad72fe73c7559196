import ContentModels.Proofs.Code

set_option autoImplicit false

namespace ContentModels.Code

-- A line, and the headers of the blocks that are open around it, innermost first. The braces of a
-- block are not inside it.
structure Row where
  around : List String
  line : String
  deriving DecidableEq

def opens (line : String) : Bool := content line = "\x7b"

def closes (line : String) : Bool := content line = "\x7d"

-- Reads lines in order, given the headers of the blocks that are open and what is written on the
-- line before. There is no reading if a block is closed that is not open, or one is left open.
def follow : List String → String → List String → Option (List Row)
  | around, _, [] => if around = [] then some [] else none
  | around, last, first :: rest =>
    if opens first then (follow (last :: around) "" rest).map (⟨around, first⟩ :: ·)
    else if closes first then
      match around with
      | [] => none
      | _ :: outer => (follow outer "" rest).map (⟨outer, first⟩ :: ·)
    else (follow around (content first) rest).map (⟨around, first⟩ :: ·)

structure Balanced (depth : Nat) (lines : List String) : Prop where
  within : ∀ front, front <+: lines → front.countP closes ≤ depth + front.countP opens
  closed : lines.countP closes = depth + lines.countP opens

theorem Balanced.cons {depth inner : Nat} {first : String} {rest : List String}
    (step : (closes first).toNat + inner = depth + (opens first).toNat)
    (balanced : Balanced inner rest) : Balanced depth (first :: rest) := by
  have one (p : String → Bool) (lines : List String) :
      (first :: lines).countP p = lines.countP p + (p first).toNat := by
    cases holds : p first <;> simp [holds]
  constructor
  · intro front front_prefix
    rcases List.prefix_cons_iff.mp front_prefix with rfl | ⟨front, rfl, rest_prefix⟩
    · simp
    · have := balanced.within front rest_prefix
      rw [one, one]
      omega
  · have := balanced.closed
    rw [one, one]
    omega

theorem opens_and_closes (line : String) : opens line = false ∨ closes line = false := by
  unfold opens closes
  by_cases brace : content line = "\x7b" <;> simp [brace]

theorem balanced_of_follow {around : List String} {last : String} {lines : List String}
    {rows : List Row} (read : follow around last lines = some rows) :
    Balanced around.length lines := by
  fun_induction follow around last lines generalizing rows with
  | case1 => exact ⟨by simp, by simp⟩
  | case2 => cases read
  | case3 around last first rest opening ih =>
    obtain ⟨inner, read, -⟩ := Option.map_eq_some_iff.mp read
    have other := (opens_and_closes first).resolve_left (by simp [opening])
    exact .cons (by simp [opening, other]) (ih read)
  | case4 => cases read
  | case5 last first rest other closing _ outer ih =>
    obtain ⟨inner, read, -⟩ := Option.map_eq_some_iff.mp read
    exact .cons (by simp [closing, other]; omega) (ih read)
  | case6 around last first rest other noClosing ih =>
    obtain ⟨inner, read, -⟩ := Option.map_eq_some_iff.mp read
    exact .cons (by simp [noClosing, other]) (ih read)

mutual

def rows (around : List String) : Code → List Row
  | .line text => [⟨around, indented around.length text⟩]
  | .blank => [⟨around, ""⟩]
  | .block header body =>
    [⟨around, indented around.length header⟩, ⟨around, indented around.length "\x7b"⟩] ++
      rowsOf (header :: around) body ++ [⟨around, indented around.length "\x7d"⟩]

def rowsOf (around : List String) : List Code → List Row
  | [] => []
  | code :: rest => code.rows around ++ rowsOf around rest

end

theorem rowsOf_eq (around : List String) (code : List Code) :
    rowsOf around code = code.flatMap (rows around) := by
  induction code with
  | nil => rfl
  | cons c code ih => simp [rowsOf, ih]

theorem mem_rows_block {around : List String} {text : String} {body : List Code} {row : Row} :
    row ∈ (Code.block text body).rows around ↔
      row = ⟨around, indented around.length text⟩ ∨
      row = ⟨around, indented around.length "\x7b"⟩ ∨
      (∃ c ∈ body, row ∈ c.rows (text :: around)) ∨
      row = ⟨around, indented around.length "\x7d"⟩ := by
  simp [rows, rowsOf_eq]

section every

variable {line header : String → Prop}

theorem Every.rows_line {c : Code} (every : c.Every line header) (around : List String) :
    (c.rows around).map Row.line = c.lines around.length := by
  induction every generalizing around with
  | line => rfl
  | blank => rfl
  | @block text body _ _ ih =>
    have inner : (rowsOf (text :: around) body).map Row.line = linesOf (around.length + 1) body := by
      rw [rowsOf_eq, linesOf_eq, List.map_flatMap]
      exact List.flatMap_congr fun c member => ih c member (text :: around)
    simp [rows, lines, inner]

theorem Every.rows_around {c : Code} (every : c.Every line header) (around : List String) :
    ∀ row ∈ c.rows around, ∃ inner, row.around = inner ++ around ∧ ∀ text ∈ inner, header text := by
  induction every generalizing around with
  | line | blank => simp [rows]
  | @block text body holds _ ih =>
    have own : ∃ inner, around = inner ++ around ∧ ∀ text ∈ inner, header text :=
      ⟨[], rfl, by simp⟩
    intro row member
    rcases mem_rows_block.mp member with rfl | rfl | ⟨c, among, inside⟩ | rfl
    case inr.inr.inl =>
      obtain ⟨inner, placed, each⟩ := ih c among (text :: around) row inside
      refine ⟨inner ++ [text], by simp [placed], ?_⟩
      simpa [or_imp, forall_and] using ⟨each, holds⟩
    all_goals exact own

end every

theorem Every.rows_indent {c : Code} (tidy : c.Tidy) (around : List String) :
    ∀ row ∈ c.rows around, row.line ≠ "" → indent row.line = 4 * row.around.length := by
  induction tidy generalizing around with
  | line plain => simp [rows, indent_indented plain.bare]
  | blank => simp [rows]
  | @block text body plain _ ih =>
    intro row member written
    rcases mem_rows_block.mp member with rfl | rfl | ⟨c, among, inside⟩ | rfl
    · exact indent_indented plain.bare _
    · exact indent_indented begins_openBrace _
    · exact ih c among (text :: around) row inside written
    · exact indent_indented begins_closeBrace _

section follow

variable (around : List String) (last : String) (rest : List String)

theorem follow_line {text : String} (plain : Plain text) (depth : Nat) :
    follow around last (indented depth text :: rest) =
      (follow around text rest).map (⟨around, indented depth text⟩ :: ·) := by
  simp [follow, opens, closes, content_indented plain.bare, plain.ne_openBrace, plain.ne_closeBrace]

theorem follow_blank :
    follow around last ("" :: rest) = (follow around "" rest).map (⟨around, ""⟩ :: ·) := by
  simp [follow, opens, closes, content]

theorem follow_open (depth : Nat) : follow around last (indented depth "\x7b" :: rest) =
    (follow (last :: around) "" rest).map (⟨around, indented depth "\x7b"⟩ :: ·) := by
  simp [follow, opens, content_indented begins_openBrace]

theorem follow_close (text : String) (depth : Nat) :
    follow (text :: around) last (indented depth "\x7d" :: rest) =
      (follow around "" rest).map (⟨around, indented depth "\x7d"⟩ :: ·) := by
  simp [follow, opens, closes, content_indented begins_closeBrace]

end follow

theorem follow_all {around : List String} {code : List Code}
    (each : ∀ c ∈ code, ∀ last rest, ∃ next, follow around last (c.lines around.length ++ rest) =
      (follow around next rest).map (c.rows around ++ ·)) (last : String) (rest : List String) :
    ∃ next, follow around last (linesOf around.length code ++ rest) =
      (follow around next rest).map (rowsOf around code ++ ·) := by
  induction code generalizing last with
  | nil => exact ⟨last, by simp [linesOf, rowsOf]⟩
  | cons c code ih =>
    obtain ⟨head, tail⟩ := List.forall_mem_cons.mp each
    obtain ⟨after, first⟩ := head last (linesOf around.length code ++ rest)
    obtain ⟨next, later⟩ := ih tail after
    refine ⟨next, ?_⟩
    rw [linesOf, List.append_assoc, first, later, Option.map_map]
    simp [rowsOf, Function.comp_def]

theorem Every.follow_rows {c : Code} (tidy : c.Tidy) (around : List String) (last : String)
    (rest : List String) : ∃ next, follow around last (c.lines around.length ++ rest) =
      (follow around next rest).map (c.rows around ++ ·) := by
  induction tidy generalizing around last rest with
  | line plain => exact ⟨_, follow_line around last rest plain _⟩
  | blank => exact ⟨_, follow_blank around last rest⟩
  | @block text body plain _ ih =>
    obtain ⟨next, inner⟩ := follow_all (fun c member => ih c member (text :: around)) ""
      (indented around.length "\x7d" :: rest)
    refine ⟨"", ?_⟩
    simp only [lines, List.append_assoc, List.cons_append, List.nil_append, follow_line _ _ _ plain,
      follow_open]
    rw [← List.length_cons (a := text), inner, follow_close]
    simp [rows, Function.comp_def]

theorem follow_rowsOf {code : List Code} (tidy : ∀ c ∈ code, c.Tidy) :
    follow [] "" (linesOf 0 code) = some (rowsOf [] code) := by
  have each (c : Code) (member : c ∈ code) := (tidy c member).follow_rows []
  obtain ⟨next, read⟩ := follow_all each "" []
  simpa [follow] using read

end ContentModels.Code
