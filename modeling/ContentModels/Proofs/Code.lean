import ContentModels.Proofs.Code.Tree
import ContentModels.Proofs.Text.Split

set_option autoImplicit false

namespace ContentModels

namespace Text

def Begins (avoided : List Char) (text : String) : Prop :=
  ∃ c rest, text.toList = c :: rest ∧ c ∉ avoided

theorem Begins.append {avoided : List Char} {text : String} (begins : Begins avoided text)
    (more : String) : Begins avoided (text ++ more) := by
  obtain ⟨c, rest, written, other⟩ := begins
  exact ⟨c, rest ++ more.toList, by simp [written], other⟩

theorem Begins.mono {avoided fewer : List Char} (subset : fewer ⊆ avoided) {text : String}
    (begins : Begins avoided text) : Begins fewer text := by
  obtain ⟨c, rest, written, other⟩ := begins
  exact ⟨c, rest, written, fun member => other (subset member)⟩

theorem Begins.ne_empty {avoided : List Char} {text : String} (begins : Begins avoided text) :
    text ≠ "" := by
  rintro rfl
  obtain ⟨c, rest, written, _⟩ := begins
  simp at written

-- A literal is compared with the list of its characters, which the kernel does much faster than it
-- computes that list.
theorem begins_literal {avoided : List Char} {text : String} {c : Char} {rest : List Char}
    (written : text = String.ofList (c :: rest)) (other : avoided.contains c = false) :
    Begins avoided text :=
  ⟨c, rest, by simp [written], by simpa using other⟩

theorem notMem_literal {c : Char} {text : String} {written : List Char}
    (same : text = String.ofList written) (free : written.all (· ≠ c) = true) :
    c ∉ text.toList := by
  rw [same, String.toList_ofList]
  intro member
  simpa using List.all_eq_true.mp free c member

end Text

namespace Code

open Text

structure Plain (text : String) : Prop where
  oneLine : '\n' ∉ text.toList
  begins : Begins [' ', '{', '}'] text

inductive Every (line header : String → Prop) : Code → Prop
  | line {text : String} (holds : line text) : Every line header (.line text)
  | blank : Every line header .blank
  | block {text : String} {body : List Code} (holds : header text)
      (inside : ∀ c ∈ body, Every line header c) : Every line header (.block text body)

section every

variable {line header : String → Prop}

@[simp] theorem every_line_iff {text : String} :
    Every line header (.line text) ↔ line text :=
  ⟨fun | .line holds => holds, .line⟩

@[simp] theorem every_blank : Every line header .blank := .blank

@[simp] theorem every_block_iff {text : String} {body : List Code} :
    Every line header (.block text body) ↔ header text ∧ ∀ c ∈ body, Every line header c :=
  ⟨fun | .block holds inside => ⟨holds, inside⟩, fun ⟨holds, inside⟩ => .block holds inside⟩

theorem Every.mono {line' header' : String → Prop} (lines : ∀ text, line text → line' text)
    (headers : ∀ text, header text → header' text) {c : Code} (every : c.Every line header) :
    c.Every line' header' := by
  induction every with
  | line holds => exact .line (lines _ holds)
  | blank => exact .blank
  | block holds _ ih => exact .block (headers _ holds) ih

theorem Every.and {line' header' : String → Prop} {c : Code} (every : c.Every line header)
    (other : c.Every line' header') :
    c.Every (fun text => line text ∧ line' text) fun text => header text ∧ header' text := by
  induction every with
  | line holds => cases other with | line holds' => exact .line ⟨holds, holds'⟩
  | blank => exact .blank
  | block holds _ ih =>
    cases other with
    | block holds' inside => exact .block ⟨holds, holds'⟩ fun c member => ih c member (inside c member)

end every

abbrev Tidy : Code → Prop := Every Plain Plain

def content (line : String) : String := String.ofList (line.toList.dropWhile (· = ' '))

def indent (line : String) : Nat := (line.toList.takeWhile (· = ' ')).length

theorem indented_toList (depth : Nat) (text : String) :
    (indented depth text).toList = List.replicate (4 * depth) ' ' ++ text.toList := by
  simp [indented]

theorem content_indented {text : String} (begins : Begins [' '] text) (depth : Nat) :
    content (indented depth text) = text := by
  obtain ⟨c, rest, written, other⟩ := begins
  have space : ¬ c = ' ' := by simpa using other
  rw [content, indented_toList, List.dropWhile_append_of_pos (by simp), written,
    List.dropWhile_cons_of_neg (by simpa using space), ← written, String.ofList_toList]

theorem indent_indented {text : String} (begins : Begins [' '] text) (depth : Nat) :
    indent (indented depth text) = 4 * depth := by
  obtain ⟨c, rest, written, other⟩ := begins
  have space : ¬ c = ' ' := by simpa using other
  rw [indent, indented_toList, List.takeWhile_append_of_pos (by simp), written]
  simp [space]

theorem begins_openBrace : Begins [' '] "\x7b" := begins_literal rfl rfl

theorem begins_closeBrace : Begins [' '] "\x7d" := begins_literal rfl rfl

theorem Plain.bare {text : String} (plain : Plain text) : Begins [' '] text :=
  plain.begins.mono (by simp)

theorem Plain.ne_openBrace {text : String} (plain : Plain text) : text ≠ "\x7b" := by
  rintro rfl
  obtain ⟨c, rest, written, other⟩ := plain.begins
  simp at written
  simp [← written.1] at other

theorem Plain.ne_closeBrace {text : String} (plain : Plain text) : text ≠ "\x7d" := by
  rintro rfl
  obtain ⟨c, rest, written, other⟩ := plain.begins
  simp at written
  simp [← written.1] at other

theorem notMem_indented {c : Char} (mark : c ≠ ' ') {text : String} (free : c ∉ text.toList)
    (depth : Nat) : c ∉ (indented depth text).toList := by
  simp [indented_toList, free, mark]

theorem Every.oneLine {c : Code} (tidy : c.Tidy) (depth : Nat) :
    ∀ line ∈ c.lines depth, '\n' ∉ line.toList := by
  induction tidy generalizing depth with
  | line plain => simpa [lines] using notMem_indented (by decide) plain.oneLine depth
  | blank => simp [lines]
  | block plain _ ih =>
    have brace (text : String) (free : '\n' ∉ text.toList) := notMem_indented (by decide) free depth
    simp only [lines, linesOf_eq, List.mem_append, List.mem_cons, List.mem_flatMap,
      List.not_mem_nil, or_false]
    rintro line (((rfl | rfl) | ⟨c, member, inside⟩) | rfl)
    · exact brace _ plain.oneLine
    · exact brace _ (notMem_literal rfl rfl)
    · exact ih c member (depth + 1) line inside
    · exact brace _ (notMem_literal rfl rfl)

theorem joined_eq (lines : List String) : joined lines = "\n".intercalate (lines ++ [""]) := by
  induction lines with
  | nil => rfl
  | cons line lines ih =>
    rw [joined_cons, ih, List.cons_append, String.intercalate_cons_of_ne_nil (by simp)]

theorem text_eq (code : List Code) : text code = "\n".intercalate (linesOf 0 code ++ [""]) :=
  joined_eq (linesOf 0 code)

theorem text_ends {code : List Code} (some : linesOf 0 code ≠ []) :
    ∃ front, text code = front ++ "\n" := by
  refine ⟨"\n".intercalate (linesOf 0 code), ?_⟩
  rw [text_eq, String.intercalate_append_of_ne_nil some (by simp)]
  simp

theorem splitOn_text {code : List Code} (tidy : ∀ c ∈ code, c.Tidy) :
    (text code).splitOn "\n" = linesOf 0 code ++ [""] := by
  rw [text_eq]
  refine Text.splitOn_intercalate_plain (c := '\n') (by rfl) (by simp) fun line member => ?_
  rw [linesOf_eq] at member
  rcases List.mem_append.mp member with inside | last
  · obtain ⟨c, among, inside⟩ := List.mem_flatMap.mp inside
    exact (tidy c among).oneLine 0 line inside
  · simp [List.mem_singleton.mp last]

end Code

end ContentModels
