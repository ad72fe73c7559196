import ContentModels.Proofs.Code

set_option autoImplicit false

namespace ContentModels

namespace Text

def without (c : Char) (text : String) : String := String.ofList (text.toList.filter (· ≠ c))

@[simp] theorem without_append (c : Char) (first second : String) :
    without c (first ++ second) = without c first ++ without c second := by
  simp [without]

theorem without_eq_self_iff {c : Char} {text : String} :
    without c text = text ↔ c ∉ text.toList := by
  rw [without, ← String.toList_inj, String.toList_ofList, List.filter_eq_self]
  simp only [decide_eq_true_eq]
  exact ⟨fun other member => other c member rfl, fun free d member => ne_of_mem_of_not_mem member free⟩

theorem without_eq {c : Char} {text : String} (free : c ∉ text.toList) : without c text = text :=
  without_eq_self_iff.mpr free

theorem without_intercalate (c : Char) (separator : String) (pieces : List String) :
    without c (separator.intercalate pieces) =
      (without c separator).intercalate (pieces.map (without c)) := by
  induction pieces with
  | nil => simp [without]
  | cons piece pieces ih =>
    cases pieces <;> simp_all [String.intercalate_cons_cons]

end Text

namespace Code

mutual

def map (f : String → String) : Code → Code
  | .line text => .line (f text)
  | .blank => .blank
  | .block header body => .block (f header) (mapAll f body)

def mapAll (f : String → String) : List Code → List Code
  | [] => []
  | c :: code => c.map f :: mapAll f code

end

theorem mapAll_eq (f : String → String) (code : List Code) : mapAll f code = code.map (map f) := by
  induction code with
  | nil => rfl
  | cons c code ih => rw [mapAll, ih, List.map_cons]

@[simp] theorem map_line (f : String → String) (text : String) :
    (Code.line text).map f = .line (f text) := rfl

@[simp] theorem map_blank (f : String → String) : Code.blank.map f = .blank := rfl

@[simp] theorem map_block (f : String → String) (header : String) (body : List Code) :
    (Code.block header body).map f = .block (f header) (body.map (map f)) := by
  rw [map, mapAll_eq]

theorem every_of_map_eq {f : String → String} {c : Code} (fixed : c.map f = c) :
    c.Every (fun text => f text = text) (fun text => f text = text) := by
  induction c with
  | line text => simpa using fixed
  | blank => exact .blank
  | block header body ih =>
    rw [map_block, Code.block.injEq] at fixed
    have each := List.map_inj_left.mp (fixed.2.trans (List.map_id body).symm)
    exact .block fixed.1 fun c member => ih c member (each c member)

open Text

theorem without_indented {mark : Char} (other : mark ≠ ' ') (depth : Nat) (text : String) :
    without mark (indented depth text) = indented depth (without mark text) := by
  rw [indented, without_append, without_eq, indented]
  simp [other]

theorem lines_without {mark : Char} (other : mark ∉ [' ', '\x7b', '\x7d']) (c : Code)
    (depth : Nat) : (c.map (without mark)).lines depth = (c.lines depth).map (without mark) := by
  simp only [List.mem_cons, List.not_mem_nil, or_false, not_or] at other
  obtain ⟨space, openBrace, closeBrace⟩ := other
  induction c generalizing depth with
  | line text => simp [lines, without_indented space]
  | blank => simp [lines, without]
  | block header body ih =>
    have inner : linesOf (depth + 1) (body.map (map (without mark))) =
        (linesOf (depth + 1) body).map (without mark) := by
      rw [linesOf_eq, linesOf_eq, List.map_flatMap, List.flatMap_map]
      exact List.flatMap_congr fun c member => ih c member (depth + 1)
    have kept : without mark "\x7b" = "\x7b" ∧ without mark "\x7d" = "\x7d" :=
      ⟨without_eq (by simpa using openBrace), without_eq (by simpa using closeBrace)⟩
    simp [lines, inner, without_indented space, kept]

theorem text_without {mark : Char} (other : mark ∉ ['\n', ' ', '\x7b', '\x7d'])
    (code : List Code) : text (code.map (map (without mark))) = without mark (text code) := by
  rw [List.mem_cons, not_or] at other
  have lines : linesOf 0 (code.map (map (without mark))) =
      (linesOf 0 code).map (without mark) := by
    rw [linesOf_eq, linesOf_eq, List.map_flatMap, List.flatMap_map]
    exact List.flatMap_congr fun c _ => lines_without other.2 c 0
  have feed : without mark "\n" = "\n" := without_eq (by simpa using other.1)
  have each (lines : List String) : joined (lines.map (without mark)) = without mark (joined lines) := by
    induction lines with
    | nil => simp [joined, without]
    | cons line lines ih =>
      simp only [List.map_cons, joined_cons, ih, without_append, feed]
  rw [text, lines, each, text]

end Code

end ContentModels
