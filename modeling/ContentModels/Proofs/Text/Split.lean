import Mathlib

set_option autoImplicit false

namespace ContentModels.Text

open String

theorem splitOnAux_nil (separator : String) (before piece : List Char) (pieces : List String) :
    splitOnAux (ofList (before ++ piece)) separator ⟨utf8Len before⟩
        ⟨utf8Len before + utf8Len piece⟩ 0 pieces = pieces.reverse ++ [ofList piece] := by
  have ended := (atEnd_of_valid (before ++ piece) []).mpr rfl
  have cut := extract_of_valid before piece []
  rw [List.append_nil] at ended cut
  rw [utf8Len_append] at ended
  rw [splitOnAux, if_pos ended, cut]
  simp

theorem splitOnAux_cons (c d : Char) (before piece rest : List Char) (pieces : List String) :
    splitOnAux (ofList (before ++ piece ++ d :: rest)) (ofList [c]) ⟨utf8Len before⟩
        ⟨utf8Len before + utf8Len piece⟩ 0 pieces =
      if d = c then
        splitOnAux (ofList (before ++ piece ++ d :: rest)) (ofList [c])
          ⟨utf8Len (before ++ piece ++ [d])⟩ ⟨utf8Len (before ++ piece ++ [d])⟩ 0
          (ofList piece :: pieces)
      else
        splitOnAux (ofList (before ++ piece ++ d :: rest)) (ofList [c]) ⟨utf8Len before⟩
          ⟨utf8Len before + utf8Len (piece ++ [d])⟩ 0 pieces := by
  have going : ¬ Pos.Raw.atEnd (ofList (before ++ piece ++ d :: rest))
      ⟨utf8Len before + utf8Len piece⟩ = true := by
    rw [← utf8Len_append, atEnd_of_valid]
    simp
  have here : Pos.Raw.get (ofList (before ++ piece ++ d :: rest))
      ⟨utf8Len before + utf8Len piece⟩ = d := by
    rw [← utf8Len_append, get_of_valid]
    rfl
  have next : Pos.Raw.next (ofList (before ++ piece ++ d :: rest))
      ⟨utf8Len before + utf8Len piece⟩ = ⟨utf8Len before + utf8Len piece + d.utf8Size⟩ := by
    rw [← utf8Len_append, next_of_valid]
  have first : Pos.Raw.get (ofList [c]) 0 = c := get_of_valid [] [c]
  have past : Pos.Raw.next (ofList [c]) 0 = ⟨c.utf8Size⟩ := by
    simpa using next_of_valid [] c []
  have ended : Pos.Raw.atEnd (ofList [c]) ⟨c.utf8Size⟩ = true := by
    simpa using (atEnd_of_valid [c] []).mpr rfl
  have back : Pos.Raw.unoffsetBy ⟨utf8Len before + utf8Len piece + d.utf8Size⟩ ⟨d.utf8Size⟩ =
      ⟨utf8Len before + utf8Len piece⟩ := Pos.Raw.ext (Nat.add_sub_cancel _ _)
  have stay : Pos.Raw.unoffsetBy ⟨utf8Len before + utf8Len piece⟩ 0 =
      ⟨utf8Len before + utf8Len piece⟩ := rfl
  rw [splitOnAux, if_neg going, here, first, next, past, stay, next]
  dsimp only
  rw [if_pos ended]
  by_cases same : d = c
  · subst same
    rw [back, extract_of_valid]
    simp [Nat.add_assoc]
  · simp [same, Nat.add_assoc]

theorem splitOnAux_eq (c : Char) (before piece rest : List Char) (pieces : List String) :
    splitOnAux (ofList (before ++ piece ++ rest)) (ofList [c]) ⟨utf8Len before⟩
        ⟨utf8Len before + utf8Len piece⟩ 0 pieces =
      pieces.reverse ++ (List.splitOnPPrepend (· == c) rest piece.reverse).map ofList := by
  induction rest generalizing before piece pieces with
  | nil =>
    rw [List.append_nil, splitOnAux_nil]
    simp
  | cons d rest ih =>
    rw [splitOnAux_cons, List.splitOnPPrepend_cons_eq_if]
    by_cases same : d = c
    · -- what has been read is cut off, and with it the separator
      have step := ih (before ++ piece ++ [d]) [] (ofList piece :: pieces)
      rw [if_pos same, if_pos (beq_iff_eq.mpr same)]
      simpa [-ofList_append] using step
    · have step := ih before (piece ++ [d]) pieces
      rw [if_neg same, if_neg (by simpa using same)]
      simpa [-ofList_append] using step

theorem splitOn_eq {separator : String} {c : Char} (single : separator.toList = [c]) (s : String) :
    s.splitOn separator = (s.toList.splitOn c).map ofList := by
  have written : separator = ofList [c] := by rw [← single, ofList_toList]
  have some : ¬ (separator == "") = true := by
    rintro empty
    rw [beq_iff_eq.mp empty] at single
    simp at single
  rw [splitOn, if_neg some, written]
  simpa [-ofList_append, List.splitOn] using splitOnAux_eq c [] [] s.toList []

section separated

variable {separator : String} {c : Char} (single : separator.toList = [c])

include single

theorem splitOn_plain {s : String} (plain : c ∉ s.toList) : s.splitOn separator = [s] := by
  simp [splitOn_eq single, List.splitOn_eq_singleton plain]

theorem splitOn_append (s t : String) :
    (s ++ separator ++ t).splitOn separator = s.splitOn separator ++ t.splitOn separator := by
  simp [splitOn_eq single, single, List.splitOn_append_cons_self]

theorem splitOn_intercalate {pieces : List String} (some : pieces ≠ []) :
    (separator.intercalate pieces).splitOn separator = pieces.flatMap (·.splitOn separator) := by
  induction pieces with
  | nil => contradiction
  | cons first rest ih =>
    by_cases last : rest = []
    · simp [last]
    · rw [intercalate_cons_of_ne_nil last, splitOn_append single, ih last, List.flatMap_cons]

theorem splitOn_intercalate_plain {pieces : List String} (some : pieces ≠ [])
    (plain : ∀ piece ∈ pieces, c ∉ piece.toList) :
    (separator.intercalate pieces).splitOn separator = pieces := by
  rw [splitOn_intercalate single some]
  have each : pieces.flatMap (·.splitOn separator) = pieces.flatMap fun piece => [piece] :=
    List.flatMap_congr fun piece member => splitOn_plain single (plain piece member)
  rw [each, List.flatMap_singleton']

theorem cut_injective {first second rest other : String} (plain : c ∉ first.toList)
    (clear : c ∉ second.toList)
    (same : first ++ separator ++ rest = second ++ separator ++ other) :
    first = second ∧ rest = other := by
  have pieces := congrArg (·.splitOn separator) same
  simp only [splitOn_append single, splitOn_plain single plain, splitOn_plain single clear,
    List.singleton_append, List.cons.injEq] at pieces
  obtain ⟨rfl, -⟩ := pieces
  exact ⟨rfl, append_right_inj _ |>.mp same⟩

end separated

end ContentModels.Text
