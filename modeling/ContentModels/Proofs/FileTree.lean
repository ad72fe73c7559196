import ContentModels.FileTree
import ContentModels.Proofs.Path
import ContentModels.Proofs.Text.Split

set_option autoImplicit false

namespace ContentModels

namespace Path

def Descending (segments : List String) : Prop :=
  ∀ s ∈ segments, s ≠ "" ∧ s ≠ "." ∧ s ≠ ".." ∧ '/' ∉ s.toList

theorem segments_append (path : String) {names : List String} (some : names ≠ [])
    (plain : ∀ s ∈ names, '/' ∉ s.toList) :
    segments (path ++ "/" ++ "/".intercalate names) = segments path ++ names := by
  have single : "/".toList = ['/'] := rfl
  rw [segments, Text.splitOn_append single, Text.splitOn_intercalate_plain single some plain,
    segments]

theorem join_append {segment : String} (nonempty : segment ≠ "")
    (relative : isAbsolute segment = false) (path rest : String) :
    join path (segment ++ rest) = join path segment ++ rest := by
  have whole : isAbsolute (segment ++ rest) = false := by
    rw [isAbsolute_append nonempty, relative]
  unfold join
  rw [whole, relative]
  split
  · contradiction
  · split
    all_goals simp [String.append_assoc]

theorem join_ne_empty {segment : String} (nonempty : segment ≠ "") (path : String) :
    join path segment ≠ "" := by
  unfold join
  split
  · exact nonempty
  · split
    all_goals simp [nonempty]

namespace Descending

theorem segments_intercalate {names : List String} (down : Descending names) (some : names ≠ []) :
    segments ("/".intercalate names) = names :=
  Text.splitOn_intercalate_plain (show "/".toList = ['/'] from rfl) some fun s member =>
    (down s member).2.2.2

variable {first : String} {names : List String} (down : Descending (first :: names))

include down

theorem isAbsolute_first : isAbsolute first = false := by
  obtain ⟨_, _, _, plain⟩ := down first List.mem_cons_self
  exact isAbsolute_eq_false plain

theorem isAbsolute_intercalate (some : names ≠ []) :
    isAbsolute ("/".intercalate (first :: names)) = false := by
  have named := (down first List.mem_cons_self).1
  rw [String.intercalate_cons_of_ne_nil some, String.append_assoc, isAbsolute_append named,
    down.isAbsolute_first]

theorem join_intercalate (some : names ≠ []) (path : String) :
    join path ("/".intercalate (first :: names)) =
      join path first ++ "/" ++ "/".intercalate names := by
  have named := (down first List.mem_cons_self).1
  rw [String.intercalate_cons_of_ne_nil some, String.append_assoc,
    join_append named down.isAbsolute_first, String.append_assoc]

end Descending

end Path

namespace FileTree

variable {t : FileTree}

theorem step_eq {location next : Location} {segment : String} (named : segment ≠ "")
    (here : segment ≠ ".") (up : segment ≠ "..") (leads : t.step location segment = some next) :
    next = location ++ [segment] := by
  unfold step at leads
  simp only [named, here, up, decide_false, Bool.or_self, Bool.false_eq_true, if_false] at leads
  split at leads
  · cases leads
  · split at leads
    · exact (Option.some.inj leads).symm
    · cases leads

theorem foldlM_step_eq {segments : List String} (down : Path.Descending segments)
    {location last : Location} (leads : segments.foldlM t.step location = some last) :
    last = location ++ segments := by
  induction segments generalizing location with
  | nil => simpa using (Option.some.inj leads).symm
  | cons first rest ih =>
    obtain ⟨next, stepped, further⟩ := Option.bind_eq_some_iff.mp leads
    obtain ⟨named, here, up, _⟩ := down first List.mem_cons_self
    obtain rfl := step_eq named here up stepped
    rw [ih (fun s member => down s (List.mem_cons_of_mem first member)) further]
    simp

theorem isPath_of_append {path rest : String} (nonempty : path ≠ "")
    (whole : isPath (path ++ rest) = true) : isPath path = true := by
  simp only [isPath, String.contains_char_eq, String.toList_append, String.utf8ByteSize_append,
    Bool.and_eq_true, Bool.not_eq_true', decide_eq_true_eq, decide_eq_false_iff_not,
    List.mem_append, not_or] at whole ⊢
  refine ⟨⟨by simpa using nonempty, whole.1.2.1⟩, ?_⟩
  omega

theorem locate_below {path : String} (nonempty : path ≠ "") {names : List String}
    (some : names ≠ []) (down : Path.Descending names) {location : Location}
    (leads : t.locate (path ++ "/" ++ "/".intercalate names) = .some location) :
    ∃ base, t.locate path = .some base ∧ location = base ++ names := by
  have start : t.start (path ++ "/" ++ "/".intercalate names) = t.start path := by
    rw [start, String.append_assoc, Path.isAbsolute_append nonempty, FileTree.start]
  have plain : ∀ s ∈ names, '/' ∉ s.toList := fun s member => (down s member).2.2.2
  unfold locate at leads ⊢
  split at leads
  next whole =>
    rw [String.append_assoc] at whole
    rw [start, Path.segments_append path some plain, List.foldlM_append] at leads
    obtain ⟨base, found, further⟩ := Option.bind_eq_some_iff.mp leads
    rw [if_pos (isPath_of_append nonempty whole)]
    exact ⟨base, found, foldlM_step_eq down further⟩
  next => cases leads

theorem locate_join {path first : String} {names : List String}
    (down : Path.Descending (first :: names)) (some : names ≠ []) {location : Location}
    (leads : t.locate (Path.join path ("/".intercalate (first :: names))) = .some location) :
    ∃ base, t.locate (Path.join path first) = .some base ∧ location = base ++ names := by
  rw [down.join_intercalate some] at leads
  have named := (down first List.mem_cons_self).1
  exact locate_below (Path.join_ne_empty named path) some
    (fun s member => down s (List.mem_cons_of_mem first member)) leads

end FileTree

end ContentModels
