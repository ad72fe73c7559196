import ContentModels.Proofs.Emission.Qualified
import ContentModels.Proofs.Text.Split

set_option autoImplicit false

namespace ContentModels.Path

def Plain (segments : List String) : Prop := ∀ s ∈ segments, s ≠ "" ∧ '/' ∉ s.toList

theorem isAbsolute_append {path : String} (nonempty : path ≠ "") (rest : String) :
    isAbsolute (path ++ rest) = isAbsolute path := by
  have slash : "/".toList = ['/'] := rfl
  rw [Bool.eq_iff_iff, isAbsolute, isAbsolute, String.startsWith_string_iff,
    String.startsWith_string_iff, String.toList_append, slash]
  cases letters : path.toList with
  | nil => simp_all
  | cons => simp

theorem isAbsolute_eq_false {segment : String} (plain : '/' ∉ segment.toList) :
    isAbsolute segment = false := by
  have slash : "/".toList = ['/'] := rfl
  rw [isAbsolute, String.startsWith_string_eq_false_iff, slash]
  rintro ⟨more, same⟩
  simp [← same] at plain

theorem join_empty {segment : String} (relative : isAbsolute segment = false) :
    join "" segment = segment := by
  simp [join, relative]

theorem join_open {path segment : String} (nonempty : path ≠ "")
    (unfinished : ¬ "/".toList <:+ path.toList) (relative : isAbsolute segment = false) :
    join path segment = path ++ "/" ++ segment := by
  have ends : path.endsWith "/" = false := by
    rw [String.endsWith, String.Slice.endsWith_string_eq_false_iff]
    simpa using unfinished
  simp [join, relative, nonempty, ends]

theorem intercalate_open {segments : List String} (some : segments ≠ []) (plain : Plain segments) :
    "/".intercalate segments ≠ "" ∧ ¬ "/".toList <:+ ("/".intercalate segments).toList := by
  obtain ⟨before, last, rfl⟩ := List.eq_nil_or_concat' segments |>.resolve_left some
  obtain ⟨nonempty, noSlash⟩ := plain last (by simp)
  obtain ⟨front, written⟩ : ∃ front : List Char,
      ("/".intercalate (before ++ [last])).toList = front ++ last.toList := by
    by_cases first : before = []
    · exact ⟨[], by simp [first]⟩
    · refine ⟨("/".intercalate before ++ "/").toList, ?_⟩
      rw [String.intercalate_append_of_ne_nil first (by simp)]
      simp
  have letters : last.toList ≠ [] := by simpa using nonempty
  constructor
  · intro empty
    rw [empty] at written
    simp_all
  · rw [written]
    rintro ⟨more, ends⟩
    have final := congrArg List.getLast? ends
    rw [List.getLast?_append_of_ne_nil _ letters, List.getLast?_append_of_ne_nil _ (by simp)] at final
    exact noSlash (List.mem_of_getLast? final.symm)

theorem ofSegments_eq {segments : List String} (plain : Plain segments) :
    ofSegments segments = "/".intercalate segments := by
  induction segments using List.reverseRecOn with
  | nil => rfl
  | append_singleton before last ih =>
    have earlier : Plain before := fun s member => plain s (List.mem_append_left _ member)
    obtain ⟨_, noSlash⟩ := plain last (by simp)
    have relative := isAbsolute_eq_false noSlash
    have step : ofSegments (before ++ [last]) = join (ofSegments before) last := by
      simp [ofSegments]
    rw [step, ih earlier]
    by_cases first : before = []
    · simp [first, join_empty relative]
    · obtain ⟨nonempty, unfinished⟩ := intercalate_open first earlier
      rw [join_open nonempty unfinished relative,
        String.intercalate_append_of_ne_nil first (by simp)]
      simp

theorem notMem_intercalate {separator : String} {c : Char} (other : c ∉ separator.toList)
    {segments : List String} (plain : ∀ s ∈ segments, c ∉ s.toList) :
    c ∉ (separator.intercalate segments).toList := by
  induction segments with
  | nil => simp
  | cons first rest ih =>
    have later := ih fun s member => plain s (List.mem_cons_of_mem first member)
    have here := plain first List.mem_cons_self
    cases rest with
    | nil => simpa using here
    | cons => simp_all [String.intercalate_cons_cons]

theorem stem_injective {stem other rest otherRest : String} (clear : '.' ∉ stem.toList)
    (otherClear : '.' ∉ other.toList)
    (same : stem ++ "." ++ rest = other ++ "." ++ otherRest) : stem = other ∧ rest = otherRest :=
  Text.cut_injective rfl clear otherClear same

end ContentModels.Path

namespace ContentModels.GeneratedUnit

theorem relativePath_eq {u : GeneratedUnit} (plain : Path.Plain (u.directoryPath ++ [u.name]))
    (nested : u.directoryPath ≠ []) (extension : String) :
    u.relativePath extension =
      "/".intercalate (u.directoryPath ++ [u.name]) ++ "." ++ extension := by
  have directories : Path.Plain u.directoryPath :=
    fun s member => plain s (List.mem_append_left _ member)
  obtain ⟨letters, noSlash⟩ := plain u.name (by simp)
  obtain ⟨nonempty, unfinished⟩ := Path.intercalate_open nested directories
  have relative : Path.isAbsolute (u.name ++ "." ++ extension) = false := by
    rw [String.append_assoc, Path.isAbsolute_append letters, Path.isAbsolute_eq_false noSlash]
  rw [relativePath, Path.ofSegments_eq directories, Path.join_open nonempty unfinished relative,
    String.intercalate_append_of_ne_nil nested (by simp)]
  simp [String.append_assoc]

end ContentModels.GeneratedUnit
