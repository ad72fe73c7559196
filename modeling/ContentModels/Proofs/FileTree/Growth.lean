import ContentModels.Proofs.FileTree

set_option autoImplicit false

namespace ContentModels

namespace Path

theorem segments_eq (path : String) :
    segments path = (path.toList.splitOn '/').map String.ofList :=
  Text.splitOn_eq (show "/".toList = ['/'] from rfl) path

theorem segments_ne_nil (path : String) : segments path ≠ [] := by
  simp [segments_eq, List.splitOn_ne_nil]

theorem Descending.isAbsolute_eq_false {names : List String} (down : Descending names)
    (some : names ≠ []) : isAbsolute ("/".intercalate names) = false := by
  obtain ⟨first, rest, rfl⟩ := List.exists_cons_of_ne_nil some
  by_cases last : rest = []
  · subst last
    simpa using down.isAbsolute_first
  · exact down.isAbsolute_intercalate last

end Path

namespace FileTree

section Lookup

variable {location other : Location} {node : Node} {entries : List (Location × Node)}

theorem lookup_cons_eq : ((location, node) :: entries).lookup other =
    if other = location then some node else entries.lookup other := by
  by_cases same : other = location
  · simp [same]
  · simp [List.lookup_cons, same, beq_false_of_ne same]

theorem lookup_place : (place location node entries).lookup other =
    if other = location then some node else entries.lookup other := by
  induction entries with
  | nil => exact lookup_cons_eq
  | cons entry rest ih =>
    obtain ⟨l, n⟩ := entry
    by_cases found : l = location
    case pos => by_cases same : other = location <;> simp [place, lookup_cons_eq, found, same]
    case neg =>
      rw [place, if_neg found, lookup_cons_eq, lookup_cons_eq, ih]
      by_cases same : other = l
      case pos => simp [same, found]
      case neg => simp [same]

variable {t : FileTree}

theorem node?_put (below : location ≠ []) :
    (t.put location node).node? other = if other = location then some node else t.node? other := by
  by_cases root : other = []
  · simp [node?, root, below.symm]
  · simp [node?, put, root, lookup_place]

theorem isDirectory_iff : t.isDirectory location = true ↔ t.node? location = some .directory :=
  decide_eq_true_iff

theorem ne_nil_of_node? (other : t.node? location ≠ some .directory) : location ≠ [] := by
  rintro rfl
  exact other rfl

end Lookup

def Sound (t : FileTree) : Prop :=
  ∀ location name, t.node? (location ++ [name]) ≠ none → t.node? location = some .directory

namespace Sound

variable {t : FileTree} (sound : t.Sound)

include sound

theorem directory_above {above : Location} {more : List String} (further : more ≠ [])
    (there : t.node? (above ++ more) ≠ none) : t.node? above = some .directory := by
  induction more using List.reverseRecOn with
  | nil => contradiction
  | append_singleton before last ih =>
    rw [← List.append_assoc] at there
    have directory := sound _ last there
    by_cases done : before = []
    · simpa [done] using directory
    · exact ih done (by simp [directory])

theorem dropLast {location : Location} (directory : t.node? location = some .directory) :
    t.node? location.dropLast = some .directory := by
  obtain rfl | ⟨before, last, rfl⟩ := List.eq_nil_or_concat' location
  · rfl
  · rw [List.dropLast_concat]
    exact sound before last (by simp [directory])

theorem put {location : Location} {node : Node} (free : t.node? location ≠ some .directory)
    (held : t.node? location.dropLast = some .directory) : (t.put location node).Sound := by
  have below := ne_nil_of_node? free
  intro above name there
  have directory : t.node? above = some .directory := by
    rw [node?_put below] at there
    split at there
    next same => rwa [← same, List.dropLast_concat] at held
    next => exact sound above name there
  rw [node?_put below, if_neg (by rintro rfl; exact free directory), directory]

end Sound

structure Growth (t : FileTree) (touched : Location → Prop) (later : FileTree) : Prop where
  current : later.current = t.current
  directories : ∀ location, t.node? location = some .directory →
    later.node? location = some .directory
  files : ∀ location content, t.node? location = some (.file content) →
    ∃ now, later.node? location = some (.file now)
  frame : ∀ location, ¬ touched location → ∀ content,
    t.node? location = some (.file content) ↔ later.node? location = some (.file content)
  sound : t.Sound → later.Sound

namespace Growth

variable {t middle later : FileTree} {touched wider : Location → Prop}

theorem refl (t : FileTree) : t.Growth touched t where
  current := rfl
  directories _ same := same
  files _ content same := ⟨content, same⟩
  frame _ _ _ := .rfl
  sound same := same

theorem trans (first : t.Growth touched middle) (second : middle.Growth touched later) :
    t.Growth touched later where
  current := second.current.trans first.current
  directories location same := second.directories location (first.directories location same)
  files location content same := by
    obtain ⟨now, kept⟩ := first.files location content same
    exact second.files location now kept
  frame location apart content :=
    (first.frame location apart content).trans (second.frame location apart content)
  sound same := second.sound (first.sound same)

theorem mono (growth : t.Growth touched later) (wide : ∀ l, touched l → wider l) :
    t.Growth wider later :=
  { growth with frame := fun location apart => growth.frame location (apart ∘ wide location) }

theorem putDirectory {location : Location} (free : t.node? location = none)
    (held : t.Sound → t.node? location.dropLast = some .directory) :
    t.Growth touched (t.put location .directory) := by
  have other : t.node? location ≠ some .directory := by simp [free]
  have kept (l : Location) (there : t.node? l ≠ none) :
      (t.put location .directory).node? l = t.node? l := by
    rw [node?_put (ne_nil_of_node? other), if_neg (by rintro rfl; exact there free)]
  refine ⟨rfl, fun l same => ?_, fun l content same => ⟨content, ?_⟩, fun l _ content => ?_,
    fun sound => sound.put other (held sound)⟩
  · rw [kept l (by simp [same]), same]
  · rw [kept l (by simp [same]), same]
  · by_cases here : l = location
    · simp [here, free, node?_put (ne_nil_of_node? other)]
    · rw [node?_put (ne_nil_of_node? other), if_neg here]

theorem putFile {location : Location} {content : ByteArray}
    (free : t.node? location ≠ some .directory)
    (held : t.Sound → t.node? location.dropLast = some .directory) :
    t.Growth (· = location) (t.put location (.file content)) := by
  have below := ne_nil_of_node? free
  refine ⟨rfl, fun l same => ?_, fun l before same => ?_, fun l apart _ => ?_,
    fun sound => sound.put free (held sound)⟩
  · rw [node?_put below, if_neg (by rintro rfl; exact free same), same]
  · rw [node?_put below]
    split
    · exact ⟨content, rfl⟩
    · exact ⟨before, same⟩
  · rw [node?_put below, if_neg apart]

end Growth

section Walking

variable {t later : FileTree} {touched : Location → Prop} {location next : Location}
  {segment : String}

theorem step_cases (leads : t.step location segment = some next) :
    t.node? location = some .directory ∧ (next = location ∨
      segment = ".." ∧ next = location.dropLast ∨ next = location ++ [segment]) := by
  unfold step at leads
  split at leads
  next => cases leads
  next directory =>
    refine ⟨by simpa [isDirectory_iff] using directory, ?_⟩
    split at leads
    next => exact .inl (Option.some.inj leads).symm
    next =>
      split at leads
      next up => exact .inr (.inl ⟨up, (Option.some.inj leads).symm⟩)
      next =>
        split at leads
        next => exact .inr (.inr (Option.some.inj leads).symm)
        next => cases leads

theorem step_eq_of_directory (directory : t.node? location = some .directory)
    (same : later.node? location = some .directory) :
    later.step location segment = t.step location segment := by
  simp [step, isDirectory_iff.mpr directory, isDirectory_iff.mpr same]

theorem step_of_name (directory : t.node? location = some .directory)
    (named : segment ≠ "" ∧ segment ≠ "." ∧ segment ≠ ".." ∧ segment.utf8ByteSize ≤ longestName) :
    t.step location segment = some (location ++ [segment]) := by
  simp [step, isDirectory_iff.mpr directory, named]

theorem step_dropLast (sound : t.Sound) (leads : t.step location segment = some next) :
    t.node? next.dropLast = some .directory := by
  obtain ⟨directory, rfl | ⟨_, rfl⟩ | rfl⟩ := step_cases leads
  · exact sound.dropLast directory
  · exact sound.dropLast (sound.dropLast directory)
  · rwa [List.dropLast_concat]

theorem foldlM_step_dropLast (sound : t.Sound) {segments : List String} (some : segments ≠ [])
    (leads : segments.foldlM t.step location = .some next) :
    t.node? next.dropLast = .some .directory := by
  obtain ⟨before, last, rfl⟩ := List.eq_nil_or_concat' segments |>.resolve_left some
  rw [List.foldlM_append] at leads
  obtain ⟨middle, _, final⟩ := Option.bind_eq_some_iff.mp leads
  exact step_dropLast sound (by simpa using final)

theorem locate_dropLast (sound : t.Sound) {path : String} (leads : t.locate path = some next) :
    t.node? next.dropLast = some .directory := by
  unfold locate at leads
  split at leads
  next => exact foldlM_step_dropLast sound (Path.segments_ne_nil path) leads
  next => cases leads

-- Without a segment that leads up, a walk passes nothing but what is above its end.
theorem foldlM_step_prefix {segments : List String} (forward : ".." ∉ segments)
    (leads : segments.foldlM t.step location = some next) : location <+: next := by
  induction segments generalizing location with
  | nil => simp_all
  | cons first rest ih =>
    obtain ⟨middle, stepped, further⟩ := Option.bind_eq_some_iff.mp leads
    have below : location <+: middle := by
      obtain ⟨_, rfl | ⟨rfl, _⟩ | rfl⟩ := step_cases stepped
      · exact List.prefix_rfl
      · exact absurd List.mem_cons_self forward
      · exact List.prefix_append location [first]
    exact below.trans (ih (fun up => forward (List.mem_cons_of_mem first up)) further)

end Walking

namespace Growth

variable {t later : FileTree} {touched : Location → Prop} (growth : t.Growth touched later)

include growth

theorem step {location next : Location} {segment : String}
    (leads : t.step location segment = some next) : later.step location segment = some next := by
  obtain ⟨directory, _⟩ := step_cases leads
  rw [step_eq_of_directory directory (growth.directories location directory), leads]

theorem foldlM_step {segments : List String} {location next : Location}
    (leads : segments.foldlM t.step location = some next) :
    segments.foldlM later.step location = some next := by
  induction segments generalizing location with
  | nil => exact leads
  | cons first rest ih =>
    obtain ⟨middle, stepped, further⟩ := Option.bind_eq_some_iff.mp leads
    exact Option.bind_eq_some_iff.mpr ⟨middle, growth.step stepped, ih further⟩

theorem start (path : String) : later.start path = t.start path := by
  simp only [FileTree.start, growth.current]

theorem locate {path : String} {location : Location} (leads : t.locate path = some location) :
    later.locate path = some location := by
  unfold FileTree.locate at leads ⊢
  split at leads
  next whole => rw [if_pos whole, growth.start]; exact growth.foldlM_step leads
  next => cases leads

theorem node? {location : Location} (there : t.node? location ≠ none) :
    later.node? location ≠ none := by
  obtain ⟨node, found⟩ := Option.ne_none_iff_exists'.mp there
  cases node with
  | file content =>
    obtain ⟨now, kept⟩ := growth.files location content found
    simp [kept]
  | directory => simp [growth.directories location found]

theorem contains {path : String} (there : t.contains path = true) :
    later.contains path = true := by
  obtain ⟨node, found⟩ := Option.isSome_iff_exists.mp there
  obtain ⟨location, leads, here⟩ := Option.bind_eq_some_iff.mp found
  have kept : later.node? location ≠ none := growth.node? (by simp [here])
  rw [FileTree.contains, find?, growth.locate leads]
  exact Option.isSome_iff_ne_none.mpr kept

theorem find?_directory {path : String} (there : t.find? path = some .directory) :
    later.find? path = some .directory := by
  obtain ⟨location, leads, here⟩ := Option.bind_eq_some_iff.mp there
  exact Option.bind_eq_some_iff.mpr
    ⟨location, growth.locate leads, growth.directories location here⟩

theorem admitsFiles {directory : String} (admits : t.admitsFiles directory = true) :
    later.admitsFiles directory = true := by
  simp only [FileTree.admitsFiles, FileTree.temporaryPath, growth.current, Bool.and_eq_true,
    Bool.or_eq_true, decide_eq_true_eq] at admits ⊢
  exact ⟨admits.1, admits.2.imp_right growth.find?_directory⟩

theorem foldlM_step_back (sound : t.Sound) {segments : List String} (forward : ".." ∉ segments)
    {location last : Location} (leads : segments.foldlM later.step location = some last)
    (there : t.node? last ≠ none) : segments.foldlM t.step location = some last := by
  induction segments generalizing location with
  | nil => exact leads
  | cons first rest ih =>
    have above := foldlM_step_prefix forward leads
    obtain ⟨middle, stepped, further⟩ := Option.bind_eq_some_iff.mp leads
    obtain ⟨same, _⟩ := step_cases stepped
    have directory : t.node? location = some .directory := by
      obtain ⟨more, rfl⟩ := above
      by_cases ended : more = []
      case neg => exact sound.directory_above ended there
      case pos =>
        obtain ⟨node, found⟩ := Option.ne_none_iff_exists'.mp there
        rw [ended, List.append_nil] at found
        cases node with
        | directory => exact found
        | file content =>
          obtain ⟨now, kept⟩ := growth.files location content found
          simp [kept] at same
    have after := ih (fun up => forward (List.mem_cons_of_mem first up)) further
    refine Option.bind_eq_some_iff.mpr ⟨middle, ?_, after⟩
    rw [← step_eq_of_directory directory same, stepped]

end Growth

def walk (t : FileTree) (path : String) : Option Location :=
  (Path.segments path).foldlM t.step (t.start path)

theorem locate_eq_some {t : FileTree} {path : String} {location : Location} :
    t.locate path = some location ↔ isPath path = true ∧ t.walk path = some location := by
  rw [locate, walk]
  split <;> simp_all

theorem isPath_iff {path : String} : isPath path = true ↔
    path ≠ "" ∧ '\x00' ∉ path.toList ∧ path.utf8ByteSize ≤ longestPath := by
  simp [isPath, String.contains_char_eq, and_assoc]

theorem locate_eq {path : String} (valid : path ≠ "" ∧ '\x00' ∉ path.toList ∧
    path.utf8ByteSize ≤ longestPath) (t : FileTree) : t.locate path =
      ((path.toList.splitOn '/').map String.ofList).foldlM t.step (t.start path) := by
  rw [locate, if_pos (isPath_iff.mpr valid), Path.segments_eq]

section Joining

variable {t : FileTree} {root : String} {names : List String} (down : Path.Descending names)
  (some : names ≠ [])

include down some

theorem step_nil_bind (location : Location) :
    (t.step location "").bind (names.foldlM t.step ·) = names.foldlM t.step location := by
  obtain ⟨first, rest, rfl⟩ := List.exists_cons_of_ne_nil some
  by_cases directory : t.node? location = .some .directory
  · simp [step, isDirectory_iff.mpr directory]
  · have closed : t.isDirectory location = false := by
      simpa [← Bool.not_eq_true, isDirectory_iff] using directory
    simp [step, closed]

theorem walk_join : t.walk (Path.join root ("/".intercalate names)) =
    (t.walk root).bind (names.foldlM t.step ·) := by
  have single : "/".toList = ['/'] := rfl
  have relative := down.isAbsolute_eq_false some
  have plain : ∀ s ∈ names, '/' ∉ s.toList := fun s member => (down s member).2.2.2
  unfold walk Path.join
  rw [if_neg (by simp [relative])]
  by_cases empty : root = ""
  case pos =>
    have idle : Path.segments "" = [""] := Text.splitOn_plain single (by simp)
    have start : t.start ("/".intercalate names) = t.start "" := by
      rw [start, relative, start, Path.isAbsolute_eq_false (by simp)]
    simp [empty, start, down.segments_intercalate some, idle, step_nil_bind down some]
  case neg =>
    have start (rest : String) : t.start (root ++ rest) = t.start root := by
      rw [FileTree.start, Path.isAbsolute_append empty, FileTree.start]
    by_cases ends : root.endsWith "/" = true
    case pos =>
      -- such a root has an empty segment at its end, which leads nowhere else
      obtain ⟨before, rfl⟩ : ∃ before, root = before ++ "/" := by
        rw [String.endsWith, String.Slice.endsWith_string_iff] at ends
        obtain ⟨letters, written⟩ := ends
        refine ⟨.ofList letters, String.toList_inj.mp ?_⟩
        simpa using written.symm
      have idle : Path.segments (before ++ "/") = Path.segments before ++ [""] := by
        simpa using Path.segments_append before (List.cons_ne_nil "" []) (by simp)
      rw [if_pos (by simp [ends]), start, Path.segments_append before some plain, idle]
      simp [List.foldlM_append, Option.bind_assoc, step_nil_bind down some]
    case neg =>
      rw [if_neg (by simp [empty, ends]), String.append_assoc, start, ← String.append_assoc,
        Path.segments_append root some plain, List.foldlM_append]
      rfl

theorem locate_join_cases {location : Location}
    (leads : t.locate (Path.join root ("/".intercalate names)) = .some location) :
    ∃ base, t.walk root = .some base ∧ names.foldlM t.step base = .some location := by
  obtain ⟨_, walked⟩ := locate_eq_some.mp leads
  rw [walk_join down some] at walked
  exact Option.bind_eq_some_iff.mp walked

end Joining

-- A path that leads somewhere or does not go up.
def Rooted (t : FileTree) (path : String) : Prop :=
  t.walk path ≠ none ∨ ".." ∉ Path.segments path

namespace Growth

variable {t later : FileTree} {touched : Location → Prop} (growth : t.Growth touched later)
  {root : String}

include growth

theorem walk {path : String} {location : Location} (leads : t.walk path = some location) :
    later.walk path = some location := by
  rw [FileTree.walk, growth.start]
  exact growth.foldlM_step leads

theorem rooted (rooted : t.Rooted root) : later.Rooted root := by
  refine rooted.imp_left fun leads => ?_
  obtain ⟨base, walked⟩ := Option.ne_none_iff_exists'.mp leads
  simp [growth.walk walked]

theorem locate_back (sound : t.Sound) (rooted : t.Rooted root) {names : List String}
    (down : Path.Descending names) (some : names ≠ []) {location : Location}
    (leads : later.locate (Path.join root ("/".intercalate names)) = .some location)
    (there : t.node? location ≠ none) :
    t.locate (Path.join root ("/".intercalate names)) = .some location := by
  obtain ⟨base, walked, further⟩ := locate_join_cases down some leads
  have forward : ".." ∉ names := fun up => (down ".." up).2.2.1 rfl
  have below := growth.foldlM_step_back sound forward further there
  have before : t.walk root = .some base := by
    rcases rooted with found | ahead
    case inl =>
      obtain ⟨other, found⟩ := Option.ne_none_iff_exists'.mp found
      rw [found, ← growth.walk found, walked]
    case inr =>
      obtain ⟨first, rest, rfl⟩ := List.exists_cons_of_ne_nil some
      obtain ⟨_, stepped, _⟩ := Option.bind_eq_some_iff.mp below
      rw [FileTree.walk, growth.start] at walked
      exact growth.foldlM_step_back sound ahead walked (by simp [(step_cases stepped).1])
  refine locate_eq_some.mpr ⟨(locate_eq_some.mp leads).1, ?_⟩
  rw [walk_join down some, before]
  exact below

end Growth

section Changes

theorem makeFrom_growth (t : FileTree) (touched : Location → Prop) (location : Location)
    (segments : List String) : t.Growth touched (t.makeFrom location segments).1 := by
  induction segments generalizing t location with
  | nil => exact .refl t
  | cons first rest ih =>
    unfold makeFrom
    split
    next => exact .refl t
    next next stepped =>
      split
      next => exact ih t next
      next => exact .refl t
      next free => exact (Growth.putDirectory free (step_dropLast · stepped)).trans (ih _ next)

variable {t later : FileTree} {touched : Location → Prop} {path : String} {content : ByteArray}

theorem MakesPart.growth (part : t.MakesPart path later) : t.Growth touched later := by
  obtain ⟨front, _, rfl⟩ := part
  exact makeFrom_growth t touched _ front

theorem write_eq_ok : t.write path content = (later, .ok ()) ↔
    ∃ location, t.locate path = some location ∧ t.node? location ≠ some .directory ∧
      later = t.put location (.file content) := by
  rw [write]
  cases t.locate path with
  | none => simp
  | some location =>
    have directory : t.isDirectory location = true ↔ _ := isDirectory_iff
    by_cases held : t.isDirectory location = true
    case pos => simp [held, directory.mp held]
    case neg => simp [held, mt directory.mpr held, @eq_comm _ later]

theorem write_ok (done : t.write path content = (later, .ok ())) :
    t.Growth (fun l => t.locate path = some l) later ∧
      later.find? path = some (.file content) := by
  obtain ⟨location, leads, free, rfl⟩ := write_eq_ok.mp done
  have growth : t.Growth (· = location) (t.put location (.file content)) :=
    Growth.putFile free (locate_dropLast · leads)
  refine ⟨growth.mono (by rintro l rfl; exact leads), ?_⟩
  rw [find?, growth.locate leads, Option.bind_some, node?_put (ne_nil_of_node? free), if_pos rfl]

end Changes

end FileTree

end ContentModels
