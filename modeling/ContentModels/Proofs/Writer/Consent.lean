import ContentModels.Proofs.Writer.Progress

set_option autoImplicit false

namespace ContentModels.Writer

variable {w : Writer} {unit : RenderedUnit} {s t : World}

def Consented (w : Writer) (units : List RenderedUnit) (s later : World) : Prop :=
  ∀ location content, s.files.node? location = some (.file content) →
    later.files.node? location = some (.file content) ∨
    w.force = true ∧ w.isDryRun = false ∨
    ∃ unit ∈ units, later.files.locate (w.target unit) = some location ∧
      s.answer (w.target unit) = .ok true

def Plain (unit : RenderedUnit) : Prop :=
  ∃ names, names ≠ [] ∧ Path.Descending names ∧ unit.path = "/".intercalate names

theorem Plain.target_unique {t : FileTree} {other : RenderedUnit} (plain : Plain unit)
    (otherPlain : Plain other) {location : Location}
    (leads : t.locate (w.target unit) = some location)
    (otherLeads : t.locate (w.target other) = some location) :
    w.target unit = w.target other := by
  obtain ⟨names, some, down, path⟩ := plain
  obtain ⟨otherNames, otherSome, otherDown, otherPath⟩ := otherPlain
  rw [target, path] at leads ⊢
  rw [target, otherPath] at otherLeads ⊢
  obtain ⟨base, walked, further⟩ := FileTree.locate_join_cases down some leads
  obtain ⟨otherBase, otherWalked, otherFurther⟩ :=
    FileTree.locate_join_cases otherDown otherSome otherLeads
  obtain rfl : base = otherBase := by simpa [walked] using otherWalked
  have last := FileTree.foldlM_step_eq down further
  have otherLast := FileTree.foldlM_step_eq otherDown otherFurther
  rw [List.append_cancel_left (last.symm.trans otherLast)]

theorem Plain.rooted {t : FileTree} (plain : Plain unit)
    (there : t.contains (w.target unit) = true) : t.Rooted w.root := by
  obtain ⟨names, some, down, path⟩ := plain
  obtain ⟨node, found⟩ := Option.isSome_iff_exists.mp there
  obtain ⟨location, leads, _⟩ := Option.bind_eq_some_iff.mp found
  rw [target, path] at leads
  obtain ⟨base, walked, _⟩ := FileTree.locate_join_cases down some leads
  exact .inl (by simp [walked])

-- There is nothing at the path of a unit, but once its directories are made the path leads to a
-- file with another content.
structure Overlooks (w : Writer) (unit : RenderedUnit) (s : World) : Prop where
  real : w.isDryRun = false
  careful : w.force = false
  missing : s.files.contains (w.target unit) = false
  undecided : s.answer (w.target unit) ≠ .ok true
  revealed : ∃ made location content,
    Ensured s.disk s.files (w.directory (w.target unit)) made ∧
    (s.disk.replace made (w.directory (w.target unit)) (w.target unit) unit.content).2 = .ok () ∧
    made.locate (w.target unit) = some location ∧
    s.files.node? location = some (.file content) ∧ content ≠ unit.content.toUTF8

theorem Overlooks.replaces (overlooks : w.Overlooks unit s) :
    ∃ location content, s.files.node? location = some (.file content) ∧
      (w.outcome unit s).2.files.node? location ≠ some (.file content) := by
  obtain ⟨made, location, content, ensured, replaced, leads, file, other⟩ := overlooks.revealed
  have done : s.disk.replace made (w.directory (w.target unit)) (w.target unit) unit.content =
      (_, .ok ()) := Prod.ext rfl replaced
  obtain ⟨there, same, free, put⟩ := FileTree.write_eq_ok.mp (Disk.replace_ok done)
  obtain rfl := Option.some.inj (leads.symm.trans same)
  rw [put] at done
  refine ⟨location, content, file, ?_⟩
  rw [outcome_written overlooks.real (.free (.inl overlooks.missing)) ensured done, changing,
    FileTree.node?_put (FileTree.ne_nil_of_node? free), if_pos rfl]
  exact fun same => other (Node.file.inj (Option.some.inj same)).symm

theorem Step.overlooks {result : Except Failure WriteResult} {later : World}
    (step : w.Step unit s result later) (careful : w.force = false)
    (missing : s.files.contains (w.target unit) = false)
    (undecided : s.answer (w.target unit) ≠ .ok true) {location : Location} {content : ByteArray}
    (file : s.files.node? location = some (.file content))
    (changed : later.files.node? location ≠ some (.file content)) : w.Overlooks unit s := by
  obtain ⟨real, _⟩ := step.replaces file changed
  -- directories alone leave the file as it was
  have kept {made : FileTree} (growth : s.files.Growth (fun _ => False) made) :
      made.node? location = some (.file content) :=
    (growth.frame location id content).mp file
  cases step with
  | dryRun | skipped | refused => exact absurd file changed
  | unmade _ clear obstacle =>
    rw [clear.files] at obstacle
    exact absurd (kept (Disk.makesPart obstacle).growth) changed
  | unwritten _ clear ensured obstacle =>
    obtain rfl := Disk.replace_error obstacle
    rw [clear.files] at ensured
    exact absurd (kept ensured.growth) changed
  | @written _ made _ _ clear ensured done =>
    rw [clear.files, clear.disk] at ensured
    rw [clear.disk] at done
    obtain ⟨there, leads, free, rfl⟩ := FileTree.write_eq_ok.mp (Disk.replace_ok done)
    rw [changing, FileTree.node?_put (FileTree.ne_nil_of_node? free)] at changed
    split at changed
    next same =>
      subst same
      exact ⟨real, careful, missing, undecided, made, location, content, ensured,
        congrArg Prod.snd done, leads, file, fun same => changed (by rw [same])⟩
    next => exact absurd (kept ensured.growth) changed

section Consent

variable {units rest : List RenderedUnit} {later : World}

theorem Step.consented {result : Except Failure WriteResult} (step : w.Step unit s result later)
    (seen : ∀ location content, s.files.node? location = some (.file content) →
      later.files.node? location ≠ some (.file content) →
      s.files.contains (w.target unit) = false →
      w.force = true ∨ s.answer (w.target unit) = .ok true) : w.Consented [unit] s later := by
  intro location content file
  by_cases kept : later.files.node? location = some (.file content)
  case pos => exact .inl kept
  case neg =>
    obtain ⟨real, leads, allowed⟩ := step.replaces file kept
    rcases allowed.elim (seen location content file kept) id with forced | agreed
    · exact .inr (.inl ⟨forced, real⟩)
    · exact .inr (.inr ⟨unit, List.mem_singleton_self unit, leads, agreed⟩)

theorem Consented.mono (consented : w.Consented units s later)
    (more : ∀ unit ∈ units, unit ∈ rest) : w.Consented rest s later := by
  intro location content file
  refine (consented location content file).imp_right (Or.imp_right ?_)
  rintro ⟨unit, member, agreed⟩
  exact ⟨unit, more unit member, agreed⟩

theorem Consented.cons (first : w.Consented [unit] s t) (further : w.Consented rest t later)
    (growth : t.files.Growth (w.Touches rest later.files) later.files)
    (answer : t.answer = s.answer) : w.Consented (unit :: rest) s later := by
  intro location content file
  rcases first location content file with kept | forced | ⟨other, member, leads, agreed⟩
  · rcases further location content kept with same | forced | ⟨other, member, leads, agreed⟩
    · exact .inl same
    · exact .inr (.inl forced)
    · exact .inr (.inr ⟨other, List.mem_cons_of_mem unit member, leads, answer ▸ agreed⟩)
  · exact .inr (.inl forced)
  · obtain rfl := List.mem_singleton.mp member
    exact .inr (.inr ⟨other, List.mem_cons_self, growth.locate leads, agreed⟩)

theorem Step.consented_of_rooted {result : Except Failure WriteResult}
    (step : w.Step unit s result later) (sound : s.files.Sound) (rooted : s.files.Rooted w.root)
    (plain : Plain unit) : w.Consented [unit] s later := by
  refine step.consented fun location content file changed missing => ?_
  obtain ⟨names, some, down, path⟩ := plain
  obtain ⟨_, leads, _⟩ := step.replaces file changed
  rw [target, path] at leads missing
  have before := step.growth.locate_back sound rooted down some leads (by simp [file])
  simp [FileTree.contains, FileTree.find?, before, file] at missing

theorem Course.consented {result : Except Failure (List WriteResult)}
    (course : w.Course units s result later) (sound : s.files.Sound)
    (rooted : s.files.Rooted w.root) (plain : ∀ unit ∈ units, Plain unit) :
    w.Consented units s later := by
  induction course with
  | done => exact fun _ _ file => .inl file
  | stopped step rest =>
    have first := step.consented_of_rooted sound rooted (plain _ List.mem_cons_self)
    exact first.mono (by simp)
  | further step course ih =>
    have first := step.consented_of_rooted sound rooted (plain _ List.mem_cons_self)
    exact first.cons (ih (step.growth.sound sound) (step.growth.rooted rooted)
      fun other member => plain other (List.mem_cons_of_mem _ member)) course.growth step.answer

theorem session_cases (w : Writer) (unit : RenderedUnit) (rest : List RenderedUnit) (s : World) :
    (∃ failure, w.outcome unit s = (.error failure, (w.session (unit :: rest) s).2)) ∨
    ∃ r t, w.outcome unit s = (.ok r, t) ∧
      (w.session (unit :: rest) s).2 = (w.session rest t).2 := by
  rcases first : w.outcome unit s with ⟨failure | r, t⟩
  · exact .inl ⟨failure, by rw [session_cons_error first]⟩
  · exact .inr ⟨r, t, rfl, by rw [session_cons_ok first]⟩

theorem Step.consented_after {r : WriteResult} (step : w.Step unit s (.ok r) t)
    (real : w.isDryRun = false) (sound : s.files.Sound)
    (plain : ∀ other ∈ unit :: rest, Plain other) : w.Consented rest t (w.session rest t).2 :=
  (session_course w rest t).consented (step.growth.sound sound)
    ((plain unit List.mem_cons_self).rooted (step.contains real))
    fun other member => plain other (List.mem_cons_of_mem unit member)

theorem consented_of_not_overlooks (sound : s.files.Sound)
    (plain : ∀ other ∈ unit :: rest, Plain other) (sight : ¬ w.Overlooks unit s) :
    w.Consented (unit :: rest) s (w.session (unit :: rest) s).2 := by
  have step := outcome_step w unit s
  have first : w.Consented [unit] s (w.outcome unit s).2 := by
    refine step.consented fun location content file changed missing => ?_
    by_contra! neither
    exact sight (step.overlooks (by simpa using neither.1) missing neither.2 file changed)
  rcases session_cases w unit rest s with ⟨failure, stopped⟩ | ⟨r, t, done, further⟩
  case inl =>
    rw [stopped] at first
    exact first.mono (by simp)
  case inr =>
    have course := session_course w rest t
    rw [done] at first step
    rw [further]
    by_cases dry : w.isDryRun = true
    case pos =>
      have same : t = s := step.dry dry
      rw [course.dry dry, same]
      exact fun _ _ file => .inl file
    case neg =>
      have others := step.consented_after (by simpa using dry) sound plain
      exact first.cons others course.growth step.answer

theorem Overlooks.not_consented (overlooks : w.Overlooks unit s) (sound : s.files.Sound)
    (plain : ∀ other ∈ unit :: rest, Plain other) :
    ¬ w.Consented (unit :: rest) s (w.session (unit :: rest) s).2 := by
  intro consented
  obtain ⟨location, content, file, changed⟩ := overlooks.replaces
  obtain ⟨real, careful, missing, undecided, _⟩ := overlooks
  have step := outcome_step w unit s
  obtain ⟨_, leads, _⟩ := step.replaces file changed
  -- nobody else may write there
  have nobody {later : FileTree} (there : later.locate (w.target unit) = some location) :
      ¬ ∃ other ∈ unit :: rest, later.locate (w.target other) = some location ∧
        s.answer (w.target other) = .ok true := by
    rintro ⟨other, member, same, agreed⟩
    rw [← (plain unit List.mem_cons_self).target_unique (plain other member) there same] at agreed
    exact undecided agreed
  rcases session_cases w unit rest s with ⟨failure, stopped⟩ | ⟨r, t, done, further⟩
  case inl =>
    rw [stopped] at changed leads
    rcases consented location content file with kept | forced | agreed
    · exact changed kept
    · simp [careful] at forced
    · exact nobody leads agreed
  case inr =>
    rw [done] at changed leads step
    rw [further] at consented
    have leads := (session_course w rest t).growth.locate leads
    obtain ⟨now, replaced⟩ := step.growth.files location content file
    rcases consented location content file with kept | forced | agreed
    · rcases step.consented_after real sound plain location now replaced with same | forced |
        ⟨other, member, there, agreed⟩
      · rw [kept] at same
        rw [replaced, ← same] at changed
        exact changed rfl
      · simp [careful] at forced
      · exact nobody leads ⟨other, List.mem_cons_of_mem unit member, there, step.answer ▸ agreed⟩
    · simp [careful] at forced
    · exact nobody leads agreed

end Consent

theorem session_careful {units : List RenderedUnit} (sound : s.files.Sound)
    (plain : ∀ unit ∈ units, Plain unit) :
    (w.Consented units s (w.session units s).2 ↔ ∀ unit ∈ units.head?, ¬ w.Overlooks unit s) ∧
    (s.files.Rooted w.root → w.Consented units s (w.session units s).2) ∧
    w.Framed units s (w.session units s).2 ∧
    (∀ before unit after, units = before ++ unit :: after →
      ∀ results t, w.session before s = (.ok results, t) →
        w.session (before ++ [unit]) s =
          ((w.outcome unit t).1.map (fun r => results ++ [r]), (w.outcome unit t).2) ∧
        w.Careful unit t (w.outcome unit t).1 (w.outcome unit t).2) ∧
    ∀ results later, w.session units s = (.ok results, later) → w.isDryRun = false →
      ∃ again, { w with force := false }.session units { later with answer := fun _ => .ok false } =
        (.ok (units.map fun unit => .skipped (w.target unit)), again) ∧
        again.files = later.files := by
  have course := session_course w units s
  refine ⟨?_, fun rooted => course.consented sound rooted plain, course.framed,
    fun before unit after _ results t first => ⟨?_, (outcome_step w unit t).careful⟩,
    fun results later done real => ?_⟩
  · cases units with
    | nil => exact ⟨nofun, fun _ _ _ file => .inl file⟩
    | cons unit rest =>
      have head : (∀ first ∈ (unit :: rest).head?, ¬ w.Overlooks first s) ↔
          ¬ w.Overlooks unit s := by simp
      rw [head]
      exact ⟨fun consented overlooks => overlooks.not_consented sound plain consented,
        consented_of_not_overlooks sound plain⟩
  · rw [session_append first, session_singleton]
    rcases w.outcome unit t with ⟨_ | _, _⟩ <;> rfl
  · have there := course.contains real (congrArg Prod.fst done)
    rw [done] at there
    obtain ⟨results, files⟩ := session_declined (w := { w with force := false })
      (s := { later with answer := fun _ => .ok false }) real rfl there fun _ _ => rfl
    exact ⟨_, Prod.ext results rfl, files⟩

def shelf : World where
  files := ({} : FileTree).put ["A.cs"] (.file "old".toUTF8)

def article : RenderedUnit := ⟨"A", "A.cs", "new"⟩

theorem shelf_sound : shelf.files.Sound := by
  have empty : FileTree.Sound {} := fun above name there => absurd (by simp [FileTree.node?]) there
  exact empty.put (by decide) rfl

theorem article_plain : ∀ unit ∈ [article], Plain unit := by
  rintro unit (_ | ⟨_, ⟨⟩⟩)
  exact ⟨["A.cs"], by decide, by unfold Path.Descending; decide, by decide⟩

def here : Writer where root := ""

def willing : World := { shelf with answer := fun _ => .ok true }

theorem here_target : here.target article = "A.cs" := by decide +kernel

theorem here_directory : here.directory "A.cs" = "" := by
  rw [directory, Path.parent?, Path.segments_eq]
  decide +kernel

theorem shelf_leads : shelf.files.locate "A.cs" = some ["A.cs"] := by
  rw [FileTree.locate_eq (by decide)]
  decide +kernel

theorem shelf_contains : shelf.files.contains "A.cs" = true := by
  rw [FileTree.contains, FileTree.find?, shelf_leads]
  decide

theorem here_ready : here.Ready shelf.files article := by
  refine ⟨?_, ["A.cs"], ?_, by decide⟩
  · have temporary : shelf.files.temporaryPath "" = "/.tmpAAAAAA" := by decide +kernel
    have valid : FileTree.isPath "/.tmpAAAAAA" = true := FileTree.isPath_iff.mpr (by decide)
    rw [here_target, here_directory, FileTree.admitsFiles, temporary, valid]
    rfl
  · rw [here_target, shelf_leads]

theorem here_declined : here.session [article] shelf =
    (.ok [.skipped "A.cs"], asking shelf "A.cs") := by
  have may := mayWrite_declined (w := here) shelf_contains rfl rfl
  rw [session_singleton, outcome, write_eq, if_neg (by decide), here_target, run_bind_ok may]
  rfl

def restocked : FileTree := shelf.files.put ["A.cs"] (.file article.content.toUTF8)

theorem shelf_write : shelf.files.write "A.cs" article.content.toUTF8 = (restocked, .ok ()) :=
  FileTree.write_eq_ok.mpr ⟨["A.cs"], shelf_leads, by decide, rfl⟩

theorem here_agreed : here.session [article] willing =
    (.ok [.written "A.cs" 3], changing (asking willing "A.cs") restocked) := by
  have clear : here.Clear (here.target article) willing (asking willing "A.cs") := by
    rw [here_target]
    exact .agreed shelf_contains rfl rfl
  have ensured : Ensured willing.disk shelf.files (here.directory (here.target article))
      shelf.files := ensured_of_admitsFiles rfl here_ready.admits
  have done : willing.disk.replace shelf.files (here.directory (here.target article))
      (here.target article) article.content = (restocked, .ok ()) := by
    rw [← shelf_write, here_target, ← here_target]
    exact Disk.faultless_replace here_ready.admits
  rw [session_singleton, outcome_written rfl clear ensured done, here_target]
  rfl

theorem shelf_session_careful : willing.files.Sound ∧ (∀ unit ∈ [article], Plain unit) ∧
    willing.files.Rooted "" ∧
    here.session [article] shelf = (.ok [.skipped "A.cs"], asking shelf "A.cs") ∧
    ∃ later, here.session [article] willing = (.ok [.written "A.cs" 3], later) ∧
      later.asked = ["A.cs"] ∧ later.files.find? "A.cs" = some (.file "new".toUTF8) ∧
      here.Consented [article] willing later ∧ here.Framed [article] willing later := by
  have rooted : willing.files.Rooted "" := by
    refine .inr ?_
    rw [Path.segments_eq]
    decide
  obtain ⟨_, consented, framed, _⟩ :=
    session_careful (w := here) (s := willing) shelf_sound article_plain
  rw [here_agreed] at consented framed
  exact ⟨shelf_sound, article_plain, rooted, here_declined, _, here_agreed, rfl,
    (FileTree.write_ok shelf_write).2, consented rooted, framed⟩

-- A root that does not exist yet, but leads to the files of the world once it does.
def aside : Writer where root := "new/.."

def asideMade : FileTree := shelf.files.put ["new"] .directory

theorem aside_target : aside.target article = "new/../A.cs" := by cbv

theorem aside_directory : aside.directory "new/../A.cs" = "new/.." := by
  rw [directory, Path.parent?, Path.segments_eq]
  cbv

theorem aside_missing : shelf.files.contains "new/../A.cs" = false := by
  rw [FileTree.contains, FileTree.find?, FileTree.locate_eq (by decide)]
  cbv

theorem aside_ensured : Ensured shelf.disk shelf.files "new/.." asideMade := by
  refine .inr ⟨?_, ?_⟩
  · rw [FileTree.contains, FileTree.find?, FileTree.locate_eq (by decide)]
    cbv
  · have valid : FileTree.isPath "new/.." = true := FileTree.isPath_iff.mpr (by decide)
    have start : shelf.files.start "new/.." = [] := by cbv
    have cut : Path.segments "new/.." = ["new", ".."] := by
      rw [Path.segments_eq]
      cbv
    change shelf.files.makeDirectories "new/.." = _
    rw [FileTree.makeDirectories, if_neg (by decide), if_pos valid, start, cut]
    rfl

theorem aside_admits : asideMade.admitsFiles "new/.." = true := by
  have temporary : asideMade.temporaryPath "new/.." = "/new/../.tmpAAAAAA" := by cbv
  have valid : FileTree.isPath "/new/../.tmpAAAAAA" = true :=
    FileTree.isPath_iff.mpr (by decide)
  rw [FileTree.admitsFiles, temporary, valid, FileTree.find?,
    FileTree.locate_eq (by decide)]
  cbv

theorem aside_leads : asideMade.locate "new/../A.cs" = some ["A.cs"] := by
  rw [FileTree.locate_eq (by decide)]
  cbv

theorem aside_overlooks : aside.Overlooks article shelf := by
  refine ⟨rfl, rfl, by rw [aside_target, aside_missing], nofun, ?_⟩
  have replaced : shelf.disk.replace asideMade "new/.." "new/../A.cs" article.content =
      (asideMade.put ["A.cs"] (.file article.content.toUTF8), .ok ()) := by
    refine (Disk.faultless_replace aside_admits).trans (FileTree.write_eq_ok.mpr ?_)
    exact ⟨["A.cs"], aside_leads, by decide, rfl⟩
  rw [aside_target, aside_directory]
  exact ⟨asideMade, ["A.cs"], "old".toUTF8, aside_ensured, by rw [replaced], aside_leads, rfl,
    by decide⟩

theorem aside_not_careful : shelf.files.Sound ∧ (∀ unit ∈ [article], Plain unit) ∧
    ¬ aside.Consented [article] shelf (aside.session [article] shelf).2 :=
  ⟨shelf_sound, article_plain, aside_overlooks.not_consented shelf_sound article_plain⟩

end ContentModels.Writer
