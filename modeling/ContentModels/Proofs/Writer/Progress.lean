import ContentModels.Proofs.Writer.Session

set_option autoImplicit false

namespace ContentModels.Writer

variable {w : Writer} {unit : RenderedUnit} {units : List RenderedUnit} {t : FileTree} {s : World}

theorem ensured_of_admitsFiles {d : Disk} (faultless : d = .faultless) {path : String}
    (admits : t.admitsFiles path = true) : Ensured d t path t := by
  subst faultless
  by_cases empty : path = ""
  case pos =>
    subst empty
    exact .inr ⟨rfl, rfl⟩
  case neg =>
    have there : t.find? path = some .directory := by
      simpa [FileTree.admitsFiles, empty] using (Bool.and_eq_true_iff.mp admits).2
    exact .inl ⟨by simp [FileTree.contains, there], rfl⟩

-- Whether a unit can be written at once: its directory is there, and its path is not one.
structure Ready (w : Writer) (t : FileTree) (unit : RenderedUnit) : Prop where
  admits : t.admitsFiles (w.directory (w.target unit)) = true
  leads : ∃ location, t.locate (w.target unit) = some location ∧
    t.node? location ≠ some .directory

theorem Ready.write {later : FileTree} {path : String} {content : ByteArray}
    (ready : w.Ready t unit) (written : t.write path content = (later, .ok ())) :
    w.Ready later unit := by
  obtain ⟨growth, _⟩ := FileTree.write_ok written
  obtain ⟨there, _, free, rfl⟩ := FileTree.write_eq_ok.mp written
  obtain ⟨location, leads, clear⟩ := ready.leads
  refine ⟨growth.admitsFiles ready.admits, location, growth.locate leads, ?_⟩
  rw [FileTree.node?_put (FileTree.ne_nil_of_node? free)]
  split
  · nofun
  · exact clear

variable (faultless : s.disk = .faultless) (real : w.isDryRun = false) (forced : w.force = true)

include faultless real forced

theorem Ready.outcome (ready : w.Ready s.files unit) : ∃ later,
    s.files.write (w.target unit) unit.content.toUTF8 = (later, .ok ()) ∧
      w.outcome unit s =
        (.ok (.written (w.target unit) unit.content.utf8ByteSize), changing s later) := by
  obtain ⟨location, leads, free⟩ := ready.leads
  have written : s.files.write (w.target unit) unit.content.toUTF8 =
      (s.files.put location (.file unit.content.toUTF8), .ok ()) :=
    FileTree.write_eq_ok.mpr ⟨location, leads, free, rfl⟩
  refine ⟨_, written, ?_⟩
  have ensured := ensured_of_admitsFiles faultless ready.admits
  refine outcome_written real (.free (.inr forced)) ensured ?_
  rw [faultless, Disk.faultless_replace ready.admits, written]

theorem session_ready (ready : ∀ unit ∈ units, w.Ready s.files unit) :
    ∃ later, w.session units s =
      (.ok (units.map fun unit => .written (w.target unit) unit.content.utf8ByteSize),
        changing s later) := by
  induction units generalizing s with
  | nil => exact ⟨s.files, rfl⟩
  | cons unit rest ih =>
    obtain ⟨middle, written, first⟩ :=
      (ready unit List.mem_cons_self).outcome faultless real forced
    obtain ⟨later, further⟩ := @ih (changing s middle) faultless fun other member =>
      (ready other (List.mem_cons_of_mem unit member)).write written
    refine ⟨later, ?_⟩
    rw [session_cons_ok first, further]
    rfl

-- A directory at the path of a unit stops the writing there.
theorem outcome_blocked (admits : s.files.admitsFiles (w.directory (w.target unit)) = true)
    (blocked : s.files.find? (w.target unit) = some .directory) : w.outcome unit s =
      (.error (.write (.writeFile (w.target unit) FileTree.isADirectory)), s) := by
  obtain ⟨location, leads, directory⟩ := Option.bind_eq_some_iff.mp blocked
  have ensured := ensured_of_admitsFiles faultless admits
  refine outcome_unwritten real (.free (.inr forced)) ensured ?_
  rw [faultless, Disk.faultless_replace admits, FileTree.write, leads]
  exact if_pos (FileTree.isDirectory_iff.mpr directory)

end ContentModels.Writer
