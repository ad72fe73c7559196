import ContentModels.Proofs.Emission.Generation
import ContentModels.Proofs.Path

set_option autoImplicit false

namespace ContentModels.Emission

open Naming

namespace Ledger

def Keeps (l : Ledger) (journal : List Entry) : Prop :=
  ∀ name : String,
    (l.enterAll journal).units.toList.find? (·.qualifiedName = name) =
      (l.units.toList ++ journal.filterMap Entry.emitted?).find? (·.qualifiedName = name)

theorem Keeps.append {l : Ledger} {first rest : List Entry} (kept : l.Keeps first)
    (later : (l.enterAll first).Keeps rest) : l.Keeps (first ++ rest) := by
  intro name
  rw [enterAll_append, later name, List.filterMap_append]
  simp only [List.find?_append, kept name, Option.or_assoc]

theorem keeps_note (l : Ledger) (diagnostics : List Diagnostic) : l.Keeps [.note diagnostics] := by
  intro name
  simp [enter, report, Entry.emitted?]

theorem find?_known {units : List GeneratedUnit} {unit : GeneratedUnit}
    (known : ∃ v ∈ units, v.qualifiedName = unit.qualifiedName) (name : String) :
    (units ++ [unit]).find? (·.qualifiedName = name) = units.find? (·.qualifiedName = name) := by
  rw [List.find?_append]
  by_cases same : unit.qualifiedName = name
  · obtain ⟨v, member, equal⟩ := known
    have found : (units.find? (·.qualifiedName = name)).isSome = true :=
      List.find?_isSome.mpr ⟨v, member, by simp [equal, same]⟩
    obtain ⟨first, is⟩ := Option.isSome_iff_exists.mp found
    rw [is]
    rfl
  · simp [same]

theorem keeps_skipped {l : Ledger} {unit : GeneratedUnit}
    (known : ∃ v ∈ l.units.toList, v.qualifiedName = unit.qualifiedName) :
    l.Keeps [.skipped unit] :=
  fun name => (find?_known known name).symm

theorem keeps_unit {l : Ledger} (consistent : l.Consistent) (uid : String) (role : Role)
    (unit : GeneratedUnit) : l.Keeps [.unit uid role unit] := by
  intro name
  rw [enterAll_cons, enterAll_nil, enter, settle_units]
  rcases push_cases l (unitKey uid role unit) unit with
    ⟨_, pushed⟩ | ⟨known, pushed⟩ | ⟨owner, taken, pushed⟩ <;> rw [pushed]
  · simp [Entry.emitted?]
  · exact (find?_known ((consistent.claimed _).mp ⟨_, known⟩) name).symm
  · exact (find?_known ((consistent.claimed _).mp ⟨owner, taken⟩) name).symm

end Ledger

namespace Plan

variable (c : Context)

mutual

theorem entries_keeps (plan : Plan) {l : Ledger} (consistent : l.Consistent) :
    l.Keeps (entries c plan l) := by
  match plan with
  | .note diagnostics => exact l.keeps_note diagnostics
  | .unit uid role own =>
    rw [entries]
    split
    next done => exact Ledger.keeps_skipped (consistent.exists_unit done)
    next => exact Ledger.keeps_unit consistent uid role own
  | .model o nested =>
    rw [entries]
    split
    next done => exact Ledger.keeps_skipped (by simpa using consistent.exists_unit done)
    next =>
      have reported := Ledger.report_consistent consistent
        (unnamed o.label o.name (o.key c).qualified)
      have inner := allEntries_keeps nested reported
      have last := Ledger.enterAll_consistent reported
        (allEntries c nested (l.report (unnamed o.label o.name (o.key c).qualified)))
      have noted := Ledger.report_consistent last (o.declared c).2
      exact (l.keeps_note _).append
        (inner.append ((Ledger.keeps_note _ _).append (Ledger.keeps_unit noted _ _ _)))

theorem allEntries_keeps (plans : List Plan) {l : Ledger} (consistent : l.Consistent) :
    l.Keeps (allEntries c plans l) := by
  match plans with
  | [] => intro name; simp [allEntries]
  | plan :: rest =>
    rw [allEntries]
    exact (entries_keeps plan consistent).append
      (allEntries_keeps rest (Ledger.enterAll_consistent consistent _))

end

end Plan

structure WrittenOnce (units : List GeneratedUnit) : Prop where
  names : (units.map (·.qualifiedName)).Nodup
  paths : ∀ extension, (units.map (·.relativePath extension)).Nodup
  directories : ∀ extension, ∀ u ∈ units, ∀ v ∈ units, ∀ rest,
    v.relativePath extension ≠ u.relativePath extension ++ "/" ++ rest

namespace Proper

variable {c : Context} {u v : GeneratedUnit}

theorem path_plain (proper : Proper c u) : Path.Plain (u.directoryPath ++ [u.name]) := by
  intro segment member
  refine ⟨?_, proper.plain (by decide) segment member⟩
  rcases List.mem_append.mp member with member | member
  · exact ne_empty_of_isIdentifier (proper.directory segment member)
  · exact List.mem_singleton.mp member ▸ ne_empty_of_isIdentifier proper.name

theorem nested (proper : Proper c u) : u.directoryPath ≠ [] :=
  List.IsPrefix.ne_nil proper.rooted (by simp [Context.rootScope])

def stem (u : GeneratedUnit) : String := "/".intercalate (u.directoryPath ++ [u.name])

theorem path_eq (proper : Proper c u) (extension : String) :
    u.relativePath extension = stem u ++ "." ++ extension :=
  GeneratedUnit.relativePath_eq proper.path_plain proper.nested extension

theorem stem_clear (proper : Proper c u) : '.' ∉ (stem u).toList := by
  have plain := proper.plain (show isNameChar '.' = false by decide)
  exact Path.notMem_intercalate (by decide) plain

theorem qualifiedName_of_stem (first : Proper c u) (second : Proper c v)
    (same : stem u = stem v) : u.qualifiedName = v.qualifiedName := by
  -- files and qualified names have the same segments
  have slash : isNameChar '/' = false := by decide
  have segments := intercalate_injective (by rfl) (by simp) (by simp) (first.plain slash)
    (second.plain slash) same
  obtain ⟨directories, names⟩ := List.append_inj' segments rfl
  rw [first.qualifiedName, second.qualifiedName, directories, List.singleton_inj.mp names]

end Proper

theorem writtenOnce {c : Context} {units : List GeneratedUnit}
    (distinct : (units.map GeneratedUnit.qualifiedName).Nodup)
    (proper : ∀ u ∈ units, Proper c u) : WrittenOnce units where
  names := distinct
  paths extension := by
    apply List.Nodup.map_on _ (List.Nodup.of_map _ distinct)
    intro u first v second same
    rw [(proper u first).path_eq, (proper v second).path_eq] at same
    obtain ⟨stems, _⟩ :=
      Path.stem_injective (proper u first).stem_clear (proper v second).stem_clear same
    exact List.inj_on_of_nodup_map distinct first second
      ((proper u first).qualifiedName_of_stem (proper v second) stems)
  directories extension u first v second rest := by
    intro same
    rw [(proper u first).path_eq, (proper v second).path_eq] at same
    -- both texts agree up to the first dot, and what follows is longer in one of them
    have whole : Proper.stem v ++ "." ++ extension =
        Proper.stem u ++ "." ++ (extension ++ "/" ++ rest) := by
      rw [same]
      simp only [String.append_assoc]
    obtain ⟨_, extended⟩ :=
      Path.stem_injective (proper v second).stem_clear (proper u first).stem_clear whole
    have longer := congrArg String.length extended
    simp only [String.length_append] at longer
    have slash : "/".length = 1 := rfl
    omega

def Request.definitions (c : Context) : Request → List Definition
  | .definition d => [d]
  | .registered uid => (c.registry.lookup uid).toList
  | .support => []

theorem requests_rooted (c : Context) (requests : List Request) :
    Rooted c (requests.flatMap (Request.definitions c)) (requests.flatMap (Request.plans c)) := by
  intro plan member
  obtain ⟨request, among, asked⟩ := List.mem_flatMap.mp member
  have wanted (d : Definition) (own : d ∈ request.definitions c) :
      d ∈ requests.flatMap (Request.definitions c) := List.mem_flatMap.mpr ⟨request, among, own⟩
  cases request with
  | definition d =>
    have own : d ∈ Request.definitions c (.definition d) := List.mem_singleton_self d
    exact .inr ⟨d, wanted d own, List.mem_singleton.mp asked⟩
  | registered uid =>
    obtain ⟨d, found, rfl⟩ := List.mem_map.mp asked
    exact .inr ⟨d, wanted d found, rfl⟩
  | support => exact .inl asked

def journal (c : Context) (requests : List Request) : List Entry :=
  Plan.allEntries c (requests.flatMap (Request.plans c)) {}

-- The units that were emitted in turn, those included that were not kept.
def emissions (c : Context) (requests : List Request) : List GeneratedUnit :=
  (journal c requests).filterMap Entry.emitted?

theorem answerAll_journal (c : Context) (requests : List Request) :
    (answerAll c requests {}).2 = Ledger.enterAll {} (journal c requests) :=
  congrArg Prod.snd (answerAll_eq c requests rfl)

theorem answerAll_append (c : Context) (requests more : List Request) (l : Ledger) :
    (answerAll c (requests ++ more) l).2 = (answerAll c more (answerAll c requests l).2).2 := by
  induction requests generalizing l with
  | nil => rfl
  | cons request rest ih => exact ih (request.answer c l).2

theorem answerAll_extends (c : Context) (requests more : List Request) :
    (answerAll c requests {}).2.Extends (answerAll c (requests ++ more) {}).2 := by
  have idle : (answerAll c requests {}).2.inProgress = [] := by
    rw [answerAll_journal, Ledger.enterAll_inProgress]
  rw [answerAll_append, answerAll_eq c more idle]
  exact Plan.runAll_extends c _ _

theorem answerAll_writtenOnce (c : Context) (valid : c.options.Valid) (requests : List Request) :
    WrittenOnce (answerAll c requests {}).2.output.units ∧
      (answerAll c requests {}).2 = Ledger.enterAll {} (journal c requests) ∧
      (∀ name : String,
        (answerAll c requests {}).2.output.units.find? (·.qualifiedName = name) =
          (emissions c requests).find? (·.qualifiedName = name)) ∧
      ∀ more : List Request, (answerAll c requests {}).2.output.units <+:
        (answerAll c (requests ++ more) {}).2.output.units := by
  let plans := requests.flatMap (Request.plans c)
  have consistent : (Plan.runAll c plans {}).Consistent :=
    Plan.runAll_consistent c plans Ledger.empty_consistent
  refine ⟨?_, answerAll_journal c requests, ?_, fun more => (answerAll_extends c requests more).units⟩
  · rw [answerAll_eq c requests rfl]
    apply writtenOnce consistent.distinct
    intro u member
    obtain ⟨target, emits, _, purpose⟩ := exists_purpose (requests_rooted c requests) member
    exact purpose.proper valid emits
  · intro name
    rw [answerAll_eq c requests rfl]
    exact Plan.allEntries_keeps c plans Ledger.empty_consistent name

-- The second definition derives the name of the first one and is not kept.
def rivals : List Request :=
  [.registered "post", .definition (.new "draft" "Post" [.new "notes" .text]), .support,
    .registered "none", .registered "post"]

def posts : Context := ⟨.ofList [.new "post" "Post" [.new "body" .text]], {}⟩

theorem rivals_writtenOnce : posts.options.Valid ∧
    WrittenOnce (answerAll posts rivals {}).2.output.units ∧
    (answerAll posts rivals {}).2.output.units.map (fun u => (u.name, u.members.map (·.wire))) =
      [("Post", ["body"]), ("ContentstackLink", ["title", "href"]), ("ContentstackHelper", []),
        ("ContentstackStringExtension", []), ("DisplayNameAttribute", []),
        ("IEmbeddedObjectConverter", [])] := by
  have valid : posts.options.Valid := Options.default_valid
  refine ⟨valid, (answerAll_writtenOnce posts valid rivals).1, ?_⟩
  decide +kernel

end ContentModels.Emission
