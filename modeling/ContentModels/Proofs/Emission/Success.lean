import ContentModels.Proofs.Emission.Traversal

set_option autoImplicit false

namespace ContentModels.Emission

open Naming

variable {c : Context} {l : Ledger}

theorem reply_error_iff {request : Request} {failure : GenerationFailure} :
    request.reply c = .error failure ↔
      ∃ uid, request = .registered uid ∧ c.registry.lookup uid = none ∧
        failure = .unknownContentType uid := by
  cases request with
  | definition d => simp [Request.reply, Request.target, Except.map]
  | registered uid =>
    cases found : c.registry.lookup uid with
    | none => simp [Request.reply, Request.target, Except.map, found, eq_comm]
    | some d => simp [Request.reply, Request.target, Except.map, found]
  | support => simp [Request.reply, Request.target, Except.map]

structure Ready (c : Context) (l : Ledger) : Prop where
  idle : l.inProgress = []
  definition : ∀ d, (Request.answer c (.definition d) l).1 = .ok (some (definitionName d.title d.uid))
  support : (Request.answer c .support l).1 = .ok none
  registered : ∀ uid d, c.registry.lookup uid = some d →
    (Request.answer c (.registered uid) l).1 = .ok (some (definitionName d.title d.uid))
  refused : ∀ uid, c.registry.lookup uid = none →
    (∀ other, (Request.emit c (.registered uid)).runFrom other =
      (.error (.unknownContentType uid), other)) ∧
      Request.answer c (.registered uid) l = (.error (.unknownContentType uid), l)

theorem ready_of_idle (idle : l.inProgress = []) : Ready c l where
  idle := idle
  definition d := congrArg Prod.fst (answer_eq c (.definition d) idle)
  support := congrArg Prod.fst (answer_eq c .support idle)
  registered uid d found := by
    rw [answer_eq c _ idle, Request.reply, Request.target, found]
    rfl
  refused uid missing := by
    have unknown : (Request.registered uid).target c = .error (.unknownContentType uid) := by
      simp [Request.target, missing]
    exact ⟨Request.emit_refused c unknown, Request.emit_refused c unknown l⟩

theorem answerAll_idle (requests : List Request) (idle : l.inProgress = []) :
    (answerAll c requests l).2.inProgress = [] := by
  rw [answerAll_eq c requests idle, Plan.runAll_inProgress, idle]

theorem answerAll_refusal {requests : List Request} (idle : l.inProgress = [])
    {failure : GenerationFailure} (answered : .error failure ∈ (answerAll c requests l).1) :
    ∃ uid, .registered uid ∈ requests ∧ c.registry.lookup uid = none ∧
      failure = .unknownContentType uid := by
  rw [answerAll_eq c requests idle] at answered
  obtain ⟨request, asked, refused⟩ := List.mem_map.mp answered
  obtain ⟨uid, rfl, unknown, same⟩ := reply_error_iff.mp refused
  exact ⟨uid, asked, unknown, same⟩

theorem generate_succeeds (registry : Registry) (options : Options) :
    (∃ output, generate registry options = .ok output) ∧
      ∀ requests : List Request,
        Ready ⟨registry, options⟩ (answerAll ⟨registry, options⟩ requests {}).2 ∧
        ∀ failure, .error failure ∈ (answerAll ⟨registry, options⟩ requests {}).1 →
          (∀ unit path, failure ≠ .recursionCycle unit path) ∧
          ∃ uid, .registered uid ∈ requests ∧ registry.lookup uid = none ∧
            failure = .unknownContentType uid := by
  refine ⟨⟨_, generate_eq registry options⟩, fun requests => ⟨?_, ?_⟩⟩
  · exact ready_of_idle (answerAll_idle requests rfl)
  · intro failure answered
    obtain ⟨uid, asked, missing, rfl⟩ := answerAll_refusal rfl answered
    exact ⟨nofun, uid, asked, missing, rfl⟩

-- Each of the two global fields has a variant that takes its fields from the other one.
example : (generate
    (.ofList
      [(Definition.new "a" "A" [(Field.new "to" .blocks).withBlocks
          [(Definition.new "x" "X" []).referencing "b"]]).withOrigin .globalField,
        (Definition.new "b" "B" [(Field.new "to" .blocks).withBlocks
          [(Definition.new "x" "X" []).referencing "a"]]).withOrigin .globalField])
    { supportUnits := false }).toOption.map (fun output => output.units.map (·.name)) =
      some ["MBAToX", "MBAToEnum", "MBATo", "MBAToConverter", "A",
        "MBBToX", "MBBToEnum", "MBBTo", "MBBToConverter", "B"] := by
  decide +kernel

end ContentModels.Emission
