import ContentModels.Proofs.Emission.Uniqueness

set_option autoImplicit false

namespace ContentModels.Emission

variable (c : Context)

namespace Plan

-- A note would be entered again, but whatever has a key is done once.
theorem run_of_covered {plan : Plan} {l : Ledger} (keyed : plan.key? c ≠ none)
    (covered : l.Covers c plan) : run c plan l = l := by
  cases plan with
  | note => exact absurd rfl keyed
  | unit uid role u =>
    have done : l.isCompleted (unitKey uid role u) = true := covered
    rw [run_unit, Ledger.pushOnce_eq, if_pos done]
  | model o nested => exact run_model_done c covered nested

theorem runAll_of_covered {plans : List Plan} {l : Ledger}
    (keyed : ∀ plan ∈ plans, plan.key? c ≠ none) (covered : ∀ plan ∈ plans, l.Covers c plan) :
    runAll c plans l = l := by
  induction plans with
  | nil => rfl
  | cons plan rest ih =>
    have first := run_of_covered c (keyed plan List.mem_cons_self) (covered plan List.mem_cons_self)
    rw [runAll_cons, first]
    exact ih (fun other member => keyed other (List.mem_cons_of_mem plan member))
      fun other member => covered other (List.mem_cons_of_mem plan member)

end Plan

namespace Request

theorem plans_keyed (request : Request) : ∀ plan ∈ request.plans c, plan.key? c ≠ none := by
  intro plan member
  cases request with
  | definition d =>
    rw [List.mem_singleton.mp member]
    exact nofun
  | registered uid =>
    obtain ⟨d, _, rfl⟩ := List.mem_map.mp member
    exact nofun
  | support =>
    obtain ⟨u, _, rfl⟩ := List.mem_map.mp member
    exact nofun

def targetPlans : Except GenerationFailure (Option Definition) → List Plan
  | .ok (some d) => [definitionPlan c d]
  | .ok none => supportPlans c
  | .error _ => []

theorem plans_eq (request : Request) : request.plans c = targetPlans c (request.target c) := by
  cases request with
  | definition d => rfl
  | support => rfl
  | registered uid =>
    cases found : c.registry.lookup uid <;> simp [plans, target, targetPlans, found]

end Request

def reached (requests : List Request) : Ledger := (answerAll c requests {}).2

theorem reached_idle (requests : List Request) : (reached c requests).inProgress = [] := by
  rw [reached, answerAll_journal, Ledger.enterAll_inProgress]

theorem reached_covers {requests : List Request} {request : Request} (asked : request ∈ requests) :
    ∀ plan ∈ request.plans c, (reached c requests).Covers c plan := by
  intro plan member
  rw [reached, answerAll_eq c requests rfl]
  exact Plan.runAll_covers c _ {} plan (List.mem_flatMap.mpr ⟨request, asked, member⟩)

theorem answer_again {requests : List Request} {earlier request : Request}
    (asked : earlier ∈ requests) (same : earlier.target c = request.target c) :
    request.answer c (reached c requests) = (request.reply c, reached c requests) := by
  have plans : request.plans c = earlier.plans c := by
    rw [request.plans_eq, earlier.plans_eq, same]
  rw [answer_eq c request (reached_idle c requests), plans,
    Plan.runAll_of_covered c (earlier.plans_keyed c) (reached_covers c asked)]

theorem answer_cumulative (requests : List Request) (request : Request) :
    (reached c requests).units.toList <+:
        (request.answer c (reached c requests)).2.units.toList ∧
      (reached c requests).diagnostics.toList <+:
        (request.answer c (reached c requests)).2.diagnostics.toList ∧
      ∀ (before after : List Request) (earlier : Request), requests = before ++ earlier :: after →
        earlier.target c = request.target c →
        request.answer c (reached c requests) =
          ((earlier.answer c (reached c before)).1, reached c requests) := by
  have later : (reached c requests).Extends (request.answer c (reached c requests)).2 := by
    rw [answer_eq c request (reached_idle c requests)]
    exact Plan.runAll_extends c _ _
  refine ⟨later.units, later.diagnostics, fun before after earlier cut same => ?_⟩
  have asked : earlier ∈ requests := by simp [cut]
  -- no answer depends on what has been emitted before
  have first : (earlier.answer c (reached c before)).1 = request.reply c := by
    rw [answer_eq c earlier (reached_idle c before), Request.reply, Request.reply, same]
  rw [answer_again c asked same, first]

-- The draft lost its name to the post. Asked for again, it is neither emitted nor reported.
example :
    let c : Context := ⟨.ofList [.new "post" "Post" [.new "body" .text]], {}⟩
    let draft : Request := .definition (.new "draft" "Post" [.new "notes" .text])
    let l := reached c [.registered "post", draft, .support]
    l.diagnostics.size = 1 ∧ (draft.answer c l).2.diagnostics = l.diagnostics ∧
      (draft.answer c l).2.units = l.units := by
  decide +kernel

end ContentModels.Emission
