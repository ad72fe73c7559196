import Mathlib
import ContentModels.Proofs.Naming.MemberNames

set_option autoImplicit false

namespace ContentModels.Naming.MemberNames

structure Request where
  base : String
  -- The suffixes of the names that are claimed with a candidate.
  companions : List String

def Request.Proper (r : Request) : Prop := "" ∉ r.companions ∧ r.companions.Nodup

theorem Request.Proper.family_nodup {r : Request} (proper : r.Proper) (n : Nat) :
    (family r.base r.companions n).Nodup :=
  MemberNames.family_nodup r.base (List.nodup_cons.mpr proper) n

def after (m : MemberNames) : List Request → MemberNames
  | [] => m
  | r :: rest => (m.claim r.base r.companions).2.after rest

def taken (m : MemberNames) : List Request → List String
  | [] => []
  | r :: rest =>
    let (name, m) := m.claim r.base r.companions
    name :: r.companions.map (name ++ ·) ++ m.taken rest

-- What a claim does that takes the candidate with number `n`.
structure Grants (m : MemberNames) (r : Request) (n : Nat) : Prop where
  search : Reaches (m.isFree r.base r.companions) 1 n
  -- A used name stands in the way of one candidate for the base and one for each companion.
  tries : n ≤ m.used.length * (r.companions.length + 1) + 1
  least : IsLeast {k | 1 ≤ k ∧ ∀ name ∈ family r.base r.companions k, name ∉ m.used} n
  named : (m.claim r.base r.companions).1 = if n = 1 then r.base else r.base ++ toString n
  grown : (m.claim r.base r.companions).2.used.toFinset =
    m.used.toFinset ∪ (family r.base r.companions n).toFinset
  apart : Disjoint m.used.toFinset (family r.base r.companions n).toFinset
  count : (family r.base r.companions n).toFinset.card = 1 + r.companions.length

theorem claim_used (m : MemberNames) (base : String) (companions : List String) :
    (m.claim base companions).2.used =
      family base companions (m.freeNumber base companions) ++ m.used := rfl

theorem freeNumber_isLeast (m : MemberNames) (base : String) (companions : List String) :
    IsLeast {k | 1 ≤ k ∧ ∀ name ∈ family base companions k, name ∉ m.used}
      (m.freeNumber base companions) := by
  simpa only [isFree_iff] using (m.freeNumber_reaches base companions).isLeast

theorem freeNumber_le (m : MemberNames) (base : String) (companions : List String) :
    m.freeNumber base companions ≤ m.used.length * (companions.length + 1) + 1 := by
  obtain ⟨k, within, free⟩ := m.exists_free base companions
  have first := (m.freeNumber_isLeast base companions).2 ⟨by omega, isFree_iff.mp free⟩
  rw [mostMisses] at within
  omega

theorem claim_grants (m : MemberNames) {r : Request} (proper : r.Proper) :
    m.Grants r (m.freeNumber r.base r.companions) where
  search := m.freeNumber_reaches r.base r.companions
  tries := m.freeNumber_le r.base r.companions
  least := m.freeNumber_isLeast r.base r.companions
  named := rfl
  grown := by rw [claim_used, List.toFinset_append, Finset.union_comm]
  apart := by
    rw [List.disjoint_toFinset_iff_disjoint, List.disjoint_comm]
    exact isFree_iff.mp (m.freeNumber_isFree r.base r.companions)
  count := by
    rw [List.toFinset_card_of_nodup (proper.family_nodup _), family_eq, List.length_map,
      List.length_cons, Nat.add_comm]

theorem claim_eq_base_iff (m : MemberNames) (r : Request) :
    (m.claim r.base r.companions).1 = r.base ↔
      ∀ name ∈ r.base :: r.companions.map (r.base ++ ·), name ∉ m.used := by
  obtain ⟨⟨positive, free⟩, least⟩ := m.freeNumber_isLeast r.base r.companions
  rw [claim, candidate_eq_base]
  constructor
  · intro first
    rwa [first] at free
  · intro own
    have first := least ⟨le_rfl, own⟩
    omega

theorem taken_cons (m : MemberNames) (r : Request) (rest : List Request) :
    m.taken (r :: rest) = family r.base r.companions (m.freeNumber r.base r.companions) ++
      (m.claim r.base r.companions).2.taken rest := rfl

theorem taken_fresh (m : MemberNames) {requests : List Request}
    (proper : ∀ r ∈ requests, r.Proper) :
    (m.taken requests).Nodup ∧ m.used.Disjoint (m.taken requests) := by
  induction requests generalizing m with
  | nil => simp [taken]
  | cons r rest ih =>
    obtain ⟨own, others⟩ := List.forall_mem_cons.mp proper
    have free := isFree_iff.mp (m.freeNumber_isFree r.base r.companions)
    obtain ⟨later, apart⟩ := ih (m.claim r.base r.companions).2 others
    -- what the first claim takes is used when the others are made
    obtain ⟨first, kept⟩ := List.disjoint_append_left.mp apart
    rw [taken_cons]
    constructor
    · exact (own.family_nodup _).append later first
    · exact List.disjoint_append_right.mpr ⟨List.disjoint_right.mpr free, kept⟩

theorem after_used (m : MemberNames) (requests : List Request) :
    (m.after requests).used.toFinset = m.used.toFinset ∪ (m.taken requests).toFinset := by
  induction requests generalizing m with
  | nil => simp [after, taken]
  | cons r rest ih =>
    rw [after, ih, claim_used, taken_cons, List.toFinset_append, List.toFinset_append,
      Finset.union_comm (family _ _ _).toFinset, Finset.union_assoc]

theorem claims_firstFree (m : MemberNames) {r : Request} (own : r.Proper) {requests : List Request}
    (proper : ∀ r ∈ requests, r.Proper) :
    (∃ n, m.Grants r n) ∧
      ((m.claim r.base r.companions).1 = r.base ↔
        ∀ name ∈ r.base :: r.companions.map (r.base ++ ·), name ∉ m.used) ∧
      (m.taken requests).Nodup ∧ m.used.Disjoint (m.taken requests) ∧
      (m.after requests).used.toFinset = m.used.toFinset ∪ (m.taken requests).toFinset := by
  obtain ⟨distinct, apart⟩ := m.taken_fresh proper
  exact ⟨⟨_, m.claim_grants own⟩, m.claim_eq_base_iff r, distinct, apart, m.after_used requests⟩

def page : MemberNames := reserving ["Page", "BodyStore"]

def body : Request := ⟨"Body", ["Store"]⟩

def wishes : List Request := [body, ⟨"Body", []⟩, ⟨"Page", []⟩]

-- The companion of the first candidate is reserved, so a later claim still finds that candidate.
theorem page_firstFree :
    body.Proper ∧ (∀ r ∈ wishes, r.Proper) ∧
      page.taken wishes = ["Body2", "Body2Store", "Body", "Page2"] ∧
      (∃ n, page.Grants body n) ∧
      ((page.claim "Body" ["Store"]).1 = "Body" ↔
        ∀ name ∈ ["Body", "BodyStore"], name ∉ page.used) ∧
      (page.taken wishes).Nodup ∧ page.used.Disjoint (page.taken wishes) ∧
      (page.after wishes).used.toFinset = page.used.toFinset ∪ (page.taken wishes).toFinset := by
  have own : body.Proper := by simp [body, Request.Proper]
  have proper : ∀ r ∈ wishes, r.Proper := by simp [wishes, body, Request.Proper]
  exact ⟨own, proper, by decide, claims_firstFree page own proper⟩

end ContentModels.Naming.MemberNames
