import Mathlib
import ContentModels.Registry

set_option autoImplicit false

namespace ContentModels.Registry

inductive Built : Registry → Prop
  | empty : Built .empty
  | register {r : Registry} (built : Built r) (d : Definition) : Built (r.register d).2
  | extend {r : Registry} (built : Built r) (definitions : List Definition) :
      Built (r.extend definitions)

def Coherent (r : Registry) : Prop :=
  ∀ (uid : String) (position : Nat),
    r.index[uid]? = some position ↔ ∃ d, r.entries[position]? = some d ∧ d.uid = uid

theorem empty_coherent : empty.Coherent := by
  intro uid position
  simp [empty]

theorem register_coherent {r : Registry} (coherent : r.Coherent) (d : Definition) :
    (r.register d).2.Coherent := by
  intro uid position
  unfold register
  cases found : r.index[d.uid]? with
  | some earlier =>
    obtain ⟨replaced, there, same⟩ := (coherent d.uid earlier).mp found
    obtain ⟨bound, kept⟩ := List.getElem?_eq_some_iff.mp there
    rw [coherent uid position]
    by_cases here : position = earlier
    · subst here
      simp [bound, kept, same]
    · simp [List.getElem?_set_ne (Ne.symm here)]
  | none =>
    have fresh : ∀ other ∈ r.entries, other.uid ≠ d.uid := by
      intro other member same
      obtain ⟨i, there⟩ := List.mem_iff_getElem?.mp member
      have := (coherent d.uid i).mpr ⟨other, there, same⟩
      simp [found] at this
    by_cases own : d.uid = uid
    · subst own
      rw [Std.TreeMap.getElem?_insert_self]
      constructor
      · rintro ⟨⟩
        exact ⟨d, by simp, rfl⟩
      · rintro ⟨other, there, same⟩
        rcases List.mem_append.mp (List.mem_of_getElem? there) with member | member
        · exact absurd same (fresh other member)
        · have last : ¬ position < r.entries.length := by
            intro early
            rw [List.getElem?_append_left early] at there
            exact fresh other (List.mem_of_getElem? there) same
          have bound := (List.getElem?_eq_some_iff.mp there).1
          simp only [List.length_append, List.length_singleton] at bound
          exact congrArg some (by omega)
    · simp only [Std.TreeMap.getElem?_insert, compare_eq_iff_eq, own, if_false, coherent uid position]
      constructor
      · rintro ⟨other, there, same⟩
        have bound := (List.getElem?_eq_some_iff.mp there).1
        exact ⟨other, by rw [List.getElem?_append_left bound, there], same⟩
      · rintro ⟨other, there, same⟩
        refine ⟨other, ?_, same⟩
        rw [List.getElem?_append] at there
        split at there
        · exact there
        · have last := List.mem_singleton.mp (List.mem_of_getElem? there)
          exact absurd (last ▸ same) own

theorem extend_coherent {r : Registry} (coherent : r.Coherent) (definitions : List Definition) :
    (r.extend definitions).Coherent := by
  induction definitions generalizing r with
  | nil => exact coherent
  | cons d rest ih => exact ih (register_coherent coherent d)

theorem Built.coherent {r : Registry} (built : r.Built) : r.Coherent := by
  induction built with
  | empty => exact empty_coherent
  | register _ d ih => exact register_coherent ih d
  | extend _ definitions ih => exact extend_coherent ih definitions

theorem Coherent.position_unique {r : Registry} (coherent : r.Coherent) {i j : Nat}
    {d other : Definition} (first : r.all[i]? = some d) (second : r.all[j]? = some other)
    (same : d.uid = other.uid) : i = j := by
  have here := (coherent d.uid i).mpr ⟨d, first, rfl⟩
  have there := (coherent d.uid j).mpr ⟨other, second, same.symm⟩
  exact Option.some.inj (here.symm.trans there)

theorem mem_of_lookup {r : Registry} {uid : String} {d : Definition}
    (found : r.lookup uid = some d) : d ∈ r.all := by
  unfold lookup at found
  split at found
  · cases found
  · exact List.mem_of_getElem? found

theorem Coherent.lookup_eq_some {r : Registry} (coherent : r.Coherent) (uid : String)
    (d : Definition) : r.lookup uid = some d ↔ d ∈ r.all ∧ d.uid = uid := by
  unfold lookup
  cases found : r.index[uid]? with
  | none =>
    simp only [reduceCtorEq, false_iff]
    rintro ⟨member, same⟩
    obtain ⟨i, there⟩ := List.mem_iff_getElem?.mp member
    have := (coherent uid i).mpr ⟨d, there, same⟩
    simp [found] at this
  | some position =>
    obtain ⟨kept, there, own⟩ := (coherent uid position).mp found
    constructor
    · intro here
      have equal := Option.some.inj (there.symm.trans here)
      exact ⟨List.mem_of_getElem? here, equal ▸ own⟩
    · rintro ⟨member, same⟩
      obtain ⟨i, at_⟩ := List.mem_iff_getElem?.mp member
      rw [← coherent.position_unique at_ there (same.trans own.symm)]
      exact at_

end ContentModels.Registry
