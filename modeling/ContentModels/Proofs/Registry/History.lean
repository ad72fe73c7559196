import Mathlib
import ContentModels.Proofs.Registry

set_option autoImplicit false

namespace ContentModels.Registry

inductive Call where
  | register (d : Definition)
  | extend (definitions : List Definition)

namespace Call

def definitions : Call → List Definition
  | .register d => [d]
  | .extend definitions => definitions

def apply (r : Registry) : Call → Registry
  | .register d => (r.register d).2
  | .extend definitions => r.extend definitions

end Call

def after (calls : List Call) : Registry := calls.foldl Call.apply empty

def history (calls : List Call) : List Definition := calls.flatMap Call.definitions

theorem Call.apply_eq (r : Registry) (call : Call) : call.apply r = r.extend call.definitions := by
  cases call <;> rfl

theorem extend_append (r : Registry) (first rest : List Definition) :
    r.extend (first ++ rest) = (r.extend first).extend rest :=
  List.foldl_append

theorem after_eq (calls : List Call) : after calls = ofList (history calls) := by
  suffices step : ∀ r : Registry, calls.foldl Call.apply r = r.extend (history calls) from step empty
  induction calls with
  | nil => exact fun _ => rfl
  | cons call rest ih =>
    intro r
    simp only [List.foldl_cons, ih, Call.apply_eq, history, List.flatMap_cons, extend_append]

theorem after_coherent (calls : List Call) : (after calls).Coherent := by
  rw [after_eq]
  exact extend_coherent empty_coherent _

-- All that registering a definition can do.
theorem register_cases {r : Registry} (coherent : r.Coherent) (d : Definition) :
    (∃ i old, r.all[i]? = some old ∧ old.uid = d.uid ∧ (r.register d).1 = some old ∧
      (r.register d).2.all = r.all.set i d) ∨
    ((∀ other ∈ r.all, other.uid ≠ d.uid) ∧ (r.register d).1 = none ∧
      (r.register d).2.all = r.all ++ [d]) := by
  cases found : r.index[d.uid]? with
  | some i =>
    obtain ⟨old, there, same⟩ := (coherent d.uid i).mp found
    exact .inl ⟨i, old, there, same, by simp [register, found, there],
      by simp [register, found, all]⟩
  | none =>
    refine .inr ⟨?_, by simp [register, found], by simp [register, found, all]⟩
    intro other member same
    obtain ⟨i, there⟩ := List.mem_iff_getElem?.mp member
    have indexed := (coherent d.uid i).mpr ⟨other, there, same⟩
    simp [found] at indexed

def Latest (history : List Definition) (uid : String) (d : Definition) : Prop :=
  ∃ before later, history = before ++ d :: later ∧ d.uid = uid ∧ ∀ other ∈ later, other.uid ≠ uid

theorem Latest.unique {history : List Definition} {uid : String} {d other : Definition}
    (first : Latest history uid d) (second : Latest history uid other) : d = other := by
  obtain ⟨before, later, rfl, own, alone⟩ := first
  obtain ⟨before', later', same, own', alone'⟩ := second
  -- Whichever comes first would be followed by the other one.
  rcases List.append_eq_append_iff.mp same with ⟨between, -, tail⟩ | ⟨between, -, tail⟩
  all_goals
    cases between with
    | nil => simp_all
    | cons head rest => simp_all

theorem latest_last (earlier : List Definition) (d : Definition) :
    Latest (earlier ++ [d]) d.uid d :=
  ⟨earlier, [], rfl, rfl, by simp⟩

theorem Latest.append {earlier : List Definition} {uid : String} {d next : Definition}
    (latest : Latest earlier uid d) (other : next.uid ≠ uid) :
    Latest (earlier ++ [next]) uid d := by
  obtain ⟨before, later, rfl, own, alone⟩ := latest
  refine ⟨before, later ++ [next], by simp, own, ?_⟩
  intro e member
  rcases List.mem_append.mp member with member | member
  · exact alone e member
  · rwa [List.mem_singleton.mp member]

structure Keeps (r : Registry) (history : List Definition) : Prop where
  order : r.all.map (·.uid) = (history.map (·.uid)).eraseDups
  latest : ∀ d ∈ r.all, Latest history d.uid d

theorem empty_keeps : empty.Keeps [] := ⟨rfl, by simp [all, empty]⟩

theorem eraseDups_append_singleton (uids : List String) (uid : String) :
    (uids ++ [uid]).eraseDups = uids.eraseDups ++ if uid ∈ uids then [] else [uid] := by
  rw [List.eraseDups_append]
  by_cases known : uid ∈ uids <;> simp [List.removeAll, known, List.eraseDups_cons]

theorem Keeps.register {r : Registry} {history : List Definition} (keeps : r.Keeps history)
    (coherent : r.Coherent) (d : Definition) : (r.register d).2.Keeps (history ++ [d]) := by
  have known : d.uid ∈ history.map (·.uid) ↔ d.uid ∈ r.all.map (·.uid) := by
    rw [keeps.order, List.mem_eraseDups]
  have order := eraseDups_append_singleton (history.map (·.uid)) d.uid
  rw [← keeps.order] at order
  rcases register_cases coherent d with ⟨i, old, there, same, -, taken⟩ | ⟨fresh, -, added⟩
  · constructor
    next =>
      have seen := known.mpr (List.mem_map.mpr ⟨old, List.mem_of_getElem? there, same⟩)
      have kept : (r.all.set i d).map (·.uid) = r.all.map (·.uid) := by
        obtain ⟨bound, rfl⟩ := List.getElem?_eq_some_iff.mp there
        rw [List.map_set, ← same, ← List.map_set, List.set_getElem_self]
      rw [taken, kept, List.map_append, List.map_singleton, order, if_pos seen, List.append_nil]
    next =>
      rw [taken]
      intro e member
      obtain ⟨j, here⟩ := List.mem_iff_getElem?.mp member
      by_cases replaced : i = j
      · obtain ⟨bound, -⟩ := List.getElem?_eq_some_iff.mp there
        obtain rfl : d = e := by simpa [List.getElem?_set, replaced ▸ bound, replaced] using here
        exact latest_last history d
      · rw [List.getElem?_set_ne replaced] at here
        refine (keeps.latest e (List.mem_of_getElem? here)).append fun alike => replaced ?_
        exact coherent.position_unique there here (same.trans alike)
  · constructor
    next =>
      have unseen : d.uid ∉ history.map (·.uid) := by
        simpa [known] using fresh
      rw [added, List.map_append, List.map_append, List.map_singleton, order, if_neg unseen]
    next =>
      rw [added]
      intro e member
      rcases List.mem_append.mp member with member | member
      · exact (keeps.latest e member).append (fresh e member).symm
      · rw [List.mem_singleton.mp member]
        exact latest_last history d

theorem Keeps.extend {r : Registry} {history : List Definition} (keeps : r.Keeps history)
    (coherent : r.Coherent) (definitions : List Definition) :
    (r.extend definitions).Keeps (history ++ definitions) := by
  induction definitions generalizing r history with
  | nil => simpa [Registry.extend] using keeps
  | cons d rest ih =>
    have later := ih (keeps.register coherent d) (register_coherent coherent d)
    simpa [Registry.extend] using later

theorem after_keeps (calls : List Call) : (after calls).Keeps (history calls) := by
  rw [after_eq]
  exact empty_keeps.extend empty_coherent _

theorem Keeps.mem_uids {r : Registry} {history : List Definition} (keeps : r.Keeps history)
    (uid : String) : uid ∈ r.all.map (·.uid) ↔ uid ∈ history.map (·.uid) := by
  rw [keeps.order, List.mem_eraseDups]

theorem Keeps.lookup_eq_some {r : Registry} {history : List Definition} (keeps : r.Keeps history)
    (coherent : r.Coherent) (uid : String) (d : Definition) :
    r.lookup uid = some d ↔ Latest history uid d := by
  rw [coherent.lookup_eq_some]
  constructor
  · rintro ⟨member, rfl⟩
    exact keeps.latest d member
  · intro latest
    have seen : uid ∈ history.map (·.uid) := by
      obtain ⟨before, later, rfl, own, -⟩ := latest
      simp [own]
    obtain ⟨e, member, same⟩ := List.mem_map.mp ((keeps.mem_uids uid).mpr seen)
    obtain rfl := latest.unique (same ▸ keeps.latest e member)
    exact ⟨member, same⟩

theorem Coherent.index_eq_some {r : Registry} (coherent : r.Coherent) (uid : String)
    (position : Nat) :
    r.index[uid]? = some position ↔ (r.all.map (·.uid))[position]? = some uid := by
  rw [coherent uid position, List.getElem?_map, Option.map_eq_some_iff]
  rfl

theorem Coherent.nodup {r : Registry} (coherent : r.Coherent) : (r.all.map (·.uid)).Nodup := by
  rw [List.nodup_iff_getElem?_ne_getElem?]
  intro i j earlier bound same
  have there := List.getElem?_eq_getElem bound
  have first := (coherent.index_eq_some _ i).mpr (same.trans there)
  have second := (coherent.index_eq_some _ j).mpr there
  have := Option.some.inj (first.symm.trans second)
  omega

theorem Coherent.contains_iff {r : Registry} (coherent : r.Coherent) (uid : String) :
    r.contains uid = true ↔ uid ∈ r.all.map (·.uid) := by
  rw [contains, Std.TreeMap.contains_eq_isSome_getElem?, Option.isSome_iff_exists,
    List.mem_iff_getElem?]
  simp only [coherent.index_eq_some]

theorem ofOrigin_split (r : Registry) : (r.contentTypes ++ r.globalFields).Perm r.all := by
  have other : (fun d : Definition => decide (d.origin = .globalField)) =
      fun d => !decide (d.origin = .contentType) := by
    funext d
    cases d.origin <;> rfl
  rw [contentTypes, globalFields, ofOrigin, ofOrigin, other]
  exact List.filter_append_perm _ _

structure Maps (r : Registry) (history : List Definition) : Prop where
  distinct : (r.all.map (·.uid)).Nodup
  order : r.all.map (·.uid) = (history.map (·.uid)).eraseDups
  latest : ∀ d ∈ r.all, Latest history d.uid d ∧ r.lookup d.uid = some d
  lookup : ∀ uid d, r.lookup uid = some d ↔ Latest history uid d
  found : ∀ uid : String, (r.lookup uid).isSome = true ↔ uid ∈ history.map (·.uid)
  contains : ∀ uid : String, r.contains uid = true ↔ uid ∈ history.map (·.uid)
  size : r.size = (history.map (·.uid)).toFinset.card
  index : ∀ (uid : String) (position : Nat),
    r.index[uid]? = some position ↔ (r.all.map (·.uid))[position]? = some uid
  contentTypes : r.contentTypes.Sublist r.all ∧ ∀ d ∈ r.contentTypes, d.origin = .contentType
  globalFields : r.globalFields.Sublist r.all ∧ ∀ d ∈ r.globalFields, d.origin = .globalField
  split : (r.contentTypes ++ r.globalFields).Perm r.all

theorem Keeps.found_iff {r : Registry} {history : List Definition} (keeps : r.Keeps history)
    (coherent : r.Coherent) (uid : String) :
    (r.lookup uid).isSome = true ↔ uid ∈ history.map (·.uid) := by
  simp only [← keeps.mem_uids, Option.isSome_iff_exists, coherent.lookup_eq_some, List.mem_map]

theorem Keeps.maps {r : Registry} {history : List Definition} (keeps : r.Keeps history)
    (coherent : r.Coherent) : r.Maps history where
  distinct := coherent.nodup
  order := keeps.order
  latest d member := ⟨keeps.latest d member, (coherent.lookup_eq_some d.uid d).mpr ⟨member, rfl⟩⟩
  lookup := keeps.lookup_eq_some coherent
  found := keeps.found_iff coherent
  contains uid := (coherent.contains_iff uid).trans (keeps.mem_uids uid)
  size := by
    have uids : (history.map (·.uid)).toFinset = (r.all.map (·.uid)).toFinset := by
      ext uid
      simp only [List.mem_toFinset, keeps.mem_uids]
    rw [uids, List.toFinset_card_of_nodup coherent.nodup, List.length_map]
    rfl
  index := coherent.index_eq_some
  contentTypes := ⟨List.filter_sublist, by simp [Registry.contentTypes, ofOrigin]⟩
  globalFields := ⟨List.filter_sublist, by simp [Registry.globalFields, ofOrigin]⟩
  split := ofOrigin_split r

-- Whether a definition takes the place of the one that registering it returns, or a new one.
def Replaces (r : Registry) (d : Definition) : Option Definition → Prop
  | some old => ∃ i : Nat, r.all[i]? = some old ∧ (r.register d).2.all = r.all.set i d
  | none => (r.register d).2.all = r.all ++ [d]

theorem register_returns (r : Registry) (d : Definition) : (r.register d).1 = r.lookup d.uid := by
  unfold register lookup
  cases r.index[d.uid]? <;> rfl

theorem Coherent.replaces {r : Registry} (coherent : r.Coherent) (d : Definition) :
    r.Replaces d (r.register d).1 := by
  rcases register_cases coherent d with ⟨i, old, there, -, returned, taken⟩ | ⟨-, returned, added⟩
  · rw [returned]
    exact ⟨i, there, taken⟩
  · rw [returned]
    exact added

theorem after_maps (calls : List Call) :
    (after calls).Maps (history calls) ∧
      (∀ d, ((after calls).register d).1 = (after calls).lookup d.uid ∧
        (after calls).Replaces d ((after calls).register d).1) ∧
      ∀ definitions, (after calls).extend definitions =
        after (calls ++ definitions.map .register) := by
  have coherent := after_coherent calls
  refine ⟨(after_keeps calls).maps coherent, fun d => ?_, fun definitions => ?_⟩
  · exact ⟨register_returns _ d, coherent.replaces d⟩
  · rw [after, after, List.foldl_append, List.foldl_map]
    rfl

-- The second registration of a uid takes the place of the first, with another origin.
example :
    let r := after [.extend [.new "a" "A" [], .new "b" "B" []],
      .register ((Definition.new "a" "C" []).withOrigin .globalField)]
    r.all.map (·.title) = ["C", "B"] ∧ r.globalFields.map (·.uid) = ["a"] ∧
      (r.register (.new "b" "D" [])).1.map (·.title) = some "B" := by
  decide +kernel

end ContentModels.Registry
