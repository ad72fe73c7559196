import Mathlib
import ContentModels.Proofs.Json.Reading

set_option autoImplicit false

namespace ContentModels.Json

section Except

variable {α β : Type}

theorem bind_eq_ok {act : Except Fault α} {next : α → Except Fault β} {b : β} :
    (act >>= next) = .ok b ↔ ∃ a, act = .ok a ∧ next a = .ok b := by
  cases act <;> simp [bind, Except.bind]

theorem map_eq_ok {act : Except Fault α} {f : α → β} {b : β} :
    f <$> act = .ok b ↔ ∃ a, act = .ok a ∧ f a = b := by
  cases act <;> simp

theorem exists_of_mapM {read : α → Except Fault β} {items : List α} {values : List β}
    (found : items.mapM read = .ok values) : ∀ v ∈ values, ∃ item ∈ items, read item = .ok v := by
  induction items generalizing values with
  | nil =>
    cases found
    simp
  | cons item items ih =>
    rw [List.mapM_cons] at found
    obtain ⟨first, head, found⟩ := bind_eq_ok.mp found
    obtain ⟨rest, tail, found⟩ := bind_eq_ok.mp found
    cases found
    intro v among
    rcases List.mem_cons.mp among with rfl | later
    · exact ⟨item, List.mem_cons_self, head⟩
    · obtain ⟨other, member, read⟩ := ih tail v later
      exact ⟨other, List.mem_cons_of_mem item member, read⟩

theorem foldlM_cons_ok {step : β → α → Except Fault β} {item : α} {items : List α} {b next : β}
    (taken : step b item = .ok next) : (item :: items).foldlM step b = items.foldlM step next := by
  rw [List.foldlM_cons, taken]
  rfl

theorem foldlM_append_ok {step : β → α → Except Fault β} {items others : List α} {b next : β}
    (taken : items.foldlM step b = .ok next) :
    (items ++ others).foldlM step b = others.foldlM step next := by
  rw [List.foldlM_append, taken]
  rfl

end Except

namespace Value

mutual

def depth : Value → Nat
  | .array items => itemsDepth items + 1
  | .object members => membersDepth members + 1
  | _ => 0

def itemsDepth : List Value → Nat
  | [] => 0
  | item :: rest => max item.depth (itemsDepth rest)

def membersDepth : List (String × Value) → Nat
  | [] => 0
  | (_, value) :: rest => max value.depth (membersDepth rest)

end

theorem itemsDepth_le (items : List Value) (bound : Nat) :
    itemsDepth items ≤ bound ↔ ∀ item ∈ items, item.depth ≤ bound := by
  induction items with
  | nil => simp [itemsDepth]
  | cons item items ih => simp [itemsDepth, ih]

theorem membersDepth_le (members : List (String × Value)) (bound : Nat) :
    membersDepth members ≤ bound ↔ ∀ member ∈ members, member.2.depth ≤ bound := by
  induction members with
  | nil => simp [membersDepth]
  | cons member members ih => simp [membersDepth, ih]

theorem depth_array_le {items : List Value} {budget : Nat} :
    (Value.array items).depth ≤ budget ↔
      ∃ rest, budget = rest + 1 ∧ ∀ item ∈ items, item.depth ≤ rest := by
  simp only [depth, ← itemsDepth_le]
  exact ⟨fun most => ⟨budget - 1, by omega, by omega⟩, fun ⟨rest, same, most⟩ => by omega⟩

theorem depth_object_le {members : List (String × Value)} {budget : Nat} :
    (Value.object members).depth ≤ budget ↔
      ∃ rest, budget = rest + 1 ∧ ∀ member ∈ members, member.2.depth ≤ rest := by
  simp only [depth, ← membersDepth_le]
  exact ⟨fun most => ⟨budget - 1, by omega, by omega⟩, fun ⟨rest, same, most⟩ => by omega⟩

def Ordered (members : List (String × Value)) : Prop :=
  members.Pairwise fun earlier later => earlier.1 < later.1

theorem mem_insert {key : String} {value : Value} {members : List (String × Value)}
    {member : String × Value} (among : member ∈ insert key value members) :
    member = (key, value) ∨ member ∈ members := by
  fun_induction insert key value members with
  | case1 => simpa using among
  | case2 => simpa using among
  | case3 => grind
  | case4 => grind

theorem ordered_insert (key : String) (value : Value) {members : List (String × Value)}
    (ordered : Ordered members) : Ordered (insert key value members) := by
  unfold Ordered at ordered ⊢
  fun_induction insert key value members with
  | case1 => simp
  | case2 k v rest before =>
    refine List.pairwise_cons.mpr ⟨?_, ordered⟩
    intro member among
    rcases List.mem_cons.mp among with rfl | later
    · exact before
    · exact before.trans (List.rel_of_pairwise_cons ordered later)
  | case3 v rest before => exact List.pairwise_cons.mpr (List.pairwise_cons.mp ordered)
  | case4 k v rest notBefore different ih =>
    obtain ⟨first, others⟩ := List.pairwise_cons.mp ordered
    refine List.pairwise_cons.mpr ⟨?_, ih others⟩
    intro member among
    rcases mem_insert among with rfl | later
    · exact lt_of_le_of_ne (not_lt.mp notBefore) (Ne.symm different)
    · exact first member later

-- A member whose key comes last is added at the end.
theorem insert_last {key : String} (value : Value) {members : List (String × Value)}
    (last : ∀ member ∈ members, member.1 < key) :
    insert key value members = members ++ [(key, value)] := by
  induction members with
  | nil => rfl
  | cons member members ih =>
    have before := last member List.mem_cons_self
    rw [insert, if_neg before.not_gt, if_neg before.ne',
      ih fun other among => last other (List.mem_cons_of_mem _ among), List.cons_append]

end Value

namespace Draft

@[simp] theorem value_null (budget : Nat) : Draft.value budget .null = .ok .null := by
  cases budget <;> rfl

@[simp] theorem value_boolean (budget : Nat) (b : Bool) :
    Draft.value budget (.boolean b) = .ok (.boolean b) := by
  cases budget <;> rfl

@[simp] theorem value_number (budget : Nat) (n : Option Number) :
    Draft.value budget (.number n) =
      match n with
      | some n => .ok (.number n)
      | none => .error .malformed := by
  cases budget <;> cases n <;> rfl

@[simp] theorem value_string (budget : Nat) (quoted : Quoted) :
    Draft.value budget (.string quoted) = .string <$> quoted.text := by
  cases budget <;> rfl

theorem listOf_eq_ok {α : Type} {read : Draft → Except Fault α} {items : List Draft}
    {fault : Option Fault} {values : List α} :
    listOf read (.array items fault) = .ok values ↔
      items.mapM read = .ok values ∧ fault = none := by
  simp only [listOf, bind_eq_ok, closed]
  cases fault <;> simp

end Draft

namespace Value

-- A value that is read as it is from its own text, floating point numbers aside.
structure Settled (v : Value) : Prop where
  inRange : ∀ n ∈ v.numbers, n.InRange
  rereads : ∀ budget, v.depth ≤ budget → Draft.value budget v.draft = .ok v

theorem listOf_draft {α : Type} {read : Draft → Except Fault α} (encode : α → Value)
    {values : List α} (each : ∀ a ∈ values, read (encode a).draft = .ok a) :
    Draft.listOf read (Value.array (values.map encode)).draft = .ok values := by
  have listed : (itemDrafts (values.map encode)).mapM read = .ok values := by
    induction values with
    | nil => rfl
    | cons a values ih =>
      obtain ⟨first, others⟩ := List.forall_mem_cons.mp each
      simp [itemDrafts, first, ih others, bind, Except.bind, pure, Except.pure]
  exact Draft.listOf_eq_ok.mpr ⟨listed, rfl⟩

theorem settled_string (s : String) : (Value.string s).Settled where
  inRange := by simp [numbers]
  rereads budget _ := Draft.value_string budget (.of s)

theorem settled_array {items : List Value} (each : ∀ item ∈ items, item.Settled) :
    (Value.array items).Settled where
  inRange := by
    simp only [numbers, mem_itemNumbers]
    rintro n ⟨item, member, held⟩
    exact (each item member).inRange n held
  rereads := by
    intro budget shallow
    obtain ⟨rest, rfl, within⟩ := depth_array_le.mp shallow
    have read := listOf_draft id (fun item member =>
      (each item member).rereads rest (within item member))
    rw [List.map_id] at read
    exact map_eq_ok.mpr ⟨items, read, rfl⟩

end Value

def Draft.addMember (budget : Nat) (done : List (String × Value)) (member : Quoted × Draft) :
    Except Fault (List (String × Value)) := do
  let key ← member.1.text
  let item ← Draft.value budget member.2
  .ok (Value.insert key item done)

theorem Draft.value_object_eq_ok {budget : Nat} {members : List (Quoted × Draft)}
    {fault : Option Fault} {v : Value} :
    Draft.value (budget + 1) (.object members fault) = .ok v ↔
      ∃ values, members.foldlM (addMember budget) [] = .ok values ∧ fault = none ∧
        v = .object values := by
  have opened : Draft.value (budget + 1) (.object members fault) = (do
      let values ← members.foldlM (addMember budget) []
      closed fault
      .ok (.object values)) := rfl
  rw [opened]
  simp only [bind_eq_ok, closed]
  cases fault <;> simp [eq_comm]

namespace Value

theorem foldlM_memberDrafts {members : List (String × Value)} {budget : Nat}
    (each : ∀ member ∈ members, Draft.value budget member.2.draft = .ok member.2)
    {done : List (String × Value)} (ordered : Ordered (done ++ members)) :
    (memberDrafts members).foldlM (Draft.addMember budget) done = .ok (done ++ members) := by
  induction members generalizing done with
  | nil => simp [memberDrafts, pure, Except.pure]
  | cons member members ih =>
    obtain ⟨key, value⟩ := member
    obtain ⟨first, others⟩ := List.forall_mem_cons.mp each
    have last : ∀ member ∈ done, member.1 < key := fun member among =>
      (List.pairwise_append.mp ordered).2.2 member among _ List.mem_cons_self
    rw [List.append_cons] at ordered
    have step : Draft.addMember budget done (.of key, value.draft) =
        .ok (done ++ [(key, value)]) := by
      rw [← insert_last value last]
      simp [Draft.addMember, Quoted.of, first, bind, Except.bind]
    rw [memberDrafts, foldlM_cons_ok step, ih others ordered, ← List.append_cons]

theorem settled_object {members : List (String × Value)}
    (each : ∀ member ∈ members, member.2.Settled) (ordered : Ordered members) :
    (Value.object members).Settled where
  inRange := by
    simp only [numbers, mem_memberNumbers]
    rintro n ⟨member, among, held⟩
    exact (each member among).inRange n held
  rereads := by
    intro budget shallow
    obtain ⟨rest, rfl, within⟩ := depth_object_le.mp shallow
    have read : (memberDrafts members).foldlM (Draft.addMember rest) [] = .ok members :=
      foldlM_memberDrafts (fun member among =>
        (each member among).rereads rest (within member among)) ordered
    exact Draft.value_object_eq_ok.mpr ⟨members, read, rfl, rfl⟩

end Value

theorem Draft.addMember_run {budget : Nat} {members : List (Quoted × Draft)}
    {done values : List (String × Value)}
    (settles : ∀ member ∈ members, ∀ v, Draft.value budget member.2 = .ok v → v.Settled)
    (settled : ∀ member ∈ done, member.2.Settled) (ordered : Value.Ordered done)
    (read : members.foldlM (addMember budget) done = .ok values) :
    (∀ member ∈ values, member.2.Settled) ∧ Value.Ordered values := by
  induction members generalizing done with
  | nil =>
    cases read
    exact ⟨settled, ordered⟩
  | cons member members ih =>
    obtain ⟨first, others⟩ := List.forall_mem_cons.mp settles
    obtain ⟨next, added, rest⟩ := bind_eq_ok.mp (List.foldlM_cons.symm.trans read)
    obtain ⟨key, -, added⟩ := bind_eq_ok.mp added
    obtain ⟨item, found, added⟩ := bind_eq_ok.mp added
    cases added
    refine ih others ?_ (Value.ordered_insert key item ordered) rest
    intro other among
    rcases Value.mem_insert among with rfl | before
    · exact first item found
    · exact settled other before

-- The recursion is on the budget, which goes down into arrays and objects.
theorem Draft.value_settled : ∀ {budget : Nat} {d : Draft} {v : Value}, d.InRange →
    Draft.value budget d = .ok v → v.Settled
  | _, .null, _, _, read => by
    rw [value_null] at read
    cases read
    exact ⟨by simp [Value.numbers], fun budget _ => value_null budget⟩
  | _, .boolean b, _, _, read => by
    rw [value_boolean] at read
    cases read
    exact ⟨by simp [Value.numbers], fun budget _ => value_boolean budget b⟩
  | _, .number none, _, _, read => by
    rw [value_number] at read
    cases read
  | _, .number (some n), _, ranged, read => by
    rw [value_number] at read
    cases read
    exact ⟨by simpa [Value.numbers] using ranged n (List.mem_singleton_self n),
      fun budget _ => value_number budget (some n)⟩
  | _, .string quoted, _, _, read => by
    rw [value_string] at read
    obtain ⟨s, -, rfl⟩ := map_eq_ok.mp read
    exact Value.settled_string s
  | 0, .array _ _, _, _, read => nomatch read
  | 0, .object _ _, _, _, read => nomatch read
  | budget + 1, .array items fault, _, ranged, read => by
    rw [inRange_array] at ranged
    obtain ⟨values, listed, rfl⟩ := map_eq_ok.mp read
    refine Value.settled_array fun v among => ?_
    obtain ⟨item, member, read⟩ := exists_of_mapM (listOf_eq_ok.mp listed).1 v among
    exact value_settled (ranged item member) read
  | budget + 1, .object members fault, _, ranged, read => by
    rw [inRange_object] at ranged
    obtain ⟨values, added, -, rfl⟩ := value_object_eq_ok.mp read
    obtain ⟨each, ordered⟩ := addMember_run
      (fun member among v => value_settled (ranged member among)) (by simp) List.Pairwise.nil
      added
    exact Value.settled_object each ordered
  | 0, .broken _, _, _, read => nomatch read
  | 0, .cut _, _, _, read => nomatch read
  | _ + 1, .broken _, _, _, read => nomatch read
  | _ + 1, .cut _, _, _, read => nomatch read

theorem Draft.value_eq_null {budget : Nat} {d : Draft}
    (read : Draft.value budget d = .ok .null) : d = .null := by
  unfold Draft.value at read
  split at read
  case h_1 => rfl
  case h_4 | h_5 =>
    obtain ⟨_, -, other⟩ := map_eq_ok.mp read
    cases other
  case h_6 =>
    obtain ⟨_, -, closing⟩ := bind_eq_ok.mp read
    obtain ⟨_, -, other⟩ := bind_eq_ok.mp closing
    cases other
  all_goals cases read

def Draft.parts : Draft → List Draft
  | .array items _ => items
  | .object members _ => members.map Prod.snd
  | _ => []

theorem Draft.InRange.part {d part : Draft} (ranged : d.InRange) (among : part ∈ d.parts) :
    part.InRange := by
  cases d with
  | array items fault => exact (inRange_array items fault).mp ranged part among
  | object members fault =>
    obtain ⟨member, listed, rfl⟩ := List.mem_map.mp among
    exact (inRange_object members fault).mp ranged member listed
  | _ => cases among

theorem Draft.exists_of_listOf {α : Type} {read : Draft → Except Fault α} {d : Draft}
    {values : List α} (found : listOf read d = .ok values) :
    ∀ a ∈ values, ∃ part ∈ d.parts, read part = .ok a := by
  cases d with
  | array items fault => exact exists_of_mapM (listOf_eq_ok.mp found).1
  | _ => cases found

namespace Record

variable {σ : Type} {r : Record σ} {holds : σ → Prop}

theorem items_keeps {parts : List Draft}
    (put : ∀ key, ∀ part ∈ parts, ∀ s next, holds s → r.put key part s = .ok next → holds next) :
    ∀ {keys : List String} {s next : σ}, holds s → r.items keys parts s = .ok next →
      holds next := by
  induction parts with
  | nil =>
    intro keys s next before read
    cases keys <;> cases read <;> exact before
  | cons part parts ih =>
    intro keys s next before read
    cases keys with
    | nil => cases read
    | cons key keys =>
      obtain ⟨middle, first, rest⟩ := bind_eq_ok.mp read
      exact ih (fun key part among => put key part (List.mem_cons_of_mem _ among))
        (put key part List.mem_cons_self s middle before first) rest

theorem members_keeps {members : List (Quoted × Draft)}
    (put : ∀ key, ∀ part ∈ members.map Prod.snd, ∀ s next, holds s →
      r.put key part s = .ok next → holds next) :
    ∀ {s next : σ}, holds s →
      members.foldlM (fun s (key, value) => r.member s key value) s = .ok next → holds next := by
  induction members with
  | nil =>
    intro s next before read
    cases read
    exact before
  | cons member members ih =>
    intro s next before read
    rw [List.map_cons] at put
    obtain ⟨middle, first, rest⟩ := bind_eq_ok.mp (List.foldlM_cons.symm.trans read)
    refine ih (fun key part among => put key part (List.mem_cons_of_mem _ among)) ?_ rest
    obtain ⟨key, -, first⟩ := bind_eq_ok.mp first
    split at first
    · exact put key member.2 List.mem_cons_self s middle before first
    · obtain ⟨-, -, same⟩ := bind_eq_ok.mp first
      cases same
      exact before

-- What the values of the known keys keep, a record keeps, in whichever form it is written.
theorem read_keeps (holds : σ → Prop) {d : Draft} {s : σ} (start : holds r.start)
    (put : ∀ key, ∀ part ∈ d.parts, ∀ s next, holds s → r.put key part s = .ok next → holds next)
    (read : r.read d = .ok s) : holds s := by
  cases d with
  | array items fault =>
    obtain ⟨last, read, closing⟩ := bind_eq_ok.mp read
    obtain ⟨-, -, same⟩ := bind_eq_ok.mp closing
    cases same
    exact items_keeps put start read
  | object members fault =>
    obtain ⟨last, read, closing⟩ := bind_eq_ok.mp read
    obtain ⟨-, -, same⟩ := bind_eq_ok.mp closing
    cases same
    exact members_keeps put start read
  | _ => cases read

theorem read_object {members : List (String × Value)}
    (known : ∀ member ∈ members, member.1 ∈ r.keys) :
    r.read (Value.object members).draft =
      members.foldlM (fun s member => r.put member.1 member.2.draft s) r.start := by
  have run (s : σ) : (Value.memberDrafts members).foldlM
      (fun s (key, value) => r.member s key value) s =
        members.foldlM (fun s member => r.put member.1 member.2.draft s) s := by
    induction members generalizing s with
    | nil => rfl
    | cons member members ih =>
      obtain ⟨listed, others⟩ := List.forall_mem_cons.mp known
      have step : r.member s (.of member.1) member.2.draft = r.put member.1 member.2.draft s :=
        if_pos listed
      simp only [Value.memberDrafts, List.foldlM_cons, step, ih others]
  have opened : r.read (Value.object members).draft = (do
      let s ← (Value.memberDrafts members).foldlM (fun s (key, value) => r.member s key value)
        r.start
      closed none
      .ok s) := rfl
  rw [opened, run]
  exact bind_pure _

end Record

end ContentModels.Json
