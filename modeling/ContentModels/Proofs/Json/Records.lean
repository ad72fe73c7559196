import Mathlib
import ContentModels.Proofs.Json.Values

set_option autoImplicit false

namespace ContentModels.Json

def under (key : String) (members : List (Quoted × Draft)) : List Draft :=
  members.filterMap fun member => if member.1.text = .ok key then some member.2 else none

theorem under_cons (key : String) (member : Quoted × Draft) (members : List (Quoted × Draft)) :
    under key (member :: members) =
      if member.1.text = .ok key then member.2 :: under key members else under key members := by
  by_cases own : member.1.text = .ok key <;> simp [under, own]

theorem under_append (key : String) (members others : List (Quoted × Draft)) :
    under key (members ++ others) = under key members ++ under key others :=
  List.filterMap_append

theorem under_eq_nil {key : String} {members : List (Quoted × Draft)} :
    under key members = [] ↔ ∀ member ∈ members, member.1.text ≠ .ok key := by
  simp [under]

def Tolerable (keys : List String) (members : List (Quoted × Draft)) : Prop :=
  ∀ member ∈ members, ∃ key, member.1.text = .ok key ∧ (key ∉ keys → member.2.skip = .ok ())

-- A key of a record: how its value is read, where it is kept meanwhile and which part of the result
-- it becomes.
structure Column (σ α : Type) where
  key : String
  Content : Type
  read : Draft → Except Fault Content
  get : σ → Option Content
  set : Option Content → σ → σ
  part : α → Content
  -- What a missing member stands for. Nothing stands for one that is required.
  blank : Option Content

namespace Column

variable {σ α : Type} (c : Column σ α)

def Stands (written : List Draft) (content : c.Content) : Prop :=
  match written with
  | [] => c.blank = some content
  | [d] => c.read d = .ok content
  | _ => False

def Fills (written : List Draft) (slot next : Option c.Content) : Prop :=
  match written with
  | [] => next = slot
  | [d] => slot = none ∧ ∃ content, c.read d = .ok content ∧ next = some content
  | _ => False

variable {c} {written : List Draft} {content : c.Content}

theorem Fills.stands_iff {next : Option c.Content} (fills : c.Fills written none next) :
    next.or c.blank = some content ↔ c.Stands written content := by
  match written with
  | [] =>
    obtain rfl : next = none := fills
    rfl
  | [d] =>
    obtain ⟨-, found, read, rfl⟩ := fills
    simp [Stands, read]
  | _ :: _ :: _ => exact fills.elim

theorem Stands.fills (stands : c.Stands written content) :
    ∃ next, c.Fills written none next := by
  match written with
  | [] => exact ⟨none, rfl⟩
  | [d] => exact ⟨_, rfl, content, stands, rfl⟩
  | _ :: _ :: _ => exact stands.elim

end Column

structure Layout (σ α : Type) where
  record : Record σ
  columns : List (Column σ α)
  finish : σ → Except Fault α
  fits : α → Prop

namespace Layout

variable {σ α : Type} (l : Layout σ α)

def read (d : Draft) : Except Fault α := do
  let s ← l.record.read d
  l.finish s

def walk (members : List (Quoted × Draft)) (s : σ) : Except Fault σ :=
  members.foldlM (fun s (key, value) => l.record.member s key value) s

structure Lawful : Prop where
  keys : l.record.keys = l.columns.map (·.key)
  distinct : (l.columns.map (·.key)).Nodup
  start : ∀ c ∈ l.columns, c.get l.record.start = none
  put : ∀ c ∈ l.columns, ∀ d s,
    l.record.put c.key d s = (c.set · s) <$> fill (c.get s) (c.read d)
  get_set : ∀ c ∈ l.columns, ∀ slot s, c.get (c.set slot s) = slot
  get_set_of_ne : ∀ c ∈ l.columns, ∀ e ∈ l.columns, c.key ≠ e.key → ∀ slot s,
    c.get (e.set slot s) = c.get s
  finish : ∀ s a, l.finish s = .ok a ↔
    l.fits a ∧ ∀ c ∈ l.columns, (c.get s).or c.blank = some (c.part a)
  finishes : ∀ s, (∀ c ∈ l.columns, ((c.get s).or c.blank).isSome = true) →
    ∃ a, l.finish s = .ok a
  null : ∀ c ∈ l.columns, ∀ content, c.blank = some content → c.read .null = .ok content

variable {l} (lawful : l.Lawful)

include lawful

theorem Lawful.eq_of_key {c e : Column σ α} (first : c ∈ l.columns) (second : e ∈ l.columns)
    (same : c.key = e.key) : c = e :=
  List.inj_on_of_nodup_map lawful.distinct first second same

theorem Lawful.member_eq_ok {s next : σ} {key : Quoted} {d : Draft} :
    l.record.member s key d = .ok next ↔
      (∃ c ∈ l.columns, key.text = .ok c.key ∧ c.get s = none ∧
        ∃ content, c.read d = .ok content ∧ next = c.set (some content) s) ∨
      ∃ name, key.text = .ok name ∧ name ∉ l.record.keys ∧ d.skip = .ok () ∧ next = s := by
  have known (name : String) : name ∈ l.record.keys ↔ ∃ c ∈ l.columns, c.key = name := by
    rw [lawful.keys, List.mem_map]
  simp only [Record.member, bind_eq_ok]
  constructor
  · rintro ⟨name, named, taken⟩
    split at taken
    next listed =>
      obtain ⟨c, among, rfl⟩ := (known name).mp listed
      rw [lawful.put c among] at taken
      obtain ⟨slot, filled, rfl⟩ := map_eq_ok.mp taken
      unfold fill at filled
      split at filled
      · cases filled
      next free =>
        obtain ⟨content, read, rfl⟩ := map_eq_ok.mp filled
        exact .inl ⟨c, among, named, by simpa using free, content, read, rfl⟩
    next unknown =>
      obtain ⟨⟨⟩, skipped, same⟩ := bind_eq_ok.mp taken
      cases same
      exact .inr ⟨name, named, unknown, skipped, rfl⟩
  · rintro (⟨c, among, named, free, content, read, rfl⟩ | ⟨name, named, unknown, skipped, rfl⟩)
    · refine ⟨c.key, named, ?_⟩
      rw [if_pos ((known _).mpr ⟨c, among, rfl⟩), lawful.put c among, free, read]
      rfl
    · refine ⟨name, named, ?_⟩
      rw [if_neg unknown, skipped]
      rfl

theorem Lawful.walk_fills {members : List (Quoted × Draft)} {s last : σ}
    (walked : l.walk members s = .ok last) :
    Tolerable l.record.keys members ∧
      ∀ c ∈ l.columns, c.Fills (under c.key members) (c.get s) (c.get last) := by
  induction members generalizing s with
  | nil =>
    cases walked
    exact ⟨nofun, fun _ _ => rfl⟩
  | cons member members ih =>
    obtain ⟨next, taken, rest⟩ := bind_eq_ok.mp (List.foldlM_cons.symm.trans walked)
    obtain ⟨tolerable, fills⟩ := ih rest
    rcases lawful.member_eq_ok.mp taken with
      ⟨c, among, named, free, content, read, rfl⟩ | ⟨name, named, unknown, skipped, rfl⟩
    · have listed : c.key ∈ l.record.keys := lawful.keys ▸ List.mem_map_of_mem among
      refine ⟨List.forall_mem_cons.mpr ⟨⟨c.key, named, absurd listed⟩, tolerable⟩, ?_⟩
      intro e other
      have later := fills e other
      rw [under_cons, named]
      by_cases same : c.key = e.key
      · obtain rfl := lawful.eq_of_key among other same
        rw [lawful.get_set c among] at later
        rw [if_pos rfl, free]
        cases more : under c.key members with
        | nil =>
          rw [more] at later
          exact ⟨rfl, content, read, later⟩
        | cons d ds =>
          -- the slot is taken, so there is no second value
          rw [more] at later
          cases ds with
          | nil => cases later.1
          | cons => exact later.elim
      · rw [lawful.get_set_of_ne e other c among (Ne.symm same)] at later
        rwa [if_neg (by simpa using same)]
    · refine ⟨List.forall_mem_cons.mpr ⟨⟨name, named, fun _ => skipped⟩, tolerable⟩, ?_⟩
      intro e other
      have foreign : name ≠ e.key := by
        rintro rfl
        exact unknown (lawful.keys ▸ List.mem_map_of_mem other)
      rw [under_cons, named, if_neg (by simpa using foreign)]
      exact fills e other

theorem Lawful.exists_walk {members : List (Quoted × Draft)} {s : σ}
    (tolerable : Tolerable l.record.keys members)
    (fills : ∀ c ∈ l.columns, ∃ next, c.Fills (under c.key members) (c.get s) next) :
    ∃ last, l.walk members s = .ok last := by
  induction members generalizing s with
  | nil => exact ⟨s, rfl⟩
  | cons member members ih =>
    obtain ⟨⟨name, named, skipped⟩, tolerable⟩ := List.forall_mem_cons.mp tolerable
    suffices step : ∃ next, l.record.member s member.1 member.2 = .ok next ∧
        ∀ c ∈ l.columns, ∃ later, c.Fills (under c.key members) (c.get next) later by
      obtain ⟨next, taken, fills⟩ := step
      obtain ⟨last, walked⟩ := ih tolerable fills
      exact ⟨last, (foldlM_cons_ok taken).trans walked⟩
    by_cases known : name ∈ l.record.keys
    · rw [lawful.keys] at known
      obtain ⟨c, among, rfl⟩ := List.mem_map.mp known
      have own := fills c among
      rw [under_cons, if_pos named] at own
      cases more : under c.key members with
      | nil =>
        rw [more] at own
        obtain ⟨-, free, content, read, -⟩ := own
        refine ⟨_, lawful.member_eq_ok.mpr (.inl ⟨c, among, named, free, content, read, rfl⟩), ?_⟩
        intro e other
        by_cases same : e.key = c.key
        · obtain rfl := lawful.eq_of_key other among same
          rw [more]
          exact ⟨_, rfl⟩
        · have later := fills e other
          rw [under_cons, named, if_neg (by simpa using Ne.symm same)] at later
          rwa [lawful.get_set_of_ne e other c among same]
      | cons d ds =>
        rw [more] at own
        exact own.elim fun _ impossible => impossible.elim
    · refine ⟨s, lawful.member_eq_ok.mpr (.inr ⟨name, named, known, skipped known, rfl⟩), ?_⟩
      intro e other
      have foreign : name ≠ e.key := by
        rintro rfl
        exact known (lawful.keys ▸ List.mem_map_of_mem other)
      have later := fills e other
      rwa [under_cons, named, if_neg (by simpa using foreign)] at later

omit lawful in
theorem read_object_eq_ok {members : List (Quoted × Draft)} {a : α} :
    l.read (.object members none) = .ok a ↔
      ∃ s, l.walk members l.record.start = .ok s ∧ l.finish s = .ok a := by
  have opened : l.read (.object members none) = (do
      let s ← (do
        let s ← l.walk members l.record.start
        closed none
        .ok s)
      l.finish s) := rfl
  rw [opened]
  simp [bind_eq_ok, closed]

theorem Lawful.start_fills {members : List (Quoted × Draft)} {s : σ}
    (walked : l.walk members l.record.start = .ok s) :
    Tolerable l.record.keys members ∧
      ∀ c ∈ l.columns, c.Fills (under c.key members) none (c.get s) := by
  obtain ⟨tolerable, fills⟩ := lawful.walk_fills walked
  exact ⟨tolerable, fun c among => lawful.start c among ▸ fills c among⟩

theorem Lawful.exists_start {members : List (Quoted × Draft)}
    (tolerable : Tolerable l.record.keys members)
    (fills : ∀ c ∈ l.columns, ∃ next, c.Fills (under c.key members) none next) :
    ∃ s, l.walk members l.record.start = .ok s :=
  lawful.exists_walk tolerable fun c among => (lawful.start c among).symm ▸ fills c among

theorem Lawful.read_object {members : List (Quoted × Draft)} {a : α} :
    l.read (.object members none) = .ok a ↔
      Tolerable l.record.keys members ∧ l.fits a ∧
        ∀ c ∈ l.columns, c.Stands (under c.key members) (c.part a) := by
  rw [read_object_eq_ok]
  constructor
  · rintro ⟨s, walked, finished⟩
    obtain ⟨tolerable, fills⟩ := lawful.start_fills walked
    obtain ⟨fits, parts⟩ := (lawful.finish s a).mp finished
    exact ⟨tolerable, fits, fun c among => (fills c among).stands_iff.mp (parts c among)⟩
  · rintro ⟨tolerable, fits, stands⟩
    obtain ⟨s, walked⟩ := lawful.exists_start tolerable fun c among => (stands c among).fills
    have fills := (lawful.start_fills walked).2
    exact ⟨s, walked, (lawful.finish s a).mpr
      ⟨fits, fun c among => (fills c among).stands_iff.mpr (stands c among)⟩⟩

theorem Lawful.reads_object {members : List (Quoted × Draft)} :
    (∃ a, l.read (.object members none) = .ok a) ↔ Tolerable l.record.keys members ∧
      ∀ c ∈ l.columns, ∃ content, c.Stands (under c.key members) content := by
  constructor
  · rintro ⟨a, found⟩
    obtain ⟨tolerable, -, stands⟩ := lawful.read_object.mp found
    exact ⟨tolerable, fun c among => ⟨_, stands c among⟩⟩
  · rintro ⟨tolerable, stands⟩
    obtain ⟨s, walked⟩ := lawful.exists_start tolerable fun c among =>
      (stands c among).elim fun _ own => own.fills
    have fills := (lawful.start_fills walked).2
    obtain ⟨a, finished⟩ := lawful.finishes s fun c among => by
      obtain ⟨content, own⟩ := stands c among
      exact Option.isSome_iff_exists.mpr ⟨content, (fills c among).stands_iff.mpr own⟩
    exact ⟨a, read_object_eq_ok.mpr ⟨s, walked, finished⟩⟩

end Layout

def placed (keys : List String) (items : List Draft) : List (Quoted × Draft) :=
  (keys.zip items).map fun (key, item) => (.of key, item)

theorem placed_append {keys : List String} {key : String} {before : List Draft}
    (named : keys[before.length]? = some key) (d : Draft) (after : List Draft) :
    placed keys (before ++ d :: after) = placed (keys.take before.length) before ++
      (.of key, d) :: placed (keys.drop (before.length + 1)) after := by
  induction before generalizing keys with
  | nil =>
    cases keys with
    | nil => cases named
    | cons first keys =>
      cases named
      rfl
  | cons item before ih =>
    cases keys with
    | nil => cases named
    | cons first keys => exact congrArg ((.of first, item) :: ·) (ih named)

namespace Record

variable {σ : Type} {r : Record σ}

theorem items_eq_ok {keys : List String} (known : ∀ key ∈ keys, key ∈ r.keys)
    {items : List Draft} {s last : σ} : r.items keys items s = .ok last ↔
      items.length ≤ keys.length ∧
        (placed keys items).foldlM (fun s (key, value) => r.member s key value) s = .ok last := by
  induction items generalizing keys s with
  | nil => cases keys <;> simp [Record.items, placed, pure, Except.pure]
  | cons item items ih =>
    cases keys with
    | nil => simp [Record.items]
    | cons key keys =>
      obtain ⟨listed, others⟩ := List.forall_mem_cons.mp known
      have step : r.member s (.of key) item = r.put key item s := if_pos listed
      have placed : placed (key :: keys) (item :: items) =
        (.of key, item) :: placed keys items := rfl
      simp only [Record.items, placed, List.foldlM_cons, step, bind_eq_ok, ih others,
        List.length_cons, Nat.add_le_add_iff_right]
      grind

end Record

namespace Layout

variable {σ α : Type} {l : Layout σ α}

theorem read_array {items : List Draft} {a : α} :
    l.read (.array items none) = .ok a ↔ items.length ≤ l.record.keys.length ∧
      l.read (.object (placed l.record.keys items) none) = .ok a := by
  have opened : l.read (.array items none) = (do
      let s ← (do
        let s ← l.record.items l.record.keys items l.record.start
        closed none
        .ok s)
      l.finish s) := rfl
  rw [opened, read_object_eq_ok]
  simp only [bind_eq_ok, closed, Record.items_eq_ok (fun _ listed => listed), walk]
  grind

end Layout

def Carries {α : Type} (same : Prop) (read : Draft → Except Fault α) (d other : Draft) : Prop :=
  ∀ a, read d = .ok a → ∃ b, read other = .ok b ∧ (same → b = a)

variable {α : Type} {same : Prop}

theorem Carries.of_eq {read : Draft → Except Fault α} {d other : Draft}
    (all : ∀ a, read d = .ok a → read other = .ok a) : Carries same read d other :=
  fun a found => ⟨a, all a found, fun _ => rfl⟩

theorem Carries.eq_ok {read : Draft → Except Fault α} {d other : Draft}
    (carries : Carries True read d other) {a : α} (found : read d = .ok a) :
    read other = .ok a := by
  obtain ⟨b, carried, alike⟩ := carries a found
  rwa [alike trivial] at carried

theorem Carries.listOf {read : Draft → Except Fault α} {d other : Draft}
    (carries : Carries same read d other) (before after : List Draft) :
    Carries same (Draft.listOf read) (.array (before ++ d :: after) none)
      (.array (before ++ other :: after) none) := by
  intro values found
  rw [Draft.listOf_eq_ok, List.mapM_append] at found
  obtain ⟨found, -⟩ := found
  obtain ⟨first, head, found⟩ := bind_eq_ok.mp found
  obtain ⟨rest, tail, found⟩ := bind_eq_ok.mp found
  cases found
  rw [List.mapM_cons] at tail
  obtain ⟨a, own, tail⟩ := bind_eq_ok.mp tail
  obtain ⟨last, later, tail⟩ := bind_eq_ok.mp tail
  cases tail
  obtain ⟨b, carried, alike⟩ := carries a own
  refine ⟨first ++ b :: last, Draft.listOf_eq_ok.mpr ⟨?_, rfl⟩, fun asked => by rw [alike asked]⟩
  rw [List.mapM_append, head, List.mapM_cons, carried, later]
  rfl

namespace Column

variable {σ : Type} {c : Column σ α} {content : c.Content}

theorem Stands.perm {written others : List Draft} (stands : c.Stands written content)
    (perm : written.Perm others) : c.Stands others content := by
  match written with
  | [] => rwa [perm.nil_eq] at stands
  | [d] => rwa [List.singleton_perm.mp perm] at stands
  | _ :: _ :: _ => exact stands.elim

theorem stands_null (null : ∀ content, c.blank = some content → c.read .null = .ok content)
    (optional : c.blank.isSome = true) : c.Stands [.null] content ↔ c.Stands [] content := by
  obtain ⟨blank, found⟩ := Option.isSome_iff_exists.mp optional
  simp [Stands, null blank found, found]

theorem Stands.replace {before after : List Draft} {d other : Draft}
    (carries : Carries same c.read d other) (stands : c.Stands (before ++ d :: after) content) :
    ∃ next, c.Stands (before ++ other :: after) next ∧ (same → next = content) := by
  match before, after with
  | [], [] => exact carries content stands
  | [], _ :: _ => exact stands.elim
  | [_], _ => exact stands.elim
  | _ :: _ :: _, _ => exact stands.elim

end Column

namespace Layout.Lawful

variable {σ : Type} {l : Layout σ α} (lawful : l.Lawful)

include lawful

theorem read_perm {members others : List (Quoted × Draft)} {a : α} (perm : members.Perm others)
    (found : l.read (.object members none) = .ok a) : l.read (.object others none) = .ok a := by
  rw [lawful.read_object] at found ⊢
  obtain ⟨tolerable, fits, stands⟩ := found
  refine ⟨fun member among => tolerable member (perm.mem_iff.mpr among), fits, fun c among => ?_⟩
  exact (stands c among).perm (perm.filterMap _)

theorem read_unknown {key : Quoted} {name : String} {d : Draft} {members : List (Quoted × Draft)}
    {a : α} (named : key.text = .ok name) (unknown : name ∉ l.record.keys)
    (skipped : d.skip = .ok ()) :
    l.read (.object ((key, d) :: members) none) = .ok a ↔
      l.read (.object members none) = .ok a := by
  have foreign {c : Column σ α} (among : c ∈ l.columns) :
      under c.key ((key, d) :: members) = under c.key members := by
    have different : name ≠ c.key := by
      rintro rfl
      exact unknown (lawful.keys ▸ List.mem_map_of_mem among)
    rw [under_cons, named, if_neg (by simpa using different)]
  have tolerable : Tolerable l.record.keys ((key, d) :: members) ↔
      Tolerable l.record.keys members :=
    List.forall_mem_cons.trans (and_iff_right ⟨name, named, fun _ => skipped⟩)
  rw [lawful.read_object, lawful.read_object, tolerable]
  refine and_congr_right fun _ => and_congr_right fun _ => ?_
  exact forall₂_congr fun c among => by rw [foreign among]

theorem read_null {key : Quoted} {c : Column σ α} {members : List (Quoted × Draft)} {a : α}
    (among : c ∈ l.columns) (named : key.text = .ok c.key) (optional : c.blank.isSome = true)
    (absent : ∀ member ∈ members, member.1.text ≠ .ok c.key) :
    l.read (.object ((key, .null) :: members) none) = .ok a ↔
      l.read (.object members none) = .ok a := by
  have tolerable : Tolerable l.record.keys ((key, .null) :: members) ↔
      Tolerable l.record.keys members :=
    List.forall_mem_cons.trans (and_iff_right ⟨c.key, named, fun _ => rfl⟩)
  rw [lawful.read_object, lawful.read_object, tolerable]
  refine and_congr_right fun _ => and_congr_right fun _ => ?_
  refine forall₂_congr fun e other => ?_
  rw [under_cons, named]
  by_cases same : c.key = e.key
  · obtain rfl := lawful.eq_of_key among other same
    rw [if_pos rfl, under_eq_nil.mpr absent]
    exact Column.stands_null (lawful.null c among) optional
  · rw [if_neg (by simpa using same)]

theorem carries_member {key : Quoted} {c : Column σ α} {d other : Draft}
    (among : c ∈ l.columns) (named : key.text = .ok c.key) (carries : Carries same c.read d other)
    (before after : List (Quoted × Draft)) :
    Carries same l.read (.object (before ++ (key, d) :: after) none)
      (.object (before ++ (key, other) :: after) none) := by
  have tolerable : Tolerable l.record.keys (before ++ (key, d) :: after) →
      Tolerable l.record.keys (before ++ (key, other) :: after) := by
    intro all member listed
    have known : c.key ∈ l.record.keys := lawful.keys ▸ List.mem_map_of_mem among
    rcases List.mem_append.mp listed with earlier | _ | ⟨_, later⟩
    · exact all member (List.mem_append_left _ earlier)
    · exact ⟨c.key, named, absurd known⟩
    · exact all member (List.mem_append_right _ (List.mem_cons_of_mem _ later))
  have own (x : Draft) : under c.key (before ++ (key, x) :: after) =
      under c.key before ++ x :: under c.key after := by
    rw [under_append, under_cons, if_pos named]
  have foreign {e : Column σ α} (listed : e ∈ l.columns) (different : e ≠ c) (x : Draft) :
      under e.key (before ++ (key, x) :: after) = under e.key before ++ under e.key after := by
    have apart : c.key ≠ e.key := fun alike => different (lawful.eq_of_key listed among alike.symm)
    rw [under_append, under_cons, named, if_neg (by simpa using apart)]
  have replaced {e : Column σ α} (listed : e ∈ l.columns) {content : e.Content}
      (stands : e.Stands (under e.key (before ++ (key, d) :: after)) content) :
      ∃ next, e.Stands (under e.key (before ++ (key, other) :: after)) next ∧
        (same → next = content) := by
    by_cases equal : e = c
    · subst equal
      rw [own] at stands ⊢
      exact stands.replace carries
    · rw [foreign listed equal] at stands ⊢
      exact ⟨content, stands, fun _ => rfl⟩
  intro a found
  obtain ⟨all, fits, stands⟩ := lawful.read_object.mp found
  by_cases asked : same
  · refine ⟨a, lawful.read_object.mpr ⟨tolerable all, fits, fun e listed => ?_⟩, fun _ => rfl⟩
    obtain ⟨next, moved, alike⟩ := replaced listed (stands e listed)
    rwa [alike asked] at moved
  · -- Another result is made of the columns as they are now.
    obtain ⟨b, carried⟩ := lawful.reads_object.mpr ⟨tolerable all, fun e listed =>
      (replaced listed (stands e listed)).imp fun _ told => told.1⟩
    exact ⟨b, carried, fun impossible => absurd impossible asked⟩

theorem carries_place {c : Column σ α} {d other : Draft} (among : c ∈ l.columns)
    (carries : Carries same c.read d other) {before : List Draft}
    (named : l.record.keys[before.length]? = some c.key) (after : List Draft) :
    Carries same l.read (.array (before ++ d :: after) none)
      (.array (before ++ other :: after) none) := by
  intro a found
  rw [read_array, placed_append named] at found
  obtain ⟨short, found⟩ := found
  obtain ⟨b, carried, alike⟩ := lawful.carries_member among rfl carries _ _ a found
  refine ⟨b, ?_, alike⟩
  rw [read_array, placed_append named]
  exact ⟨by simpa using short, carried⟩

end Layout.Lawful

end ContentModels.Json
