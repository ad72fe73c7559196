import Mathlib
import ContentModels.Proofs.Json.Values
import ContentModels.Proofs.Schema
import ContentModels.Schema.Reading

set_option autoImplicit false

namespace ContentModels

open Json

mutual

def Field.within : Field → List Field
  | ⟨uid, displayName, kind, isMultiple, reference, metadata, nested, variants⟩ =>
    ⟨uid, displayName, kind, isMultiple, reference, metadata, nested, variants⟩ ::
      (fieldsWithin nested ++ definitionsWithin variants)

def fieldsWithin : List Field → List Field
  | [] => []
  | field :: rest => field.within ++ fieldsWithin rest

def Definition.within : Definition → List Field
  | ⟨_, _, fields, _, _⟩ => fieldsWithin fields

def definitionsWithin : List Definition → List Field
  | [] => []
  | d :: rest => d.within ++ definitionsWithin rest

end

theorem mem_fieldsWithin (inner : Field) (fields : List Field) :
    inner ∈ fieldsWithin fields ↔ ∃ field ∈ fields, inner ∈ field.within := by
  induction fields with
  | nil => simp [fieldsWithin]
  | cons field rest ih => simp [fieldsWithin, ih]

theorem mem_definitionsWithin (inner : Field) (definitions : List Definition) :
    inner ∈ definitionsWithin definitions ↔
      ∃ d ∈ definitions, inner ∈ fieldsWithin d.fields := by
  induction definitions with
  | nil => simp [definitionsWithin]
  | cons d rest ih =>
    have own : d.within = fieldsWithin d.fields := by
      cases d
      rfl
    simp [definitionsWithin, own, ih]

theorem Field.mem_within (inner field : Field) :
    inner ∈ field.within ↔ inner = field ∨ inner ∈ fieldsWithin field.nested ∨
      ∃ v ∈ field.variants, inner ∈ fieldsWithin v.fields := by
  rw [← mem_definitionsWithin]
  cases field
  simp [within]

theorem forall_fieldsWithin {p : Field → Prop} (fields : List Field) :
    (∀ inner ∈ fieldsWithin fields, p inner) ↔
      ∀ field ∈ fields, p field ∧ (∀ inner ∈ fieldsWithin field.nested, p inner) ∧
        ∀ v ∈ field.variants, ∀ inner ∈ fieldsWithin v.fields, p inner := by
  simp only [mem_fieldsWithin _ fields, Field.mem_within]
  grind

theorem fill_eq_ok {α : Type} {slot next : Option α} {read : Except Fault α}
    (filled : fill slot read = .ok next) : ∃ a, read = .ok a ∧ next = some a := by
  unfold fill at filled
  split at filled
  · cases filled
  · obtain ⟨a, found, rfl⟩ := map_eq_ok.mp filled
    exact ⟨a, found, rfl⟩

theorem nullable_of_ne_null {α : Type} (read : Draft → Except Fault α) {d : Draft}
    (present : d ≠ .null) : d.nullable read = some <$> read d := by
  cases d with
  | null => exact absurd rfl present
  | _ => rfl

theorem nullable_eq_ok {α : Type} {read : Draft → Except Fault α} {d : Draft} {found : Option α}
    (nulled : d.nullable read = .ok found) :
    found = none ∨ d ≠ .null ∧ ∃ a, read d = .ok a ∧ found = some a := by
  cases d with
  | null =>
    cases nulled
    exact .inl rfl
  | _ =>
    obtain ⟨a, found, rfl⟩ := map_eq_ok.mp nulled
    exact .inr ⟨nofun, a, found, rfl⟩

theorem orDefault_eq_ok {α : Type} [Inhabited α] {read : Draft → Except Fault α} {d : Draft}
    {a : α} (found : orDefault read d = .ok a) : a = default ∨ read d = .ok a := by
  obtain ⟨o, nulled, rfl⟩ := map_eq_ok.mp found
  rcases nullable_eq_ok nulled with rfl | ⟨-, b, read, rfl⟩
  · exact .inl rfl
  · exact .inr read

def Metadata.Settled (m : Metadata) : Prop := ∀ v ∈ m.defaultValue, v ≠ .null ∧ v.Settled

structure Field.Settled (field : Field) : Prop where
  kind : DataKind.ofWire field.kind.wire = field.kind
  metadata : field.metadata.Settled
  variants : ∀ v ∈ field.variants, v.origin = .contentType

def SettledWithin (fields : List Field) : Prop := ∀ inner ∈ fieldsWithin fields, inner.Settled

structure Definition.Settled (d : Definition) : Prop where
  origin : d.origin = .contentType
  fields : SettledWithin d.fields

theorem Metadata.put_settled {budget : Nat} {key : String} {d : Draft} {c next : Columns}
    (ranged : d.InRange) (before : c.metadata.Settled) (taken : put budget key d c = .ok next) :
    next.metadata.Settled := by
  unfold put at taken
  split at taken
  case h_7 =>
    obtain ⟨slot, filled, rfl⟩ := map_eq_ok.mp taken
    obtain ⟨found, nulled, rfl⟩ := fill_eq_ok filled
    rcases nullable_eq_ok nulled with rfl | ⟨present, v, read, rfl⟩
    · exact nofun
    · intro w same
      cases same
      refine ⟨?_, Draft.value_settled ranged read⟩
      rintro rfl
      exact present (Draft.value_eq_null read)
  all_goals
    obtain ⟨slot, -, rfl⟩ := map_eq_ok.mp taken
    exact before

theorem Metadata.read_settled {budget : Nat} {d : Draft} {m : Metadata} (ranged : d.InRange)
    (found : Metadata.read budget d = .ok m) : m.Settled := by
  cases budget with
  | zero => cases found
  | succ budget =>
    obtain ⟨c, read, rfl⟩ := map_eq_ok.mp found
    exact Record.read_keeps (fun c => c.metadata.Settled) nofun
      (fun key part among s next before put => put_settled (ranged.part among) before put) read

structure Field.Columns.Settled (c : Field.Columns) : Prop where
  kind : ∀ k ∈ c.kind, DataKind.ofWire k.wire = k
  metadata : ∀ m ∈ c.metadata, m.Settled
  nested : ∀ fields ∈ c.nested, SettledWithin fields
  variants : ∀ variants ∈ c.variants, ∀ v ∈ variants, v.Settled

theorem Field.put_settled {budget : Nat} {fields : Draft → Except Fault (List Field)}
    {variants : Draft → Except Fault (List Definition)} {key : String} {d : Draft}
    {c next : Columns} (ranged : d.InRange)
    (nested : ∀ found, fields d = .ok found → SettledWithin found)
    (listed : ∀ found, variants d = .ok found → ∀ v ∈ found, v.Settled)
    (before : c.Settled) (taken : put budget fields variants key d c = .ok next) :
    next.Settled := by
  unfold put at taken
  split at taken <;> obtain ⟨slot, filled, rfl⟩ := map_eq_ok.mp taken <;>
    obtain ⟨found, read, rfl⟩ := fill_eq_ok filled
  case h_3 =>
    obtain ⟨name, -, rfl⟩ := map_eq_ok.mp read
    refine ⟨?_, before.metadata, before.nested, before.variants⟩
    rintro k ⟨⟩
    rw [DataKind.wire_ofWire]
  case h_6 =>
    refine ⟨before.kind, ?_, before.nested, before.variants⟩
    rintro m ⟨⟩
    rcases orDefault_eq_ok read with rfl | read
    · exact nofun
    · exact Metadata.read_settled ranged read
  case h_7 =>
    refine ⟨before.kind, before.metadata, ?_, before.variants⟩
    rintro fields ⟨⟩
    rcases orDefault_eq_ok read with rfl | read
    · exact nofun
    · exact nested _ read
  case h_8 =>
    refine ⟨before.kind, before.metadata, before.nested, ?_⟩
    rintro variants ⟨⟩
    rcases orDefault_eq_ok read with rfl | read
    · exact nofun
    · exact listed _ read
  all_goals exact ⟨before.kind, before.metadata, before.nested, before.variants⟩

theorem Definition.put_settled {fields : Draft → Except Fault (List Field)} {key : String}
    {d : Draft} {c next : Columns}
    (listed : ∀ found, fields d = .ok found → SettledWithin found)
    (before : ∀ found ∈ c.fields, SettledWithin found)
    (taken : put fields key d c = .ok next) : ∀ found ∈ next.fields, SettledWithin found := by
  unfold put at taken
  split at taken <;> obtain ⟨slot, filled, rfl⟩ := map_eq_ok.mp taken
  case h_3 =>
    obtain ⟨found, read, rfl⟩ := fill_eq_ok filled
    rintro fields ⟨⟩
    rcases orDefault_eq_ok read with rfl | read
    · exact nofun
    · exact listed _ read
  all_goals exact before

theorem Field.Columns.Settled.field {c : Field.Columns} (settled : c.Settled) {field : Field}
    (made : c.field = .ok field) : ∀ inner ∈ field.within, inner.Settled := by
  unfold Columns.field at made
  split at made
  next uid kind _ known =>
    cases made
    have nested : SettledWithin (c.nested.getD []) := by
      cases given : c.nested with
      | none => exact nofun
      | some fields => exact settled.nested fields given
    have variants : ∀ v ∈ c.variants.getD [], v.Settled := by
      cases given : c.variants with
      | none => exact nofun
      | some variants => exact settled.variants variants given
    have metadata : (c.metadata.getD {}).Settled := by
      cases given : c.metadata with
      | none => exact nofun
      | some m => exact settled.metadata m given
    intro inner among
    rcases (Field.mem_within inner _).mp among with rfl | deeper | ⟨v, listed, deeper⟩
    · exact ⟨settled.kind kind known, metadata, fun v listed => (variants v listed).origin⟩
    · exact nested inner deeper
    · exact (variants v listed).fields inner deeper
  · cases made

-- The recursion is on the budget, which goes down at every array and object.
mutual

theorem Field.read_settled : ∀ {budget : Nat} {d : Draft} {field : Field}, d.InRange →
    Field.read budget d = .ok field → ∀ inner ∈ field.within, inner.Settled
  | 0, _, _, _, found => nomatch found
  | budget + 1, d, field, ranged, found => by
    obtain ⟨c, read, made⟩ := bind_eq_ok.mp found
    have start : Field.Columns.Settled {} := ⟨nofun, nofun, nofun, nofun⟩
    have settled : c.Settled := Record.read_keeps Field.Columns.Settled start
      (fun key part among s next before taken => Field.put_settled (ranged.part among)
        (fun _ => readFields_settled (ranged.part among))
        (fun _ => readDefinitions_settled (ranged.part among)) before taken) read
    exact settled.field made

theorem readFields_settled : ∀ {budget : Nat} {d : Draft} {fields : List Field}, d.InRange →
    readFields budget d = .ok fields → SettledWithin fields
  | 0, _, _, _, found => nomatch found
  | budget + 1, d, fields, ranged, found => by
    intro inner among
    obtain ⟨field, listed, deeper⟩ := (mem_fieldsWithin inner fields).mp among
    obtain ⟨part, written, read⟩ := Draft.exists_of_listOf found field listed
    exact Field.read_settled (ranged.part written) read inner deeper

theorem Definition.read_settled : ∀ {budget : Nat} {d : Draft} {definition : Definition},
    d.InRange → Definition.read budget d = .ok definition → definition.Settled
  | 0, _, _, _, found => nomatch found
  | budget + 1, d, definition, ranged, found => by
    obtain ⟨c, read, made⟩ := bind_eq_ok.mp found
    have start : ∀ fields ∈ ({} : Definition.Columns).fields, SettledWithin fields := nofun
    have settled : ∀ fields ∈ c.fields, SettledWithin fields := Record.read_keeps
      (fun c => ∀ fields ∈ c.fields, SettledWithin fields) start
      (fun key part among s next before taken => Definition.put_settled
        (fun _ => readFields_settled (ranged.part among)) before taken) read
    unfold Definition.Columns.definition at made
    split at made
    · cases made
      refine ⟨rfl, ?_⟩
      cases given : c.fields with
      | none => exact nofun
      | some fields => exact settled fields given
    · cases made

theorem readDefinitions_settled : ∀ {budget : Nat} {d : Draft} {definitions : List Definition},
    d.InRange → readDefinitions budget d = .ok definitions → ∀ v ∈ definitions, v.Settled
  | 0, _, _, _, found => nomatch found
  | budget + 1, d, definitions, ranged, found => by
    intro v listed
    obtain ⟨part, written, read⟩ := Draft.exists_of_listOf found v listed
    exact Definition.read_settled (ranged.part written) read

end

end ContentModels
