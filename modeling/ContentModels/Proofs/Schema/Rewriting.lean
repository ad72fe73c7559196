import ContentModels.Proofs.Schema.Layouts
import ContentModels.Proofs.Schema.RoundTrip

set_option autoImplicit false

namespace ContentModels

open Json

inductive Shape where
  | definition
  | field
  | metadata
  | target
  | fields
  | definitions
  deriving DecidableEq

namespace Shape

abbrev Result : Shape → Type
  | .definition => Definition
  | .field => Field
  | .metadata => Metadata
  | .target => Option ReferenceTarget
  | .fields => List Field
  | .definitions => List Definition

def read (budget : Nat) : (shape : Shape) → Draft → Except Fault shape.Result
  | .definition => Definition.read budget
  | .field => Field.read budget
  | .metadata => orDefault (Metadata.read budget)
  | .target => ReferenceTarget.read budget
  | .fields => orDefault (readFields budget)
  | .definitions => orDefault (readDefinitions budget)

def isRecord : Shape → Bool
  | .definition => true
  | .field => true
  | .metadata => true
  | _ => false

def keys : Shape → List String
  | .definition => Definition.keys
  | .field => Field.keys
  | .metadata => Metadata.keys
  | _ => []

def required : Shape → List String
  | .definition => ["uid"]
  | .field => ["uid", "data_type"]
  | _ => []

-- Texts, flags and defaults have no parts that are read as a shape of their own.
def parts : Shape → List (String × Shape)
  | .definition => [("schema", .fields)]
  | .field =>
    [("reference_to", .target), ("field_metadata", .metadata), ("schema", .fields),
      ("blocks", .definitions)]
  | _ => []

def item? : Shape → Option Shape
  | .fields => some .field
  | .definitions => some .definition
  | _ => none

end Shape

def OddTarget (budget : Nat) (d : Draft) : Prop :=
  ∃ v, Draft.value budget d = .ok v ∧ (∀ s, v ≠ .string s) ∧ ∀ items, v ≠ .array items

inductive Edit : Nat → Shape → Draft → Draft → Prop
  | permuted {budget : Nat} {shape : Shape} {members others : List (Quoted × Draft)}
      (record : shape.isRecord = true) (perm : members.Perm others) :
      Edit budget shape (.object members none) (.object others none)
  -- A value that nobody asks for has to be grammatical, however deep it nests.
  | unknown {budget : Nat} {shape : Shape} {members : List (Quoted × Draft)} {key : Quoted}
      {name : String} {d : Draft} (record : shape.isRecord = true) (named : key.text = .ok name)
      (unknown : name ∉ shape.keys) (grammatical : d.skip = .ok ()) :
      Edit budget shape (.object ((key, d) :: members) none) (.object members none)
  | null {budget : Nat} {shape : Shape} {members : List (Quoted × Draft)} {key : Quoted}
      {name : String} (record : shape.isRecord = true) (named : key.text = .ok name)
      (known : name ∈ shape.keys) (optional : name ∉ shape.required)
      (absent : ∀ member ∈ members, member.1.text ≠ .ok name) :
      Edit budget shape (.object ((key, .null) :: members) none) (.object members none)
  -- In an object the null may then be left out.
  | oddTarget {budget : Nat} {d : Draft} (odd : OddTarget budget d) : Edit budget .target d .null
  | oddItem {budget : Nat} {item : Draft} {v : Value} (before after : List Draft)
      (readable : Draft.value budget item = .ok v) (odd : ∀ s, v ≠ .string s) :
      Edit (budget + 1) .target (.array (before ++ item :: after) none)
        (.array (before ++ after) none)

def Retarget (budget : Nat) (shape : Shape) (_ other : Draft) : Prop :=
  shape = .target ∧ OddTarget budget other

inductive Somewhere (change : Nat → Shape → Draft → Draft → Prop) :
    Nat → Shape → Draft → Draft → Prop
  | here {budget : Nat} {shape : Shape} {d other : Draft} (made : change budget shape d other) :
      Somewhere change budget shape d other
  | member {budget : Nat} {shape part : Shape} {d other : Draft} {key : Quoted} {name : String}
      (before after : List (Quoted × Draft)) (named : key.text = .ok name)
      (among : (name, part) ∈ shape.parts) (inner : Somewhere change budget part d other) :
      Somewhere change (budget + 1) shape (.object (before ++ (key, d) :: after) none)
        (.object (before ++ (key, other) :: after) none)
  | place {budget : Nat} {shape part : Shape} {d other : Draft} {name : String}
      (before after : List Draft) (named : shape.keys[before.length]? = some name)
      (among : (name, part) ∈ shape.parts) (inner : Somewhere change budget part d other) :
      Somewhere change (budget + 1) shape (.array (before ++ d :: after) none)
        (.array (before ++ other :: after) none)
  | item {budget : Nat} {shape part : Shape} {d other : Draft} (before after : List Draft)
      (listed : shape.item? = some part) (inner : Somewhere change budget part d other) :
      Somewhere change (budget + 1) shape (.array (before ++ d :: after) none)
        (.array (before ++ other :: after) none)

theorem Somewhere.flip {change : Nat → Shape → Draft → Draft → Prop} {budget : Nat}
    {shape : Shape} {d other : Draft} (somewhere : Somewhere change budget shape d other) :
    Somewhere (fun budget shape d other => change budget shape other d) budget shape other d := by
  induction somewhere with
  | here made => exact .here made
  | member before after named among _ ih => exact .member before after named among ih
  | place before after named among _ ih => exact .place before after named among ih
  | item before after listed _ ih => exact .item before after listed ih

theorem orDefault_of_ne_null {α : Type} [Inhabited α] (read : Draft → Except Fault α) {d : Draft}
    (present : d ≠ .null) : orDefault read d = read d := by
  rw [orDefault, nullable_of_ne_null read present]
  cases read d <;> rfl

theorem orDefault_array {α : Type} [Inhabited α] (read : Draft → Except Fault α)
    (items : List Draft) (fault : Option Fault) :
    orDefault read (.array items fault) = read (.array items fault) :=
  orDefault_of_ne_null read nofun

structure Shape.Laid {σ : Type} (shape : Shape) (budget : Nat) (l : Layout σ shape.Result) :
    Prop where
  lawful : l.Lawful
  keys : l.record.keys = shape.keys
  read : ∀ d, d ≠ .null → shape.read (budget + 1) d = l.read d
  optional : ∀ c ∈ l.columns, c.key ∉ shape.required → c.blank.isSome = true
  part : ∀ member ∈ shape.parts, ∃ c ∈ l.columns, c.key = member.1 ∧
    ∀ same d other, Carries same (member.2.read budget) d other → Carries same c.read d other

namespace Shape.Laid

variable {σ : Type} {shape : Shape} {budget : Nat} {l : Layout σ shape.Result}
  (laid : shape.Laid budget l)

include laid

theorem read_object (members : List (Quoted × Draft)) :
    shape.read (budget + 1) (.object members none) = l.read (.object members none) :=
  laid.read _ nofun

theorem read_array (items : List Draft) :
    shape.read (budget + 1) (.array items none) = l.read (.array items none) :=
  laid.read _ nofun

end Shape.Laid

theorem Shape.exists_laid {shape : Shape} (record : shape.isRecord = true) (budget : Nat) :
    ∃ (σ : Type) (l : Layout σ shape.Result), shape.Laid budget l := by
  cases shape with
  | definition =>
    exact ⟨_, Definition.layout (readFields budget), Definition.layout_lawful _, rfl,
      fun _ _ => rfl, by simp [Definition.layout, required],
      by simp [Definition.layout, parts, read]⟩
  | field =>
    exact ⟨_, Field.layout budget (readFields budget) (readDefinitions budget),
      Field.layout_lawful _ _ _, rfl, fun _ _ => rfl, by simp [Field.layout, required],
      by simp [Field.layout, parts, read]⟩
  | metadata =>
    exact ⟨_, Metadata.layout budget, Metadata.layout_lawful _, rfl,
      fun d present => (orDefault_of_ne_null _ present).trans (map_eq_pure_bind _ _),
      by simp [Metadata.layout], by simp [parts]⟩
  | _ => cases record

theorem Shape.isRecord_of_part {shape : Shape} {member : String × Shape}
    (among : member ∈ shape.parts) : shape.isRecord = true := by
  cases shape with
  | definition | field => rfl
  | _ => cases among

theorem Shape.read_zero {shape : Shape} (record : shape.isRecord = true)
    (members : List (Quoted × Draft)) (a : shape.Result) :
    shape.read 0 (.object members none) ≠ .ok a := by
  cases shape with
  | definition | field | metadata => exact nofun
  | _ => cases record

theorem ReferenceTarget.read_odd {budget : Nat} {d : Draft} (odd : OddTarget budget d) :
    read budget d = .ok none := by
  obtain ⟨v, readable, text, array⟩ := odd
  have shapeless : ofValue? v = none := by
    cases v with
    | string s => exact absurd rfl (text s)
    | array items => exact absurd rfl (array items)
    | _ => rfl
  cases d with
  | null => rfl
  | _ =>
    simp only [read, Draft.nullable, readable]
    exact congrArg Except.ok shapeless

def Json.Value.text? : Value → Option String
  | .string s => some s
  | _ => none

theorem ReferenceTarget.read_array {budget : Nat} {items : List Draft}
    {target : Option ReferenceTarget} :
    read (budget + 1) (.array items none) = .ok target ↔
      ∃ values, items.mapM (Draft.value budget) = .ok values ∧
        target = some (.many (values.filterMap Value.text?)) := by
  have opened : read (budget + 1) (.array items none) =
      (·.bind ofValue?) <$> some <$> Value.array <$>
        Draft.listOf (Draft.value budget) (.array items none) := rfl
  have texts (values : List Value) : (values.filterMap fun item =>
      match item with
      | .string uid => some uid
      | _ => none) = values.filterMap Value.text? :=
    congrArg (List.filterMap · values) (by funext item; cases item <;> rfl)
  simp only [opened, map_eq_ok, Draft.listOf_eq_ok, and_true]
  constructor
  · rintro ⟨_, ⟨_, ⟨values, listed, rfl⟩, rfl⟩, rfl⟩
    exact ⟨values, listed, congrArg (some <| ReferenceTarget.many ·) (texts values)⟩
  · rintro ⟨values, listed, rfl⟩
    exact ⟨_, ⟨_, ⟨values, listed, rfl⟩, rfl⟩,
      congrArg (some <| ReferenceTarget.many ·) (texts values)⟩

theorem ReferenceTarget.read_oddItem {budget : Nat} {item : Draft} {v : Value}
    (readable : Draft.value budget item = .ok v) (odd : ∀ s, v ≠ .string s)
    (before after : List Draft) (target : Option ReferenceTarget) :
    read (budget + 1) (.array (before ++ item :: after) none) = .ok target ↔
      read (budget + 1) (.array (before ++ after) none) = .ok target := by
  have textless : v.text? = none := by
    cases v with
    | string s => exact absurd rfl (odd s)
    | _ => rfl
  simp only [read_array, List.mapM_append, List.mapM_cons, bind_eq_ok, readable]
  constructor
  · rintro ⟨_, ⟨first, head, _, ⟨_, ⟨⟩, last, tail, ⟨⟩⟩, ⟨⟩⟩, rfl⟩
    exact ⟨first ++ last, ⟨first, head, last, tail, rfl⟩, by simp [textless]⟩
  · rintro ⟨_, ⟨first, head, last, tail, ⟨⟩⟩, rfl⟩
    exact ⟨first ++ v :: last, ⟨first, head, _, ⟨v, rfl, last, tail, rfl⟩, rfl⟩,
      by simp [textless]⟩

theorem Edit.reads {budget : Nat} {shape : Shape} {d other : Draft}
    (edit : Edit budget shape d other) (a : shape.Result) :
    shape.read budget d = .ok a ↔ shape.read budget other = .ok a := by
  -- Records are read with one level of the budget less for their parts.
  have records {members others : List (Quoted × Draft)} (record : shape.isRecord = true)
      (alike : ∀ {σ : Type} {budget : Nat} {l : Layout σ shape.Result}, shape.Laid budget l →
        (l.read (.object members none) = .ok a ↔ l.read (.object others none) = .ok a)) :
      shape.read budget (.object members none) = .ok a ↔
        shape.read budget (.object others none) = .ok a := by
    cases budget with
    | zero => exact iff_of_false (shape.read_zero record _ a) (shape.read_zero record _ a)
    | succ budget =>
      obtain ⟨σ, l, laid⟩ := Shape.exists_laid record budget
      rw [laid.read_object, laid.read_object]
      exact alike laid
  cases edit with
  | permuted record perm =>
    exact records record fun laid => ⟨laid.lawful.read_perm perm, laid.lawful.read_perm perm.symm⟩
  | unknown record named unknown grammatical =>
    exact records record fun laid =>
      laid.lawful.read_unknown named (laid.keys ▸ unknown) grammatical
  | null record named known optional absent =>
    apply records record
    intro σ budget l laid
    rw [← laid.keys, laid.lawful.keys] at known
    obtain ⟨c, among, rfl⟩ := List.mem_map.mp known
    exact laid.lawful.read_null among named (laid.optional c among optional) absent
  | oddTarget odd =>
    have null : ReferenceTarget.read budget .null = .ok none := rfl
    simp only [Shape.read, ReferenceTarget.read_odd odd, null]
  | oddItem before after readable odd =>
    exact ReferenceTarget.read_oddItem readable odd before after a

theorem Somewhere.carries {change : Nat → Shape → Draft → Draft → Prop} {same : Prop}
    (made : ∀ budget shape d other, change budget shape d other →
      Carries same (shape.read budget) d other) {budget : Nat} {shape : Shape} {d other : Draft}
    (somewhere : Somewhere change budget shape d other) :
    Carries same (shape.read budget) d other := by
  induction somewhere with
  | here change => exact made _ _ _ _ change
  | @member budget shape part d other key name before after named among _ ih =>
    obtain ⟨σ, l, laid⟩ := Shape.exists_laid (Shape.isRecord_of_part among) budget
    obtain ⟨c, listed, rfl, inside⟩ := laid.part _ among
    intro a found
    rw [laid.read_object] at found ⊢
    exact laid.lawful.carries_member listed named (inside _ _ _ ih) before after a found
  | @place budget shape part d other name before after named among _ ih =>
    obtain ⟨σ, l, laid⟩ := Shape.exists_laid (Shape.isRecord_of_part among) budget
    obtain ⟨c, listed, rfl, inside⟩ := laid.part _ among
    rw [← laid.keys] at named
    intro a found
    rw [laid.read_array] at found ⊢
    exact laid.lawful.carries_place listed (inside _ _ _ ih) named after a found
  | @item budget shape part d other before after listed _ ih =>
    cases shape <;> cases listed
    all_goals
      intro a found
      simp only [Shape.read, orDefault_array] at found ⊢
      exact ih.listOf before after a found

def Rewritten (budget : Nat) (shape : Shape) : Draft → Draft → Prop :=
  Relation.EqvGen (Somewhere Edit budget shape)

theorem Rewritten.reads {budget : Nat} {shape : Shape} {d other : Draft}
    (rewritten : Rewritten budget shape d other) (a : shape.Result) :
    shape.read budget d = .ok a ↔ shape.read budget other = .ok a := by
  induction rewritten with
  | rel d other edited =>
    have forth : Carries True (shape.read budget) d other :=
      edited.carries fun _ _ _ _ edit => .of_eq fun b => (edit.reads b).mp
    have back : Carries True (shape.read budget) other d :=
      edited.flip.carries fun _ _ _ _ edit => .of_eq fun b => (edit.reads b).mpr
    exact ⟨forth.eq_ok, back.eq_ok⟩
  | refl => rfl
  | symm _ _ _ ih => exact ih.symm
  | trans _ _ _ _ _ first second => exact first.trans second

theorem Somewhere.reads_retargeted {budget : Nat} {shape : Shape} {d other : Draft}
    (retargeted : Somewhere Retarget budget shape d other) {a : shape.Result}
    (found : shape.read budget d = .ok a) : ∃ b, shape.read budget other = .ok b := by
  have carries : Carries False (shape.read budget) d other := by
    apply retargeted.carries
    rintro budget _ d other ⟨rfl, odd⟩ a -
    exact ⟨none, ReferenceTarget.read_odd odd, False.elim⟩
  exact (carries a found).imp fun _ told => told.1

theorem Definition.ofText_eq_ok {text : String} {d : Definition}
    (whole : (Document.ofText text).trailing = false) : ofText text = .ok d ↔
      Shape.definition.read nestingBudget (Document.ofText text).draft = .ok d := by
  simp [ofText, Document.decode, bind_eq_ok, whole, Shape.read]

theorem Definition.trailing_of_ofText {text : String} {d : Definition}
    (decoded : ofText text = .ok d) : (Document.ofText text).trailing = false := by
  obtain ⟨_, -, closing⟩ := bind_eq_ok.mp decoded
  cases trailing : (Document.ofText text).trailing with
  | false => rfl
  | true => simp [trailing] at closing

def RewrittenText (text other : String) : Prop :=
  Rewritten nestingBudget .definition (Document.ofText text).draft (Document.ofText other).draft

def RetargetedText (text other : String) : Prop :=
  Somewhere Retarget nestingBudget .definition (Document.ofText text).draft
    (Document.ofText other).draft

theorem Definition.ofText_rewritten {text other : String} {d : Definition}
    (decoded : ofText text = .ok d) (whole : (Document.ofText other).trailing = false) :
    (RewrittenText text other → ofText other = .ok d) ∧
      (RetargetedText text other → ∃ e, ofText other = .ok e ∧
        ∀ third, (Document.ofText third).trailing = false → RewrittenText other third →
          ofText third = .ok e) := by
  have read := (ofText_eq_ok (trailing_of_ofText decoded)).mp decoded
  constructor
  · intro rewritten
    exact (ofText_eq_ok whole).mpr ((rewritten.reads d).mp read)
  · intro retargeted
    obtain ⟨e, found⟩ := retargeted.reads_retargeted read
    refine ⟨e, (ofText_eq_ok whole).mpr found, fun third alone rewritten => ?_⟩
    exact (ofText_eq_ok alone).mpr ((rewritten.reads e).mp found)

def card (members fieldMembers : List (String × Value)) : Value :=
  .object (members ++ [
    ("uid", .string "card"),
    ("schema", .array [.object (fieldMembers ++ [
      ("uid", .string "tags"), ("data_type", .string "reference")])])])

def cardSource : Value :=
  card [("title", .null)] [("reference_to", .array [.string "tag", .nat 7])]

def cardTidied : Value :=
  card [("icon", .boolean true)] [("reference_to", .array [.string "tag"])]

def cardRetargeted : Value :=
  card [("title", .null)] [("reference_to", .object [("x", .nat 1)])]

def cardBare : Value := card [("title", .null)] []

def cardDefinition : Definition :=
  .new "card" "" [((Field.new "tags" .reference).named "").withReference (.many ["tag"])]

theorem card_rewritten :
    Definition.ofText cardSource.text = .ok cardDefinition ∧
      (Document.ofText cardTidied.text).trailing = false ∧
      (Document.ofText cardRetargeted.text).trailing = false ∧
      (Document.ofText cardBare.text).trailing = false ∧
      RewrittenText cardSource.text cardTidied.text ∧
      RetargetedText cardSource.text cardRetargeted.text ∧
      RewrittenText cardRetargeted.text cardBare.text ∧
      Definition.ofText cardTidied.text = .ok cardDefinition ∧
      ∃ e, Definition.ofText cardRetargeted.text = .ok e ∧
        Definition.ofText cardBare.text = .ok e := by
  have source : Document.ofText cardSource.text = .ofDraft cardSource.draft :=
    Document.ofText_text (by decide)
  have tidied : Document.ofText cardTidied.text = .ofDraft cardTidied.draft :=
    Document.ofText_text (by decide)
  have retargeted : Document.ofText cardRetargeted.text = .ofDraft cardRetargeted.draft :=
    Document.ofText_text (by decide)
  have bare : Document.ofText cardBare.text = .ofDraft cardBare.draft :=
    Document.ofText_text (by decide)
  have decoded : Definition.ofText cardSource.text = .ok cardDefinition := by
    rw [Definition.ofText, source]
    rfl
  have tidying : RewrittenText cardSource.text cardTidied.text := by
    rw [RewrittenText, source, tidied]
    have untitled : Somewhere Edit nestingBudget .definition cardSource.draft
        (card [] [("reference_to", .array [.string "tag", .nat 7])]).draft :=
      .here (.null rfl rfl (by decide) (by decide) (by decide))
    have cleaned : Somewhere Edit nestingBudget .definition
        (card [] [("reference_to", .array [.string "tag", .nat 7])]).draft
        (card [] [("reference_to", .array [.string "tag"])]).draft := by
      refine .member [_] [] rfl (.head _) (.item [] [] rfl ?_)
      exact .member [] _ rfl (.head _) (.here (.oddItem [_] [] rfl (by simp)))
    have plain : Somewhere Edit nestingBudget .definition cardTidied.draft
        (card [] [("reference_to", .array [.string "tag"])]).draft :=
      .here (.unknown rfl rfl (by decide) rfl)
    exact ((Relation.EqvGen.rel _ _ untitled).trans _ _ _ (.rel _ _ cleaned)).trans _ _ _
      (.symm _ _ (.rel _ _ plain))
  have retargeting : RetargetedText cardSource.text cardRetargeted.text := by
    rw [RetargetedText, source, retargeted]
    refine .member [_, _] [] rfl (.head _) (.item [] [] rfl ?_)
    exact .member [] _ rfl (.head _) (.here ⟨rfl, _, rfl, by simp, by simp⟩)
  have removing : RewrittenText cardRetargeted.text cardBare.text := by
    rw [RewrittenText, retargeted, bare]
    have nulled : Somewhere Edit nestingBudget .definition cardRetargeted.draft
        (card [("title", .null)] [("reference_to", .null)]).draft := by
      refine .member [_, _] [] rfl (.head _) (.item [] [] rfl ?_)
      exact .member [] _ rfl (.head _) (.here (.oddTarget ⟨_, rfl, by simp, by simp⟩))
    have dropped : Somewhere Edit nestingBudget .definition
        (card [("title", .null)] [("reference_to", .null)]).draft cardBare.draft := by
      refine .member [_, _] [] rfl (.head _) (.item [] [] rfl (.here ?_))
      exact .null rfl rfl (by decide) (by decide) (by decide)
    exact (Relation.EqvGen.rel _ _ nulled).trans _ _ _ (.rel _ _ dropped)
  have first : (Document.ofText cardTidied.text).trailing = false := by rw [tidied]; rfl
  have second : (Document.ofText cardRetargeted.text).trailing = false := by rw [retargeted]; rfl
  have third : (Document.ofText cardBare.text).trailing = false := by rw [bare]; rfl
  obtain ⟨e, found, alike⟩ := (Definition.ofText_rewritten decoded second).2 retargeting
  exact ⟨decoded, first, second, third, tidying, retargeting, removing,
    (Definition.ofText_rewritten decoded first).1 tidying, e, found, alike _ third removing⟩

end ContentModels
