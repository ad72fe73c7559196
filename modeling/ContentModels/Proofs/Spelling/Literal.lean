import Mathlib
import ContentModels.Json.Reader
import ContentModels.Proofs.Emission.Traversal
import ContentModels.Proofs.Spelling.Tree

set_option autoImplicit false

namespace ContentModels.Literal

def units (point : Nat) : List Nat :=
  if point < 0x10000 then [point]
  else [0xD800 + (point - 0x10000) / 0x400, 0xDC00 + (point - 0x10000) % 0x400]

def encoded (text : List Char) : List Nat := text.flatMap fun c => units c.toNat

def endsLine (c : Char) : Bool :=
  c = '\n' || c = '\r' || c = '\u0085' || c = '\u2028' || c = '\u2029'

def plain (c : Char) : Bool := c ≠ '"' && c ≠ '\\' && !endsLine c

def Plain (text : List Char) : Prop := ∀ c ∈ text, plain c = true

instance (text : List Char) : Decidable (Plain text) := List.decidableBAll ..

def simpleEscape? : Char → Option Nat
  | '\x27' => some 0x27
  | '"' => some 0x22
  | '\\' => some 0x5C
  | '0' => some 0
  | 'a' => some 7
  | 'b' => some 8
  | 'f' => some 0xC
  | 'n' => some 0xA
  | 'r' => some 0xD
  | 't' => some 9
  | 'v' => some 0xB
  | _ => none

def digits (most : Nat) (text : List Char) : List Char :=
  (text.take most).takeWhile fun c => (Json.hexValue? c).isSome

def value (digits : List Char) : Nat :=
  digits.foldl (fun n c => 16 * n + (Json.hexValue? c).getD 0) 0

def number? (least most : Nat) (text : List Char) : Option (Nat × List Char) :=
  let run := digits most text
  if least ≤ run.length then some (value run, text.drop run.length) else none

def escape? : List Char → Option (List Nat × List Char)
  | [] => none
  | 'x' :: rest => (number? 1 4 rest).map fun (n, rest) => ([n], rest)
  | 'u' :: rest => (number? 4 4 rest).map fun (n, rest) => ([n], rest)
  | 'U' :: rest =>
    (number? 8 8 rest).bind fun (n, rest) => if n ≤ 0x10FFFF then some (units n, rest) else none
  | c :: rest => (simpleEscape? c).map fun n => ([n], rest)

theorem number?_eq_some {least most n : Nat} {text rest : List Char}
    (read : number? least most text = some (n, rest)) :
    ∃ run, text = run ++ rest ∧ least ≤ run.length := by
  have front : digits most text <+: text :=
    (List.takeWhile_prefix _).trans (List.take_prefix ..)
  obtain ⟨enough, same⟩ := Option.ite_none_right_eq_some.mp read
  obtain ⟨-, rfl⟩ := Prod.mk.inj (Option.some.inj same)
  refine ⟨digits most text, ?_, enough⟩
  exact (List.prefix_iff_eq_append.mp front).symm

theorem length_units_le (point : Nat) : (units point).length ≤ 2 := by
  unfold units
  split <;> simp

theorem escape?_eq_some {text rest : List Char} {us : List Nat}
    (read : escape? text = some (us, rest)) :
    ∃ run, text = run ++ rest ∧ us.length ≤ run.length := by
  unfold escape? at read
  split at read
  · cases read
  · obtain ⟨_, number, same⟩ := Option.map_eq_some_iff.mp read
    obtain ⟨rfl, rfl⟩ := Prod.mk.inj same
    obtain ⟨run, rfl, -⟩ := number?_eq_some number
    exact ⟨'x' :: run, rfl, by simp⟩
  · obtain ⟨_, number, same⟩ := Option.map_eq_some_iff.mp read
    obtain ⟨rfl, rfl⟩ := Prod.mk.inj same
    obtain ⟨run, rfl, -⟩ := number?_eq_some number
    exact ⟨'u' :: run, rfl, by simp⟩
  · obtain ⟨⟨n, tail⟩, number, same⟩ := Option.bind_eq_some_iff.mp read
    obtain ⟨-, same⟩ := Option.ite_none_right_eq_some.mp same
    obtain ⟨rfl, rfl⟩ := Prod.mk.inj (Option.some.inj same)
    obtain ⟨run, rfl, enough⟩ := number?_eq_some number
    have short := length_units_le n
    exact ⟨'U' :: run, rfl, by rw [List.length_cons]; omega⟩
  · obtain ⟨_, -, same⟩ := Option.map_eq_some_iff.mp read
    obtain ⟨rfl, rfl⟩ := Prod.mk.inj same
    exact ⟨[_], rfl, by simp⟩

def body? : List Char → Option (List Nat × List Char)
  | [] => none
  | '"' :: rest => some ([], rest)
  | '\\' :: rest =>
    match _ : escape? rest with
    | none => none
    | some (us, tail) => (body? tail).map fun (vs, rest) => (us ++ vs, rest)
  | c :: rest =>
    if endsLine c then none
    else (body? rest).map fun (us, rest) => (units c.toNat ++ us, rest)
termination_by text => text.length
decreasing_by
  · obtain ⟨run, rfl, -⟩ := escape?_eq_some ‹_›
    simp only [List.length_cons, List.length_append]
    omega
  · simp

example : body? "\\x41\\U0001F600\\\"\";".toList =
    some ([0x41, 0xD83D, 0xDE00, 0x22], ";".toList) := by cbv

def first? (text : List Char) : Option (List Nat × List Char) :=
  match text.dropWhile (· ≠ '"') with
  | [] => none
  | _ :: rest => body? rest

theorem length_le_encoded (text : List Char) : text.length ≤ (encoded text).length := by
  induction text with
  | nil => rfl
  | cons c text ih =>
    have unit : 1 ≤ (units c.toNat).length := by
      unfold units
      split <;> simp
    simp only [encoded, List.flatMap_cons, List.length_append, List.length_cons] at ih ⊢
    omega

theorem body?_plain {text : List Char} (plain : Plain text) (rest : List Char) :
    body? (text ++ '"' :: rest) = some (encoded text, rest) := by
  induction text with
  | nil => simp [body?, encoded]
  | cons c text ih =>
    obtain ⟨head, tail⟩ := List.forall_mem_cons.mp plain
    simp only [Literal.plain, ne_eq, Bool.and_eq_true, decide_eq_true_eq, Bool.not_eq_true'] at head
    simp [body?, head, ih tail, encoded]

theorem body?_eq_some {text rest : List Char} {us : List Nat}
    (read : body? text = some (us, rest)) :
    ∃ run, text = run ++ '"' :: rest ∧ us.length ≤ (encoded run).length ∧
      (us.length = (encoded run).length → Plain run) := by
  fun_induction body? text generalizing us rest with
  | case1 => cases read
  | case2 tail =>
    obtain ⟨rfl, rfl⟩ := Prod.mk.inj (Option.some.inj read)
    exact ⟨[], rfl, by simp [encoded], fun _ => by simp [Plain]⟩
  | case3 tail none => cases read
  | case4 tail vs after escaped ih =>
    obtain ⟨⟨ws, rest⟩, inner, same⟩ := Option.map_eq_some_iff.mp read
    obtain ⟨rfl, rfl⟩ := Prod.mk.inj same
    obtain ⟨front, rfl, short⟩ := escape?_eq_some escaped
    obtain ⟨run, rfl, le, -⟩ := ih inner
    have written := length_le_encoded front
    -- the backslash itself is one more unit than the escape denotes
    refine ⟨'\\' :: (front ++ run), by simp, ?_, fun same => ?_⟩
    all_goals simp [encoded, units] at *
    all_goals omega
  | case5 c tail _ _ ended => cases read
  | case6 c tail quote backslash inside ih =>
    obtain ⟨⟨ws, rest⟩, inner, same⟩ := Option.map_eq_some_iff.mp read
    obtain ⟨rfl, rfl⟩ := Prod.mk.inj same
    obtain ⟨run, rfl, le, full⟩ := ih inner
    refine ⟨c :: run, rfl, by simpa [encoded] using le, fun same => ?_⟩
    have plain : Literal.plain c = true := by
      simpa [Literal.plain] using And.intro (And.intro quote backslash) inside
    exact List.forall_mem_cons.mpr ⟨plain, full (by simpa [encoded] using same)⟩

theorem body?_iff_plain (text rest : List Char) :
    body? (text ++ '"' :: rest) = some (encoded text, rest) ↔ Plain text := by
  refine ⟨fun read => ?_, fun plain => body?_plain plain rest⟩
  obtain ⟨run, split, -, full⟩ := body?_eq_some read
  obtain rfl := List.append_cancel_right split
  exact full rfl

theorem first?_line (depth : Nat) (before uid after : String) (bare : '"' ∉ before.toList) :
    first? (Code.indented depth (before ++ Spelling.quoted uid ++ after)).toList =
      body? (uid.toList ++ '"' :: after.toList) := by
  have spaced : ∀ c ∈ List.replicate (4 * depth) ' ' ++ before.toList, (c ≠ '"') = true := by
    intro c member
    rcases List.mem_append.mp member with indent | inside
    · simp [List.eq_of_mem_replicate indent]
    · simpa using ne_of_mem_of_not_mem inside bare
  have line : (Code.indented depth (before ++ Spelling.quoted uid ++ after)).toList =
      (List.replicate (4 * depth) ' ' ++ before.toList) ++
        '"' :: (uid.toList ++ '"' :: after.toList) := by
    simp [Code.indented, Spelling.quoted]
  rw [first?, line, List.dropWhile_append_of_pos (by simpa using spaced)]
  simp

end ContentModels.Literal

namespace ContentModels.Spelling

structure Statement where
  depth : Nat
  before : String
  uid : String
  after : String
  bare : '"' ∉ before.toList
  deriving DecidableEq

namespace Statement

def line (s : Statement) : String := Code.indented s.depth (s.before ++ quoted s.uid ++ s.after)

def Denotes (s : Statement) : Prop :=
  Literal.first? s.line.toList = some (Literal.encoded s.uid.toList, s.after.toList)

theorem denotes_iff (s : Statement) : s.Denotes ↔ Literal.Plain s.uid.toList := by
  rw [Denotes, line, Literal.first?_line _ _ _ _ s.bare, Literal.body?_iff_plain]

def constant (uid : String) : Statement where
  depth := 2
  before := "public const string ContentType = "
  uid := uid
  after := ";"
  bare := by simp

def wire (uid : String) : Statement where
  depth := 2
  before := "[JsonProperty(propertyName: "
  uid := uid
  after := ")]"
  bare := by simp

def tag (uid : String) : Statement where
  depth := 2
  before := "[DisplayName(displayName: "
  uid := uid
  after := ")]"
  bare := by simp

def comparison (first : Bool) (uid : String) : Statement where
  depth := 4
  before := (if first then "if" else "else if") ++ " (contentTypeUid == "
  uid := uid
  after := ")"
  bare := by cases first <;> simp

end Statement

def wireStatements (ms : List Member) : List Statement :=
  (ms.filter Member.needsWireName).map fun m => .wire m.wire

def comparisons : List (String × String) → List Statement
  | [] => []
  | arm :: rest => .comparison true arm.1 :: rest.map fun arm => .comparison false arm.1

-- The lines of a unit that hold a uid: of its content type, of fields, of the variants of a block,
-- and of the content types that a converter knows.
def statements (u : GeneratedUnit) : List Statement :=
  match u.body with
  | .model contentTypeUid => contentTypeUid.toList.map .constant ++ wireStatements u.members
  | .link => wireStatements u.members
  | .tagEnum tags => tags.map fun tag => .tag tag.uid
  | .converter (.contentTypeUid arms) => comparisons (arms ++ [assetArm])
  | .converter (.keyPresence ..) | .wrapper | .helper _ => []

open Code (linesOf)

theorem linesOf_append (depth : Nat) (first second : List Code) :
    linesOf depth (first ++ second) = linesOf depth first ++ linesOf depth second := by
  induction first with
  | nil => rfl
  | cons code first ih => simp [linesOf, ih]

theorem linesOf_block {header : String} {body code : List Code} (depth : Nat)
    (member : .block header body ∈ code) :
    (linesOf (depth + 1) body).Sublist (linesOf depth code) := by
  obtain ⟨first, second, rfl⟩ := List.append_of_mem member
  rw [linesOf_append, linesOf, Code.lines, List.append_assoc, List.append_assoc]
  calc (linesOf (depth + 1) body).Sublist _ := List.sublist_append_left ..
    List.Sublist _ _ := List.sublist_append_right ..
    List.Sublist _ _ := List.sublist_append_right ..

theorem linesOf_file (used : List String) (namespaceName : String) (body : List Code) :
    (linesOf 1 body).Sublist (linesOf 0 (file used namespaceName body)) :=
  linesOf_block 0 (List.mem_append_right _ (.tail _ (.head _)))

theorem wireStatements_sublist (nullable : Bool) (ms : List Member) :
    ((wireStatements ms).map Statement.line).Sublist (linesOf 2 (members nullable ms)) := by
  induction ms with
  | nil => exact List.Sublist.refl _
  | cons m ms ih =>
    have rest (own : List Code) :
        ((wireStatements ms).map Statement.line).Sublist (linesOf 2 (own ++ members nullable ms)) := by
      rw [linesOf_append]
      exact ih.trans (List.sublist_append_right ..)
    rw [members, List.flatMap_cons, member, List.append_assoc, wireStatements, List.filter_cons]
    split
    · exact (rest _).cons_cons _
    · exact rest _

theorem tags_sublist (tags : List VariantTag) :
    ((tags.map fun tag => Statement.tag tag.uid).map Statement.line).Sublist
      (linesOf 2 (enumMembers tags)) := by
  induction tags with
  | nil => exact List.Sublist.refl _
  | cons tag tags ih => exact (ih.cons _).cons_cons _

theorem comparison_sublist (nullable first : Bool) (arm : String × String) :
    [(Statement.comparison first arm.1).line].Sublist
      ((embeddedArm nullable (if first then "if" else "else if") arm).lines 4) :=
  (List.nil_sublist _).cons_cons _

theorem comparisons_sublist (nullable : Bool) (arms : List (String × String)) :
    ((comparisons arms).map Statement.line).Sublist (linesOf 4 (embeddedArms nullable arms)) := by
  have rest (arms : List (String × String)) :
      ((arms.map fun arm => Statement.comparison false arm.1).map Statement.line).Sublist
        (linesOf 4 (arms.map (embeddedArm nullable "else if"))) := by
    induction arms with
    | nil => exact List.Sublist.refl _
    | cons arm arms ih => exact (comparison_sublist nullable false arm).append ih
  cases arms with
  | nil => exact List.Sublist.refl _
  | cons arm arms => exact (comparison_sublist nullable true arm).append (rest arms)

theorem statements_sublist (nullable : Bool) (u : GeneratedUnit) :
    ((statements u).map Statement.line).Sublist (linesOf 0 (code nullable u)) := by
  unfold statements code
  cases u.body with
  | model contentTypeUid =>
    refine .trans ?_ ((linesOf_block 1 (List.mem_singleton_self _)).trans (linesOf_file ..))
    rw [linesOf_append, linesOf_append, List.map_append]
    refine .trans (.append ?_ (wireStatements_sublist nullable u.members))
      (List.sublist_append_left ..)
    cases contentTypeUid with
    | none => exact List.Sublist.refl _
    | some uid => exact (List.nil_sublist _).cons_cons _
  | link =>
    calc List.Sublist _ _ := wireStatements_sublist nullable u.members
      List.Sublist _ _ := linesOf_block 1 (List.mem_singleton_self _)
      List.Sublist _ _ := linesOf_file ..
  | tagEnum tags =>
    calc List.Sublist _ _ := tags_sublist tags
      List.Sublist _ _ := linesOf_block 1 (List.mem_singleton_self _)
      List.Sublist _ _ := linesOf_file ..
  | converter dispatch =>
    cases dispatch with
    | keyPresence wrapper tagEnum arms => exact List.nil_sublist _
    | contentTypeUid arms =>
      -- the comparisons are in the loop over the objects, which is in the method that reads them
      refine .trans ?_ (linesOf_file ..)
      refine .trans ?_ (linesOf_block 1 (.tail _ (List.mem_singleton_self _)))
      refine .trans ?_ (linesOf_block 2 (.tail _ (.tail _ (.head _))))
      refine .trans ?_ (linesOf_block 3 (.tail _ (.tail _ (.head _))))
      exact (comparisons_sublist nullable (arms ++ [assetArm])).cons _
  | wrapper => exact List.nil_sublist _
  | helper kind => exact List.nil_sublist _

theorem literals_denote_iff (nullable : Bool) (u : GeneratedUnit) :
    ((statements u).map Statement.line).Sublist (linesOf 0 (code nullable u)) ∧
      ∀ s ∈ statements u, s.Denotes ↔ Literal.Plain s.uid.toList :=
  ⟨statements_sublist nullable u, fun s _ => s.denotes_iff⟩

def drive : GeneratedUnit where
  name := "Drive"
  namespacePath := ["Models"]
  directoryPath := ["Models"]
  body := .model (some "drive")
  members := [⟨"Path", "a\\b", .string, .plain⟩]

theorem drive_literals_denote_iff : statements drive = [.constant "drive", .wire "a\\b"] ∧
    (Statement.constant "drive").Denotes ∧ ¬ (Statement.wire "a\\b").Denotes := by
  have stated : statements drive = [.constant "drive", .wire "a\\b"] := by
    decide +kernel
  obtain ⟨-, denotes⟩ := literals_denote_iff false drive
  rw [stated] at denotes
  refine ⟨stated, (denotes _ (.head _)).mpr (by decide +kernel), ?_⟩
  rw [denotes _ (.tail _ (.head _))]
  decide +kernel

end ContentModels.Spelling

namespace ContentModels.Emission

open Spelling

def quotation : Registry := .ofList [.new "a\"b" "Page" []]

theorem quotation_misread : ∃ output, generate quotation { supportUnits := false } = .ok output ∧
    output.diagnostics = [] ∧ ∃ u ∈ output.units, ∃ s ∈ statements u, s.uid = "a\"b" ∧
      s.line ∈ Code.linesOf 0 (code false u) ∧ ¬ s.Denotes := by
  have written : (generate quotation { supportUnits := false }).toOption.map (fun output =>
      (output.diagnostics, output.units.map fun u => u.body)) =
        some ([], [.model (some "a\"b")]) := by
    decide +kernel
  have generated := generate_eq quotation { supportUnits := false }
  rw [generated] at written
  obtain ⟨silent, bodies⟩ := Prod.mk.inj (Option.some.inj written)
  obtain ⟨u, member, body⟩ := List.mem_map.mp (bodies ▸ List.mem_singleton_self _ :
    UnitBody.model (some "a\"b") ∈ (finished ⟨quotation, _⟩).output.units.map _)
  have stated : Statement.constant "a\"b" ∈ statements u := by
    rw [statements, body]
    exact .head _
  refine ⟨_, generated, silent, u, member, _, stated, rfl, ?_, ?_⟩
  · exact (statements_sublist false u).subset (List.mem_map_of_mem stated)
  · rw [Statement.denotes_iff]
    decide +kernel

end ContentModels.Emission
