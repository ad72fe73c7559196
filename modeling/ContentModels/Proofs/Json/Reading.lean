import Mathlib
import ContentModels.Proofs.Json.Printing

set_option autoImplicit false

namespace ContentModels.Json

namespace Draft

mutual

def numbers : Draft → List Number
  | .number (some n) => [n]
  | .array items _ => itemNumbers items
  | .object members _ => memberNumbers members
  | _ => []

def itemNumbers : List Draft → List Number
  | [] => []
  | item :: rest => item.numbers ++ itemNumbers rest

def memberNumbers : List (Quoted × Draft) → List Number
  | [] => []
  | (_, value) :: rest => value.numbers ++ memberNumbers rest

end

theorem mem_itemNumbers (n : Number) (items : List Draft) :
    n ∈ itemNumbers items ↔ ∃ item ∈ items, n ∈ item.numbers := by
  induction items with
  | nil => simp [itemNumbers]
  | cons item items ih => simp [itemNumbers, ih]

theorem mem_memberNumbers (n : Number) (members : List (Quoted × Draft)) :
    n ∈ memberNumbers members ↔ ∃ member ∈ members, n ∈ member.2.numbers := by
  induction members with
  | nil => simp [memberNumbers]
  | cons member members ih => simp [memberNumbers, ih]

def InRange (d : Draft) : Prop := ∀ n ∈ d.numbers, n.InRange

theorem inRange_array (items : List Draft) (fault : Option Fault) :
    (Draft.array items fault).InRange ↔ ∀ item ∈ items, item.InRange := by
  simp only [InRange, numbers, mem_itemNumbers]
  exact ⟨fun all item member n held => all n ⟨item, member, held⟩,
    fun all n ⟨item, member, held⟩ => all item member n held⟩

theorem inRange_object (members : List (Quoted × Draft)) (fault : Option Fault) :
    (Draft.object members fault).InRange ↔ ∀ member ∈ members, member.2.InRange := by
  simp only [InRange, numbers, mem_memberNumbers]
  exact ⟨fun all item member n held => all n ⟨item, member, held⟩,
    fun all n ⟨item, member, held⟩ => all item member n held⟩

end Draft

theorem gather_lt {significand : Nat} (bounded : significand < significandBound)
    (digits : List Char) : (gather significand digits).1 < significandBound := by
  fun_induction gather significand digits with
  | case1 => exact bounded
  | case2 _ _ _ _ room ih => exact ih room
  | case3 => exact bounded

theorem number?_inRange (numeral : Numeral) :
    ∀ n ∈ numeral.number?, n.InRange := by
  intro n read
  have bounded : (gather 0 numeral.whole).1 < 2 ^ 64 := gather_lt (by decide) numeral.whole
  unfold Numeral.number? at read
  split at read
  next whole _ _ gathered =>
    rw [gathered] at bounded
    have least : (0 : Int) ≤ whole := Int.natCast_nonneg whole
    split at read
    · cases read
      exact ⟨by omega, by exact_mod_cast bounded⟩
    · split at read
      · cases read
        trivial
      next inside =>
        have most : whole ≤ 2 ^ 63 := Nat.le_of_not_lt (not_or.mp inside).2
        cases read
        exact ⟨by omega, by omega⟩
  · obtain ⟨x, -, rfl⟩ := Option.map_eq_some_iff.mp read
    trivial

theorem scanWord_numbers (draft : Draft) (word text : List Char) :
    ∀ n ∈ (scanWord draft word text).1.numbers, n ∈ draft.numbers := by
  fun_induction scanWord draft word text with
  | case1 => exact fun _ held => held
  | case2 => simp [Draft.numbers]
  | case3 _ _ _ ih => exact ih
  | case4 => simp [Draft.numbers]

def Token.numbers : Token → List Number
  | .scalar d => d.numbers
  | _ => []

theorem scanNumber_inRange (negative : Bool) (text : List Char) :
    ∀ n ∈ (scanNumber negative text).1.numbers, n.InRange := by
  intro n held
  unfold scanNumber at held
  split at held
  next numeral rest _ =>
    change n ∈ (Draft.number numeral.number?).numbers at held
    cases read : numeral.number? with
    | none =>
      rw [read] at held
      cases held
    | some number =>
      rw [read] at held
      obtain rfl := List.mem_singleton.mp held
      exact number?_inRange numeral n read
  all_goals cases held

theorem scanToken_inRange (c : Char) (rest : List Char) :
    ∀ n ∈ (scanToken c rest).1.numbers, n.InRange := by
  intro n held
  have word {draft : Draft} {letters : List Char} (none : draft.numbers = [])
      (held : n ∈ (scanWord draft letters rest).1.numbers) : n.InRange := by
    have among := scanWord_numbers draft letters rest n held
    simp [none] at among
  unfold scanToken at held
  split at held
  case h_8 | h_9 | h_10 => exact word rfl held
  case h_11 => exact scanNumber_inRange true rest n held
  case h_12 =>
    split at held
    · exact scanNumber_inRange false _ n held
    · simp [Token.numbers, Draft.numbers] at held
  all_goals simp [Token.numbers] at held

namespace Progress

def framesNumbers : List Frame → List Number
  | [] => []
  | .item done :: frames => Draft.itemNumbers done ++ framesNumbers frames
  | .member done _ :: frames => Draft.memberNumbers done ++ framesNumbers frames

def numbers : Progress → List Number
  | .value frames => framesNumbers frames
  | .firstItem frames => framesNumbers frames
  | .after draft frames => draft.numbers ++ framesNumbers frames
  | .firstKey frames => framesNumbers frames
  | .nextKey done frames => Draft.memberNumbers done ++ framesNumbers frames
  | .colon done _ frames => Draft.memberNumbers done ++ framesNumbers frames

theorem numbers_unwind (fault : Fault) (draft : Draft) (frames : List Frame) :
    ∀ n ∈ (unwind fault draft frames).numbers, n ∈ draft.numbers ++ framesNumbers frames := by
  fun_induction unwind fault draft frames with
  | case1 => simp [framesNumbers]
  | case2 draft done frames ih =>
    intro n held
    have among := ih n held
    simp only [Draft.numbers, Draft.mem_itemNumbers, framesNumbers, List.mem_append,
      List.mem_reverse, List.exists_mem_cons_iff] at among ⊢
    grind
  | case3 draft done key frames ih =>
    intro n held
    have among := ih n held
    simp only [Draft.numbers, Draft.mem_memberNumbers, framesNumbers, List.mem_append,
      List.mem_reverse, List.exists_mem_cons_iff] at among ⊢
    grind

theorem numbers_stop (fault : Fault) (progress : Progress) :
    ∀ n ∈ (progress.stop fault).numbers, n ∈ progress.numbers := by
  intro n held
  cases progress <;>
    simpa [numbers, Draft.numbers, Draft.mem_itemNumbers, Draft.mem_memberNumbers] using
      numbers_unwind fault _ _ n held

theorem numbers_takeValue {next : Progress} {frames : List Frame} {token : Token}
    (taken : takeValue frames token = some next) :
    ∀ n ∈ next.numbers, n ∈ token.numbers ∨ n ∈ framesNumbers frames := by
  cases token <;> cases taken <;> simp [numbers, Token.numbers, Draft.numbers]

theorem numbers_take {progress next : Progress} {token : Token}
    (taken : progress.take token = some next) :
    ∀ n ∈ next.numbers, n ∈ token.numbers ∨ n ∈ progress.numbers := by
  unfold take at taken
  split at taken
  case h_1 => exact numbers_takeValue taken
  case h_3 => simpa [numbers, framesNumbers, Draft.itemNumbers] using numbers_takeValue taken
  all_goals cases taken
  all_goals
    intro n
    simp only [numbers, framesNumbers, Draft.numbers, Draft.mem_itemNumbers,
      Draft.mem_memberNumbers, List.mem_append, List.mem_reverse, List.exists_mem_cons_iff]
    grind

theorem run_inRange (progress : Progress) (text : List Char)
    (ranged : ∀ n ∈ progress.numbers, n.InRange) : (progress.run text).draft.InRange := by
  fun_induction run progress text with
  | case1 progress => exact fun n held => ranged n (numbers_stop _ progress n held)
  | case2 _ _ _ _ ih => exact ih ranged
  | case3 progress c rest _ refused =>
    intro n held
    unfold refuse at held
    split at held
    · exact ranged n (List.mem_append_left _ held)
    · exact ranged n (numbers_stop _ _ n held)
  | case4 progress c rest _ next taken ih =>
    apply ih
    intro n held
    rcases numbers_take taken n held with scanned | before
    · exact scanToken_inRange c rest n scanned
    · exact ranged n before

end Progress

theorem Document.ofText_inRange (text : String) : (Document.ofText text).draft.InRange :=
  Progress.run_inRange _ _ (by simp [Progress.numbers, Progress.framesNumbers])

end ContentModels.Json
