import Mathlib
import ContentModels.Export
import ContentModels.Generation

set_option autoImplicit false

namespace ContentModels

def Yields {σ α : Type} (act : ExceptT FetchFailure (StateM σ) α) (s : σ) (a : α) (later : σ) :
    Prop :=
  act.run.run s = (.ok a, later)

namespace Yields

variable {σ α β : Type} {act : ExceptT FetchFailure (StateM σ) α} {s middle later : σ}

theorem pure (a : α) (s : σ) : Yields (Pure.pure a) s a s := rfl

theorem bind {next : α → ExceptT FetchFailure (StateM σ) β} {a : α} {b : β}
    (first : Yields act s a middle) (rest : Yields (next a) middle b later) :
    Yields (act >>= next) s b later := by
  unfold Yields at first rest ⊢
  rw [ExceptT.run_bind, StateT.run_bind, first]
  exact rest

theorem map (f : α → β) {a : α} (first : Yields act s a later) :
    Yields (f <$> act) s (f a) later := by
  rw [← bind_pure_comp]
  exact first.bind (.pure (f a) later)

end Yields

def Collection.marked (collection : Collection) (definitions : List Definition) :
    List Definition :=
  definitions.map (·.withOrigin collection.origin)

@[simp] theorem Collection.length_marked (collection : Collection)
    (definitions : List Definition) :
    (collection.marked definitions).length = definitions.length := List.length_map _

structure Page.Of (page : Page) (all : List Definition) (skip : Nat) : Prop where
  front : page.items <+: all.drop skip
  some : skip < all.length → page.items ≠ []
  count : page.count.toNat = all.length

namespace Page.Of

variable {page : Page} {all : List Definition} {skip : Nat}

theorem take {limit : Nat} (positive : 0 < limit) (bounded : all.length < UInt64.size) :
    Page.Of ⟨(all.drop skip).take limit, .ofNat all.length⟩ all skip where
  front := List.take_prefix limit _
  some within := by
    simp only [ne_eq, List.take_eq_nil_iff, List.drop_eq_nil_iff]
    omega
  count := UInt64.toNat_ofNat_of_lt bounded

variable (of : page.Of all skip)

include of

theorem length_le (within : skip ≤ all.length) : skip + page.items.length ≤ all.length := by
  have short := of.front.length_le
  rw [List.length_drop] at short
  omega

theorem marked_append (collection : Collection) :
    collection.marked (all.take skip) ++ collection.marked page.items =
      collection.marked (all.take (skip + page.items.length)) := by
  have items := List.prefix_iff_eq_take.mp of.front
  rw [Collection.marked, Collection.marked, Collection.marked, ← List.map_append, List.take_add,
    ← items]

end Page.Of

namespace Source

section Recording

variable {m : Type → Type} [Monad m]

theorem fetchFrom_eq (source : Source m) (collection : Collection) (fetched : List Definition) :
    source.fetchFrom collection fetched = do
      let page ← source.page collection fetched.length
      if page.items = [] then return fetched
      else
        let all := fetched ++ collection.marked page.items
        if all.length < page.count.toNat then source.fetchFrom collection all
        else return all := by
  rw [fetchFrom]
  simp only [dite_eq_ite]
  rfl

def recorded (source : Source m) : Source (StateT (List (Collection × Nat)) m) where
  stack := liftM source.stack
  page collection skip := do
    modify (· ++ [(collection, skip)])
    liftM (source.page collection skip)

variable [LawfulMonad m]

theorem recorded_page_run (source : Source m) (collection : Collection) (skip : Nat)
    (log : List (Collection × Nat)) :
    (source.recorded.page collection skip).run log =
      (·, log ++ [(collection, skip)]) <$> source.page collection skip := by
  simp [recorded]

theorem recorded_fetchFrom_run (source : Source m) (collection : Collection)
    (fetched : List Definition) (log : List (Collection × Nat)) :
    (source.recorded.fetchFrom collection fetched).run log = do
      let page ← source.page collection fetched.length
      let noted := log ++ [(collection, fetched.length)]
      if page.items = [] then return (fetched, noted)
      else
        let all := fetched ++ collection.marked page.items
        if all.length < page.count.toNat then (source.recorded.fetchFrom collection all).run noted
        else return (all, noted) := by
  rw [fetchFrom_eq, StateT.run_bind, recorded_page_run, bind_map_left]
  congr 1
  funext page
  dsimp only
  split
  · rfl
  · split <;> rfl

theorem fst_recorded_fetchFrom (source : Source m) (collection : Collection)
    (fetched : List Definition) (log : List (Collection × Nat)) :
    Prod.fst <$> (source.recorded.fetchFrom collection fetched).run log =
      source.fetchFrom collection fetched := by
  induction fetched using fetchFrom.induct collection generalizing log with
  | case1 fetched ih =>
    rw [recorded_fetchFrom_run, fetchFrom_eq, map_bind]
    congr 1
    funext page
    dsimp only
    split
    next => rw [map_pure]
    next some =>
      split
      next further => exact ih page some further _
      next => rw [map_pure]

end Recording

-- Where the pages of a collection start, from one of them on, when some sizes are possible.
inductive Cuts (sizes : Nat → Nat → Prop) (total : Nat) : Nat → List Nat → Prop where
  | last {start size : Nat} (possible : sizes start size) (reached : start + size = total) :
    Cuts sizes total start [start]
  | more {start size : Nat} {starts : List Nat} (possible : sizes start size) (some : 0 < size)
    (further : start + size < total) (rest : Cuts sizes total (start + size) starts) :
    Cuts sizes total start (start :: starts)

namespace Cuts

variable {sizes : Nat → Nat → Prop} {total start : Nat} {starts : List Nat}

theorem length_le (cuts : Cuts sizes total start starts) :
    starts.length ≤ max 1 (total - start) := by
  induction cuts with
  | last => simp
  | more _ some further _ ih =>
    rw [List.length_cons]
    omega

theorem length_eq {limit : Nat} (positive : 0 < limit)
    (full : ∀ start size, sizes start size → size = min limit (total - start))
    (cuts : Cuts sizes total start starts) :
    starts.length = max 1 ((total - start + limit - 1) / limit) := by
  induction cuts with
  | @last start size possible reached =>
    have filled := full start size possible
    have few : (total - start + limit - 1) / limit ≤ 1 :=
      Nat.lt_succ_iff.mp (Nat.div_lt_of_lt_mul (by omega))
    simp only [List.length_singleton]
    omega
  | @more start size starts possible some further _ ih =>
    obtain rfl : size = limit := by
      have filled := full start size possible
      omega
    have cut : total - start + size - 1 = total - (start + size) + size - 1 + size := by omega
    have one : 1 ≤ (total - (start + size) + size - 1) / size :=
      (Nat.one_le_div_iff positive).mpr (by omega)
    rw [List.length_cons, ih, cut, Nat.add_div_right _ positive]
    omega

end Cuts

variable {σ : Type}

def Answers (source : Models.FallibleSource (StateM σ)) (fits : Collection → Nat → Page → Prop) :
    Prop :=
  ∀ collection skip s, ∃ page later,
    Yields (source.page collection skip) s page later ∧ fits collection skip page

def Serves (source : Models.FallibleSource (StateM σ)) (held : Collection → List Definition) :
    Prop :=
  Answers source fun collection skip page => page.Of (held collection) skip

variable {source : Models.FallibleSource (StateM σ)} {fits : Collection → Nat → Page → Prop}
  {held : Collection → List Definition}

theorem recorded_fetchFrom_yields (answers : Answers source fits)
    (serves : ∀ collection skip page, fits collection skip page → page.Of (held collection) skip)
    (collection : Collection) (s : σ) (log : List (Collection × Nat)) {start : Nat}
    (within : start ≤ (held collection).length) :
    ∃ starts later,
      Yields ((source.recorded.fetchFrom collection
        (collection.marked ((held collection).take start))).run log) s
        (collection.marked (held collection), log ++ starts.map (collection, ·)) later ∧
      Cuts (fun start size => ∃ page, fits collection start page ∧ page.items.length = size)
        (held collection).length start starts := by
  -- the definitions that are left get fewer with every page that does not end the collection
  induction left : (held collection).length - start using Nat.strong_induction_on
    generalizing s log start with
  | _ left ih =>
    obtain ⟨page, middle, answered, fit⟩ := answers collection start s
    have of := serves collection start page fit
    have bound := of.length_le within
    have length : (collection.marked ((held collection).take start)).length = start := by
      simp [within]
    rw [recorded_fetchFrom_run, length]
    by_cases none : page.items = []
    case pos =>
      have reached : start = (held collection).length :=
        le_antisymm within (not_lt.mp fun further => of.some further none)
      refine ⟨[start], middle, answered.bind ?_, .last ⟨page, fit, rfl⟩ (by simp [none, reached])⟩
      rw [if_pos none, reached, List.take_length]
      exact .pure _ middle
    case neg =>
      have all : (collection.marked ((held collection).take (start + page.items.length))).length =
          start + page.items.length := by
        simp [bound]
      by_cases further : start + page.items.length < (held collection).length
      case pos =>
        have some := List.length_pos_iff.mpr none
        obtain ⟨starts, later, fetched, cuts⟩ :=
          ih _ (by omega) middle (log ++ [(collection, start)]) bound rfl
        refine ⟨start :: starts, later, answered.bind ?_,
          .more ⟨page, fit, rfl⟩ some further cuts⟩
        simp only [if_neg none, of.marked_append, all, of.count, if_pos further]
        simpa using fetched
      case neg =>
        have reached : start + page.items.length = (held collection).length := by omega
        refine ⟨[start], middle, answered.bind ?_, .last ⟨page, fit, rfl⟩ reached⟩
        simp only [if_neg none, of.marked_append, all, of.count, if_neg further]
        rw [reached, List.take_length]
        exact .pure _ middle

theorem recorded_fetchCollection_yields (answers : Answers source fits)
    (serves : ∀ collection skip page, fits collection skip page → page.Of (held collection) skip)
    (collection : Collection) (s : σ) :
    ∃ starts later,
      Yields ((source.recorded.fetchCollection collection).run []) s
        (collection.marked (held collection), starts.map (collection, ·)) later ∧
      Cuts (fun start size => ∃ page, fits collection start page ∧ page.items.length = size)
        (held collection).length 0 starts :=
  recorded_fetchFrom_yields answers serves collection s [] (Nat.zero_le _)

theorem fetchCollection_yields {collection : Collection} {s later : σ} {all : List Definition}
    {log : List (Collection × Nat)}
    (fetched : Yields ((source.recorded.fetchCollection collection).run []) s (all, log) later) :
    Yields (source.fetchCollection collection) s all later := by
  have plain := fetched.map Prod.fst
  rwa [fetchCollection, fst_recorded_fetchFrom] at plain

end Source

namespace Export

variable {e : Export}

theorem page_of (bounded : ∀ collection, (e.definitions collection).length < UInt64.size)
    (collection : Collection) (skip : Nat) (page : Page) (same : page = e.page collection skip) :
    page.Of (e.definitions collection) skip := by
  subst same
  exact .take (by decide) (bounded collection)

variable {σ : Type}

theorem answers (e : Export) : Source.Answers (e.source : Models.FallibleSource (StateM σ))
    fun collection skip page => page = e.page collection skip :=
  fun collection skip s => ⟨e.page collection skip, s, .pure _ s, rfl⟩

end Export

namespace Source

variable {σ : Type} {e : Export}

theorem loadRegistry_yields
    (bounded : ∀ collection, (e.definitions collection).length < UInt64.size) (s : σ) :
    ∃ later, Yields e.source.loadRegistry s
      ((Collection.contentTypes.marked e.contentTypes ++
        Collection.globalFields.marked e.globalFields).foldl (fun r d => (r.register d).2) .empty) later := by
  have serves := Export.page_of bounded
  obtain ⟨_, middle, first, _⟩ :=
    recorded_fetchCollection_yields e.answers serves .contentTypes s
  obtain ⟨_, later, second, _⟩ :=
    recorded_fetchCollection_yields e.answers serves .globalFields middle
  refine ⟨later, ?_⟩
  rw [List.foldl_append]
  exact (fetchCollection_yields first).bind ((fetchCollection_yields second).bind (.pure _ later))

theorem fetchCollection_complete {source : Models.FallibleSource (StateM σ)}
    {held : Collection → List Definition} (serves : Serves source held)
    (bounded : ∀ collection, (e.definitions collection).length < UInt64.size) :
    (∀ collection s, ∃ requests later,
      Yields (source.fetchCollection collection) s (collection.marked (held collection)) later ∧
      Yields ((source.recorded.fetchCollection collection).run []) s
        (collection.marked (held collection), requests) later ∧
      requests.length ≤ max 1 (held collection).length) ∧
    Serves (e.source : Models.FallibleSource (StateM σ)) e.definitions ∧
    (∀ collection (s : σ), ∃ requests later,
      Yields ((e.source.recorded.fetchCollection collection).run []) s
        (collection.marked (e.definitions collection), requests) later ∧
      requests.length =
        max 1 (((e.definitions collection).length + pageSize - 1) / pageSize)) ∧
    ∀ s : σ, ∃ later, Yields e.source.loadRegistry s
      ((Collection.contentTypes.marked e.contentTypes ++
        Collection.globalFields.marked e.globalFields).foldl (fun r d => (r.register d).2) .empty) later := by
  refine ⟨fun collection s => ?_, fun collection skip s => ?_, fun collection s => ?_,
    loadRegistry_yields bounded⟩
  · obtain ⟨starts, later, recorded, cuts⟩ :=
      recorded_fetchCollection_yields serves (fun _ _ _ of => of) collection s
    refine ⟨_, later, fetchCollection_yields recorded, recorded, ?_⟩
    rw [List.length_map]
    exact cuts.length_le
  · obtain ⟨page, later, answered, same⟩ := e.answers collection skip s
    exact ⟨page, later, answered, Export.page_of bounded collection skip page same⟩
  · obtain ⟨starts, later, recorded, cuts⟩ :=
      recorded_fetchCollection_yields e.answers (Export.page_of bounded) collection s
    refine ⟨_, later, recorded, ?_⟩
    rw [List.length_map]
    refine cuts.length_eq (by decide) ?_
    rintro start size ⟨_, rfl, rfl⟩
    simp [Export.page]

def growing (held : Collection → List Definition) : Models.FallibleSource (StateM Nat) where
  stack := pure {}
  page collection skip := do
    let answered ← get
    set (answered + 1)
    return ⟨((held collection).drop skip).take (answered + 1), .ofNat (held collection).length⟩

theorem growing_serves {held : Collection → List Definition}
    (bounded : ∀ collection, (held collection).length < UInt64.size) :
    Serves (growing held) held := by
  intro collection skip answered
  exact ⟨_, answered + 1, rfl, .take answered.succ_pos (bounded collection)⟩

def magazineExport : Export where
  contentTypes := [.new "issue" "Issue" [], .new "article" "Article" [], .new "author" "Author" []]
  globalFields := [.new "author" "Byline" []]

theorem magazineExport_bounded (collection : Collection) :
    (magazineExport.definitions collection).length < UInt64.size := by
  cases collection <;> decide

theorem magazineExport_complete :
    Serves (growing magazineExport.definitions) magazineExport.definitions ∧
    (∀ collection, (magazineExport.definitions collection).length < UInt64.size) ∧
    (∃ requests later,
      Yields (((growing magazineExport.definitions).recorded.fetchCollection .contentTypes).run [])
        0 (magazineExport.contentTypes.map (·.withOrigin .contentType), requests) later ∧
      requests.length ≤ 3) ∧
    ∃ later, Yields magazineExport.source.loadRegistry 0
      ([.new "issue" "Issue" [], .new "article" "Article" [], .new "author" "Author" [],
        Definition.withOrigin (.new "author" "Byline" []) .globalField].foldl
          (fun r d => (r.register d).2) .empty) later := by
  have serves := growing_serves magazineExport_bounded
  obtain ⟨fetched, -, -, loaded⟩ := fetchCollection_complete serves magazineExport_bounded
  obtain ⟨requests, later, -, recorded, few⟩ := fetched .contentTypes 0
  exact ⟨serves, magazineExport_bounded, ⟨requests, later, recorded, few⟩, loaded 0⟩

end Source

end ContentModels
