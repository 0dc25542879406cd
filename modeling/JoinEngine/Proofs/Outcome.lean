import Mathlib.Data.List.Forall2

/-!
Computations that may be refused. A result of a sequence is a result of each of
its steps, and what every step of a run keeps, a run with a result keeps.
-/

/-- A relation holds along a list if it holds for every member. -/
theorem List.exists_forall₂_iff {Item Result : Type} {related : Item → Result → Prop}
    {items : List Item} :
    (∃ results, Forall₂ related items results) ↔ ∀ item ∈ items, ∃ result, related item result := by
  induction items with
  | nil => simp
  | cons item rest ih => simp [forall₂_cons_left_iff, ← ih]

namespace Except
variable {Fault Other Value Result : Type}

theorem bind_eq_ok {first : Except Fault Value} {next : Value → Except Fault Result}
    {result : Result} :
    first >>= next = .ok result ↔ ∃ value, first = .ok value ∧ next value = .ok result := by
  cases first with
  | error fault =>
      constructor
      · intro impossible
        cases impossible
      · rintro ⟨value, impossible, _⟩
        cases impossible
  | ok value =>
      constructor
      · intro run
        exact ⟨value, rfl, run⟩
      · rintro ⟨same, equal, run⟩
        cases equal
        exact run

theorem bind_eq_error {first : Except Fault Value} {next : Value → Except Fault Result}
    {fault : Fault} :
    first >>= next = .error fault ↔
      first = .error fault ∨ ∃ value, first = .ok value ∧ next value = .error fault := by
  cases first with
  | error cause =>
      constructor
      · intro failed
        cases failed
        exact .inl rfl
      · rintro (failed | ⟨value, impossible, _⟩)
        · cases failed
          rfl
        · cases impossible
  | ok value =>
      constructor
      · intro failed
        exact .inr ⟨value, rfl, failed⟩
      · rintro (impossible | ⟨same, equal, failed⟩)
        · cases impossible
        · cases equal
          exact failed

theorem exists_error_iff {outcome : Except Fault Value} :
    (∃ fault, outcome = .error fault) ↔ ¬ ∃ value, outcome = .ok value := by
  cases outcome <;> simp

@[simp] theorem throw_ne_ok {fault : Fault} {value : Value} :
    (throw fault : Except Fault Value) ≠ .ok value := by
  intro impossible
  cases impossible

/-- A check in front of a computation. -/
theorem check_eq_ok {bad : Prop} [Decidable bad] {fault : Fault} {skip : Unit → Except Fault Result}
    {rest : Except Fault Result} {result : Result} :
    (if bad then throw fault >>= skip else rest) = .ok result ↔ ¬ bad ∧ rest = .ok result := by
  by_cases holds : bad <;> simp [holds, bind_eq_ok]

theorem map_eq_ok {first : Except Fault Value} {convert : Value → Result} {result : Result} :
    first.map convert = .ok result ↔ ∃ value, first = .ok value ∧ convert value = result := by
  cases first <;> simp [Except.map]

theorem mapError_eq_ok {first : Except Fault Value} {explain : Fault → Other} {value : Value} :
    first.mapError explain = .ok value ↔ first = .ok value := by
  cases first with
  | error fault =>
      constructor
      · intro impossible
        cases impossible
      · intro impossible
        cases impossible
  | ok result =>
      constructor
      · intro same
        cases same
        rfl
      · intro same
        cases same
        rfl

theorem mapError_eq_error {first : Except Fault Value} {explain : Fault → Other} {fault : Other} :
    first.mapError explain = .error fault ↔
      ∃ cause, first = .error cause ∧ explain cause = fault := by
  cases first with
  | error cause =>
      constructor
      · intro failed
        cases failed
        exact ⟨cause, rfl, rfl⟩
      · rintro ⟨same, equal, rfl⟩
        cases equal
        rfl
  | ok value =>
      constructor
      · intro impossible
        cases impossible
      · rintro ⟨cause, impossible, _⟩
        cases impossible

theorem map_eq_error {first : Except Fault Value} {convert : Value → Result} {fault : Fault} :
    first.map convert = .error fault ↔ first = .error fault := by
  cases first <;> simp [Except.map]

/-- A list of steps gives the list of their results. -/
theorem mapM_eq_ok {step : Value → Except Fault Result} {items : List Value}
    {results : List Result} :
    items.mapM step = .ok results ↔
      List.Forall₂ (fun item result => step item = .ok result) items results := by
  induction items generalizing results with
  | nil =>
      rw [List.mapM_nil, List.forall₂_nil_left_iff]
      exact ⟨fun same => (Except.ok.inj same).symm, fun same => same ▸ rfl⟩
  | cons item rest ih =>
      rw [List.mapM_cons, bind_eq_ok, List.forall₂_cons_left_iff]
      constructor
      · rintro ⟨result, first, run⟩
        rcases bind_eq_ok.mp run with ⟨others, later, same⟩
        exact ⟨result, others, first, ih.mp later, (Except.ok.inj same).symm⟩
      · rintro ⟨result, others, first, later, rfl⟩
        exact ⟨result, first, bind_eq_ok.mpr ⟨others, ih.mpr later, rfl⟩⟩

theorem mapM_isOk {step : Value → Except Fault Result} {items : List Value} :
    (∃ results, items.mapM step = .ok results) ↔
      ∀ item ∈ items, ∃ result, step item = .ok result := by
  simp only [mapM_eq_ok, List.exists_forall₂_iff]

/-- Steps with the same results, one by one, give the same list of results. -/
theorem mapM_congr {step : Value → Except Fault Result} {items others : List Value}
    (alike : List.Forall₂
      (fun item other => ∀ result, step other = .ok result ↔ step item = .ok result) items others)
    {results : List Result} : others.mapM step = .ok results ↔ items.mapM step = .ok results := by
  simp only [mapM_eq_ok]
  induction alike generalizing results with
  | nil => rfl
  | cons same _ ih => simp only [List.forall₂_cons_left_iff, same, ih]

/-- A list of steps fails where the first of them fails. -/
theorem mapM_eq_error {step : Value → Except Fault Result} {items : List Value} {fault : Fault} :
    items.mapM step = .error fault ↔ ∃ before item after, items = before ++ item :: after ∧
      (∀ earlier ∈ before, ∃ result, step earlier = .ok result) ∧ step item = .error fault := by
  induction items with
  | nil =>
      constructor
      · intro impossible
        cases impossible
      · rintro ⟨before, item, after, parts, _⟩
        simp at parts
  | cons first rest ih =>
      rw [List.mapM_cons, bind_eq_error]
      constructor
      · rintro (failed | ⟨result, passed, later⟩)
        · exact ⟨[], first, rest, rfl, by simp, failed⟩
        · rcases bind_eq_error.mp later with failed | ⟨_, _, impossible⟩
          · rcases ih.mp failed with ⟨before, item, after, rfl, passedBefore, failed⟩
            exact ⟨first :: before, item, after, rfl,
              List.forall_mem_cons.mpr ⟨⟨result, passed⟩, passedBefore⟩, failed⟩
          · cases impossible
      · rintro ⟨before, item, after, parts, passed, failed⟩
        cases before with
        | nil =>
            cases parts
            exact .inl failed
        | cons head tail =>
            cases parts
            rcases List.forall_mem_cons.mp passed with ⟨⟨result, headPassed⟩, tailPassed⟩
            have later := ih.mpr ⟨tail, item, after, rfl, tailPassed, failed⟩
            exact .inr ⟨result, headPassed, bind_eq_error.mpr (.inl later)⟩

/-- A run fails at its first step that fails. -/
theorem foldlM_eq_error {State Item : Type} {step : State → Item → Except Fault State}
    {items : List Item} {start : State} {fault : Fault} :
    items.foldlM step start = .error fault ↔ ∃ before item after middle,
      items = before ++ item :: after ∧ before.foldlM step start = .ok middle ∧
        step middle item = .error fault := by
  induction items generalizing start with
  | nil =>
      constructor
      · intro impossible
        cases impossible
      · rintro ⟨before, item, after, middle, parts, _⟩
        simp at parts
  | cons first rest ih =>
      rw [List.foldlM_cons, bind_eq_error]
      constructor
      · rintro (failed | ⟨next, passed, later⟩)
        · exact ⟨[], first, rest, start, rfl, rfl, failed⟩
        · obtain ⟨before, item, after, middle, rfl, run, failed⟩ := ih.mp later
          refine ⟨first :: before, item, after, middle, rfl, ?_, failed⟩
          rw [List.foldlM_cons]
          exact bind_eq_ok.mpr ⟨next, passed, run⟩
      · rintro ⟨before, item, after, middle, parts, run, failed⟩
        cases before with
        | nil =>
            cases parts
            cases run
            exact .inl failed
        | cons head tail =>
            cases parts
            rw [List.foldlM_cons] at run
            obtain ⟨next, passed, later⟩ := bind_eq_ok.mp run
            exact .inr ⟨next, passed, ih.mpr ⟨tail, item, after, middle, rfl, later, failed⟩⟩

end Except

/-- Steps that all have a result give the list of their results. -/
theorem Option.mapM_eq_some {Value Result : Type} {step : Value → Option Result}
    {items : List Value} {results : List Result} :
    items.mapM step = some results ↔ items.map step = results.map some := by
  induction items generalizing results with
  | nil => cases results <;> simp
  | cons item rest ih =>
      cases results with
      | nil => simp [List.mapM_cons, Option.bind_eq_some_iff]
      | cons result others => simp [List.mapM_cons, Option.bind_eq_some_iff, ih]

theorem Option.mapM_isSome {Value Result : Type} {step : Value → Option Result}
    {items : List Value} :
    (∃ results, items.mapM step = some results) ↔
      ∀ item ∈ items, ∃ result, step item = some result := by
  induction items with
  | nil => simp
  | cons item rest ih => simp [List.mapM_cons, Option.bind_eq_some_iff, ← ih]

section Runs
variable {State Item Fault : Type} (kept : State → Prop) (items : List Item) {before after : State}

/-- What a run keeps, for any kind of computation in which the result of a sequence
comes from results of its steps. -/
theorem List.foldlM_keeps {Run : Type → Type} [Monad Run] {step : State → Item → Run State}
    (gives : Run State → State → Prop)
    (pureOnly : ∀ {first last}, gives (pure first) last → first = last)
    (stepwise : ∀ {first next last}, gives (first >>= next) last →
      ∃ middle, gives first middle ∧ gives (next middle) last)
    (keeps : ∀ before item after, item ∈ items → kept before → gives (step before item) after →
      kept after)
    (start : kept before) (run : gives (items.foldlM step before) after) : kept after := by
  induction items generalizing before with
  | nil =>
      cases pureOnly run
      exact start
  | cons item rest ih =>
      rw [List.foldlM_cons] at run
      obtain ⟨middle, first, others⟩ := stepwise run
      exact ih (fun s i t member => keeps s i t (.tail _ member))
        (keeps before item middle List.mem_cons_self start first) others

theorem Except.foldlM_keeps {step : State → Item → Except Fault State}
    (keeps : ∀ before item after, item ∈ items → kept before → step before item = .ok after →
      kept after)
    (start : kept before) (run : items.foldlM step before = .ok after) : kept after :=
  List.foldlM_keeps kept items (fun run result => run = Except.ok result) Except.ok.inj
    Except.bind_eq_ok.mp keeps start run

theorem Option.foldlM_keeps {step : State → Item → Option State}
    (keeps : ∀ before item after, item ∈ items → kept before → step before item = some after →
      kept after)
    (start : kept before) (run : items.foldlM step before = some after) : kept after :=
  List.foldlM_keeps kept items (fun run result => run = some result) Option.some.inj
    Option.bind_eq_some_iff.mp keeps start run

end Runs

/-- Results that are computed one by one make up their vector. -/
theorem Vector.four_listed {Value : Type} (results : Vector Value 4) :
    #v[results.get 0, results.get 1, results.get 2, results.get 3] = results := by
  apply Vector.ext
  intro index inside
  obtain rfl | rfl | rfl | rfl : index = 0 ∨ index = 1 ∨ index = 2 ∨ index = 3 := by omega
  all_goals rfl
