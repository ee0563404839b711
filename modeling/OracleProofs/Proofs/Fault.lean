/-
# Steps that can refuse

Operations that can refuse are put together from steps, each of which answers or
ends everything with its error. Where such a composition answered, every step
did, and where every step answers, so does the composition.
-/

import Mathlib
import OracleProofs.Error

namespace OracleProofs

variable {ε ε' α β : Type}

theorem bind_eq_ok_iff {step : Except ε α} {next : α → Except ε β} {answer : β} :
    step >>= next = .ok answer ↔ ∃ middle, step = .ok middle ∧ next middle = .ok answer := by
  cases step with
  | error error =>
      constructor
      · intro h
        cases h
      · rintro ⟨_, h, _⟩
        cases h
  | ok middle =>
      constructor
      · intro h
        exact ⟨middle, rfl, h⟩
      · rintro ⟨_, h, hnext⟩
        cases h
        exact hnext

/-- If a step answers and so does what follows it, whatever the answer, both together do. -/
theorem exists_bind_eq_ok {step : Except ε α} {next : α → Except ε β}
    (answered : ∃ middle, step = .ok middle)
    (goesOn : ∀ middle, step = .ok middle → ∃ answer, next middle = .ok answer) :
    ∃ answer, step >>= next = .ok answer := by
  obtain ⟨middle, hstep⟩ := answered
  obtain ⟨answer, hnext⟩ := goesOn middle hstep
  exact ⟨answer, bind_eq_ok_iff.mpr ⟨middle, hstep, hnext⟩⟩

/-- If every request has one of the reasons for an answer or for an error, then these reasons are
the only ones. -/
theorem outcome_iff {step : Except ε α} {accepted : Prop} {refused : ε → Prop}
    (answers : accepted → ∃ answer, step = .ok answer)
    (errors : ∀ error, refused error → step = .error error)
    (decided : accepted ∨ ∃ error, refused error) :
    ((∃ answer, step = .ok answer) ↔ accepted) ∧ ∀ error, step = .error error ↔ refused error := by
  refine ⟨⟨?_, answers⟩, fun error => ⟨?_, errors error⟩⟩
  · rintro ⟨answer, hanswer⟩
    rcases decided with haccepted | ⟨error, herror⟩
    · exact haccepted
    · cases hanswer.symm.trans (errors error herror)
  · intro herror
    rcases decided with haccepted | ⟨other, hother⟩
    · obtain ⟨answer, hanswer⟩ := answers haccepted
      cases herror.symm.trans hanswer
    · cases herror.symm.trans (errors other hother)
      exact hother

/-- A test that refuses, followed by the rest. -/
theorem ite_error_eq_ok_iff {refused : Prop} [Decidable refused] {error : ε}
    {next : α → Except ε β} {rest : Except ε β} {answer : β} :
    (if refused then Except.error error >>= next else rest) = .ok answer ↔
      ¬refused ∧ rest = .ok answer := by
  by_cases hrefused : refused
  · rw [if_pos hrefused]
    constructor
    · intro h
      cases h
    · rintro ⟨hnot, _⟩
      exact absurd hrefused hnot
  · rw [if_neg hrefused]
    exact ⟨fun h => ⟨hrefused, h⟩, And.right⟩

/-- A test that refuses before one of two computations, of which one changes the answer of the
other. -/
theorem ite_error_eq_map {refused : Prop} [Decidable refused] {error : ε} {γ δ : Type}
    {next : γ → Except ε β} {other : δ → Except ε α} {rest : Except ε β} {plain : Except ε α}
    {change : α → β} (same : ¬refused → rest = plain.map change) :
    (if refused then Except.error error >>= next else rest) =
      (if refused then Except.error error >>= other else plain).map change := by
  by_cases hrefused : refused
  · rw [if_pos hrefused, if_pos hrefused]
    rfl
  · rw [if_neg hrefused, if_neg hrefused, same hrefused]

/-- A test that answers no, followed by the rest. -/
theorem ite_refused_eq_ok_true_iff {refused : Prop} [Decidable refused] {rest : Except ε Bool} :
    (if refused then Except.ok false else rest) = .ok true ↔ ¬refused ∧ rest = .ok true := by
  by_cases hrefused : refused <;> simp [hrefused]

theorem ite_refused_congr {refused : Prop} [Decidable refused] {rest other : Except ε Bool}
    (same : ¬refused → rest = other) :
    (if refused then Except.ok false else rest) =
      if refused then Except.ok false else other := by
  by_cases hrefused : refused
  · rw [if_pos hrefused, if_pos hrefused]
  · rw [if_neg hrefused, if_neg hrefused, same hrefused]

theorem exists_ite_refused_eq_ok {refused : Prop} [Decidable refused] {rest : Except ε Bool}
    (answered : ¬refused → ∃ verdict, rest = .ok verdict) :
    ∃ verdict, (if refused then Except.ok false else rest) = .ok verdict := by
  by_cases hrefused : refused
  · exact ⟨false, if_pos hrefused⟩
  · rw [if_neg hrefused]
    exact answered hrefused

theorem map_eq_ok_iff {step : Except ε α} {next : α → β} {answer : β} :
    step.map next = .ok answer ↔ ∃ middle, step = .ok middle ∧ next middle = answer := by
  cases step <;> simp [Except.map]

theorem map_eq_error_iff {step : Except ε α} {next : α → β} {error : ε} :
    step.map next = .error error ↔ step = .error error := by
  cases step <;> simp [Except.map]

theorem mapError_eq_ok_iff {step : Except ε α} {rename : ε → ε'} {answer : α} :
    step.mapError rename = .ok answer ↔ step = .ok answer := by
  cases step <;> simp [Except.mapError]

@[simp]
theorem mapError_ok (rename : ε → ε') (answer : α) :
    (Except.ok answer : Except ε α).mapError rename = .ok answer := rfl

@[simp]
theorem ok_bind (answer : α) (next : α → Except ε β) : Except.ok answer >>= next = next answer :=
  rfl

/-- A list of steps that all answer answers with the list of the answers. -/
theorem mapM_eq_ok {items : List α} {step : α → Except ε β} {answer : α → β}
    (answers : ∀ item ∈ items, step item = .ok (answer item)) :
    items.mapM step = .ok (items.map answer) := by
  induction items with
  | nil => rfl
  | cons first rest ih =>
      rw [List.mapM_cons, answers first List.mem_cons_self,
        ih fun item hmem => answers item (List.mem_cons_of_mem first hmem)]
      rfl

/-- Steps that keep a condition, and answer as long as it holds, answer one after the other. -/
theorem foldlM_eq_ok {items : List α} {step : β → α → Except ε β} {plain : β → α → β}
    {Holds : β → Prop}
    (answers : ∀ state, Holds state → ∀ item ∈ items,
      step state item = .ok (plain state item) ∧ Holds (plain state item))
    {start : β} (holds : Holds start) :
    items.foldlM step start = .ok (items.foldl plain start) := by
  induction items generalizing start with
  | nil => rfl
  | cons first rest ih =>
      obtain ⟨hfirst, hnext⟩ := answers start holds first List.mem_cons_self
      rw [List.foldlM_cons, List.foldl_cons, hfirst, ok_bind]
      exact ih (fun state hstate item hmem =>
        answers state hstate item (List.mem_cons_of_mem first hmem)) hnext

theorem exists_mapM_eq_ok {items : List α} {step : α → Except ε β}
    (answered : ∀ item ∈ items, ∃ answer, step item = .ok answer) :
    ∃ answers, items.mapM step = .ok answers := by
  induction items with
  | nil => exact ⟨[], rfl⟩
  | cons first rest ih =>
      obtain ⟨answer, hfirst⟩ := answered first List.mem_cons_self
      obtain ⟨answers, hrest⟩ := ih fun item hmem => answered item (List.mem_cons_of_mem first hmem)
      refine ⟨answer :: answers, ?_⟩
      rw [List.mapM_cons, hfirst, hrest]
      rfl

theorem exists_of_mapM_eq_ok {items : List α} {step : α → Except ε β} {answers : List β}
    (answered : items.mapM step = .ok answers) {item : α} (hmem : item ∈ items) :
    ∃ answer, step item = .ok answer := by
  induction items generalizing answers with
  | nil => cases hmem
  | cons first rest ih =>
      rw [List.mapM_cons] at answered
      obtain ⟨answer, hfirst, answered⟩ := bind_eq_ok_iff.mp answered
      obtain ⟨later, hrest, -⟩ := bind_eq_ok_iff.mp answered
      rcases List.mem_cons.mp hmem with rfl | hmem
      · exact ⟨answer, hfirst⟩
      · exact ih hrest hmem

theorem exists_item_of_mapM_eq_ok {items : List α} {step : α → Except ε β} {answers : List β}
    (answered : items.mapM step = .ok answers) {answer : β} (hmem : answer ∈ answers) :
    ∃ item ∈ items, step item = .ok answer := by
  induction items generalizing answers with
  | nil =>
      cases answered
      cases hmem
  | cons first rest ih =>
      rw [List.mapM_cons] at answered
      obtain ⟨firstAnswer, hfirst, answered⟩ := bind_eq_ok_iff.mp answered
      obtain ⟨later, hrest, hanswers⟩ := bind_eq_ok_iff.mp answered
      cases hanswers
      rcases List.mem_cons.mp hmem with rfl | hmem
      · exact ⟨first, List.mem_cons_self, hfirst⟩
      · obtain ⟨item, hitem, hstep⟩ := ih hrest hmem
        exact ⟨item, List.mem_cons_of_mem first hitem, hstep⟩

/-- What holds of the answer of each step holds of the list of the answers. -/
theorem map_of_mapM_eq_ok {γ : Type} {items : List α} {step : α → Except ε β} {answers : List β}
    (answered : items.mapM step = .ok answers) {read : β → γ} {value : α → γ}
    (reads : ∀ item ∈ items, ∀ answer, step item = .ok answer → read answer = value item) :
    answers.map read = items.map value := by
  induction items generalizing answers with
  | nil =>
      cases answered
      rfl
  | cons first rest ih =>
      rw [List.mapM_cons] at answered
      obtain ⟨answer, hfirst, answered⟩ := bind_eq_ok_iff.mp answered
      obtain ⟨later, hrest, hanswers⟩ := bind_eq_ok_iff.mp answered
      cases hanswers
      rw [List.map_cons, List.map_cons, reads first List.mem_cons_self answer hfirst,
        ih hrest fun item hmem => reads item (List.mem_cons_of_mem first hmem)]

theorem length_of_mapM_eq_ok {items : List α} {step : α → Except ε β} {answers : List β}
    (answered : items.mapM step = .ok answers) : answers.length = items.length := by
  have hunits : answers.map (fun _ => ()) = items.map fun _ => () :=
    map_of_mapM_eq_ok answered fun _ _ _ _ => rfl
  simpa using congrArg List.length hunits

/-- Answers can be changed one by one or all at the end. -/
theorem mapM_map_answer {γ : Type} (items : List α) (step : α → Except ε β) (change : β → γ) :
    (items.mapM fun item => (step item).map change) = (items.mapM step).map (List.map change) := by
  induction items with
  | nil => rfl
  | cons first rest ih =>
      rw [List.mapM_cons, List.mapM_cons, ih]
      cases step first with
      | error error => rfl
      | ok answer =>
          cases rest.mapM step with
          | error error => rfl
          | ok answers => rfl

/-- Lists that lead to the same steps lead to the same answers. -/
theorem mapM_eq_of_map_eq {γ : Type} {items : List α} {others : List β} {step : α → Except ε γ}
    {other : β → Except ε γ} (same : items.map step = others.map other) :
    items.mapM step = others.mapM other := by
  have hsteps : (items.map step).mapM id = items.mapM step := List.mapM_map
  have hothers : (others.map other).mapM id = others.mapM other := List.mapM_map
  rw [← hsteps, same, hothers]

/-- The same for an array of steps. -/
theorem mapM_id_map_ok (answers : Array β) :
    (answers.map Except.ok : Array (Except ε β)).mapM id = .ok answers := by
  rw [Array.mapM_map]
  exact Array.mapM_pure.trans (congrArg Except.ok (Array.map_id _))

end OracleProofs
