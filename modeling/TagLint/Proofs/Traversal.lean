import Mathlib.Data.List.Forall2

/-!
# Traversals that can fail

A list is loaded or decoded item by item, and the first item that fails ends it. What comes of
such a traversal is what comes of its items.
-/

namespace TagLint

variable {α β ε : Type}

/-- A traversal succeeds if it does so at every item. -/
theorem mapM_eq_some_iff {f : α → Option β} {items : List α} {results : List β} :
    items.mapM f = some results ↔
      List.Forall₂ (fun item result => f item = some result) items results := by
  induction items generalizing results with
  | nil =>
    rw [List.mapM_nil, List.forall₂_nil_left_iff]
    exact Option.some_inj.trans eq_comm
  | cons item items ih =>
    rw [List.mapM_cons, List.forall₂_cons_left_iff]
    simp only [Option.bind_eq_bind, Option.bind_eq_some_iff, ih]
    constructor
    · rintro ⟨result, hresult, later, hlater, heq⟩
      exact ⟨result, later, hresult, hlater, (Option.some.inj heq).symm⟩
    · rintro ⟨result, later, hresult, hlater, rfl⟩
      exact ⟨result, hresult, later, hlater, rfl⟩

section Error

variable {f : α → Except ε β}

theorem mapM_cons_of_ok {item : α} {result : β} (h : f item = .ok result) (items : List α) :
    (item :: items).mapM f = (items.mapM f).map (result :: ·) := by
  rw [List.mapM_cons, h]
  cases items.mapM f <;> rfl

theorem mapM_cons_of_error {item : α} {error : ε} (h : f item = .error error) (items : List α) :
    (item :: items).mapM f = .error error := by
  rw [List.mapM_cons, h]
  rfl

theorem mapM_eq_ok_iff {items : List α} {results : List β} :
    items.mapM f = .ok results ↔
      List.Forall₂ (fun item result => f item = .ok result) items results := by
  induction items generalizing results with
  | nil =>
    rw [List.mapM_nil, List.forall₂_nil_left_iff, eq_comm]
    exact Iff.of_eq (Except.ok.injEq _ _)
  | cons item items ih =>
    rw [List.forall₂_cons_left_iff]
    simp only [← ih]
    cases hitem : f item with
    | error error => simp [mapM_cons_of_error hitem]
    | ok result =>
      rw [mapM_cons_of_ok hitem]
      cases items.mapM f <;> simp [Except.map, eq_comm]

/-- A traversal stops at the first item that fails. -/
theorem mapM_eq_error_iff {items : List α} {error : ε} :
    items.mapM f = .error error ↔ ∃ before item after, items = before ++ item :: after ∧
      (∀ earlier ∈ before, ∃ result, f earlier = .ok result) ∧ f item = .error error := by
  induction items with
  | nil =>
    constructor
    · intro h
      cases h
    · rintro ⟨before, item, after, hsplit, -⟩
      simp at hsplit
  | cons first items ih =>
    cases hfirst : f first with
    | error cause =>
      rw [mapM_cons_of_error hfirst]
      constructor
      · intro h
        obtain rfl := Except.error.inj h
        exact ⟨[], first, items, rfl, by simp, hfirst⟩
      · rintro ⟨before, item, after, hsplit, hbefore, hitem⟩
        rcases List.cons_eq_append_iff.1 hsplit with ⟨rfl, hrest⟩ | ⟨before, rfl, -⟩
        · obtain ⟨rfl, -⟩ := List.cons.inj hrest
          exact congrArg _ (Except.error.inj (hfirst.symm.trans hitem))
        · obtain ⟨result, hresult⟩ := hbefore first List.mem_cons_self
          cases hfirst.symm.trans hresult
    | ok result =>
      have hlater : (items.mapM f).map (result :: ·) = .error error ↔
          items.mapM f = .error error := by
        cases items.mapM f <;> simp [Except.map]
      rw [mapM_cons_of_ok hfirst, hlater, ih]
      constructor
      · rintro ⟨before, item, after, rfl, hbefore, hitem⟩
        refine ⟨first :: before, item, after, rfl, ?_, hitem⟩
        exact List.forall_mem_cons.2 ⟨⟨result, hfirst⟩, hbefore⟩
      · rintro ⟨before, item, after, hsplit, hbefore, hitem⟩
        rcases List.cons_eq_append_iff.1 hsplit with ⟨rfl, hrest⟩ | ⟨before, rfl, hrest⟩
        · obtain ⟨rfl, -⟩ := List.cons.inj hrest
          cases hfirst.symm.trans hitem
        · exact ⟨before, item, after, hrest, (List.forall_mem_cons.1 hbefore).2, hitem⟩

/-- A traversal fails if a single item does, wherever it stands. -/
theorem exists_mapM_eq_error_iff {items : List α} :
    (∃ error, items.mapM f = .error error) ↔ ∃ item ∈ items, ¬ ∃ result, f item = .ok result := by
  induction items with
  | nil => simp [pure, Except.pure]
  | cons first items ih =>
    cases hfirst : f first with
    | error error => simp [mapM_cons_of_error hfirst, hfirst]
    | ok result =>
      have hlater : (∃ error, (items.mapM f).map (result :: ·) = .error error) ↔
          ∃ error, items.mapM f = .error error := by
        cases items.mapM f <;> simp [Except.map]
      rw [mapM_cons_of_ok hfirst, hlater, ih]
      simp [hfirst]

end Error

end TagLint
