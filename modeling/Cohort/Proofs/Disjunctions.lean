import Cohort.Proofs.CanonicalForm
import Mathlib.Data.List.Fold

/-!
# Disjunctions of many formulas

A disjunction of a list pools the members of one clause before it distributes any of the others, so
it comes to its members in another order than one disjunction after the other would. The clauses
are the same nevertheless: the first member can be split off (`Formula.any_cons`). This makes
disjunction associative as well as commutative, and the disjunction of a list the fold of
disjunctions of two (`Formula.any_eq_foldl`).
-/

namespace Cohort

variable {α : Type} [Ranked α]

namespace Formula

variable {fs gs : List (Formula α)}

/-- Formulas that all have clauses have some to unite, one of each. -/
theorem exists_unites : ∀ {gs : List (Formula α)}, (∀ g ∈ gs, g ≠ always) → ∃ c, Unites gs c
  | [], _ => ⟨_, unites_nil.2 rfl⟩
  | g :: gs, hgs => by
    obtain ⟨hg, hgs⟩ := List.forall_mem_cons.1 hgs
    obtain ⟨d, hd⟩ := exists_mem_of_ne hg
    obtain ⟨e, he⟩ := exists_unites hgs
    exact ⟨d.union e, unites_cons.2 ⟨d, hd, e, he, rfl⟩⟩

theorem any_nil : any ([] : List (Formula α)) = always := pool_nil

theorem any_ne_always (hne : gs ≠ []) (hgs : ∀ g ∈ gs, g ≠ always) : any gs ≠ always := by
  obtain ⟨c, hc⟩ := exists_unites hgs
  exact ne_always_of_mem ((mem_any_of_ne hne hgs).2 hc)

theorem any_filter (fs : List (Formula α)) : any (fs.filter (!·.isEmpty)) = any fs := by
  unfold any
  simp only [List.filter_filter, Bool.and_self]

theorem any_cons (f : Formula α) (fs : List (Formula α)) : any (f :: fs) = f.or (any fs) := by
  by_cases hf : f = always
  · rw [hf, any_always_cons, always_or]
  have hcons : (f :: fs).filter (!·.isEmpty) = f :: fs.filter (!·.isEmpty) :=
    List.filter_cons_of_pos (by simpa using mt isEmpty_iff.1 hf)
  have hgs : ∀ g ∈ fs.filter (!·.isEmpty), g ≠ always := fun _ => ne_always_of_mem_filter
  rw [← any_filter fs, ← any_filter (f :: fs), hcons]
  generalize fs.filter (!·.isEmpty) = gs at hgs
  by_cases hne : gs = []
  · rw [hne, any_singleton, any_nil, or_always]
  refine ext_mem fun c => ?_
  rw [mem_any_of_ne (List.cons_ne_nil f gs) (List.forall_mem_cons.2 ⟨hf, hgs⟩), unites_cons,
    mem_or hf (any_ne_always hne hgs)]
  simp only [mem_any_of_ne hne hgs]

protected theorem or_comm (f g : Formula α) : f.or g = g.or f := by
  rw [or_eq_any, or_eq_any, any_perm (.swap g f [])]

protected theorem or_assoc (f g h : Formula α) : (f.or g).or h = f.or (g.or h) := by
  have hrotate : ([h] ++ [f, g]).Perm ([f, g] ++ [h]) := List.perm_append_comm
  calc (f.or g).or h = h.or (any [f, g]) := by rw [Formula.or_comm, or_eq_any f g]
    _ = any [h, f, g] := (any_cons h [f, g]).symm
    _ = any [f, g, h] := any_perm hrotate
    _ = f.or (any [g, h]) := any_cons f [g, h]
    _ = f.or (g.or h) := by rw [or_eq_any g h]

instance : Std.Commutative (Formula.or : Formula α → Formula α → Formula α) := ⟨Formula.or_comm⟩

instance : Std.Associative (Formula.or : Formula α → Formula α → Formula α) := ⟨Formula.or_assoc⟩

theorem any_eq_foldl (fs : List (Formula α)) : any fs = fs.foldl Formula.or always := by
  rw [List.foldl_eq_foldr]
  induction fs with
  | nil => exact any_nil
  | cons f fs ih => rw [any_cons, List.foldr_cons, ih]

/-- Formulas are a commutative monoid under disjunction, whose unit is the formula without clauses.
A disjunction of a list is the fold of disjunctions of two, so it is the same in whatever order the
members stand, and however many of them have no clauses. -/
theorem disjunction_monoid (α : Type) [Ranked α] :
    (∀ f g : Formula α, f.or g = g.or f)
      ∧ (∀ f g h : Formula α, (f.or g).or h = f.or (g.or h))
      ∧ (∀ f : Formula α, always.or f = f ∧ f.or always = f)
      ∧ (∀ fs : List (Formula α), any fs = fs.foldl Formula.or always)
      ∧ (∀ fs gs : List (Formula α), fs.Perm gs → any fs = any gs)
      ∧ (∀ fs gs : List (Formula α), any (fs ++ always :: gs) = any (fs ++ gs)) := by
  refine ⟨Formula.or_comm, Formula.or_assoc, fun f => ⟨always_or f, or_always f⟩, any_eq_foldl,
    fun _ _ => any_perm, fun fs gs => ?_⟩
  rw [any_perm List.perm_middle, any_always_cons]

end Formula

end Cohort
