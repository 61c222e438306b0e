/-!
# Ranked types

Every set and table of this library is kept in ascending order, so a type of members comes with
one comparison that is total and that calls two values level only when they are the same
(`Ranked.level_iff`). Numbers are ranked by size, truth values with `false` first, strings by code
point, and lists as in a dictionary: by the first place where they part, a list before its
extensions.
-/

namespace Cohort

universe u v

/-- A type with a total comparison under which only equal values are level. -/
class Ranked (α : Type u) where
  /-- Where the first value stands relative to the second. -/
  rank : α → α → Ordering
  transitive : Std.TransCmp rank
  /-- Only equal values are level. -/
  separating : Std.LawfulEqCmp rank

attribute [instance] Ranked.transitive Ranked.separating

namespace Ranked

variable {α : Type u} [Ranked α]

theorem level_iff {a b : α} : rank a b = .eq ↔ a = b :=
  Std.LawfulEqCmp.compare_eq_iff_eq

@[simp] theorem rank_self (a : α) : rank a a = .eq := level_iff.2 rfl

theorem rank_trans {a b c : α} (hab : rank a b = .lt) (hbc : rank b c = .lt) :
    rank a c = .lt :=
  Std.TransCmp.lt_trans hab hbc

theorem rank_gt_iff {a b : α} : rank a b = .gt ↔ rank b a = .lt :=
  Std.OrientedCmp.gt_iff_lt

theorem ne_of_rank {a b : α} (h : rank a b = .lt) : a ≠ b := fun e => by
  rw [e, rank_self] at h
  exact nomatch h

/-- At most the other value, as a test for sorting. -/
def atMost (a b : α) : Bool := (rank a b).isLE

theorem atMost_trans (a b c : α) (hab : atMost a b) (hbc : atMost b c) : atMost a c :=
  Std.TransCmp.isLE_trans hab hbc

theorem atMost_total (a b : α) : atMost a b || atMost b a := by
  have h : rank b a = (rank a b).swap := Std.OrientedCmp.eq_swap
  rw [atMost, atMost, h]
  cases rank a b <;> rfl

/-- Two lists in strictly ascending order of a key are one list if they have the same members. -/
theorem eq_of_mem_iff {β : Type v} (key : β → α) {l m : List β}
    (hl : l.Pairwise fun a b => rank (key a) (key b) = .lt)
    (hm : m.Pairwise fun a b => rank (key a) (key b) = .lt) (h : ∀ x, x ∈ l ↔ x ∈ m) :
    l = m := by
  induction l generalizing m with
  | nil =>
    cases m with
    | nil => rfl
    | cons b m => exact absurd ((h b).2 (by simp)) (by simp)
  | cons a l ih =>
    cases m with
    | nil => exact absurd ((h a).1 (by simp)) (by simp)
    | cons b m =>
      obtain ⟨hal, hl'⟩ := List.pairwise_cons.1 hl
      obtain ⟨hbm, hm'⟩ := List.pairwise_cons.1 hm
      have hab : a = b := by
        rcases List.mem_cons.1 ((h a).1 (by simp)) with e | ha
        · exact e
        · rcases List.mem_cons.1 ((h b).2 (by simp)) with e | hb
          · exact e.symm
          · exact absurd (rank_trans (hal b hb) (hbm a ha)) (by simp)
      subst hab
      refine congrArg (a :: ·) (ih hl' hm' fun x => ⟨fun hx => ?_, fun hx => ?_⟩)
      · rcases List.mem_cons.1 ((h x).1 (List.mem_cons_of_mem _ hx)) with e | hx'
        · exact absurd (congrArg key e).symm (ne_of_rank (hal x hx))
        · exact hx'
      · rcases List.mem_cons.1 ((h x).2 (List.mem_cons_of_mem _ hx)) with e | hx'
        · exact absurd (congrArg key e).symm (ne_of_rank (hbm x hx))
        · exact hx'

/-- Ranked values can be told apart. -/
def decideEq (a b : α) : Decidable (a = b) := decidable_of_iff _ level_iff

theorem nat_transitive : Std.TransCmp (compare : Nat → Nat → Ordering) := inferInstance

theorem nat_separating : Std.LawfulEqCmp (compare : Nat → Nat → Ordering) := inferInstance

instance : Ranked Nat := ⟨compare, nat_transitive, nat_separating⟩

theorem bool_transitive : Std.TransCmp (compare : Bool → Bool → Ordering) := inferInstance

theorem bool_separating : Std.LawfulEqCmp (compare : Bool → Bool → Ordering) := inferInstance

instance : Ranked Bool := ⟨compare, bool_transitive, bool_separating⟩

theorem string_transitive : Std.TransCmp (compare : String → String → Ordering) := inferInstance

theorem string_separating : Std.LawfulEqCmp (compare : String → String → Ordering) :=
  inferInstance

instance : Ranked String := ⟨compare, string_transitive, string_separating⟩

theorem word_transitive : Std.TransCmp (compare : UInt32 → UInt32 → Ordering) := inferInstance

theorem word_separating : Std.LawfulEqCmp (compare : UInt32 → UInt32 → Ordering) :=
  inferInstance

instance : Ranked UInt32 := ⟨compare, word_transitive, word_separating⟩

theorem list_transitive : Std.TransCmp (List.compareLex (rank (α := α))) := inferInstance

theorem list_separating : Std.LawfulEqCmp (List.compareLex (rank (α := α))) := inferInstance

instance : Ranked (List α) := ⟨List.compareLex rank, list_transitive, list_separating⟩

/-- Reading values through a map keeps the comparison transitive. -/
theorem transitive_through {β : Type u} (f : β → α) :
    Std.TransCmp (fun a b => rank (f a) (f b)) where
  eq_swap := Std.OrientedCmp.eq_swap
  isLE_trans := Std.TransCmp.isLE_trans

variable {β γ : Type u} [Ranked β] [Ranked γ]

/-- Compares by a first key, and where that is level by a second. -/
def rankByKeys (first : α → β) (second : α → γ) : α → α → Ordering :=
  compareLex (fun a b => rank (first a) (first b)) (fun a b => rank (second a) (second b))

omit [Ranked α] in
theorem byKeys_transitive (first : α → β) (second : α → γ) :
    Std.TransCmp (rankByKeys first second) :=
  have := transitive_through first
  have := transitive_through second
  inferInstanceAs (Std.TransCmp (compareLex _ _))

omit [Ranked α] in
theorem byKeys_separating {first : α → β} {second : α → γ}
    (h : ∀ a b, first a = first b → second a = second b → a = b) :
    Std.LawfulEqCmp (rankByKeys first second) where
  compare_self := by simp [rankByKeys, compareLex]
  eq_of_compare {a b} e := by
    simp only [rankByKeys, compareLex_eq_eq, level_iff] at e
    exact h a b e.1 e.2

/-- The order by two keys that together determine a value. -/
@[reducible] def byKeys (first : α → β) (second : α → γ)
    (h : ∀ a b, first a = first b → second a = second b → a = b) : Ranked α :=
  ⟨rankByKeys first second, byKeys_transitive first second, byKeys_separating h⟩

end Ranked

end Cohort
