import Cohort.Ranked

/-!
# Sorted sets

A finite set held as the ascending list of its members. Since that list is determined by the
members (`SortedSet.ext_mem`), sets are equal exactly when they have the same members, whatever
order they were filled in, and a set's place in the order of sets is that of its list.

Every set is made by `ofList`, which holds the members of a list and nothing else (`mem_ofList`).
-/

namespace Cohort

open Ranked

universe u

variable {α : Type u} [Ranked α]

/-- Each member comes before all later ones. -/
def Ascending (l : List α) : Prop := l.Pairwise fun a b => rank a b = .lt

/-- Puts a value in front unless the list starts with it. -/
def consNew (a : α) : List α → List α
  | [] => [a]
  | b :: l => if rank a b = .eq then b :: l else a :: b :: l

theorem mem_consNew {a x : α} {l : List α} : x ∈ consNew a l ↔ x = a ∨ x ∈ l := by
  cases l with
  | nil => simp [consNew]
  | cons b l =>
    rw [consNew]
    split
    · next h =>
      rw [level_iff] at h
      simp [h]
    · simp

theorem ascending_consNew {a : α} {l : List α} (h : Ascending l)
    (ha : ∀ x ∈ l, atMost a x) : Ascending (consNew a l) := by
  cases l with
  | nil => simp [consNew, Ascending]
  | cons b l =>
    rw [consNew]
    split
    · exact h
    · next hne =>
      have hab : rank a b = .lt := by
        have := ha b (by simp)
        unfold atMost at this
        revert this hne
        cases rank a b <;> simp
      refine List.pairwise_cons.2 ⟨fun x hx => ?_, h⟩
      rcases List.mem_cons.1 hx with rfl | hx
      · exact hab
      · exact rank_trans hab ((List.pairwise_cons.1 h).1 x hx)

/-- Keeps one of each run of equal neighbours. -/
def dropRepeats (l : List α) : List α := l.foldr consNew []

theorem mem_dropRepeats {x : α} {l : List α} : x ∈ dropRepeats l ↔ x ∈ l := by
  induction l with
  | nil => simp [dropRepeats]
  | cons a l ih =>
    rw [dropRepeats, List.foldr_cons, mem_consNew, List.mem_cons]
    exact or_congr_right ih

theorem ascending_dropRepeats {l : List α} (h : l.Pairwise fun a b => atMost a b) :
    Ascending (dropRepeats l) := by
  induction l with
  | nil => simp [dropRepeats, Ascending]
  | cons a l ih =>
    obtain ⟨ha, hl⟩ := List.pairwise_cons.1 h
    exact ascending_consNew (ih hl) fun x hx => ha x (mem_dropRepeats.1 hx)

/-- A finite set: the ascending list of its members. -/
structure SortedSet (α : Type u) [Ranked α] where
  /-- The members, in ascending order. -/
  toList : List α
  ascending : Ascending toList

namespace SortedSet

instance : Membership α (SortedSet α) := ⟨fun s a => a ∈ s.toList⟩

theorem mem_def {a : α} {s : SortedSet α} : a ∈ s ↔ a ∈ s.toList := Iff.rfl

@[ext] theorem ext {s t : SortedSet α} (h : s.toList = t.toList) : s = t := by
  cases s
  cases t
  cases h
  rfl

/-- A set is determined by its members. -/
theorem ext_mem {s t : SortedSet α} (h : ∀ a, a ∈ s ↔ a ∈ t) : s = t :=
  ext (eq_of_mem_iff id s.ascending t.ascending h)

/-- The set of the values in a list. -/
def ofList (l : List α) : SortedSet α where
  toList := dropRepeats (l.mergeSort atMost)
  ascending := ascending_dropRepeats (List.pairwise_mergeSort atMost_trans atMost_total l)

@[simp] theorem mem_ofList {a : α} {l : List α} : a ∈ ofList l ↔ a ∈ l := by
  rw [mem_def, ofList, mem_dropRepeats, List.mem_mergeSort]

theorem toList_ofList {l : List α} (h : Ascending l) : (ofList l).toList = l :=
  eq_of_mem_iff id (ofList l).ascending h fun _ => mem_ofList

theorem ofList_toList (s : SortedSet α) : ofList s.toList = s :=
  ext_mem fun _ => mem_ofList

def empty : SortedSet α := ⟨[], List.Pairwise.nil⟩

@[simp] theorem not_mem_empty {a : α} : a ∉ (empty : SortedSet α) := nofun

theorem ofList_nil : ofList [] = (empty : SortedSet α) :=
  ext_mem fun a => by simp only [mem_ofList, not_mem_empty, List.not_mem_nil]

def singleton (a : α) : SortedSet α := ⟨[a], List.pairwise_singleton _ _⟩

@[simp] theorem mem_singleton {a b : α} : a ∈ singleton b ↔ a = b := List.mem_singleton

theorem ofList_singleton (a : α) : ofList [a] = singleton a :=
  ext_mem fun b => by simp only [mem_ofList, mem_singleton, List.mem_singleton]

def union (s t : SortedSet α) : SortedSet α := ofList (s.toList ++ t.toList)

@[simp] theorem mem_union {a : α} {s t : SortedSet α} : a ∈ s.union t ↔ a ∈ s ∨ a ∈ t := by
  rw [union, mem_ofList, List.mem_append]
  rfl

theorem union_assoc (r s t : SortedSet α) : (r.union s).union t = r.union (s.union t) :=
  ext_mem fun a => by simp only [mem_union, or_assoc]

theorem empty_union (s : SortedSet α) : empty.union s = s :=
  ext_mem fun a => by simp only [mem_union, not_mem_empty, false_or]

theorem union_empty (s : SortedSet α) : s.union empty = s :=
  ext_mem fun a => by simp only [mem_union, not_mem_empty, or_false]

def size (s : SortedSet α) : Nat := s.toList.length

def isEmpty (s : SortedSet α) : Bool := s.toList.isEmpty

theorem isEmpty_iff {s : SortedSet α} : s.isEmpty = true ↔ s = empty := by
  rw [isEmpty, List.isEmpty_iff]
  exact ⟨fun h => ext h, fun h => congrArg toList h⟩

theorem exists_cons_of_ne {s : SortedSet α} (h : s ≠ empty) : ∃ a l, s.toList = a :: l :=
  List.exists_cons_of_ne_nil fun hnil => h (ext hnil)

instance (a : α) (s : SortedSet α) : Decidable (a ∈ s) :=
  letI := fun x y : α => decideEq x y
  inferInstanceAs (Decidable (a ∈ s.toList))

/-- Sets stand in the order of their lists: where they first part decides. -/
instance : Ranked (SortedSet α) where
  rank s t := rank s.toList t.toList
  transitive := transitive_through toList
  separating := { compare_self := rank_self _, eq_of_compare := fun h => ext (level_iff.1 h) }

instance : DecidableEq (SortedSet α) := fun s t => decideEq s t

end SortedSet

end Cohort
