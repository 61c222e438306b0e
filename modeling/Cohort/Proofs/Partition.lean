import Cohort.Proofs.SetAlgebra

/-!
# Parting a selection by another

The intersection of two selections and their difference share no entity, and whoever is in the first
selection is in one of them. They are evaluated over the funnels of both sides, though, so a
selection that admits entities outside its own funnels, as a complement does, is asked about those
of the other side too and gains them (`mem_members_or_gained_iff`). Parting a selection keeps its
count exactly when nobody is gained (`length_members_add_gained`).
-/

namespace Cohort

namespace Index

variable {index : Index} {a b s : Selection}

/-- The entities that a selection holds beyond its own when it is evaluated over the funnels of
another one as well. -/
def gained (index : Index) (a b : Selection) : List EntityId :=
  (index.entities b.funnels).filter fun x =>
    a.admitsOutsiders && !decide (x ∈ index.entities a.funnels)

theorem mem_gained_iff {x : EntityId} : x ∈ index.gained a b ↔ x ∈ index.entities b.funnels
    ∧ a.admitsOutsiders = true ∧ x ∉ index.entities a.funnels := by
  unfold gained
  rw [List.mem_filter, Bool.and_eq_true, Bool.not_eq_true', decide_eq_false_iff_not]

theorem gained_eq_nil_iff : index.gained a b = [] ↔ (a.admitsOutsiders = true →
    ∀ x ∈ index.entities b.funnels, x ∈ index.entities a.funnels) := by
  rw [List.eq_nil_iff_forall_not_mem]
  simp only [mem_gained_iff, not_and, not_not]
  exact ⟨fun h ha x hx => h x hx ha, fun h x hx ha => h ha x hx⟩

/-- Over the funnels of both sides, a selection has its own entities and what it gains. -/
theorem mem_members_or_gained_iff {x : EntityId} (hs : s.leaves = a.leaves ++ b.leaves) :
    x ∈ index.entities s.funnels ∧ index.has x a = true
      ↔ x ∈ index.members a ∨ x ∈ index.gained a b := by
  rw [mem_entities_of_leaves hs, mem_members_iff, mem_gained_iff]
  by_cases hx : x ∈ index.entities a.funnels
  · simp [hx]
  · simp [hx, has_of_not_mem_entities hx]

theorem length_members_add_gained (hs : s.leaves = a.leaves ++ b.leaves) :
    ((index.entities s.funnels).filter fun x => index.has x a).length
      = (index.members a).length + (index.gained a b).length := by
  rw [← List.length_append]
  refine List.Perm.length_eq ((List.perm_ext_iff_of_nodup ?_ ?_).2 fun x => ?_)
  · exact (nodup_of_ascending (entities_ascending _)).filter _
  · refine List.nodup_append.2 ⟨nodup_of_ascending (members_ascending _ _),
      (nodup_of_ascending (entities_ascending _)).filter _, ?_⟩
    rintro x hx y hy rfl
    exact (mem_gained_iff.1 hy).2.2 (mem_members_iff.1 hx).1
  · rw [List.mem_filter, List.mem_append, mem_members_or_gained_iff hs]

theorem length_filter_and_add (l : List EntityId) (p q : EntityId → Bool) :
    (l.filter fun x => p x && q x).length + (l.filter fun x => p x && !q x).length
      = (l.filter p).length := by
  induction l with
  | nil => rfl
  | cons x l ih =>
    cases hp : p x <;> cases hq : q x <;> simp [hp, hq] <;> omega

/-- What a selection, its intersection with another and its difference from it list. -/
structure Parting (index : Index) (a b : Selection) (as is ds : List Element) : Prop where
  select_whole : index.select a = .ok as
  select_inter : index.select (a.inter b) = .ok is
  select_diff : index.select (a.diff b) = .ok ds
  count_whole : index.count a = .ok as.length
  count_inter : index.count (a.inter b) = .ok is.length
  count_diff : index.count (a.diff b) = .ok ds.length
  /-- The parts share no entity. -/
  disjoint : ∀ x ∈ is.map (·.id), x ∉ ds.map (·.id)
  /-- Together they have the entities of the whole and those that it gains. -/
  mem_iff : ∀ x, x ∈ is.map (·.id) ∨ x ∈ ds.map (·.id)
    ↔ x ∈ as.map (·.id) ∨ x ∈ index.gained a b
  sum : is.length + ds.length = as.length + (index.gained a b).length
  /-- The count of the whole is kept exactly when there is nobody to gain. -/
  sum_eq_iff : is.length + ds.length = as.length
    ↔ (a.admitsOutsiders = true → ∀ x ∈ index.entities b.funnels, x ∈ index.entities a.funnels)
  /-- What is made from leaves by operators and joins gains nobody. -/
  gained_eq_nil : ∀ e : SetExpr, e.selection = .ok a → index.gained a b = []

theorem exists_parting (index : Index) (a b : Selection) (ha : index.Covers a)
    (hb : index.Covers b) : ∃ as is ds, Parting index a b as is ds := by
  have hi : (a.inter b).leaves = a.leaves ++ b.leaves := SetOp.leaves_selection .inter a b
  have hd : (a.diff b).leaves = a.leaves ++ b.leaves := SetOp.leaves_selection .diff a b
  have hU : (a.diff b).funnels = (a.inter b).funnels := by
    unfold Selection.funnels
    rw [hd, hi]
  obtain ⟨as, has, haids⟩ := select_of_covers ha
  obtain ⟨is, his, hiids⟩ := select_of_covers (covers_of_leaves hi ha hb)
  obtain ⟨ds, hds, hdids⟩ := select_of_covers (covers_of_leaves hd ha hb)
  have hilen : (index.members (a.inter b)).length = is.length := by rw [← hiids, List.length_map]
  have hdlen : (index.members (a.diff b)).length = ds.length := by rw [← hdids, List.length_map]
  have halen : (index.members a).length = as.length := by rw [← haids, List.length_map]
  have hsum : is.length + ds.length = as.length + (index.gained a b).length := by
    rw [← hilen, ← hdlen, ← halen, ← length_members_add_gained hi, members, members, hU]
    simp only [has_inter, has_diff]
    exact length_filter_and_add _ _ _
  exact ⟨as, is, ds, {
    select_whole := has
    select_inter := his
    select_diff := hds
    count_whole := by rw [count_of_covers ha, halen]
    count_inter := by rw [count_of_covers (covers_of_leaves hi ha hb), hilen]
    count_diff := by rw [count_of_covers (covers_of_leaves hd ha hb), hdlen]
    disjoint := by
      intro x hx hx'
      rw [hiids, mem_members_iff, has_inter, Bool.and_eq_true] at hx
      rw [hdids, mem_members_iff, has_diff, Bool.and_eq_true, Bool.not_eq_true'] at hx'
      exact absurd hx.2.2 (by simp [hx'.2.2])
    mem_iff := by
      intro x
      rw [hiids, hdids, haids, ← mem_members_or_gained_iff hi, mem_members_iff, mem_members_iff,
        has_inter, has_diff, hU]
      cases index.has x b <;> simp
    sum := hsum
    sum_eq_iff := by
      rw [hsum, ← gained_eq_nil_iff, ← List.length_eq_zero_iff]
      omega
    gained_eq_nil := by
      intro e he
      rw [gained_eq_nil_iff, SetExpr.admitsOutsiders_selection he]
      nofun }⟩

theorem exists_parting_complement :
    threeFunnels.Covers (.node [.funnel 0] ⟨[⟨0, 1⟩]⟩) ∧ threeFunnels.Covers (.funnel 1)
      ∧ ∃ as is ds, Parting threeFunnels (.node [.funnel 0] ⟨[⟨0, 1⟩]⟩) (.funnel 1) as is ds :=
  ⟨by decide, by decide, exists_parting _ _ _ (by decide) (by decide)⟩

/-- The complement of a funnel, by itself, lists nobody. Intersected with a second funnel it lists
that one's entity. -/
theorem count_inter_complement : ∃ (index : Index) (a : Selection),
    Selection.combine [.funnel 0] ⟨[⟨0, 1⟩]⟩ = .ok a ∧ index.Covers a ∧ index.Covers (.funnel 1)
      ∧ index.count a = .ok 0 ∧ index.count (a.inter (.funnel 1)) = .ok 1
      ∧ index.count (a.diff (.funnel 1)) = .ok 0 := by
  let index : Index :=
    ⟨2, .ofList [(0, .ofList [(1, 0)]), (1, .ofList [(2, 0)])], within_of_all (by decide)⟩
  let a : Selection := .node [.funnel 0] ⟨[⟨0, 1⟩]⟩
  have hU : index.entities [0, 1] = [1, 2] :=
    congrArg SortedSet.toList (SortedSet.ofList_toList ⟨[1, 2], List.pairwise_pair.2 rfl⟩)
  have hU₀ : index.entities [0] = [1] :=
    congrArg SortedSet.toList (SortedSet.ofList_toList ⟨[1], List.pairwise_singleton _ _⟩)
  refine ⟨index, a, by decide, by decide, by decide, ?_, ?_, ?_⟩
  · rw [count_of_covers (by decide), members, show a.funnels = [0] by decide, hU₀]
    decide
  · rw [count_of_covers (by decide), members, show (a.inter (.funnel 1)).funnels = [0, 1] by decide,
      hU]
    decide
  · rw [count_of_covers (by decide), members, show (a.diff (.funnel 1)).funnels = [0, 1] by decide,
      hU]
    decide

end Index

end Cohort
