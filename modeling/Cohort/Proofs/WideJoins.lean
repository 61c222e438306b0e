import Cohort.Proofs.Join

/-!
# Joins beyond the width of a node

The nodes of a join are a chain (`Selection.Chain`), and over leaves each of them goes one level
down (`Selection.Chain.depth_eq`). With what a chain has of an entity, this is what unions and
intersections of any number of selections come to (`Selection.join_chain`).
-/

namespace Cohort.Selection

variable {j : Join} {ss : List Selection} {s : Selection} {n : Nat}

theorem depthAll_le_iff {d : Nat} : ∀ {ss : List Selection},
    depthAll ss ≤ d ↔ ∀ s ∈ ss, s.depth ≤ d
  | [] => by simp [depthAll]
  | s :: ss => by rw [depthAll, Nat.max_le, depthAll_le_iff, List.forall_mem_cons]

theorem depth_le_depthAll (h : s ∈ ss) : s.depth ≤ depthAll ss :=
  depthAll_le_iff.1 (Nat.le_refl _) s h

/-- Over selections without parts, each node of a chain goes one level down. -/
theorem Chain.depth_eq (h : Chain j ss s n) (hss : ∀ u ∈ ss, u.depth = 1) : s.depth = n + 1 := by
  induction h with
  | @last parts test h =>
    have hle : depthAll parts ≤ 1 := depthAll_le_iff.2 fun u hu => Nat.le_of_eq (hss u hu)
    obtain ⟨u, hu⟩ := List.exists_mem_of_length_pos h.fits.nonempty
    rw [depth, Nat.le_antisymm hle (hss u hu ▸ depth_le_depthAll hu)]
  | @more parts others r test n h hr ih =>
    obtain ⟨hparts, hothers⟩ := List.forall_mem_append.1 hss
    have hdeep : r.depth = n + 1 := ih hothers
    have hle : depthAll (parts ++ [r]) ≤ n + 1 := by
      rw [depthAll_le_iff, List.forall_mem_append, List.forall_mem_singleton]
      exact ⟨fun u hu => hparts u hu ▸ Nat.le_add_left 1 n, Nat.le_of_eq hdeep⟩
    have hge : n + 1 ≤ depthAll (parts ++ [r]) := hdeep ▸ depth_le_depthAll (by simp)
    rw [depth, Nat.le_antisymm hle hge, Nat.add_comm]

/-- Any nonempty list of selections has a union and an intersection, whose nodes are chains that
join the selections of the list in their order. An entity is in the union exactly when it is in one
of the selections, and in the intersection when it is in all of them. Over leaves, the depth is 2
and one more for every 63 leaves, or part of them, beyond the first 64. -/
theorem join_chain (ss : List Selection) (h : ss ≠ []) :
    (∀ j, ∃ s, join j ss = .ok s ∧ Chain j ss s (1 + (ss.length - 64 + 62) / 63)
      ∧ ∀ ls : List Leaf, ss = ls.map .leaf →
        s.depth = if ls.length ≤ 64 then 2 else 2 + (ls.length - 64 + 62) / 63)
    ∧ (∀ s, join .any ss = .ok s → ∀ (index : Index) (x : EntityId),
      index.has x s = true ↔ ∃ u ∈ ss, index.has x u = true)
    ∧ ∀ s, join .all ss = .ok s → ∀ (index : Index) (x : EntityId),
      index.has x s = true ↔ ∀ u ∈ ss, index.has x u = true := by
  have hvalue : ∀ {j s}, join j ss = .ok s → ∀ (index : Index) (x : EntityId),
      index.has x s = j.value (ss.map (index.has x)) := by
    intro j s hs
    obtain ⟨u, hu, -, hhas⟩ := exists_join j ss h
    obtain rfl : s = u := Except.ok.inj (hs.symm.trans hu)
    exact hhas
  refine ⟨fun j => ?_, fun s hs index x => ?_, fun s hs index x => ?_⟩
  · obtain ⟨s, hs, hchain⟩ := exists_chain j ss h
    refine ⟨s, hs, hchain, ?_⟩
    rintro ls rfl
    rw [hchain.depth_eq (by simp [depth]), List.length_map]
    split
    · next hle => simp [Nat.sub_eq_zero_of_le hle]
    · exact Nat.add_right_comm 1 _ 1
  · rw [hvalue hs]
    simp [Join.value]
  · rw [hvalue hs]
    simp [Join.value]

/-- The leaves of the funnels below 128. -/
def manyLeaves : List Leaf := (List.range 128).map fun n => ⟨.ofNat n, .always⟩

theorem join_chain_manyLeaves : manyLeaves.map Selection.leaf ≠ [] ∧ ∀ j, ∃ s,
    join j (manyLeaves.map .leaf) = .ok s ∧ Chain j (manyLeaves.map .leaf) s 3 ∧ s.depth = 4 := by
  have hne : manyLeaves.map Selection.leaf ≠ [] := by simp [manyLeaves]
  have hlength : manyLeaves.length = 128 := by simp [manyLeaves]
  refine ⟨hne, fun j => ?_⟩
  obtain ⟨s, hs, hchain, hdepth⟩ := (join_chain _ hne).1 j
  rw [List.length_map, hlength] at hchain
  refine ⟨s, hs, hchain, ?_⟩
  rw [hdepth manyLeaves rfl, hlength]
  rfl

end Cohort.Selection
