import Cohort.Index.Evaluation
import Cohort.Proofs.Mask

/-!
# Who is in a selection

Whether an entity is in a selection depends on its masks in the funnels that the selection reads and
on nothing else (`evaluate_congr`). So of the entities in none of these funnels a selection admits
all or none (`has_outsider`), and those it lists are the entities of its funnels that are in it
(`mem_members_iff`).
-/

namespace Cohort

theorem Ranked.rank_word_iff {a b : UInt32} : Ranked.rank a b = .lt ↔ a < b :=
  Std.compare_eq_lt

/-- Ascending lists of entities with the same members are the same. -/
theorem eq_of_ascending {l m : List EntityId} (hl : l.Pairwise (· < ·)) (hm : m.Pairwise (· < ·))
    (h : ∀ x, x ∈ l ↔ x ∈ m) : l = m :=
  Ranked.eq_of_mem_iff id (hl.imp Ranked.rank_word_iff.2) (hm.imp Ranked.rank_word_iff.2) h

theorem nodup_of_ascending {l : List EntityId} (h : l.Pairwise (· < ·)) : l.Nodup :=
  h.imp fun hlt => UInt32.ne_of_lt hlt

theorem Layout.checkFunnel_eq_ok_iff {size : Nat} {f : FunnelId} {u : Unit} :
    checkFunnel size f = .ok u ↔ f.toNat < size := by
  unfold checkFunnel
  split <;> simp_all

namespace Selection

theorem mem_funnels_iff {s : Selection} {f : FunnelId} :
    f ∈ s.funnels ↔ ∃ l ∈ s.leaves, l.funnel = f := by
  unfold funnels
  rw [List.mem_eraseDups, List.mem_map]

end Selection

namespace Index

/-- Whether an entity is in a selection. -/
def has (index : Index) (x : EntityId) (s : Selection) : Bool := (index.evaluate x s).isSome

theorem evaluate_leaf_eq_some_iff {index : Index} {x : EntityId} {l : Leaf} {m : Mask} :
    index.evaluate x (.leaf l) = some m
      ↔ index.mask? l.funnel x = some m ∧ l.test.accepts m = true := by
  unfold evaluate
  exact Option.filter_eq_some_iff

theorem evaluate_node_eq_some_iff {index : Index} {x : EntityId} {parts : List Selection}
    {test : MaskTest} {m : Mask} : index.evaluate x (.node parts test) = some m
      ↔ index.membership x 0 parts = m ∧ test.accepts m = true := by
  unfold evaluate
  simp only []
  split
  · next h =>
    rw [Option.some.injEq]
    exact ⟨fun he => ⟨he, he ▸ h⟩, fun he => he.1⟩
  · next h => exact iff_of_false nofun fun he => h (he.1 ▸ he.2)

section Has

variable (index : Index) (x : EntityId)

theorem has_leaf (l : Leaf) :
    index.has x (.leaf l) = true
      ↔ ∃ m, index.mask? l.funnel x = some m ∧ l.test.accepts m = true := by
  unfold has
  rw [Option.isSome_iff_exists]
  exact exists_congr fun m => evaluate_leaf_eq_some_iff

theorem has_node (parts : List Selection) (test : MaskTest) :
    index.has x (.node parts test) = test.accepts (index.membership x 0 parts) := by
  unfold has evaluate
  simp only []
  split <;> simp_all

theorem getLsbD_membership : ∀ (ss : List Selection) (first i : Nat),
    (index.membership x first ss).getLsbD i = true
      ↔ i < 64 ∧ first ≤ i ∧ ∃ s, ss[i - first]? = some s ∧ index.has x s = true
  | [], first, i => by simp [membership]
  | s :: ss, first, i => by
    have hbit : (if (index.evaluate x s).isSome then Mask.bit first else 0).getLsbD i = true
        ↔ i < 64 ∧ first = i ∧ index.has x s = true := by
      unfold has
      split
      · next h => simp [Mask.getLsbD_bit, h]
      · next h => simp [h]
    unfold membership
    rw [BitVec.getLsbD_or, Bool.or_eq_true, hbit, getLsbD_membership ss (first + 1) i]
    constructor
    · rintro (⟨hi, rfl, hs⟩ | ⟨hi, hle, u, hu, hs⟩)
      · exact ⟨hi, Nat.le_refl _, s, by simp, hs⟩
      · refine ⟨hi, by omega, u, ?_, hs⟩
        rwa [show i - first = i - (first + 1) + 1 by omega, List.getElem?_cons_succ]
    · rintro ⟨hi, hle, u, hu, hs⟩
      rcases Nat.eq_or_lt_of_le hle with rfl | hlt
      · rw [Nat.sub_self, List.getElem?_cons_zero, Option.some.injEq] at hu
        exact .inl ⟨hi, rfl, hu ▸ hs⟩
      · rw [show i - first = i - (first + 1) + 1 by omega, List.getElem?_cons_succ] at hu
        exact .inr ⟨hi, hlt, u, hu, hs⟩

theorem has_inter (a b : Selection) :
    index.has x (a.inter b) = (index.has x a && index.has x b) := by
  unfold Selection.inter
  rw [has_node]
  unfold has
  simp only [membership]
  cases (index.evaluate x a).isSome <;> cases (index.evaluate x b).isSome <;> decide

theorem has_union (a b : Selection) :
    index.has x (a.union b) = (index.has x a || index.has x b) := by
  unfold Selection.union
  rw [has_node]
  unfold has
  simp only [membership]
  cases (index.evaluate x a).isSome <;> cases (index.evaluate x b).isSome <;> decide

theorem has_symmDiff (a b : Selection) :
    index.has x (a.symmDiff b) = (index.has x a != index.has x b) := by
  unfold Selection.symmDiff
  rw [has_node]
  unfold has
  simp only [membership]
  cases (index.evaluate x a).isSome <;> cases (index.evaluate x b).isSome <;> decide

theorem has_diff (a b : Selection) :
    index.has x (a.diff b) = (index.has x a && !index.has x b) := by
  unfold Selection.diff
  rw [has_node]
  unfold has
  simp only [membership]
  cases (index.evaluate x a).isSome <;> cases (index.evaluate x b).isSome <;> decide

end Has

mutual

/-- Evaluating reads the masks in the funnels of the leaves, and nothing else. -/
theorem evaluate_congr {i j : Index} {x y : EntityId} : ∀ s : Selection,
    (∀ l ∈ s.leaves, i.mask? l.funnel x = j.mask? l.funnel y) → i.evaluate x s = j.evaluate y s
  | .leaf l, h => by
    unfold evaluate
    rw [h l (by simp [Selection.leaves])]
  | .node parts test, h => by
    unfold evaluate
    rw [membership_congr parts 0 (by simpa [Selection.leaves] using h)]

theorem membership_congr {i j : Index} {x y : EntityId} : ∀ (ss : List Selection) (first : Nat),
    (∀ l ∈ Selection.leavesAll ss, i.mask? l.funnel x = j.mask? l.funnel y) →
      i.membership x first ss = j.membership y first ss
  | [], _, _ => rfl
  | s :: ss, first, h => by
    unfold Selection.leavesAll at h
    obtain ⟨hs, hss⟩ := List.forall_mem_append.1 h
    unfold membership
    rw [evaluate_congr s hs, membership_congr ss (first + 1) hss]

end

end Index

/-- Whether entities in none of the funnels that a selection reads count as in it, as they do in
the complement of a funnel. -/
def Selection.admitsOutsiders (s : Selection) : Bool := (Index.empty 0).has 0 s

namespace Index

variable {index : Index} {x : EntityId} {s : Selection}

theorem has_outsider (h : ∀ l ∈ s.leaves, index.mask? l.funnel x = none) :
    index.has x s = s.admitsOutsiders := by
  unfold Selection.admitsOutsiders has
  rw [evaluate_congr (j := empty 0) (y := 0) s fun l hl => (h l hl).trans rfl]

theorem within_of_all {size : UInt64} {funnels : SortedMap FunnelId (SortedMap EntityId Mask)}
    (h : (funnels.keys.all fun id => decide (id.toNat < size.toNat)) = true) :
    ∀ id ∈ funnels.keys, id.toNat < size.toNat := by
  simpa using h

theorem mem_elements_iff {f : FunnelId} {a : Element} :
    a ∈ index.elements f ↔ index.mask? f a.id = some a.mask := by
  unfold elements mask?
  cases index.funnels.get? f with
  | none => simp
  | some members =>
    rw [Option.bind_some, SortedMap.get?_eq_some_iff, List.mem_map]
    constructor
    · rintro ⟨e, he, rfl⟩
      exact he
    · intro h
      exact ⟨_, h, rfl⟩

theorem funnel_eq_ok_iff {f : FunnelId} {els : List Element} :
    index.funnel f = .ok els ↔ f.toNat < index.size.toNat ∧ index.elements f = els := by
  unfold funnel
  simp only [bind_eq_ok_iff, pure_eq_ok_iff, Layout.checkFunnel_eq_ok_iff, exists_const]

theorem elements_ascending (index : Index) (f : FunnelId) :
    ((index.elements f).map (·.id)).Pairwise (· < ·) := by
  unfold elements
  cases index.funnels.get? f with
  | none => exact List.Pairwise.nil
  | some members =>
    rw [List.map_map, List.pairwise_map]
    exact members.ascending.imp Ranked.rank_word_iff.1

theorem mem_entities_iff {fs : List FunnelId} :
    x ∈ index.entities fs ↔ ∃ f ∈ fs, (index.mask? f x).isSome = true := by
  unfold entities
  rw [← SortedSet.mem_def, SortedSet.mem_ofList, List.mem_flatMap]
  refine exists_congr fun f => and_congr_right fun _ => ?_
  simp only [List.mem_map, mem_elements_iff, Option.isSome_iff_exists]
  constructor
  · rintro ⟨a, ha, rfl⟩
    exact ⟨a.mask, ha⟩
  · rintro ⟨m, hm⟩
    exact ⟨⟨x, m⟩, hm, rfl⟩

/-- What has the leaves of two selections reads the entities that either reads. -/
theorem mem_entities_of_leaves {a b : Selection} (hs : s.leaves = a.leaves ++ b.leaves) :
    x ∈ index.entities s.funnels ↔ x ∈ index.entities a.funnels ∨ x ∈ index.entities b.funnels := by
  simp only [mem_entities_iff, Selection.mem_funnels_iff, hs, List.mem_append, or_and_right,
    exists_or]

theorem has_of_not_mem_entities (h : x ∉ index.entities s.funnels) :
    index.has x s = s.admitsOutsiders := by
  refine has_outsider fun l hl => ?_
  rw [mem_entities_iff] at h
  push Not at h
  simpa using h l.funnel (Selection.mem_funnels_iff.2 ⟨l, hl, rfl⟩)

theorem entities_ascending (fs : List FunnelId) : (index.entities fs).Pairwise (· < ·) :=
  (SortedSet.ofList _).ascending.imp Ranked.rank_word_iff.1

/-- The index has all funnels that a selection reads. -/
def Covers (index : Index) (s : Selection) : Prop :=
  ∀ l ∈ s.leaves, l.funnel.toNat < index.size.toNat

instance : Decidable (index.Covers s) :=
  inferInstanceAs (Decidable (∀ l ∈ s.leaves, l.funnel.toNat < index.size.toNat))

theorem covers_of_leaves {a b : Selection} (hs : s.leaves = a.leaves ++ b.leaves)
    (ha : index.Covers a) (hb : index.Covers b) : index.Covers s := by
  intro l hl
  rw [hs] at hl
  exact (List.mem_append.1 hl).elim (ha l) (hb l)

theorem checkFunnels_eq_ok_iff {fs : List FunnelId} :
    index.checkFunnels s = .ok fs ↔ index.Covers s ∧ fs = s.funnels := by
  unfold checkFunnels Covers
  simp only [bind_eq_ok_iff, pure_eq_ok_iff, forM_eq_ok_iff, Layout.checkFunnel_eq_ok_iff,
    Selection.mem_funnels_iff]
  constructor
  · rintro ⟨-, h, rfl⟩
    exact ⟨fun l hl => h _ ⟨l, hl, rfl⟩, rfl⟩
  · rintro ⟨h, rfl⟩
    refine ⟨(), ?_, rfl⟩
    rintro f ⟨l, hl, rfl⟩
    exact h l hl

/-- Listing reports the entities of the funnels that evaluating gives a mask for, with this mask. -/
theorem mem_select_iff {es : List Element} (hs : index.select s = .ok es) {e : Element} :
    e ∈ es ↔ e.id ∈ index.entities s.funnels ∧ index.evaluate e.id s = some e.mask := by
  unfold select at hs
  simp only [bind_eq_ok_iff, pure_eq_ok_iff, checkFunnels_eq_ok_iff] at hs
  obtain ⟨_, ⟨-, rfl⟩, rfl⟩ := hs
  rw [List.mem_filterMap]
  constructor
  · rintro ⟨x, hx, he⟩
    obtain ⟨m, hm, rfl⟩ := Option.map_eq_some_iff.1 he
    exact ⟨hx, hm⟩
  · rintro ⟨hx, hm⟩
    exact ⟨e.id, hx, Option.map_eq_some_iff.2 ⟨e.mask, hm, rfl⟩⟩

/-- The entities of a selection, in ascending order. -/
def members (index : Index) (s : Selection) : List EntityId :=
  (index.entities s.funnels).filter fun x => index.has x s

theorem mem_members_iff :
    x ∈ index.members s ↔ x ∈ index.entities s.funnels ∧ index.has x s = true := by
  unfold members
  rw [List.mem_filter]

theorem members_ascending (index : Index) (s : Selection) :
    (index.members s).Pairwise (· < ·) :=
  (entities_ascending _).filter _

theorem select_of_covers (h : index.Covers s) :
    ∃ es, index.select s = .ok es ∧ es.map (·.id) = index.members s := by
  unfold select
  rw [checkFunnels_eq_ok_iff.2 ⟨h, rfl⟩]
  refine ⟨_, rfl, ?_⟩
  unfold members has
  rw [List.map_filterMap, ← List.filterMap_eq_filter]
  refine List.filterMap_congr fun x _ => ?_
  cases h : index.evaluate x s <;> simp [Option.guard, h]

theorem count_of_covers (h : index.Covers s) :
    index.count s = .ok (index.members s).length := by
  unfold count
  rw [checkFunnels_eq_ok_iff.2 ⟨h, rfl⟩]
  rfl

end Index

end Cohort
