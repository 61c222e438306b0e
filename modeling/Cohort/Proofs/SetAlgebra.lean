import Cohort.Proofs.Join
import Mathlib.Data.Finset.Basic

/-!
# Selections as sets

An expression over leaves, made with the four operators and with joins, always has a selection, and
an index has an entity in it exactly when the same expression over the leaves' entities has it
(`SetExpr.exists_selection`). Listing goes over the funnels of the whole expression. That this loses
and adds nobody needs that whoever is in an expression is in one of its leaves
(`SetExpr.exists_leaf_of_mem_ids`). Other selections, such as the complement of a funnel, also admit
entities that are in none of their funnels.
-/

namespace Cohort

/-- The operators on two sets. -/
inductive SetOp where
  | inter
  | union
  | symmDiff
  | diff

namespace SetOp

def selection : SetOp → Selection → Selection → Selection
  | inter => Selection.inter
  | union => Selection.union
  | symmDiff => Selection.symmDiff
  | diff => Selection.diff

def value : SetOp → Bool → Bool → Bool
  | inter, a, b => a && b
  | union, a, b => a || b
  | symmDiff, a, b => a != b
  | diff, a, b => a && !b

def ids : SetOp → Finset EntityId → Finset EntityId → Finset EntityId
  | inter, A, B => A ∩ B
  | union, A, B => A ∪ B
  | symmDiff, A, B => (A \ B) ∪ (B \ A)
  | diff, A, B => A \ B

theorem leaves_selection (o : SetOp) (a b : Selection) :
    (o.selection a b).leaves = a.leaves ++ b.leaves := by
  cases o <;> simp [selection, Selection.inter, Selection.union, Selection.symmDiff,
    Selection.diff, Selection.leaves, Selection.leavesAll]

theorem has_selection (index : Index) (x : EntityId) (o : SetOp) (a b : Selection) :
    index.has x (o.selection a b) = o.value (index.has x a) (index.has x b) := by
  cases o
  · exact Index.has_inter index x a b
  · exact Index.has_union index x a b
  · exact Index.has_symmDiff index x a b
  · exact Index.has_diff index x a b

theorem mem_ids_iff {x : EntityId} (o : SetOp) (A B : Finset EntityId) :
    x ∈ o.ids A B ↔ o.value (decide (x ∈ A)) (decide (x ∈ B)) = true := by
  by_cases hA : x ∈ A <;> by_cases hB : x ∈ B <;> cases o <;> simp [ids, value, hA, hB]

end SetOp

/-- The union or the intersection of one set and several others. -/
def Selection.Join.ids (j : Selection.Join) (A : Finset EntityId) (As : List (Finset EntityId)) :
    Finset EntityId :=
  match j with
  | .any => As.foldr (· ∪ ·) A
  | .all => As.foldr (· ∩ ·) A

theorem Selection.Join.mem_ids_iff {x : EntityId} (j : Selection.Join) (A : Finset EntityId)
    (As : List (Finset EntityId)) :
    x ∈ j.ids A As ↔ j.value ((A :: As).map fun B => decide (x ∈ B)) = true := by
  induction As with
  | nil => cases j <;> simp [ids, value]
  | cons B As ih =>
    cases j
    · simp only [ids, value, List.foldr_cons, Finset.mem_union, List.map_cons, List.any_cons,
        Bool.or_eq_true] at ih ⊢
      rw [ih]
      simp only [id, decide_eq_true_eq]
      tauto
    · simp only [ids, value, List.foldr_cons, Finset.mem_inter, List.map_cons, List.all_cons,
        Bool.and_eq_true] at ih ⊢
      rw [ih]
      simp only [id, decide_eq_true_eq]
      tauto

theorem Selection.Join.exists_true_of_value {j : Selection.Join} {bs : List Bool} (h : bs ≠ [])
    (hv : j.value bs = true) : true ∈ bs := by
  cases j
  · obtain ⟨b, hb, rfl⟩ := List.any_eq_true.1 hv
    exact hb
  · obtain ⟨b, hb⟩ := List.exists_mem_of_ne_nil bs h
    have : b = true := List.all_eq_true.1 hv b hb
    exact this ▸ hb

/-- An expression for a set of entities. A join has at least one part. -/
inductive SetExpr where
  | leaf (l : Leaf)
  | op (o : SetOp) (a b : SetExpr)
  | join (j : Selection.Join) (e : SetExpr) (es : List SetExpr)

namespace SetExpr

mutual

/-- The selection that an expression makes. -/
def selection : SetExpr → Except Error Selection
  | leaf l => .ok (.leaf l)
  | op o a b => do return o.selection (← a.selection) (← b.selection)
  | join j e es => do Selection.join j ((← e.selection) :: (← selections es))

def selections : List SetExpr → Except Error (List Selection)
  | [] => .ok []
  | e :: es => do return (← e.selection) :: (← selections es)

end

mutual

def leaves : SetExpr → List Leaf
  | leaf l => [l]
  | op _ a b => a.leaves ++ b.leaves
  | join _ e es => e.leaves ++ leavesAll es

def leavesAll : List SetExpr → List Leaf
  | [] => []
  | e :: es => e.leaves ++ leavesAll es

end

mutual

/-- The same expression over given sets for the leaves. -/
def ids (L : Leaf → Finset EntityId) : SetExpr → Finset EntityId
  | leaf l => L l
  | op o a b => o.ids (a.ids L) (b.ids L)
  | join j e es => j.ids (e.ids L) (idsAll L es)

def idsAll (L : Leaf → Finset EntityId) : List SetExpr → List (Finset EntityId)
  | [] => []
  | e :: es => e.ids L :: idsAll L es

end

mutual

/-- No expression has an entity that none of its leaves has. -/
theorem exists_leaf_of_mem_ids {L : Leaf → Finset EntityId} {x : EntityId} :
    ∀ e : SetExpr, x ∈ e.ids L → ∃ l ∈ e.leaves, x ∈ L l
  | leaf l, h => ⟨l, by simp [leaves], by simpa [ids] using h⟩
  | op o a b, h => by
    unfold ids at h
    rw [SetOp.mem_ids_iff] at h
    have hab : x ∈ a.ids L ∨ x ∈ b.ids L := by
      by_contra hn
      push Not at hn
      cases o <;> simp [SetOp.value, hn.1, hn.2] at h
    unfold leaves
    rcases hab with h | h
    · obtain ⟨l, hl, hx⟩ := exists_leaf_of_mem_ids a h
      exact ⟨l, List.mem_append_left _ hl, hx⟩
    · obtain ⟨l, hl, hx⟩ := exists_leaf_of_mem_ids b h
      exact ⟨l, List.mem_append_right _ hl, hx⟩
  | join j e es, h => by
    unfold ids at h
    rw [Selection.Join.mem_ids_iff] at h
    have ht := Selection.Join.exists_true_of_value (by simp) h
    obtain ⟨A, hA, hx⟩ := List.mem_map.1 ht
    rw [decide_eq_true_eq] at hx
    unfold leaves
    rcases List.mem_cons.1 hA with rfl | hA
    · obtain ⟨l, hl, hx⟩ := exists_leaf_of_mem_ids e hx
      exact ⟨l, List.mem_append_left _ hl, hx⟩
    · obtain ⟨l, hl, hx⟩ := exists_leaf_of_mem_idsAll es A hA hx
      exact ⟨l, List.mem_append_right _ hl, hx⟩

theorem exists_leaf_of_mem_idsAll {L : Leaf → Finset EntityId} {x : EntityId} :
    ∀ es : List SetExpr, ∀ A ∈ idsAll L es, x ∈ A → ∃ l ∈ leavesAll es, x ∈ L l
  | [], A, hA, _ => by simp [idsAll] at hA
  | e :: es, A, hA, hx => by
    unfold idsAll at hA
    unfold leavesAll
    rcases List.mem_cons.1 hA with rfl | hA
    · obtain ⟨l, hl, hx⟩ := exists_leaf_of_mem_ids e hx
      exact ⟨l, List.mem_append_left _ hl, hx⟩
    · obtain ⟨l, hl, hx⟩ := exists_leaf_of_mem_idsAll es A hA hx
      exact ⟨l, List.mem_append_right _ hl, hx⟩

end

mutual

/-- Every expression makes a selection, which reads its leaves and has an entity exactly when the
expression over the leaves' entities has it. -/
theorem exists_selection : ∀ e : SetExpr, ∃ s, e.selection = .ok s ∧ s.leaves = e.leaves
    ∧ ∀ (index : Index) (x : EntityId) (L : Leaf → Finset EntityId),
      (∀ l ∈ e.leaves, index.has x (.leaf l) = decide (x ∈ L l)) →
        index.has x s = decide (x ∈ e.ids L)
  | leaf l => by
    refine ⟨.leaf l, by simp [selection], by simp [Selection.leaves, leaves], ?_⟩
    intro index x L h
    unfold ids
    exact h l (by simp [leaves])
  | op o a b => by
    obtain ⟨s, hs, hls, hhs⟩ := exists_selection a
    obtain ⟨u, hu, hlu, hhu⟩ := exists_selection b
    refine ⟨o.selection s u, ?_, ?_, fun index x L h => ?_⟩
    · unfold selection
      rw [hs, hu]
      rfl
    · unfold leaves
      rw [SetOp.leaves_selection, hls, hlu]
    · unfold leaves at h
      obtain ⟨ha, hb⟩ := List.forall_mem_append.1 h
      unfold ids
      rw [SetOp.has_selection, hhs index x L ha, hhu index x L hb, Bool.eq_iff_iff,
        decide_eq_true_eq, SetOp.mem_ids_iff]
  | join j e es => by
    obtain ⟨s, hs, hls, hhs⟩ := exists_selection e
    obtain ⟨ss, hss, hlss, hhss⟩ := exists_selections es
    obtain ⟨u, hu, hlu, hhu⟩ := Selection.exists_join j (s :: ss) (by simp)
    refine ⟨u, ?_, ?_, fun index x L h => ?_⟩
    · unfold selection
      rw [hs, hss]
      exact hu
    · unfold leaves
      rw [hlu, Selection.leavesAll, hls, hlss]
    · unfold leaves at h
      obtain ⟨he, hes⟩ := List.forall_mem_append.1 h
      unfold ids
      rw [hhu, List.map_cons, hhs index x L he, hhss index x L hes, Bool.eq_iff_iff,
        decide_eq_true_eq, Selection.Join.mem_ids_iff, List.map_cons]

theorem exists_selections : ∀ es : List SetExpr, ∃ ss, selections es = .ok ss
    ∧ Selection.leavesAll ss = leavesAll es
    ∧ ∀ (index : Index) (x : EntityId) (L : Leaf → Finset EntityId),
      (∀ l ∈ leavesAll es, index.has x (.leaf l) = decide (x ∈ L l)) →
        ss.map (index.has x) = (idsAll L es).map fun A => decide (x ∈ A)
  | [] => ⟨[], by simp [selections], by simp [Selection.leavesAll, leavesAll],
      fun _ _ _ _ => by simp [idsAll]⟩
  | e :: es => by
    obtain ⟨s, hs, hls, hhs⟩ := exists_selection e
    obtain ⟨ss, hss, hlss, hhss⟩ := exists_selections es
    refine ⟨s :: ss, ?_, ?_, fun index x L h => ?_⟩
    · unfold selections
      rw [hs, hss]
      rfl
    · unfold leavesAll
      rw [Selection.leavesAll, hls, hlss]
    · unfold leavesAll at h
      obtain ⟨he, hes⟩ := List.forall_mem_append.1 h
      unfold idsAll
      rw [List.map_cons, List.map_cons, hhs index x L he, hhss index x L hes]

end

/-- What is made from leaves by operators and joins admits no entity from outside. -/
theorem admitsOutsiders_selection {e : SetExpr} {s : Selection} (h : e.selection = .ok s) :
    s.admitsOutsiders = false := by
  obtain ⟨u, hu, -, hhas⟩ := e.exists_selection
  rw [h, Except.ok.injEq] at hu
  subst hu
  unfold Selection.admitsOutsiders
  rw [hhas _ _ (fun _ => ∅) fun l _ => rfl, decide_eq_false_iff_not]
  intro hx
  obtain ⟨l, -, hl⟩ := e.exists_leaf_of_mem_ids hx
  simp at hl

end SetExpr

namespace Index

/-- The entities that listing a selection gives; none if it is refused. -/
def ids (index : Index) (s : Selection) : Finset EntityId :=
  match index.select s with
  | .ok es => (es.map (·.id)).toFinset
  | .error _ => ∅

variable {index : Index} {x : EntityId} {s : Selection}

theorem ids_of_covers (h : index.Covers s) : index.ids s = (index.members s).toFinset := by
  obtain ⟨es, hes, hids⟩ := select_of_covers h
  unfold ids
  rw [hes, ← hids]

theorem mem_members_leaf_iff {l : Leaf} :
    x ∈ index.members (.leaf l) ↔ index.has x (.leaf l) = true := by
  rw [mem_members_iff, and_iff_right_iff_imp, mem_entities_iff]
  intro h
  obtain ⟨m, hm, -⟩ := (has_leaf index x l).1 h
  exact ⟨l.funnel, Selection.mem_funnels_iff.2 ⟨l, by simp [Selection.leaves], rfl⟩, by simp [hm]⟩

/-- An index lists for an expression over its funnels, in ascending order, what the expression makes
of the entities that it lists for the leaves alone. -/
theorem select_expression (index : Index) (e : SetExpr)
    (h : ∀ l ∈ e.leaves, l.funnel.toNat < index.size.toNat) :
    ∃ s es, e.selection = .ok s ∧ index.select s = .ok es ∧ (es.map (·.id)).Pairwise (· < ·)
      ∧ (es.map (·.id)).toFinset = e.ids (fun l => index.ids (.leaf l))
      ∧ ∀ l ∈ e.leaves, ∃ ls, index.select (.leaf l) = .ok ls := by
  obtain ⟨s, hs, hleaves, hhas⟩ := e.exists_selection
  have hcov : index.Covers s := fun l hl => h l (hleaves ▸ hl)
  have hcov' : ∀ l ∈ e.leaves, index.Covers (.leaf l) := by
    intro l hl m hm
    rw [Selection.leaves, List.mem_singleton] at hm
    exact hm ▸ h l hl
  obtain ⟨es, hes, hids⟩ := select_of_covers hcov
  have hL : ∀ x, ∀ l ∈ e.leaves,
      index.has x (.leaf l) = decide (x ∈ index.ids (.leaf l)) := by
    intro x l hl
    rw [ids_of_covers (hcov' l hl), Bool.eq_iff_iff, decide_eq_true_eq, List.mem_toFinset,
      mem_members_leaf_iff]
  refine ⟨s, es, hs, hes, hids ▸ members_ascending index s, ?_, fun l hl => ?_⟩
  · ext x
    rw [hids, List.mem_toFinset, mem_members_iff, hhas index x _ (hL x), decide_eq_true_eq,
      and_iff_right_iff_imp]
    intro hx
    obtain ⟨l, hl, hxl⟩ := e.exists_leaf_of_mem_ids hx
    have hl' : index.has x (.leaf l) = true := by
      rw [hL x l hl]
      exact decide_eq_true hxl
    obtain ⟨m, hm, -⟩ := (has_leaf index x l).1 hl'
    exact mem_entities_iff.2
      ⟨l.funnel, Selection.mem_funnels_iff.2 ⟨l, hleaves ▸ hl, rfl⟩, by simp [hm]⟩
  · obtain ⟨ls, hls, -⟩ := select_of_covers (hcov' l hl)
    exact ⟨ls, hls⟩

/-- An index of three funnels with entities 1 and 2, 2 and 3, and 4. -/
def threeFunnels : Index :=
  ⟨3, .ofList [(0, .ofList [(1, 0), (2, 6)]), (1, .ofList [(2, 1), (3, 0)]), (2, .ofList [(4, 8)])],
    within_of_all (by decide)⟩

/-- The entities of seventy funnels, all of them the last one, less those of the first two whose
masks lack position 1. -/
def manyLessSome : SetExpr :=
  .op .diff (.join .any (.leaf ⟨0, .always⟩) (List.replicate 70 (.leaf ⟨2, ⟨[⟨8, 0⟩]⟩⟩)))
    (.op .symmDiff (.leaf ⟨0, ⟨[⟨0, 2⟩]⟩⟩) (.leaf ⟨1, .always⟩))

theorem select_expression_manyLessSome :
    (∀ l ∈ manyLessSome.leaves, l.funnel.toNat < threeFunnels.size.toNat)
      ∧ ∃ s es, manyLessSome.selection = .ok s ∧ threeFunnels.select s = .ok es
        ∧ (es.map (·.id)).Pairwise (· < ·)
        ∧ (es.map (·.id)).toFinset = manyLessSome.ids (fun l => threeFunnels.ids (.leaf l))
        ∧ ∀ l ∈ manyLessSome.leaves, ∃ ls, threeFunnels.select (.leaf l) = .ok ls :=
  have h : ∀ l ∈ manyLessSome.leaves, l.funnel.toNat < threeFunnels.size.toNat := by decide
  ⟨h, select_expression threeFunnels manyLessSome h⟩

end Index

end Cohort
