import Cohort.Proofs.Evaluation
import Cohort.Proofs.Formulas

/-!
# Joins of any number of selections

A node takes any parts and any test of them that stay within its bounds (`combine_eq_ok_iff_fits`).
The join of a nonempty list of selections is a chain of nodes, each of which has the next for its
last part (`exists_chain`). So it always exists, reads what they read, and has an entity exactly
when some, or all, of them have it (`exists_join`), however many nodes it takes.
-/

namespace Cohort

namespace Selection

/-- A node takes from 1 to 64 parts and a test of no others. -/
theorem combine_eq_ok_iff {parts : List Selection} {test : MaskTest} {s : Selection} :
    combine parts test = .ok s ↔ parts ≠ [] ∧ parts.length ≤ 64
      ∧ (∀ c ∈ test.clauses, ∀ i, (c.positive ||| c.negative).getLsbD i = true → i < parts.length)
      ∧ s = .node parts test := by
  unfold combine
  by_cases h0 : parts = []
  · simp [h0]
  by_cases h64 : parts.length ≤ 64
  swap
  · simp [h0, maskWidth, Nat.not_le.1 h64, h64]
  simp only [List.isEmpty_iff, h0, if_false, maskWidth, Nat.not_lt.2 h64, ne_eq,
    not_false_eq_true, h64, true_and]
  split
  · next m hm =>
    obtain ⟨c, hc, hne⟩ := List.mem_map.1 (List.mem_of_find?_eq_some hm)
    have hm0 : m ≠ 0 := by simpa using List.find?_some hm
    simp only [reduceCtorEq, false_iff, not_and]
    intro h
    rw [← hne] at hm0
    exact absurd ((Mask.beyond_eq_zero_iff h64).2 (h c hc)) hm0
  · next hm =>
    rw [List.find?_eq_none] at hm
    simp only [Except.ok.injEq, eq_comm (a := s), iff_and_self]
    intro _ c hc
    exact (Mask.beyond_eq_zero_iff h64).1 (by simpa using hm _ (List.mem_map_of_mem hc))

/-- What a node takes: from 1 to 64 parts, and a test that asks for none beyond them. -/
structure Fits (parts : List Selection) (test : MaskTest) : Prop where
  nonempty : 1 ≤ parts.length
  width : parts.length ≤ 64
  positive : ∀ c ∈ test.clauses, ∀ i, c.positive.getLsbD i = true → i < parts.length
  negative : ∀ c ∈ test.clauses, ∀ i, c.negative.getLsbD i = true → i < parts.length

theorem combine_eq_ok_iff_fits {parts : List Selection} {test : MaskTest} {s : Selection} :
    combine parts test = .ok s ↔ Fits parts test ∧ s = .node parts test := by
  rw [combine_eq_ok_iff]
  simp only [BitVec.getLsbD_or, Bool.or_eq_true]
  constructor
  · rintro ⟨h0, h64, htest, rfl⟩
    exact ⟨⟨List.length_pos_iff.2 h0, h64, fun c hc i hi => htest c hc i (.inl hi),
      fun c hc i hi => htest c hc i (.inr hi)⟩, rfl⟩
  · rintro ⟨h, rfl⟩
    exact ⟨List.length_pos_iff.1 h.nonempty, h.width,
      fun c hc i hi => hi.elim (h.positive c hc i) (h.negative c hc i), rfl⟩

/-- What a join makes of the truth values of its parts. -/
def Join.value : Join → List Bool → Bool
  | .any, bs => bs.any id
  | .all, bs => bs.all id

theorem Join.value_append (j : Join) (as bs : List Bool) :
    j.value (as ++ bs) = j.value (as ++ [j.value bs]) := by
  cases j <;> simp [value]

theorem Join.eval_formula (j : Join) {n : Nat} (hn : n ≠ 0) (v : Nat → Bool) :
    (j.formula n).eval v = j.value ((List.range n).map v) := by
  cases j
  · unfold formula value
    rw [Formula.eval_anyOf (by simpa using hn)]
    show _ = ((List.range n).map v).any id
    rw [List.any_map]
    rfl
  · unfold formula value
    rw [Formula.eval_allOf]
    show _ = ((List.range n).map v).all id
    rw [List.all_map]
    rfl

theorem Join.term_lt {j : Join} {n : Nat} {l : Literal Nat} (h : l ∈ (j.formula n).literals) :
    l.term < n := by
  cases j
  all_goals
    obtain ⟨c, hc, hl⟩ := Formula.term_of_mem_literals_ofClauses h
    simp only [List.mem_singleton, List.mem_map, List.mem_range] at hc
  · subst hc
    rw [SortedSet.mem_ofList, List.mem_map] at hl
    obtain ⟨t, ht, rfl⟩ := hl
    exact List.mem_range.1 ht
  · obtain ⟨t, ht, rfl⟩ := hc
    rw [SortedSet.mem_singleton] at hl
    exact hl ▸ ht

/-- A node whose test joins its parts. -/
structure Joins (j : Join) (parts : List Selection) (test : MaskTest) : Prop where
  fits : Fits parts test
  has : ∀ (index : Index) (x : EntityId),
    index.has x (.node parts test) = j.value (parts.map (index.has x))

theorem exists_joinParts (j : Join) {parts : List Selection} (h0 : parts ≠ [])
    (h64 : parts.length ≤ 64) :
    ∃ test, joinParts j parts = .ok (.node parts test) ∧ Joins j parts test := by
  have hn : parts.length ≠ 0 := by simpa using h0
  have htest : ∃ test, MaskTest.compile .ok (j.formula parts.length) = .ok test :=
    MaskTest.exists_compile fun l hl => ⟨l.term, Nat.lt_of_lt_of_le (Join.term_lt hl) h64, rfl⟩
  obtain ⟨test, ht⟩ := htest
  have hcombine : combine parts test = .ok (.node parts test) := by
    refine combine_eq_ok_iff.2 ⟨h0, h64, fun c hc i hi => ?_, rfl⟩
    obtain ⟨l, hl, hp⟩ := MaskTest.position_of_compile ht hc hi
    cases hp
    exact Join.term_lt hl
  refine ⟨test, ?_, (combine_eq_ok_iff_fits.1 hcombine).1, fun index x => ?_⟩
  · unfold joinParts
    rw [ht]
    exact hcombine
  · rw [Index.has_node, MaskTest.accepts_compile ht, Join.eval_formula j hn]
    congr 1
    refine List.ext_getElem (by simp) fun i h₁ h₂ => ?_
    rw [List.getElem_map, List.getElem_map, List.getElem_range, MaskTest.reading_of_ok rfl,
      Bool.eq_iff_iff, Index.getLsbD_membership]
    have hi : i < parts.length := by simpa using h₁
    simp [Nat.lt_of_lt_of_le hi h64, List.getElem?_eq_getElem hi]

theorem leavesAll_append (ss us : List Selection) :
    leavesAll (ss ++ us) = leavesAll ss ++ leavesAll us := by
  induction ss with
  | nil => simp [leavesAll]
  | cons s ss ih => simp [leavesAll, ih]

theorem leavesAll_map_leaf : ∀ ls : List Leaf, leavesAll (ls.map .leaf) = ls
  | [] => by simp [leavesAll]
  | l :: ls => by simp [leavesAll, leaves, leavesAll_map_leaf ls]

theorem mem_leavesAll {l : Leaf} : ∀ {ss : List Selection},
    l ∈ leavesAll ss ↔ ∃ s ∈ ss, l ∈ s.leaves
  | [] => by simp [leavesAll]
  | s :: ss => by
    rw [leavesAll, List.mem_append, mem_leavesAll, List.exists_mem_cons_iff]

/-- A chain of so many nodes joins some selections: as a node of them alone, or as a node of the
first ones whose last part is a chain that joins the others. -/
inductive Chain (j : Join) : List Selection → Selection → Nat → Prop
  | last {parts : List Selection} {test : MaskTest} (h : Joins j parts test) :
      Chain j parts (.node parts test) 1
  | more {parts others : List Selection} {r : Selection} {test : MaskTest} {n : Nat}
      (h : Joins j (parts ++ [r]) test) (hr : Chain j others r n) :
      Chain j (parts ++ others) (.node (parts ++ [r]) test) (n + 1)

namespace Chain

variable {j : Join} {ss : List Selection} {s : Selection} {n : Nat}

theorem leaves_eq (h : Chain j ss s n) : s.leaves = leavesAll ss := by
  induction h with
  | last h => rw [leaves]
  | more h hr ih => simp only [leaves, leavesAll_append, leavesAll, ih, List.append_nil]

theorem has_eq (h : Chain j ss s n) (index : Index) (x : EntityId) :
    index.has x s = j.value (ss.map (index.has x)) := by
  induction h with
  | last h => exact h.has index x
  | more h hr ih =>
    rw [h.has, List.map_append, List.map_singleton, ih, ← Join.value_append, ← List.map_append]

end Chain

theorem ne_nil_of_join {j : Join} {ss : List Selection} {s : Selection} (h : join j ss = .ok s) :
    ss ≠ [] := by
  rintro rfl
  rw [join] at h
  cases h

/-- Any nonempty list of selections is joined by a chain: one node takes 64 of them, and every
63 others, or part of them, take one node more. -/
theorem exists_chain (j : Join) (ss : List Selection) (h : ss ≠ []) :
    ∃ s, join j ss = .ok s ∧ Chain j ss s (1 + (ss.length - 64 + 62) / 63) := by
  rw [join, if_neg (by simpa using h)]
  by_cases hlen : ss.length > maskWidth
  · have h64 : 64 < ss.length := hlen
    have hdrop : ss.drop 63 ≠ [] := by
      simp only [ne_eq, List.drop_eq_nil_iff]
      omega
    obtain ⟨r, hr, hchain⟩ := exists_chain j (ss.drop 63) hdrop
    have hne : ss.take 63 ++ [r] ≠ [] := by simp
    have hle : (ss.take 63 ++ [r]).length ≤ 64 := by
      rw [List.length_append, List.length_take, List.length_singleton]
      omega
    obtain ⟨test, ht, hnode⟩ := exists_joinParts j hne hle
    refine ⟨.node (ss.take 63 ++ [r]) test, ?_, ?_⟩
    · rw [if_pos hlen]
      show (join j (ss.drop 63) >>= fun r => joinParts j (ss.take 63 ++ [r])) = _
      rw [hr]
      exact ht
    · have hmore := Chain.more hnode hchain
      rw [List.take_append_drop, List.length_drop] at hmore
      convert hmore using 1
      omega
  · rw [if_neg hlen]
    have h64 : ss.length ≤ 64 := Nat.not_lt.1 hlen
    obtain ⟨test, ht, hnode⟩ := exists_joinParts j h h64
    rw [Nat.sub_eq_zero_of_le h64]
    exact ⟨_, ht, .last hnode⟩
termination_by ss.length
decreasing_by
  simp only [List.length_drop]
  omega

/-- Any nonempty list of selections has a join, whose value stands for theirs. -/
theorem exists_join (j : Join) (ss : List Selection) (h : ss ≠ []) :
    ∃ s, join j ss = .ok s ∧ s.leaves = leavesAll ss
      ∧ ∀ (index : Index) (x : EntityId), index.has x s = j.value (ss.map (index.has x)) := by
  obtain ⟨s, hs, hchain⟩ := exists_chain j ss h
  exact ⟨s, hs, hchain.leaves_eq, hchain.has_eq⟩

end Selection

end Cohort
