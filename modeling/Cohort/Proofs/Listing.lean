import Cohort.Proofs.Evaluation
import Cohort.Proofs.Repeats

/-!
# Listing and counting

An index refuses a selection for the first leaf, from left to right, whose funnel it does not have,
whether the selection is to be listed or counted (`Index.select_eq_error_iff`,
`Index.count_eq_error_iff`). Checking goes over the funnels without repeats, of which the first
missing one is that of the first such leaf. Any other selection is listed as `Index.Lists` says, and
counting gives the length of the listing (`Index.listed_or_refused`).
-/

namespace Cohort.Index

variable {index : Index} {s : Selection} {e : Error}

/-- An error is about the first leaf, from left to right, whose funnel an index does not have. -/
def Refuses (index : Index) (s : Selection) (e : Error) : Prop :=
  ∃ done l rest, s.leaves = done ++ l :: rest
    ∧ (∀ k ∈ done, k.funnel.toNat < index.size.toNat)
    ∧ index.size.toNat ≤ l.funnel.toNat ∧ e = .notFound (.funnel l.funnel.toNat)

/-- What it is to be in a selection. An entity is in a leaf if it has a mask in the leaf's funnel
that passes the test, and in a node if the mask of the parts that it is in passes the test. -/
structure Membership (index : Index) (isIn : EntityId → Selection → Prop) : Prop where
  leaf : ∀ x l, isIn x (.leaf l)
    ↔ ∃ m, index.mask? l.funnel x = some m ∧ l.test.accepts m = true
  node : ∀ x parts test, isIn x (.node parts test)
    ↔ ∃ m : Mask, (∀ i < 64, m.getLsbD i = true ↔ ∃ p, parts[i]? = some p ∧ isIn x p)
      ∧ test.accepts m = true

/-- What an index lists for a selection. -/
structure Lists (index : Index) (s : Selection) (els : List Element) : Prop where
  select : index.select s = .ok els
  count : index.count s = .ok els.length
  ascending : (els.map (·.id)).Pairwise (· < ·)
  /-- These are the entities of the leaves' funnels that are in the selection. -/
  mem_iff : ∀ x, x ∈ els.map (·.id)
    ↔ (∃ l ∈ s.leaves, (index.mask? l.funnel x).isSome = true) ∧ index.has x s = true
  /-- With an entity of a leaf comes its mask in the funnel. -/
  mask_leaf : ∀ l, s = .leaf l → ∀ a ∈ els, index.mask? l.funnel a.id = some a.mask
  /-- With an entity of a node comes the mask of the parts that it is in. -/
  mask_node : ∀ parts test, s = .node parts test → ∀ a ∈ els, ∀ i < 64,
    a.mask.getLsbD i = true ↔ ∃ p, parts[i]? = some p ∧ index.has a.id p = true

theorem error?_checkFunnel (size : Nat) (f : FunnelId) : error? (Layout.checkFunnel size f)
    = if f.toNat < size then none else some (.notFound (.funnel f.toNat)) := by
  unfold Layout.checkFunnel
  split <;> rfl

/-- The funnels without repeats are checked with the outcome of checking leaf after leaf. -/
theorem error?_checkFunnels (index : Index) (s : Selection) : error? (index.checkFunnels s)
    = s.leaves.findSome? fun l => error? (Layout.checkFunnel index.size.toNat l.funnel) := by
  unfold checkFunnels Selection.funnels
  rw [error?_bind_pure, error?_forM, findSome?_eraseDups, List.findSome?_map]
  rfl

theorem error?_checkFunnels_eq_some_iff :
    error? (index.checkFunnels s) = some e ↔ index.Refuses s e := by
  rw [error?_checkFunnels, List.findSome?_eq_some_iff]
  refine exists_congr fun done => exists_congr fun l => exists_congr fun rest =>
    and_congr_right fun _ => ?_
  have hdone : ∀ k : Leaf, error? (Layout.checkFunnel index.size.toNat k.funnel) = none
      ↔ k.funnel.toNat < index.size.toNat := by
    intro k
    rw [error?_checkFunnel]
    simp
  have hl : error? (Layout.checkFunnel index.size.toNat l.funnel) = some e
      ↔ index.size.toNat ≤ l.funnel.toNat ∧ e = .notFound (.funnel l.funnel.toNat) := by
    rw [error?_checkFunnel]
    by_cases h : l.funnel.toNat < index.size.toNat
    · simp [h, Nat.not_le.2 h]
    · simp [h, Nat.le_of_not_lt h, eq_comm]
  simp only [hdone, hl]
  tauto

theorem select_eq_error_iff : index.select s = .error e ↔ index.Refuses s e := by
  unfold select
  rw [← error?_eq_some_iff, error?_bind_pure, error?_checkFunnels_eq_some_iff]

theorem count_eq_error_iff : index.count s = .error e ↔ index.Refuses s e := by
  unfold count
  rw [← error?_eq_some_iff, error?_bind_pure, error?_checkFunnels_eq_some_iff]

theorem exists_refuses_iff : (∃ e, index.Refuses s e) ↔ ¬ index.Covers s := by
  simp only [← select_eq_error_iff]
  rw [exists_error_iff, not_iff_not]
  constructor
  · rintro ⟨els, hels⟩
    obtain ⟨fs, hfs, -⟩ := bind_eq_ok_iff.1 hels
    exact (checkFunnels_eq_ok_iff.1 hfs).1
  · intro hcov
    obtain ⟨els, hels, -⟩ := select_of_covers hcov
    exact ⟨els, hels⟩

theorem membership_has (index : Index) : index.Membership fun x s => index.has x s = true where
  leaf x l := has_leaf index x l
  node x parts test := by
    rw [has_node]
    have hbits : ∀ i < 64, (index.membership x 0 parts).getLsbD i = true
        ↔ ∃ p, parts[i]? = some p ∧ index.has x p = true := by
      intro i hi
      rw [getLsbD_membership]
      simp [hi]
    constructor
    · exact fun h => ⟨_, hbits, h⟩
    · rintro ⟨m, hm, h⟩
      obtain rfl : m = index.membership x 0 parts := BitVec.eq_of_getLsbD_eq fun i hi => by
        rw [Bool.eq_iff_iff, hm i hi, hbits i hi]
      exact h

theorem exists_lists (h : index.Covers s) : ∃ els, index.Lists s els := by
  obtain ⟨els, hels, hids⟩ := select_of_covers h
  refine ⟨els, {
    select := hels
    count := by rw [count_of_covers h, ← hids, List.length_map]
    ascending := hids ▸ members_ascending index s
    mem_iff := fun x => ?_
    mask_leaf := ?_
    mask_node := ?_ }⟩
  · rw [hids, mem_members_iff, mem_entities_iff]
    simp only [Selection.mem_funnels_iff, exists_exists_and_eq_and]
  · rintro l rfl a ha
    exact (evaluate_leaf_eq_some_iff.1 ((mem_select_iff hels).1 ha).2).1
  · rintro parts test rfl a ha i hi
    rw [← (evaluate_node_eq_some_iff.1 ((mem_select_iff hels).1 ha).2).1, getLsbD_membership]
    simp [hi]

/-- Listing and counting fail exactly when the index lacks the funnel of some leaf, both with the
error of the first such leaf. Otherwise they agree, on the entities of the leaves' funnels that are
in the selection, whose masks in the funnel or among the parts come with them. -/
theorem listed_or_refused (index : Index) (s : Selection) :
    (∀ e, index.select s = .error e ↔ index.Refuses s e)
      ∧ (∀ e, index.count s = .error e ↔ index.Refuses s e)
      ∧ ((∃ e, index.Refuses s e) ↔ ∃ l ∈ s.leaves, index.size.toNat ≤ l.funnel.toNat)
      ∧ ((∀ l ∈ s.leaves, l.funnel.toNat < index.size.toNat) → ∃ els, index.Lists s els)
      ∧ index.Membership fun x s => index.has x s = true := by
  refine ⟨fun _ => select_eq_error_iff, fun _ => count_eq_error_iff, ?_, exists_lists,
    membership_has index⟩
  rw [exists_refuses_iff]
  unfold Covers
  simp only [not_forall, Nat.not_lt, exists_prop]

end Cohort.Index
