import Cohort.Proofs.SetAlgebra
import Mathlib.Data.Finset.Card

/-!
# The parts of a union

What an operator makes of two selections is evaluated over the funnels of both, whichever of them
comes first (`Index.mem_members_op`). So a union has the entities of the two differences and of the
intersection, each of them in one of the three, and a symmetric difference those of the differences,
also where the two selections admit entities outside their own funnels (`Index.union_parts`). For
the same reason operators that do not tell their sides apart list the same entities when the sides
are swapped (`Index.members_swap`).
-/

namespace Cohort.Index

variable {index : Index} {a b s : Selection} {els : List Element} {x : EntityId}

/-- An operator's entities are those of the funnels of both sides that it takes. -/
theorem mem_members_op (o : SetOp) : x ∈ index.members (o.selection a b)
    ↔ (x ∈ index.entities a.funnels ∨ x ∈ index.entities b.funnels)
      ∧ o.value (index.has x a) (index.has x b) = true := by
  rw [mem_members_iff, mem_entities_of_leaves (o.leaves_selection a b), SetOp.has_selection]

theorem members_swap {o : SetOp} (ho : o ≠ .diff) :
    index.members (o.selection a b) = index.members (o.selection b a) := by
  have hvalue : ∀ p q, o.value p q = o.value q p := by
    cases o with
    | inter => decide
    | union => decide
    | symmDiff => decide
    | diff => exact absurd rfl ho
  refine eq_of_ascending (members_ascending _ _) (members_ascending _ _) fun x => ?_
  rw [mem_members_op, mem_members_op, hvalue, or_comm]

/-- What is listed for a selection has no entity twice, and is counted. -/
structure Listed (index : Index) (s : Selection) (els : List Element) : Prop where
  select : index.select s = .ok els
  nodup : (els.map (·.id)).Nodup
  ids : (els.map (·.id)).toFinset = index.ids s
  count : index.count s = .ok (index.ids s).card

theorem exists_listed (h : index.Covers s) : ∃ els, index.Listed s els := by
  obtain ⟨els, hels, hids⟩ := select_of_covers h
  have hnodup := nodup_of_ascending (members_ascending index s)
  refine ⟨els, hels, hids ▸ hnodup, ?_, ?_⟩
  · rw [ids_of_covers h, hids]
  · rw [count_of_covers h, ids_of_covers h, List.toFinset_card_of_nodup hnodup]

theorem Listed.members (h : index.Listed s els) (hs : index.Covers s) :
    els.map (·.id) = index.members s := by
  obtain ⟨els', hels', hids⟩ := select_of_covers hs
  obtain rfl : els = els' := Except.ok.inj (h.select.symm.trans hels')
  exact hids

/-- A set has those entities of two selections' funnels that are in the one and in the other with
truth values that are taken. -/
def Takes (index : Index) (a b : Selection) (taken : Bool → Bool → Bool)
    (S : Finset EntityId) : Prop :=
  ∀ x, x ∈ S ↔ (x ∈ index.entities a.funnels ∨ x ∈ index.entities b.funnels)
    ∧ taken (index.has x a) (index.has x b) = true

section Takes

variable {u v w : Bool → Bool → Bool} {U S T : Finset EntityId}

theorem Takes.eq_union (hU : index.Takes a b u U) (hS : index.Takes a b v S)
    (hT : index.Takes a b w T) (h : ∀ p q, u p q = (v p q || w p q)) : U = S ∪ T := by
  ext x
  rw [Finset.mem_union, hU, hS, hT, ← and_or_left, h, Bool.or_eq_true]

theorem Takes.disjoint (hS : index.Takes a b v S) (hT : index.Takes a b w T)
    (h : ∀ p q, (v p q && w p q) = false) : Disjoint S T := by
  rw [Finset.disjoint_left]
  intro x hxS hxT
  have hboth := h (index.has x a) (index.has x b)
  rw [((hS x).1 hxS).2, ((hT x).1 hxT).2] at hboth
  exact nomatch hboth

end Takes

section Operators

variable (ha : index.Covers a) (hb : index.Covers b)

include ha hb

theorem covers_op (o : SetOp) : index.Covers (o.selection a b) :=
  covers_of_leaves (o.leaves_selection a b) ha hb

theorem takes_op (o : SetOp) : index.Takes a b o.value (index.ids (o.selection a b)) := fun x => by
  rw [ids_of_covers (covers_op ha hb o), List.mem_toFinset, mem_members_op]

theorem takes_swapped (o : SetOp) :
    index.Takes a b (fun p q => o.value q p) (index.ids (o.selection b a)) := fun x =>
  (takes_op hb ha o x).trans (and_congr_left' or_comm)

theorem ids_union : index.ids (a.union b) = index.ids (a.symmDiff b) ∪ index.ids (a.inter b) :=
  (takes_op ha hb .union).eq_union (takes_op ha hb .symmDiff) (takes_op ha hb .inter) (by decide)

theorem ids_symmDiff : index.ids (a.symmDiff b) = index.ids (a.diff b) ∪ index.ids (b.diff a) :=
  (takes_op ha hb .symmDiff).eq_union (takes_op ha hb .diff) (takes_swapped ha hb .diff) (by decide)

theorem disjoint_diffs : Disjoint (index.ids (a.diff b)) (index.ids (b.diff a)) :=
  (takes_op ha hb .diff).disjoint (takes_swapped ha hb .diff) (by decide)

theorem disjoint_symmDiff_inter :
    Disjoint (index.ids (a.symmDiff b)) (index.ids (a.inter b)) :=
  (takes_op ha hb .symmDiff).disjoint (takes_op ha hb .inter) (by decide)

end Operators

/-- How the entities that operators make of two selections go together. -/
structure UnionParts (index : Index) (a b : Selection) : Prop where
  /-- Nothing is refused, whichever side comes first. -/
  listed : ∀ o : SetOp, (∃ els, index.Listed (o.selection a b) els)
    ∧ ∃ els, index.Listed (o.selection b a) els
  union : index.ids (a.union b)
    = index.ids (a.diff b) ∪ index.ids (b.diff a) ∪ index.ids (a.inter b)
  symmDiff : index.ids (a.symmDiff b) = index.ids (a.diff b) ∪ index.ids (b.diff a)
  disjoint_diffs : Disjoint (index.ids (a.diff b)) (index.ids (b.diff a))
  disjoint_inter :
    Disjoint (index.ids (a.diff b) ∪ index.ids (b.diff a)) (index.ids (a.inter b))
  count_symmDiff : ∃ u i, index.count (a.union b) = .ok u ∧ index.count (a.inter b) = .ok i
    ∧ i ≤ u ∧ index.count (a.symmDiff b) = .ok (u - i)
  /-- The sides of an intersection, a union or a symmetric difference can be swapped. -/
  swap : ∀ o : SetOp, o ≠ .diff → ∃ els els', index.select (o.selection a b) = .ok els
    ∧ index.select (o.selection b a) = .ok els' ∧ els.map (·.id) = els'.map (·.id)

/-- A union is parted into the two differences and the intersection, and a symmetric difference into
the differences, so it has as many entities as the union has beyond the intersection. -/
theorem union_parts (index : Index) (a b : Selection) (ha : index.Covers a)
    (hb : index.Covers b) : UnionParts index a b where
  listed o := ⟨exists_listed (covers_op ha hb o), exists_listed (covers_op hb ha o)⟩
  union := by rw [ids_union ha hb, ids_symmDiff ha hb]
  symmDiff := ids_symmDiff ha hb
  disjoint_diffs := disjoint_diffs ha hb
  disjoint_inter := ids_symmDiff ha hb ▸ disjoint_symmDiff_inter ha hb
  count_symmDiff := by
    obtain ⟨us, hus⟩ := exists_listed (covers_op ha hb .union)
    obtain ⟨is, his⟩ := exists_listed (covers_op ha hb .inter)
    obtain ⟨xs, hxs⟩ := exists_listed (covers_op ha hb .symmDiff)
    have hcard : (index.ids (a.union b)).card
        = (index.ids (a.symmDiff b)).card + (index.ids (a.inter b)).card := by
      rw [ids_union ha hb, Finset.card_union_of_disjoint (disjoint_symmDiff_inter ha hb)]
    refine ⟨_, _, hus.count, his.count, ?_, ?_⟩
    · exact hcard ▸ Nat.le_add_left _ _
    · refine hxs.count.trans (congrArg Except.ok ?_)
      exact (Nat.sub_eq_of_eq_add hcard).symm
  swap o ho := by
    obtain ⟨els, hels⟩ := exists_listed (covers_op ha hb o)
    obtain ⟨els', hels'⟩ := exists_listed (covers_op hb ha o)
    refine ⟨els, els', hels.select, hels'.select, ?_⟩
    rw [hels.members (covers_op ha hb o), hels'.members (covers_op hb ha o), members_swap ho]

theorem union_parts_complement : threeFunnels.Covers (.node [.funnel 0] ⟨[⟨0, 1⟩]⟩)
    ∧ threeFunnels.Covers (.node [.funnel 1] ⟨[⟨0, 1⟩]⟩)
    ∧ UnionParts threeFunnels (.node [.funnel 0] ⟨[⟨0, 1⟩]⟩) (.node [.funnel 1] ⟨[⟨0, 1⟩]⟩) :=
  ⟨by decide, by decide, union_parts _ _ _ (by decide) (by decide)⟩

end Cohort.Index
