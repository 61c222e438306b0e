import Cohort.Proofs.Queries
import Cohort.Proofs.SetAlgebra

/-!
# The nodes of selections

Selections are made of leaves by combining parts, by operators, by joins and by queries
(`Selection.Composed`). Combining checks that parts and test fit into a node. Operators do without
the check, which would let their two parts pass (`SetOp.exists_combine`), joins and queries combine
in the end, and so every node there is fits (`Selection.composed_nodes`). Then each part of a node
has a position that masks have, and the masks of its entities have no positions but those of parts
(`Index.getLsbD_evaluate`).
-/

namespace Cohort

theorem Selection.combine_pair {s u : Selection} {test : MaskTest}
    (h : ∀ c ∈ test.clauses, (c.positive ||| c.negative) &&& ~~~Mask.below 2 = 0) :
    combine [s, u] test = .ok (.node [s, u] test) := by
  have h2 : 2 ≤ 64 := by decide
  exact combine_eq_ok_iff.2 ⟨List.cons_ne_nil s [u], h2,
    fun c hc => (Mask.beyond_eq_zero_iff h2).1 (h c hc), rfl⟩

theorem SetOp.exists_combine (o : SetOp) (s u : Selection) :
    ∃ test, Selection.combine [s, u] test = .ok (o.selection s u) := by
  cases o
  all_goals exact ⟨_, Selection.combine_pair (by decide)⟩

theorem Database.exists_combine {ε : Type} [Evaluator ε] {db : Database ε} {text : String}
    {s : Selection} (h : db.query text = .ok s) :
    ∃ (ls : List Leaf) (test : MaskTest), Selection.combine (ls.map .leaf) test = .ok s := by
  unfold query at h
  simp only [bind_eq_ok_iff, guard_eq_ok_iff] at h
  obtain ⟨_, -, ls, -, -, _, -, test, -, h⟩ := h
  exact ⟨_, test, h⟩

namespace Selection

variable {s : Selection} {parts : List Selection} {test : MaskTest}

/-- A selection stands somewhere in another one: it is this one or stands in one of its parts. -/
inductive Within (u : Selection) : Selection → Prop
  | self : Within u u
  | part {p : Selection} {parts : List Selection} {test : MaskTest} (hp : p ∈ parts)
      (hu : Within u p) : Within u (.node parts test)

/-- All nodes of a selection fit. -/
def NodesFit (s : Selection) : Prop :=
  ∀ (parts : List Selection) (test : MaskTest), Within (.node parts test) s → Fits parts test

theorem nodesFit_leaf (l : Leaf) : NodesFit (.leaf l) := nofun

theorem nodesFit_node_iff :
    NodesFit (.node parts test) ↔ Fits parts test ∧ ∀ p ∈ parts, NodesFit p := by
  constructor
  · exact fun h => ⟨h _ _ .self, fun p hp ps t hin => h ps t (.part hp hin)⟩
  · rintro ⟨hfits, hparts⟩ ps t hin
    cases hin with
    | self => exact hfits
    | part hp hin => exact hparts _ hp ps t hin

theorem nodesFit_of_combine (h : combine parts test = .ok s) (hparts : ∀ p ∈ parts, NodesFit p) :
    NodesFit s := by
  obtain ⟨hfits, rfl⟩ := combine_eq_ok_iff_fits.1 h
  exact nodesFit_node_iff.2 ⟨hfits, hparts⟩

theorem Chain.nodesFit {j : Join} {ss : List Selection} {n : Nat} (h : Chain j ss s n)
    (hss : ∀ u ∈ ss, NodesFit u) : NodesFit s := by
  induction h with
  | last h => exact nodesFit_node_iff.2 ⟨h.fits, hss⟩
  | more h hr ih =>
    obtain ⟨hparts, hothers⟩ := List.forall_mem_append.1 hss
    exact nodesFit_node_iff.2
      ⟨h.fits, List.forall_mem_append.2 ⟨hparts, List.forall_mem_singleton.2 (ih hothers)⟩⟩

/-- The selections that are made of leaves by combining parts, by operators and joins, and by the
queries of any database. -/
inductive Composed : Selection → Prop
  | leaf (l : Leaf) : Composed (.leaf l)
  | combine {parts : List Selection} {test : MaskTest} {s : Selection}
      (hparts : ∀ p ∈ parts, Composed p) (h : combine parts test = .ok s) : Composed s
  | op (o : SetOp) {s u : Selection} (hs : Composed s) (hu : Composed u) :
      Composed (o.selection s u)
  | join {j : Join} {ss : List Selection} {s : Selection} (hss : ∀ u ∈ ss, Composed u)
      (h : join j ss = .ok s) : Composed s
  | query {ε : Type} [Evaluator ε] {db : Database ε} {text : String} {s : Selection}
      (h : db.query text = .ok s) : Composed s

theorem nodesFit_of_composed (h : Composed s) : NodesFit s := by
  induction h with
  | leaf l => exact nodesFit_leaf l
  | combine _ h hparts => exact nodesFit_of_combine h hparts
  | @op o s u _ _ hs hu =>
    obtain ⟨test, h⟩ := o.exists_combine s u
    refine nodesFit_of_combine h ?_
    rw [List.forall_mem_cons, List.forall_mem_singleton]
    exact ⟨hs, hu⟩
  | @join j ss s _ h hss =>
    obtain ⟨u, hu, hchain⟩ := exists_chain j ss (ne_nil_of_join h)
    obtain rfl : s = u := Except.ok.inj (h.symm.trans hu)
    exact hchain.nodesFit hss
  | query h =>
    obtain ⟨ls, test, h⟩ := Database.exists_combine h
    refine nodesFit_of_combine h ?_
    rw [List.forall_mem_map]
    exact fun l _ => nodesFit_leaf l

end Selection

namespace Index

variable {index : Index} {x : EntityId} {parts : List Selection} {test : MaskTest}

/-- The mask of an entity of a node has the positions of the parts that the entity is in. -/
theorem getLsbD_evaluate (hfits : Selection.Fits parts test) {m : Mask}
    (hm : index.evaluate x (.node parts test) = some m) (i : Nat) :
    m.getLsbD i = true ↔ ∃ p, parts[i]? = some p ∧ index.has x p = true := by
  obtain ⟨rfl, -⟩ := evaluate_node_eq_some_iff.1 hm
  rw [getLsbD_membership, and_iff_right (Nat.zero_le i), Nat.sub_zero,
    and_iff_right_iff_imp]
  rintro ⟨p, hp, -⟩
  obtain ⟨hi, -⟩ := List.getElem?_eq_some_iff.1 hp
  exact Nat.lt_of_lt_of_le hi hfits.width

/-- Listing reports the masks of evaluation. -/
theorem evaluate_of_mem_select {s : Selection} {es : List Element} (hs : index.select s = .ok es)
    {e : Element} (he : e ∈ es) : index.evaluate e.id s = some e.mask :=
  ((mem_select_iff hs).1 he).2

end Index

/-- Parts and a test are combined exactly when there are from 1 to 64 parts and the test asks for
none beyond them. In whatever selection is made of leaves, this is true of every node. Therefore
each of its parts has a position below 64, and of an entity in the node both evaluating and listing
give the mask of the parts that the entity is in, without positions beyond the parts. -/
theorem Selection.composed_nodes :
    (∀ parts test, (∃ s, combine parts test = .ok s) ↔ Fits parts test)
      ∧ ∀ s, Composed s → ∀ parts test, Within (.node parts test) s →
        Fits parts test ∧ (∀ i < parts.length, i < 64)
          ∧ (∀ (index : Index) (x : EntityId) (m : Mask),
            index.evaluate x (.node parts test) = some m → ∀ i, m.getLsbD i = true
              ↔ ∃ p, parts[i]? = some p ∧ index.has x p = true)
          ∧ ∀ (index : Index) (es : List Element), index.select (.node parts test) = .ok es →
            ∀ e ∈ es, ∀ i ≥ parts.length, e.mask.getLsbD i = false := by
  refine ⟨fun parts test => ?_, fun s hs parts test hin => ?_⟩
  · simp only [combine_eq_ok_iff_fits, exists_and_left, exists_eq, and_true]
  · have hfits := nodesFit_of_composed hs parts test hin
    refine ⟨hfits, fun i hi => Nat.lt_of_lt_of_le hi hfits.width,
      fun index x m hm => Index.getLsbD_evaluate hfits hm, fun index es hes e he i hi => ?_⟩
    rw [← Bool.not_eq_true, Index.getLsbD_evaluate hfits (Index.evaluate_of_mem_select hes he),
      List.getElem?_eq_none hi]
    exact fun ⟨_, hp, _⟩ => nomatch hp

theorem Selection.composed_nodes_diff :
    Composed (((funnel 0).diff (funnel 1)).union (funnel 2))
      ∧ Fits [funnel 0, funnel 1] ⟨[⟨1, 0⟩, ⟨0, 2⟩]⟩ :=
  have h : Composed (((funnel 0).diff (funnel 1)).union (funnel 2)) :=
    .op .union (.op .diff (.leaf _) (.leaf _)) (.leaf _)
  ⟨h, (composed_nodes.2 _ h _ _ (.part List.mem_cons_self .self)).1⟩

end Cohort
