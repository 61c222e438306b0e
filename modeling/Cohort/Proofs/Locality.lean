import Cohort.Proofs.Listing
import Cohort.Proofs.Nodes

/-!
# What evaluation reads

The funnels of a selection are those of the leaves that stand in it, each once
(`Selection.mem_funnels_iff_within`). Evaluating an entity reads its masks there, and the entities
to evaluate are taken from there too. So two indexes that hold the same in these funnels give the
same listing and the same count, whatever else they hold and however many funnels they have
(`Index.evaluation_reads_funnels`).
-/

namespace Cohort

namespace Selection

variable {l : Leaf} {f : FunnelId}

theorem leavesAll_eq_flatMap (ss : List Selection) : leavesAll ss = ss.flatMap leaves := by
  induction ss with
  | nil => rw [leavesAll, List.flatMap_nil]
  | cons s ss ih => rw [leavesAll, ih, List.flatMap_cons]

theorem mem_leaves_iff_within : ∀ s : Selection, l ∈ s.leaves ↔ Within (.leaf l) s
  | .leaf k => by
    rw [leaves, List.mem_singleton]
    constructor
    · rintro rfl
      exact .self
    · intro h
      cases h
      rfl
  | .node parts test => by
    rw [leaves, leavesAll_eq_flatMap, List.mem_flatMap]
    constructor
    · rintro ⟨s, hs, h⟩
      exact .part hs ((mem_leaves_iff_within s).1 h)
    · intro h
      cases h with
      | @part s _ _ hs h => exact ⟨s, hs, (mem_leaves_iff_within s).2 h⟩

theorem mem_funnels_iff_within {s : Selection} :
    f ∈ s.funnels ↔ ∃ l, Within (.leaf l) s ∧ l.funnel = f := by
  simp only [mem_funnels_iff, mem_leaves_iff_within]

theorem nodup_funnels (s : Selection) : s.funnels.Nodup := nodup_eraseDups _

end Selection

namespace Index

variable {i j : Index} {s : Selection}

/-- Two indexes have the funnels that a selection reads and hold the same entities and masks there.
-/
def AgreeOn (s : Selection) (i j : Index) : Prop :=
  ∀ f ∈ s.funnels, ∃ els, i.funnel f = .ok els ∧ j.funnel f = .ok els

namespace AgreeOn

theorem symm (h : AgreeOn s i j) : AgreeOn s j i := fun f hf =>
  (h f hf).imp fun _ => And.symm

theorem elements (h : AgreeOn s i j) : ∀ f ∈ s.funnels, i.elements f = j.elements f := by
  intro f hf
  obtain ⟨els, hi, hj⟩ := h f hf
  rw [(funnel_eq_ok_iff.1 hi).2, (funnel_eq_ok_iff.1 hj).2]

theorem covers (h : AgreeOn s i j) : i.Covers s := by
  intro l hl
  obtain ⟨els, hi, -⟩ := h l.funnel (Selection.mem_funnels_iff.2 ⟨l, hl, rfl⟩)
  exact (funnel_eq_ok_iff.1 hi).1

theorem mask? (h : AgreeOn s i j) (x : EntityId) :
    ∀ l ∈ s.leaves, i.mask? l.funnel x = j.mask? l.funnel x := by
  intro l hl
  have hels := h.elements l.funnel (Selection.mem_funnels_iff.2 ⟨l, hl, rfl⟩)
  refine Option.ext fun m => ?_
  rw [← mem_elements_iff (a := ⟨x, m⟩), ← mem_elements_iff (a := ⟨x, m⟩), hels]

theorem evaluate (h : AgreeOn s i j) (x : EntityId) : i.evaluate x s = j.evaluate x s :=
  evaluate_congr s (h.mask? x)

theorem entities (h : AgreeOn s i j) : i.entities s.funnels = j.entities s.funnels := by
  unfold Index.entities
  rw [List.flatMap_congr fun f hf => congrArg (List.map (·.id)) (h.elements f hf)]

theorem select (h : AgreeOn s i j) : i.select s = j.select s := by
  unfold Index.select
  rw [checkFunnels_eq_ok_iff.2 ⟨h.covers, rfl⟩, checkFunnels_eq_ok_iff.2 ⟨h.symm.covers, rfl⟩]
  show Except.ok _ = Except.ok _
  simp only [h.entities, h.evaluate]

theorem count (h : AgreeOn s i j) : i.count s = j.count s := by
  rw [count_of_covers h.covers, count_of_covers h.symm.covers]
  unfold Index.members has
  simp only [h.entities, h.evaluate]

end AgreeOn

/-- The funnels of a selection are those of its leaves, each once. Indexes that have these funnels
and hold the same there list the selection, and count it, with the same results, whatever else they
hold. -/
theorem evaluation_reads_funnels (s : Selection) :
    s.funnels.Nodup
      ∧ (∀ f, f ∈ s.funnels ↔ ∃ l, Selection.Within (.leaf l) s ∧ l.funnel = f)
      ∧ ∀ i j : Index, AgreeOn s i j → ∃ els, i.select s = .ok els ∧ j.select s = .ok els
        ∧ i.count s = .ok els.length ∧ j.count s = .ok els.length := by
  refine ⟨s.nodup_funnels, fun f => Selection.mem_funnels_iff_within, fun i j h => ?_⟩
  obtain ⟨els, hels⟩ := exists_lists h.covers
  exact ⟨els, hels.select, h.select ▸ hels.select, hels.count, h.count ▸ hels.count⟩

/-- An index like `threeFunnels` without the last funnel. -/
def twoFunnels : Index :=
  ⟨2, .ofList [(0, .ofList [(1, 0), (2, 6)]), (1, .ofList [(2, 1), (3, 0)])],
    within_of_all (by decide)⟩

/-- The entities of two funnels that are not in the first. -/
def notInFirst : Selection := .node [.funnel 0, .funnel 1] ⟨[⟨0, 1⟩]⟩

/-- Entity 4 of the third funnel is not in the first one either, but is not looked at. -/
theorem evaluation_reads_funnels_complement : AgreeOn notInFirst twoFunnels threeFunnels
    ∧ ∃ els, twoFunnels.select notInFirst = .ok els ∧ threeFunnels.select notInFirst = .ok els
      ∧ twoFunnels.count notInFirst = .ok els.length
      ∧ threeFunnels.count notInFirst = .ok els.length := by
  have hboth : ∀ l ∈ notInFirst.leaves, l.funnel.toNat < twoFunnels.size.toNat
      ∧ l.funnel.toNat < threeFunnels.size.toNat
      ∧ threeFunnels.elements l.funnel = twoFunnels.elements l.funnel := by decide
  have hagree : AgreeOn notInFirst twoFunnels threeFunnels := by
    intro f hf
    obtain ⟨l, hl, rfl⟩ := Selection.mem_funnels_iff.1 hf
    obtain ⟨htwo, hthree, hels⟩ := hboth l hl
    exact ⟨_, funnel_eq_ok_iff.2 ⟨htwo, rfl⟩, funnel_eq_ok_iff.2 ⟨hthree, hels⟩⟩
  obtain ⟨-, -, hreads⟩ := evaluation_reads_funnels notInFirst
  exact ⟨hagree, hreads _ _ hagree⟩

end Index

end Cohort
