import Cohort.Proofs.Compilation
import Cohort.Proofs.Enumeration
import Cohort.Proofs.Scan

/-!
# When leaves are the same

A text is a leaf exactly when its key is admissible and the terms of its formula are words of the
mask field (`Database.exists_leaf_iff`). Two texts are the same leaf exactly when their keys differ
in the order of pairs only and their formulas are the same (`Database.leaf_eq_iff`), since words
have different positions in masks and so formulas different tests. Neither depends on how the log
numbers its words.
-/

namespace Cohort.Database

section Position

variable {ε : Type} [Evaluator ε] {db : Database ε} {field v w : String} {i : Nat}

/-- The mask field is a field of the log, with fewer words than masks have positions. -/
theorem exists_maskField (hm : db.config.maskField = some field) : ∃ n f,
    db.layout.maskField = some n ∧ db.log.fieldNumber field = .ok n ∧ db.log.fields[n]? = some f
      ∧ db.log.wordsOf field = f.words ∧ f.words.length < 64 := by
  have hrel := (Layout.check_eq_ok_iff.1 (Layout.describes_of_build db.layout_eq).mask).2.2
  rw [hm] at hrel
  cases hn : db.layout.maskField with
  | none =>
    rw [hn] at hrel
    exact nomatch hrel
  | some n =>
    rw [hn, Option.rel_some_some] at hrel
    obtain ⟨hfield, -, hlt⟩ := hrel
    obtain ⟨f, hf, -, hw⟩ := Layout.exists_field hfield
    exact ⟨n, f, rfl, hfield, hf, hw, hw ▸ hlt⟩

/-- A word's position is its place among the words of the field, from 1 on. -/
theorem maskPosition_iff (hm : db.config.maskField = some field) :
    db.maskPosition v = .ok i ↔ i ≠ 0 ∧ (db.log.wordsOf field)[i - 1]? = some v := by
  obtain ⟨n, f, hn, -, hf, hw, -⟩ := exists_maskField hm
  rw [maskPosition_eq_ok_iff, hn, hw]
  simp only [Option.some.injEq, exists_eq_left', Layout.number_eq_ok_iff, hf,
    Field.number?_eq_some_iff]
  unfold Field.word?
  by_cases hi : i = 0 <;> simp [hi]

theorem position_inj (hv : db.maskPosition v = .ok i) (hw : db.maskPosition w = .ok i) : v = w := by
  obtain ⟨n, hn, hv⟩ := maskPosition_eq_ok_iff.1 hv
  obtain ⟨m, hm, hw⟩ := maskPosition_eq_ok_iff.1 hw
  obtain rfl : n = m := by simpa [hn] using hm
  obtain ⟨F, hF, hv⟩ := Layout.number_eq_ok_iff.1 hv
  obtain ⟨F', hF', hw⟩ := Layout.number_eq_ok_iff.1 hw
  obtain rfl : F = F' := by simpa [hF] using hF'
  rw [Field.number?_eq_some_iff] at hv hw
  exact Option.some.inj (hv.symm.trans hw)

end Position

variable {db : Database Index} {f g : Formula String} {t u : MaskTest} {text : String} {l m : Leaf}

/-- A value is a word of the mask field. -/
def HasMaskWord (db : Database Index) (v : String) : Prop :=
  ∃ field, db.config.maskField = some field ∧ v ∈ db.log.wordsOf field

theorem exists_position_iff {v : String} :
    (∃ i < 64, db.maskPosition v = .ok i) ↔ db.HasMaskWord v := by
  have hcheck := (Layout.describes_of_build db.layout_eq).mask
  have hrel := (Layout.check_eq_ok_iff.1 hcheck).2.2
  unfold HasMaskWord
  simp only [maskPosition_eq_ok_iff]
  generalize db.config.maskField = field, db.layout.maskField = number at hrel
  cases hrel with
  | none => simp
  | some h =>
    obtain ⟨hn, -, hlt⟩ := h
    simp only [Option.some.injEq, exists_eq_left', ← Layout.exists_number_iff hn]
    refine exists_congr fun i => and_iff_right_of_imp fun hi => ?_
    obtain ⟨F, hF, -, hw⟩ := Layout.exists_field hn
    obtain ⟨F', hF', hi⟩ := Layout.number_eq_ok_iff.1 hi
    obtain rfl : F = F' := by simpa [hF] using hF'
    exact Nat.lt_of_le_of_lt (Field.le_of_number? hi) (hw ▸ hlt)

/-- There is a test for a formula over words of the mask field. -/
theorem exists_maskTest_iff :
    (∃ t, db.maskTest f = .ok t) ↔ ∀ v ∈ f.terms, db.HasMaskWord v := by
  unfold maskTest
  rw [MaskTest.exists_compile_iff]
  exact forall₂_congr fun v _ => exists_position_iff

theorem maskTest_eq_iff (hf : db.maskTest f = .ok t) (hg : db.maskTest g = .ok u) :
    t = u ↔ f = g := by
  constructor
  · rintro rfl
    exact MaskTest.compile_inj (fun _ _ _ => position_inj) hf hg
  · rintro rfl
    exact Except.ok.inj (hf.symm.trans hg)

theorem exists_resolve_iff {k : Key} : (∃ f, db.layout.resolve db.log k = .ok f)
    ↔ k.Admissible db.log db.config :=
  Layout.exists_resolve_iff (Layout.describes_of_build db.layout_eq)

theorem leaf_eq_ok_iff : db.leaf text = .ok l ↔ ∃ k f, History.readLeaf text = .ok (k, f)
    ∧ db.layout.resolve db.log k = .ok l.funnel ∧ db.maskTest f = .ok l.test := by
  refine ⟨readLeaf_of_leaf, ?_⟩
  rintro ⟨k, f, hread, hk, hf⟩
  unfold History.readLeaf at hread
  simp only [bind_eq_ok_iff, pure_eq_ok_iff, Prod.mk.injEq] at hread
  obtain ⟨⟨key, mask⟩, hparts, _, hkey, _, hmask, rfl, rfl⟩ := hread
  unfold leaf select funnelOf Layout.funnel
  simp only [bind_eq_ok_iff, pure_eq_ok_iff]
  exact ⟨_, hparts, _, hmask, _, ⟨_, hkey, hk⟩, _, hf, rfl⟩

theorem exists_leaf_iff : (∃ l, db.leaf text = .ok l) ↔ ∃ k f, History.readLeaf text = .ok (k, f)
    ∧ k.Admissible db.log db.config ∧ ∀ v ∈ f.terms, db.HasMaskWord v := by
  simp only [leaf_eq_ok_iff, ← exists_resolve_iff, ← exists_maskTest_iff]
  constructor
  · rintro ⟨l, k, f, hread, hk, hf⟩
    exact ⟨k, f, hread, ⟨_, hk⟩, _, hf⟩
  · rintro ⟨k, f, hread, ⟨id, hk⟩, test, hf⟩
    exact ⟨⟨id, test⟩, k, f, hread, hk, hf⟩

/-- Two texts are the same leaf exactly when their formulas are the same and their keys differ in
the order of pairs only. -/
theorem leaf_eq_iff {text' : String} (hl : db.leaf text = .ok l) (hm : db.leaf text' = .ok m)
    {k k' : Key} {f f' : Formula String} (ht : History.readLeaf text = .ok (k, f))
    (ht' : History.readLeaf text' = .ok (k', f')) :
    l = m ↔ k.pairs.Perm k'.pairs ∧ f = f' := by
  obtain ⟨_, _, hread, hk, hf⟩ := leaf_eq_ok_iff.1 hl
  obtain ⟨rfl, rfl⟩ : k = _ ∧ f = _ := by simpa [ht] using hread
  obtain ⟨_, _, hread', hk', hf'⟩ := leaf_eq_ok_iff.1 hm
  obtain ⟨rfl, rfl⟩ : k' = _ ∧ f' = _ := by simpa [ht'] using hread'
  have hfunnel : l.funnel = m.funnel ↔ k.pairs.Perm k'.pairs := by
    rw [← Layout.resolve_eq_iff_perm (Layout.describes_of_build db.layout_eq)
      (exists_resolve_iff.1 ⟨_, hk⟩), hk, hk', Except.ok.injEq]
  rw [← hfunnel, ← maskTest_eq_iff hf hf']
  obtain ⟨id, test⟩ := l
  obtain ⟨id', test'⟩ := m
  rw [Leaf.mk.injEq]

end Cohort.Database
