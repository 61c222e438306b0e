import Cohort.Proofs.LeafIdentity
import Cohort.Proofs.Safety

/-!
# Counting families

A family is made of texts that all have a test of masks: they are read as formulas whose terms are
words of the mask field (`Database.exists_testOf_iff`). For a funnel that an address has, it is
counted in one go over the funnel's masks, which gives for each text what counting the leaf of the
address and of the text's formula gives (`Database.family_counts`).
-/

namespace Cohort.Database

variable {db : Database Index} {address : Address} {id : FunnelId} {f : Formula String}
  {q : String} {test : MaskTest}

/-- There is no test for a text: it is not read as a formula, or one of its terms is no word of the
mask field, or there is no mask field for what is not blank. -/
def Untestable (db : Database Index) (q : String) : Prop :=
  (∃ e, Formula.parse .extended q = .error e)
    ∨ (∃ field, db.config.maskField = some field
      ∧ ∃ t ∈ Token.terms (Formula.tokens .extended q), t ∉ db.log.wordsOf field)
    ∨ (db.config.maskField = none ∧ ∃ c ∈ q.toList, Text.isBlank c = false)

/-- The test of a family's text. -/
def testOf (db : Database Index) (q : String) : Except Error MaskTest := do
  db.maskTest (← Formula.read .extended q)

theorem testOf_eq_ok_iff : db.testOf q = .ok test
    ↔ ∃ f, Formula.parse .extended q = .ok f ∧ db.maskTest f = .ok test := by
  unfold testOf
  simp only [bind_eq_ok_iff, read_eq_ok_iff]

/-- The terms of a formula are words of the mask field unless one of them in its text is not.
Without a mask field, this is so of any term, and only a blank text has none. -/
theorem forall_hasMaskWord_iff (hf : Formula.parse .extended q = .ok f) :
    (∀ v ∈ f.terms, db.HasMaskWord v) ↔ ¬ db.Untestable q := by
  have hparse : ¬ ∃ e, Formula.parse .extended q = .error e := fun ⟨e, he⟩ =>
    nomatch he.symm.trans hf
  unfold Untestable HasMaskWord
  rw [or_iff_right hparse]
  cases db.config.maskField with
  | none =>
    simp only [reduceCtorEq, false_and, exists_false, true_and, false_or,
      ← Formula.exists_mem_terms_of_parse hf]
    rw [not_exists]
  | some field =>
    simp only [Option.some.injEq, exists_eq_left', reduceCtorEq, false_and, or_false,
      Formula.mem_terms_of_parse hf]
    push Not
    exact Iff.rfl

theorem exists_testOf_iff : (∃ test, db.testOf q = .ok test) ↔ ¬ db.Untestable q := by
  simp only [testOf_eq_ok_iff]
  constructor
  · rintro ⟨test, f, hf, htest⟩
    exact (forall_hasMaskWord_iff hf).1 (exists_maskTest_iff.1 ⟨test, htest⟩)
  · intro h
    cases hf : Formula.parse .extended q with
    | error e => exact absurd (.inl ⟨e, hf⟩) h
    | ok f =>
      obtain ⟨test, htest⟩ := exists_maskTest_iff.2 ((forall_hasMaskWord_iff hf).2 h)
      exact ⟨test, f, rfl, htest⟩

/-- What keeps an address from being counted in is that it has no funnel. -/
theorem counts_eq_error_iff {tests : List MaskTest} {e : Error} :
    db.counts tests address = .error e ↔ db.funnelOf address = .error e := by
  cases hid : db.funnelOf address with
  | error e' =>
    unfold counts
    rw [hid]
    show Except.error e' = Except.error e ↔ _
    rw [Except.error.injEq, Except.error.injEq]
  | ok id =>
    obtain ⟨ns, hns, -⟩ := exists_counts hid tests
    rw [hns]
    exact iff_of_false nofun nofun

theorem select_of_funnelOf (hid : db.funnelOf address = .ok id) (htest : db.maskTest f = .ok test) :
    db.select address f = .ok ⟨id, test⟩ := by
  unfold select
  rw [hid, htest]
  rfl

/-- Counting tests in a funnel gives the number of entities of each leaf. -/
theorem counts_of_funnelOf (hid : db.funnelOf address = .ok id) (tests : List MaskTest) :
    db.counts tests address
      = .ok (tests.map fun test => (db.index.members (.leaf ⟨id, test⟩)).length) := by
  unfold counts
  rw [hid]
  exact Index.counts_eq_ok_iff.2 ⟨funnel_lt_of_funnelOf hid, rfl⟩

/-- A family fails exactly when one of its texts has no test. Otherwise it is counted for an address
exactly when the address has a funnel, with the count of the leaf of the address and of the text's
formula for each text, in order. -/
theorem family_counts (db : Database Index) (queries : List String) :
    ((∃ e, db.family queries = .error e) ↔ ∃ q ∈ queries, db.Untestable q)
      ∧ ∀ tests, db.family queries = .ok tests → ∀ address,
        (∀ e, db.counts tests address = .error e ↔ db.funnelOf address = .error e)
          ∧ ∀ id, db.funnelOf address = .ok id → ∃ ns, db.counts tests address = .ok ns
            ∧ List.Forall₂ (fun q n => ∃ f l, Formula.parse .extended q = .ok f
              ∧ db.select address f = .ok l ∧ db.count (.leaf l) = .ok n) queries ns := by
  have hfamily : db.family queries = queries.mapM db.testOf := rfl
  refine ⟨?_, fun tests htests address => ⟨fun e => counts_eq_error_iff, fun id hid => ?_⟩⟩
  · rw [hfamily, exists_error_iff, exists_mapM_iff]
    simp only [exists_testOf_iff]
    push Not
    rfl
  · rw [hfamily, mapM_eq_ok_iff] at htests
    refine ⟨_, counts_of_funnelOf hid tests, List.forall₂_map_right_iff.2 (htests.imp ?_)⟩
    intro q test htest
    obtain ⟨f, hf, htest⟩ := testOf_eq_ok_iff.1 htest
    exact ⟨f, _, hf, select_of_funnelOf hid htest,
      Index.count_of_covers (covers_leaf (funnel_lt_of_funnelOf hid))⟩

end Cohort.Database
