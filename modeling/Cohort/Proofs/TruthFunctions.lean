import Cohort.Proofs.Algebra

/-!
# Formulas as truth functions

Under every assignment a formula made by the algebra has the truth value that its parts make up
(`Formula.eval_operations`). A conjunction of a list holds where all of its members hold
(`Formula.eval_all`). A disjunction of a list passes over the members without clauses, and first
pools those of one clause into one (`Formula.eval_pool`); it holds where one of the others does, and
everywhere if there is none (`Formula.eval_any`).
-/

namespace Cohort

variable {α : Type} [Ranked α]

namespace Formula

variable {f : Formula α} {fs gs : List (Formula α)}

theorem eval_all (fs : List (Formula α)) (v : α → Bool) :
    (all fs).eval v = fs.all (·.eval v) := by
  unfold all
  rw [Bool.eq_iff_iff, eval_ofClauses, List.all_eq_true]
  simp only [List.mem_flatMap, eval_eq_true_iff]
  constructor
  · intro h f hf c hc
    exact h c ⟨f, hf, hc⟩ (ne_empty_of_mem hc)
  · rintro h c ⟨f, hf, hc⟩ -
    exact h f hf c hc

theorem eval_of_size (h : f.size = 1) (v : α → Bool) :
    f.eval v = f.literals.any fun l => l.holds (v l.term) := by
  obtain ⟨c, hc⟩ := List.length_eq_one_iff.1 h
  unfold eval literals
  rw [hc]
  simp [Clause.eval]

theorem literals_ne_nil (h : f ≠ always) : f.literals ≠ [] := by
  obtain ⟨c, hc⟩ := exists_mem_of_ne h
  obtain ⟨l, hl⟩ := Clause.exists_mem_of_ne (ne_empty_of_mem hc)
  exact List.ne_nil_of_mem (mem_literals.2 ⟨c, hc, hl⟩)

/-- The literals of some formulas, in one clause. -/
def pool (fs : List (Formula α)) : Formula α := ofClauses [SortedSet.ofList (fs.flatMap literals)]

theorem pool_nil : pool ([] : List (Formula α)) = always :=
  ext_mem fun c => by
    have hc : c ∉ (always : Formula α).clauses := SortedSet.not_mem_empty
    have hempty : SortedSet.ofList ([] : List (Literal α)) = SortedSet.empty :=
      SortedSet.ext_mem fun l => by simp
    simp [pool, hempty, hc]

/-- Formulas of one clause each pool to a clause that holds where one of them does. -/
theorem eval_pool (hne : fs ≠ []) (hfs : ∀ f ∈ fs, f ≠ always) (hsize : ∀ f ∈ fs, f.size = 1) :
    pool fs ≠ always ∧ ∀ v, (pool fs).eval v = fs.any (·.eval v) := by
  obtain ⟨f, hf⟩ := List.exists_mem_of_ne_nil fs hne
  obtain ⟨l, hl⟩ := List.exists_mem_of_ne_nil _ (literals_ne_nil (hfs f hf))
  have hmem : l ∈ fs.flatMap literals := List.mem_flatMap.2 ⟨f, hf, hl⟩
  unfold pool
  refine ⟨ne_always_of_mem (c := SortedSet.ofList (fs.flatMap literals)) ?_, fun v => ?_⟩
  · exact mem_ofClauses.2 ⟨List.mem_singleton_self _,
      Clause.ne_empty_of_mem (SortedSet.mem_ofList.2 hmem)⟩
  · rw [eval_ofLiterals (List.ne_nil_of_mem hmem), List.any_flatMap, Bool.eq_iff_iff,
      List.any_eq_true, List.any_eq_true]
    exact exists_congr fun f => and_congr_right fun hf => by rw [eval_of_size (hsize f hf)]

theorem eval_foldl_or_always (hgs : ∀ g ∈ gs, g ≠ always) (v : α → Bool) :
    (gs.foldl Formula.or always).eval v = (gs.isEmpty || gs.any (·.eval v)) := by
  cases gs with
  | nil => rfl
  | cons g gs =>
    obtain ⟨hg, hgs⟩ := List.forall_mem_cons.1 hgs
    rw [List.foldl_cons, always_or, (eval_foldl_or hg hgs).2]
    rfl

/-- The disjunction of formulas that all have clauses, those of one clause pooled. -/
theorem eval_foldl_or_pool (hgs : ∀ g ∈ gs, g ≠ always) (v : α → Bool) :
    ((gs.filter (not ∘ (·.size == 1))).foldl Formula.or (pool (gs.filter (·.size == 1)))).eval v
      = (gs.isEmpty || gs.any (·.eval v)) := by
  have hfilter : ∀ p : Formula α → Bool, ∀ g ∈ gs.filter p, g ≠ always :=
    fun p g hg => hgs g (List.mem_of_mem_filter hg)
  by_cases hs : gs.filter (·.size == 1) = []
  · have hall : gs.filter (not ∘ (·.size == 1)) = gs := by
      rw [List.filter_eq_self]
      intro g hg
      simpa using List.filter_eq_nil_iff.1 hs g hg
    rw [hs, pool_nil, hall, eval_foldl_or_always hgs]
  · obtain ⟨hne, hpool⟩ := eval_pool hs (hfilter _) fun g hg => by
      simpa using List.of_mem_filter hg
    have hempty : gs.isEmpty = false := by
      rw [List.isEmpty_eq_false_iff]
      rintro rfl
      exact hs rfl
    rw [(eval_foldl_or hne (hfilter _)).2, hpool, hempty, Bool.false_or, Bool.eq_iff_iff]
    simp only [List.any_filter, Bool.or_eq_true, List.any_eq_true, Bool.and_eq_true,
      Function.comp_apply, Bool.not_eq_true', ← exists_or, ← and_or_left, ← or_and_right]
    refine exists_congr fun g => and_congr_right fun _ => ?_
    cases g.size == 1 <;> simp

theorem eval_any (fs : List (Formula α)) (v : α → Bool) :
    (any fs).eval v = (fs.all (·.isEmpty) || fs.any fun f => !f.isEmpty && f.eval v) := by
  unfold any
  rw [List.partition_eq_filter_filter]
  refine (eval_foldl_or_pool (fun _ => ne_always_of_mem_filter) v).trans ?_
  rw [List.any_filter, Bool.eq_iff_iff]
  simp [List.isEmpty_iff, List.filter_eq_nil_iff]

/-- The operations of the algebra are those of truth values, but for the formula without clauses: a
disjunction leaves it out, and it is its own negation. -/
theorem eval_operations (f g : Formula α) (fs : List (Formula α)) (v : α → Bool) :
    (f.and g).eval v = (f.eval v && g.eval v)
      ∧ (all fs).eval v = fs.all (·.eval v)
      ∧ (f ≠ always → g ≠ always → (f.or g).eval v = (f.eval v || g.eval v))
      ∧ always.or g = g ∧ f.or always = f
      ∧ (f ≠ always → f.not.eval v = !f.eval v) ∧ (always : Formula α).not = always
      ∧ (any fs).eval v = (fs.all (·.isEmpty) || fs.any fun g => !g.isEmpty && g.eval v)
      ∧ f.not.not.eval v = f.eval v := by
  have hnot : f ≠ always → f.not.eval v = !f.eval v := fun hf => (eval_not hf).2 v
  refine ⟨eval_and f g v, eval_all fs v, fun hf hg => eval_or hf hg v, always_or g, or_always f,
    hnot, rfl, eval_any fs v, ?_⟩
  by_cases hf : f = always
  · subst hf
    rfl
  · rw [(eval_not (eval_not hf).1).2, hnot hf, Bool.not_not]

end Formula

end Cohort
