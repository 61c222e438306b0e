import Cohort.Formula.Expression
import Cohort.Proofs.Formulas

/-!
# The algebra of formulas

Conjunctions, disjunctions and negations have the truth values that they stand for
(`Formula.eval_and`, `Formula.eval_or`, `Formula.eval_not`) where no formula without clauses is in a
disjunction or negated. They have the terms of their parts, none of which gets lost when a
disjunction is distributed. The formulas of expressions all have clauses, so they have the truth
values of the expressions (`Expression.eval_formula`), and they have their terms
(`Expression.mem_terms_formula`).
-/

namespace Cohort

variable {α : Type} [Ranked α]

namespace Clause

variable {c : Clause α}

theorem ne_empty_of_mem {l : Literal α} (h : l ∈ c) : c ≠ SortedSet.empty := by
  rintro rfl
  exact SortedSet.not_mem_empty h

theorem exists_mem_of_ne (h : c ≠ SortedSet.empty) : ∃ l, l ∈ c := by
  obtain ⟨l, ls, hl⟩ := SortedSet.exists_cons_of_ne h
  exact ⟨l, SortedSet.mem_def.2 (hl ▸ List.mem_cons_self)⟩

theorem eval_union (c d : Clause α) (v : α → Bool) :
    Clause.eval (c.union d) v = (c.eval v || d.eval v) := by
  rw [Bool.eq_iff_iff, Bool.or_eq_true]
  simp only [Clause.eval_eq_true_iff, SortedSet.mem_union, or_and_right, exists_or]

theorem mem_not {d : Clause α} :
    d ∈ (Clause.not c).clauses ↔ ∃ l ∈ c, SortedSet.singleton l.not = d := by
  unfold Clause.not
  rw [Formula.mem_ofClauses, List.mem_map]
  refine and_iff_left_of_imp ?_
  rintro ⟨l, -, rfl⟩
  exact ne_empty_of_mem (SortedSet.mem_singleton.2 rfl)

end Clause

namespace Formula

variable {f g : Formula α} {c : Clause α}

theorem isEmpty_iff : f.isEmpty = true ↔ f = always := by
  unfold isEmpty
  rw [SortedSet.isEmpty_iff]
  exact ⟨fun h => ext h, congrArg clauses⟩

theorem ne_always_of_mem (h : c ∈ f.clauses) : f ≠ always := by
  rintro rfl
  exact SortedSet.not_mem_empty h

theorem ne_always_of_mem_filter {fs : List (Formula α)} (h : f ∈ fs.filter (!·.isEmpty)) :
    f ≠ always := by
  rintro rfl
  simp [isEmpty_iff.2] at h

theorem exists_cons_of_ne (h : f ≠ always) : ∃ c cs, f.clauses.toList = c :: cs :=
  SortedSet.exists_cons_of_ne fun he => h (ext he)

theorem exists_mem_of_ne (h : f ≠ always) : ∃ c, c ∈ f.clauses := by
  obtain ⟨c, cs, hcs⟩ := exists_cons_of_ne h
  exact ⟨c, SortedSet.mem_def.2 (hcs ▸ List.mem_cons_self)⟩

theorem ne_empty_of_mem (h : c ∈ f.clauses) : c ≠ SortedSet.empty := by
  rintro rfl
  exact f.empty_not_mem h

theorem ofClauses_toList (f : Formula α) : ofClauses f.clauses.toList = f :=
  ext_mem fun c => by
    rw [mem_ofClauses]
    exact and_iff_left_of_imp ne_empty_of_mem

theorem eval_and (f g : Formula α) (v : α → Bool) : (f.and g).eval v = (f.eval v && g.eval v) := by
  rw [Bool.eq_iff_iff, Bool.and_eq_true]
  simp only [eval_eq_true_iff, mem_and, or_imp, forall_and]

theorem and_ne_always (hf : f ≠ always) : f.and g ≠ always := by
  obtain ⟨c, hc⟩ := exists_mem_of_ne hf
  exact ne_always_of_mem (mem_and.2 (.inl hc))

theorem always_or (g : Formula α) : always.or g = g := rfl

theorem or_always (f : Formula α) : f.or always = f := by
  unfold Formula.or
  split
  · next h => exact (isEmpty_iff.1 h).symm
  · rfl

theorem mem_or (hf : f ≠ always) (hg : g ≠ always) :
    c ∈ (f.or g).clauses ↔ ∃ a ∈ f.clauses, ∃ b ∈ g.clauses, a.union b = c := by
  unfold Formula.or
  rw [if_neg (mt isEmpty_iff.1 hf), if_neg (mt isEmpty_iff.1 hg), mem_ofClauses, List.mem_flatMap]
  simp only [List.mem_map]
  refine and_iff_left_of_imp ?_
  rintro ⟨a, ha, b, -, rfl⟩
  obtain ⟨l, hl⟩ := Clause.exists_mem_of_ne (ne_empty_of_mem ha)
  exact Clause.ne_empty_of_mem (SortedSet.mem_union.2 (.inl hl))

theorem eval_or (hf : f ≠ always) (hg : g ≠ always) (v : α → Bool) :
    (f.or g).eval v = (f.eval v || g.eval v) := by
  rw [Bool.eq_iff_iff, Bool.or_eq_true]
  simp only [eval_eq_true_iff, mem_or hf hg]
  constructor
  · intro h
    -- a clause of each side that fails makes one that fails
    by_contra! hnot
    obtain ⟨⟨a, ha, hav⟩, b, hb, hbv⟩ := hnot
    have := h _ ⟨a, ha, b, hb, rfl⟩
    rw [Clause.eval_union, Bool.or_eq_true] at this
    exact this.elim hav hbv
  · rintro h _ ⟨a, ha, b, hb, rfl⟩
    rw [Clause.eval_union, Bool.or_eq_true]
    exact h.imp (fun h => h a ha) fun h => h b hb

theorem or_ne_always (hf : f ≠ always) (hg : g ≠ always) : f.or g ≠ always := by
  obtain ⟨a, ha⟩ := exists_mem_of_ne hf
  obtain ⟨b, hb⟩ := exists_mem_of_ne hg
  exact ne_always_of_mem ((mem_or hf hg).2 ⟨a, ha, b, hb, rfl⟩)

theorem eval_clauseNot (c : Clause α) (v : α → Bool) : (Clause.not c).eval v = !c.eval v := by
  rw [Bool.eq_iff_iff, Bool.not_eq_true', ← Bool.not_eq_true, Clause.eval_eq_true_iff,
    eval_eq_true_iff]
  simp only [Clause.mem_not, forall_exists_index, and_imp, forall_apply_eq_imp_iff₂,
    Clause.eval_eq_true_iff, SortedSet.mem_singleton, exists_eq_left, not_exists, not_and]
  refine forall₂_congr fun l _ => ?_
  show l.not.holds (v l.term) = true ↔ _
  rw [Literal.holds_not, Bool.not_eq_true', Bool.not_eq_true]

theorem clauseNot_ne_always (hc : c ≠ SortedSet.empty) : Clause.not c ≠ always := by
  obtain ⟨l, hl⟩ := Clause.exists_mem_of_ne hc
  exact ne_always_of_mem (Clause.mem_not.2 ⟨l, hl, rfl⟩)

theorem eval_foldl_or : ∀ {gs : List (Formula α)} {f : Formula α}, f ≠ always →
    (∀ g ∈ gs, g ≠ always) → gs.foldl Formula.or f ≠ always
      ∧ ∀ v, (gs.foldl Formula.or f).eval v = (f.eval v || gs.any (·.eval v))
  | [], f, hf, _ => ⟨hf, fun v => by simp⟩
  | g :: gs, f, hf, hgs => by
    obtain ⟨hg, hgs⟩ := List.forall_mem_cons.1 hgs
    obtain ⟨hne, heval⟩ := eval_foldl_or (or_ne_always hf hg) hgs
    refine ⟨hne, fun v => ?_⟩
    rw [List.foldl_cons, heval, eval_or hf hg, List.any_cons, Bool.or_assoc]

theorem eval_not (hf : f ≠ always) : f.not ≠ always ∧ ∀ v, f.not.eval v = !f.eval v := by
  have hcs : ∀ c ∈ f.clauses.toList, c ≠ SortedSet.empty := fun c hc => ne_empty_of_mem hc
  have heval : ∀ v, f.eval v = f.clauses.toList.all fun c => c.eval v := fun _ => rfl
  obtain ⟨c, cs, hl⟩ := exists_cons_of_ne hf
  rw [hl] at hcs heval
  obtain ⟨hc, hcs⟩ := List.forall_mem_cons.1 hcs
  have hns : ∀ g ∈ cs.map Clause.not, g ≠ always := by
    rw [List.forall_mem_map]
    exact fun d hd => clauseNot_ne_always (hcs d hd)
  obtain ⟨hne, hfold⟩ := eval_foldl_or (clauseNot_ne_always hc) hns
  rw [List.foldl_map] at hne hfold
  unfold Formula.not
  rw [hl]
  refine ⟨hne, fun v => ?_⟩
  rw [hfold, heval, eval_clauseNot, List.all_cons, Bool.not_and, List.not_all_eq_any_not,
    List.any_map]
  simp only [Function.comp_def, eval_clauseNot]

section Literals

theorem mem_literals {l : Literal α} : l ∈ f.literals ↔ ∃ c ∈ f.clauses, l ∈ c :=
  List.mem_flatMap

theorem mem_literals_and {l : Literal α} :
    l ∈ (f.and g).literals ↔ l ∈ f.literals ∨ l ∈ g.literals := by
  simp only [mem_literals, mem_and, or_and_right, exists_or]

theorem not_mem_literals_always {l : Literal α} : l ∉ (always : Formula α).literals := nofun

/-- A disjunction loses no literal: each clause of one side is united with some clause of the other.
-/
theorem mem_literals_or {l : Literal α} :
    l ∈ (f.or g).literals ↔ l ∈ f.literals ∨ l ∈ g.literals := by
  by_cases hf : f = always
  · subst hf
    rw [always_or, or_iff_right not_mem_literals_always]
  by_cases hg : g = always
  · subst hg
    rw [or_always, or_iff_left not_mem_literals_always]
  simp only [mem_literals, mem_or hf hg]
  constructor
  · rintro ⟨_, ⟨a, ha, b, hb, rfl⟩, hl⟩
    exact (SortedSet.mem_union.1 hl).imp (fun hl => ⟨a, ha, hl⟩) fun hl => ⟨b, hb, hl⟩
  · rintro (⟨a, ha, hl⟩ | ⟨b, hb, hl⟩)
    · obtain ⟨b, hb⟩ := exists_mem_of_ne hg
      exact ⟨_, ⟨a, ha, b, hb, rfl⟩, SortedSet.mem_union.2 (.inl hl)⟩
    · obtain ⟨a, ha⟩ := exists_mem_of_ne hf
      exact ⟨_, ⟨a, ha, b, hb, rfl⟩, SortedSet.mem_union.2 (.inr hl)⟩

theorem mem_literals_clauseNot {l : Literal α} : l ∈ (Clause.not c).literals ↔ l.not ∈ c := by
  simp only [mem_literals, Clause.mem_not]
  constructor
  · rintro ⟨_, ⟨k, hk, rfl⟩, hl⟩
    rw [SortedSet.mem_singleton.1 hl, Literal.not_not]
    exact hk
  · intro hl
    exact ⟨_, ⟨_, hl, rfl⟩, SortedSet.mem_singleton.2 (Literal.not_not l).symm⟩

theorem mem_literals_foldl {l : Literal α} : ∀ {cs : List (Clause α)} {f : Formula α},
    l ∈ (cs.foldl (fun g d => g.or (Clause.not d)) f).literals
      ↔ l ∈ f.literals ∨ ∃ c ∈ cs, l.not ∈ c
  | [], f => by simp
  | c :: cs, f => by
    rw [List.foldl_cons, mem_literals_foldl, mem_literals_or, mem_literals_clauseNot, or_assoc]
    simp only [List.mem_cons, exists_eq_or_imp]

/-- A negation has the opposites of the literals. -/
theorem mem_literals_not {l : Literal α} : l ∈ f.not.literals ↔ l.not ∈ f.literals := by
  have hlit : l.not ∈ f.literals ↔ ∃ c ∈ f.clauses.toList, l.not ∈ c := mem_literals
  rw [hlit]
  unfold Formula.not
  cases f.clauses.toList with
  | nil => simp [not_mem_literals_always]
  | cons c cs =>
    simp only [mem_literals_foldl, mem_literals_clauseNot, List.mem_cons, exists_eq_or_imp]

/-- The terms are those of the literals. -/
theorem mem_terms {a : α} : a ∈ f.terms ↔ ∃ l ∈ f.literals, l.term = a := by
  unfold terms
  rw [SortedSet.mem_ofList, List.mem_map]

theorem forall_terms_iff {p : α → Prop} : (∀ t ∈ f.terms, p t) ↔ ∀ l ∈ f.literals, p l.term := by
  simp only [mem_terms, forall_exists_index, and_imp, forall_apply_eq_imp_iff₂]

theorem exists_mem_terms (hf : f ≠ always) : ∃ t, t ∈ f.terms := by
  obtain ⟨c, hc⟩ := exists_mem_of_ne hf
  obtain ⟨l, hl⟩ := Clause.exists_mem_of_ne (ne_empty_of_mem hc)
  exact ⟨l.term, mem_terms.2 ⟨l, mem_literals.2 ⟨c, hc, hl⟩, rfl⟩⟩

theorem mem_terms_term {a t : α} : a ∈ (term t).terms ↔ a = t := by
  have hmem : ∀ c, c ∈ (term t).clauses ↔ c = SortedSet.singleton (.plain t) := by
    intro c
    unfold term
    rw [mem_ofClauses, List.mem_singleton, and_iff_left_of_imp]
    rintro rfl
    exact Clause.ne_empty_of_mem (SortedSet.mem_singleton.2 rfl)
  simp only [mem_terms, mem_literals, hmem, exists_eq_left, SortedSet.mem_singleton]
  exact eq_comm

theorem mem_terms_and {a : α} : a ∈ (f.and g).terms ↔ a ∈ f.terms ∨ a ∈ g.terms := by
  simp only [mem_terms, mem_literals_and, or_and_right, exists_or]

theorem mem_terms_or {a : α} : a ∈ (f.or g).terms ↔ a ∈ f.terms ∨ a ∈ g.terms := by
  simp only [mem_terms, mem_literals_or, or_and_right, exists_or]

theorem mem_terms_not {a : α} : a ∈ f.not.terms ↔ a ∈ f.terms := by
  simp only [mem_terms, mem_literals_not]
  constructor
  · rintro ⟨l, hl, rfl⟩
    exact ⟨l.not, hl, rfl⟩
  · rintro ⟨l, hl, rfl⟩
    exact ⟨l.not, by rwa [Literal.not_not], rfl⟩

end Literals

end Formula

namespace Expression

/-- The terms, from left to right. -/
def terms : Expression → List String
  | term t => [t]
  | not e => e.terms
  | and l r => l.terms ++ r.terms
  | andNot l r => l.terms ++ r.terms
  | or l r => l.terms ++ r.terms
  | group e => e.terms

theorem mem_terms_formula {a : String} : ∀ e : Expression, a ∈ e.formula.terms ↔ a ∈ e.terms
  | term t => by
    unfold formula terms
    rw [Formula.mem_terms_term, List.mem_singleton]
  | not e => by
    unfold formula terms
    rw [Formula.mem_terms_not, mem_terms_formula e]
  | and l r => by
    unfold formula terms
    rw [Formula.mem_terms_and, mem_terms_formula l, mem_terms_formula r, List.mem_append]
  | andNot l r => by
    unfold formula terms
    rw [Formula.mem_terms_and, Formula.mem_terms_not, mem_terms_formula l, mem_terms_formula r,
      List.mem_append]
  | or l r => by
    unfold formula terms
    rw [Formula.mem_terms_or, mem_terms_formula l, mem_terms_formula r, List.mem_append]
  | group e => by
    unfold formula terms
    exact mem_terms_formula e

theorem formula_ne_always : ∀ e : Expression, e.formula ≠ .always
  | term _ => Formula.ne_always_of_mem <|
      Formula.mem_ofClauses.2 ⟨List.mem_singleton_self _, nofun⟩
  | not e => (Formula.eval_not e.formula_ne_always).1
  | and l _ => Formula.and_ne_always l.formula_ne_always
  | andNot l _ => Formula.and_ne_always l.formula_ne_always
  | or l r => Formula.or_ne_always l.formula_ne_always r.formula_ne_always
  | group e => e.formula_ne_always

/-- The conjunctive normal form has the truth value of the expression. -/
theorem eval_formula (v : String → Bool) : ∀ e : Expression, e.formula.eval v = e.eval v
  | term t => (Formula.eval_allOf [t] v).trans (by simp [eval])
  | not e => by
    unfold formula eval
    rw [(Formula.eval_not e.formula_ne_always).2, eval_formula v e]
  | and l r => by
    unfold formula eval
    rw [Formula.eval_and, eval_formula v l, eval_formula v r]
  | andNot l r => by
    unfold formula eval
    rw [Formula.eval_and, (Formula.eval_not r.formula_ne_always).2, eval_formula v l,
      eval_formula v r]
  | or l r => by
    unfold formula eval
    rw [Formula.eval_or l.formula_ne_always r.formula_ne_always, eval_formula v l,
      eval_formula v r]
  | group e => by
    unfold formula eval
    exact eval_formula v e

end Expression

end Cohort
