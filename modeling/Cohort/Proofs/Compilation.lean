import Cohort.Proofs.Mask

/-!
# Compiling formulas to tests of masks

Compiling goes through the literals of a formula in canonical order and stops at the first whose
term has no position, or none that masks have (`MaskTest.compile_eq_error_iff`). Without such a
literal there is a test, and it passes the masks of which the formula is true
(`MaskTest.compile_spec`).
-/

namespace Cohort

namespace MaskTest

variable {α : Type} [Ranked α] {position : α → Except Error Nat} {f : Formula α}

/-- Why a literal does not compile, if it does not: the failure to find its term's position, or that
masks do not have the position. -/
def objection (position : α → Except Error Nat) (l : Literal α) : Option Error :=
  match position l.term with
  | .error e => some e
  | .ok i => if i < 64 then none else some (.capacity (.position i))

omit [Ranked α] in
theorem objection_eq_none_iff {l : Literal α} :
    objection position l = none ↔ ∃ i < 64, position l.term = .ok i := by
  unfold objection
  split
  · next e he => simp [he]
  · next i hi => by_cases h : i < 64 <;> simp [hi, h]

omit [Ranked α] in
theorem objection_eq_some_iff {l : Literal α} {e : Error} : objection position l = some e
    ↔ position l.term = .error e
      ∨ ∃ i ≥ 64, position l.term = .ok i ∧ e = .capacity (.position i) := by
  unfold objection
  split
  · next e' he => simp [he]
  · next i hi =>
    by_cases h : i < 64
    · simp [hi, h, Nat.not_le.2 h]
    · simp [hi, h, Nat.le_of_not_lt h, eq_comm]

omit [Ranked α] in
theorem error?_addLiteral (c : MaskClause) (l : Literal α) :
    error? (addLiteral position c l) = objection position l := by
  unfold addLiteral objection
  cases position l.term with
  | error e => rfl
  | ok i =>
    show error? (if i < 64 then pure (c.add i l.negated) else throw (Error.capacity (.position i)))
      = if i < 64 then none else some (Error.capacity (.position i))
    split <;> rfl

theorem error?_compile (position : α → Except Error Nat) (f : Formula α) :
    error? (compile position f) = f.literals.findSome? (objection position) := by
  unfold compile Formula.literals
  rw [error?_bind_pure, error?_mapM, findSome?_flatMap]
  simp only [error?_foldlM error?_addLiteral]

/-- The literal that an error is about is the first one that does not compile. -/
theorem compile_eq_error_iff {e : Error} : compile position f = .error e
    ↔ ∃ done l rest, f.literals = done ++ l :: rest
      ∧ (∀ k ∈ done, ∃ i < 64, position k.term = .ok i)
      ∧ (position l.term = .error e
        ∨ ∃ i ≥ 64, position l.term = .ok i ∧ e = .capacity (.position i)) := by
  rw [← error?_eq_some_iff, error?_compile, List.findSome?_eq_some_iff]
  refine exists_congr fun done => exists_congr fun l => exists_congr fun rest => ?_
  simp only [objection_eq_some_iff, objection_eq_none_iff]
  exact and_congr_right fun _ => and_comm

theorem exists_compile_iff : (∃ t, compile position f = .ok t)
    ↔ ∀ x ∈ f.terms, ∃ i < 64, position x = .ok i := by
  have hterms : (∀ x ∈ f.terms, ∃ i < 64, position x = .ok i)
      ↔ ∀ l ∈ f.literals, ∃ i < 64, position l.term = .ok i := by
    unfold Formula.terms
    simp only [SortedSet.mem_ofList, List.forall_mem_map]
  rw [hterms]
  constructor
  · rintro ⟨t, ht⟩ l hl
    exact exists_position_of_compile ht hl
  · exact exists_compile

section Injective

variable (hp : ∀ x y i, position x = .ok i → position y = .ok i → x = y)

include hp

omit [Ranked α] in
theorem mem_of_holds {ls ks : List (Literal α)} {c : MaskClause}
    (hl : MaskClause.Holds position ls c) (hk : MaskClause.Holds position ks c)
    (hpos : ∀ l ∈ ls, ∃ i < 64, position l.term = .ok i) {l : Literal α} (hmem : l ∈ ls) :
    l ∈ ks := by
  obtain ⟨i, -, hi⟩ := hpos l hmem
  have hsame : ∃ k ∈ ks, k.negated = l.negated ∧ position k.term = .ok i := by
    cases hn : l.negated
    · exact (hk.positive i).1 ((hl.positive i).2 ⟨l, hmem, hn, hi⟩)
    · exact (hk.negative i).1 ((hl.negative i).2 ⟨l, hmem, hn, hi⟩)
  obtain ⟨k, hk, hn, hki⟩ := hsame
  rwa [Literal.determined l k (hp _ _ i hi hki) hn.symm]

/-- Different formulas compile to different tests if no two terms have one position. -/
theorem compile_inj {g : Formula α} {t : MaskTest} (hf : compile position f = .ok t)
    (hg : compile position g = .ok t) : f = g := by
  have hunique : Relator.LeftUnique fun (c : Clause α) (c' : MaskClause) =>
      MaskClause.Holds position c.toList c'
        ∧ ∀ l ∈ c.toList, ∃ i < 64, position l.term = .ok i := by
    intro c d c' hc hd
    exact SortedSet.ext_mem fun l =>
      ⟨mem_of_holds hp hc.1 hd.1 hc.2, mem_of_holds hp hd.1 hc.1 hd.2⟩
  exact Formula.ext (SortedSet.ext
    (List.left_unique_forall₂' hunique (clauses_of_compile hf) (clauses_of_compile hg)))

end Injective

theorem message_position (i : Nat) : (Error.capacity (.position i)).message
    = "capacity exceeded: term index " ++ i.repr ++ " is beyond the limit of 64" := by
  have hstart : "capacity exceeded: term index "
      = "capacity exceeded: " ++ ("term index" ++ " ") := by decide
  have hlimit : " is beyond the limit of 64" = " is beyond the limit of " ++ maskWidth.repr := by
    decide
  unfold Error.message Excess.message Excess.message.say
  simp only [hstart, hlimit, String.append_assoc]

/-- A formula compiles exactly when masks have a position for each of its terms. Otherwise the first
literal that does not compile tells why, and if it does compile, the test passes the masks of which
the formula is true. -/
theorem compile_spec (position : α → Except Error Nat) (f : Formula α) :
    ((∃ t, compile position f = .ok t) ↔ ∀ x ∈ f.terms, ∃ i < 64, position x = .ok i)
      ∧ (∀ e, compile position f = .error e ↔ ∃ done l rest, f.literals = done ++ l :: rest
        ∧ (∀ k ∈ done, ∃ i < 64, position k.term = .ok i)
        ∧ (position l.term = .error e
          ∨ ∃ i ≥ 64, position l.term = .ok i ∧ e = .capacity (.position i)))
      ∧ (∀ i, (Error.capacity (.position i)).message
        = "capacity exceeded: term index " ++ i.repr ++ " is beyond the limit of 64")
      ∧ ∀ t, compile position f = .ok t → ∀ m, t.accepts m = f.eval (reading position m) :=
  ⟨exists_compile_iff, fun _ => compile_eq_error_iff, message_position,
    fun _ ht m => accepts_compile ht m⟩

end MaskTest

end Cohort
