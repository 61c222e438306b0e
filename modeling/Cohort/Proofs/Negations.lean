import Cohort.Proofs.CanonicalForm

/-!
# The clauses of a negation

The negation of a formula is the disjunction of its negated clauses, so each of its clauses unites
one negated literal of every clause: it is made of the opposites of what some function chooses from
the clauses (`Formula.unites_not`). Every such function counts, also where two of them come to the
same clause and where a clause has a literal together with its opposite (`Formula.not_clauses`).
-/

namespace Cohort.Formula

variable {α : Type} [Ranked α] {c d : Clause α} {cs : List (Clause α)} {f : Formula α}
  {g g' : Clause α → Literal α}

/-- The opposites of the literals that a function chooses from some clauses. -/
def opposites (cs : List (Clause α)) (g : Clause α → Literal α) : Clause α :=
  SortedSet.ofList (cs.map fun c => (g c).not)

theorem mem_opposites {l : Literal α} : l ∈ opposites cs g ↔ ∃ c ∈ cs, (g c).not = l := by
  unfold opposites
  rw [SortedSet.mem_ofList, List.mem_map]

theorem opposites_cons :
    opposites (c :: cs) g = (SortedSet.singleton (g c).not).union (opposites cs g) := by
  refine SortedSet.ext_mem fun l => ?_
  rw [SortedSet.mem_union, SortedSet.mem_singleton, mem_opposites, mem_opposites,
    List.exists_mem_cons_iff]
  exact or_congr_left eq_comm

theorem opposites_congr (h : ∀ c ∈ cs, g c = g' c) : opposites cs g = opposites cs g' := by
  unfold opposites
  rw [List.map_congr_left fun c hc => congrArg Literal.not (h c hc)]

/-- Uniting one clause of each negation comes to choosing a literal from each clause. -/
theorem unites_not [Nonempty (Literal α)] : ∀ {cs : List (Clause α)} {d : Clause α}, cs.Nodup →
    (Unites (cs.map Clause.not) d ↔ ∃ g, (∀ c ∈ cs, g c ∈ c) ∧ opposites cs g = d)
  | [], d, _ => by
    simp only [List.map_nil, unites_nil, opposites, SortedSet.ofList_nil, List.not_mem_nil,
      false_imp_iff, implies_true, true_and, exists_const, eq_comm]
  | c :: cs, d, h => by
    obtain ⟨hc, hcs⟩ := List.nodup_cons.1 h
    simp only [List.map_cons, unites_cons, Clause.mem_not, unites_not hcs]
    constructor
    · rintro ⟨_, ⟨l, hl, rfl⟩, _, ⟨g, hg, rfl⟩, rfl⟩
      -- the clause is none of the others, so what it gets leaves their choices as they are
      have hsame : ∀ b ∈ cs, Function.update g c l b = g b := fun b hb =>
        Function.update_of_ne (ne_of_mem_of_not_mem hb hc) l g
      refine ⟨Function.update g c l, List.forall_mem_cons.2 ⟨?_, fun b hb => ?_⟩, ?_⟩
      · rwa [Function.update_self]
      · rw [hsame b hb]
        exact hg b hb
      · rw [opposites_cons, Function.update_self, opposites_congr hsame]
    · rintro ⟨g, hg, rfl⟩
      obtain ⟨hgc, hg⟩ := List.forall_mem_cons.1 hg
      exact ⟨_, ⟨g c, hgc, rfl⟩, _, ⟨g, hg, rfl⟩, opposites_cons.symm⟩

theorem mem_not (hf : f ≠ always) : d ∈ f.not.clauses
    ↔ ∃ g, (∀ c ∈ f.clauses, g c ∈ c) ∧ opposites f.clauses.toList g = d := by
  obtain ⟨c, hc⟩ := exists_mem_of_ne hf
  obtain ⟨l, -⟩ := Clause.exists_mem_of_ne (ne_empty_of_mem hc)
  have : Nonempty (Literal α) := ⟨l⟩
  have hnd : f.clauses.toList.Nodup := f.clauses.ascending.imp Ranked.ne_of_rank
  have hne : f.clauses.toList.map Clause.not ≠ [] :=
    List.ne_nil_of_mem (List.mem_map_of_mem hc)
  rw [not_eq_any, mem_any_of_ne hne, unites_not hnd]
  · rfl
  · rw [List.forall_mem_map]
    exact fun b hb => clauseNot_ne_always (ne_empty_of_mem hb)

theorem setOf_opposites (f : Formula α) (g : Clause α → Literal α) :
    {l | l ∈ opposites f.clauses.toList g} = {l | ∃ c ∈ f.clauses, (g c).not = l} :=
  Set.ext fun _ => mem_opposites

/-- The clauses of a negation are the opposites of what the functions choose that choose one literal
from each clause, no more and no fewer, and no term gets lost. -/
theorem not_clauses (f : Formula α) (hf : f ≠ always) :
    literalSets f.not.lists = {S | ∃ g : Clause α → Literal α, (∀ c ∈ f.clauses, g c ∈ c)
        ∧ {l | ∃ c ∈ f.clauses, (g c).not = l} = S}
      ∧ f.not.terms = f.terms := by
  refine ⟨Set.ext fun S => ?_, SortedSet.ext_mem fun _ => mem_terms_not⟩
  constructor
  · rintro ⟨_, hl, rfl⟩
    obtain ⟨d, hd, rfl⟩ := mem_lists.1 hl
    obtain ⟨g, hg, rfl⟩ := (mem_not hf).1 hd
    exact ⟨g, hg, (setOf_opposites f g).symm⟩
  · rintro ⟨g, hg, rfl⟩
    rw [← setOf_opposites]
    exact mem_literalSets_lists.2 ((mem_not hf).2 ⟨g, hg, rfl⟩)

/-- The literal that both clauses share can be chosen from both, which gives a clause of one
literal. -/
theorem not_clauses_shared : ∃ f : Formula Nat, f ≠ always
    ∧ f.lists = [[.plain 1, .plain 2], [.plain 1, .negative 2]]
    ∧ {.negative 1} ∈ literalSets f.not.lists ∧ f.not.terms = f.terms := by
  have hlists : (ofLists [[.plain 1, .plain 2], [.plain 1, .negative 2]] : Formula Nat).lists
      = [[.plain 1, .plain 2], [.plain 1, .negative 2]] :=
    lists_ofLists ⟨by decide, by decide, by decide⟩
  generalize ofLists [[.plain 1, .plain 2], [.plain 1, .negative 2]] = f at hlists
  have hshared : ∀ c ∈ f.clauses, Literal.plain 1 ∈ c := by
    intro c hc
    have hmem : c.toList ∈ f.lists := mem_lists.2 ⟨c, hc, rfl⟩
    rw [hlists] at hmem
    rw [SortedSet.mem_def]
    rcases List.mem_pair.1 hmem with h | h <;> rw [h] <;> exact List.mem_cons_self
  obtain ⟨c, hc, -⟩ := mem_lists.1 (hlists ▸ List.mem_cons_self : [.plain 1, .plain 2] ∈ f.lists)
  obtain ⟨hclauses, hterms⟩ := not_clauses f (ne_always_of_mem hc)
  refine ⟨f, ne_always_of_mem hc, hlists, ?_, hterms⟩
  rw [hclauses]
  refine ⟨fun _ => .plain 1, hshared, Set.ext fun l => ⟨?_, fun h => ⟨c, hc, h.symm⟩⟩⟩
  rintro ⟨d, -, h⟩
  exact h.symm

end Cohort.Formula
