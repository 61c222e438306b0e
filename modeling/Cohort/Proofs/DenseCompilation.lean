import Cohort.Proofs.Algebra
import Cohort.Proofs.Compilation
import Mathlib.Data.Set.Card

/-!
# Compiling with positions in canonical order

A formula of at most 64 terms compiles with the places of its terms in their order as positions.
Nothing is lost: reading each pair of masks back through the list of the terms gives the clause it
comes from (`MaskClause.clause_of_holds`), so the pairs differ as the clauses do and together give
back the formula, and the test of the mask of some terms' truth values is the formula's truth value
(`MaskTest.compileDense_spec`).
-/

namespace Cohort

open Ranked

variable {α : Type} [Ranked α] {terms : List α}

theorem Ascending.nodup {l : List α} (h : Ascending l) : l.Nodup := h.imp ne_of_rank

/-- A search of an ascending list for one of its values ends at the only place that has it. -/
theorem Ascending.findIdx_eq_iff {l : List α} (h : Ascending l) {a : α} (ha : a ∈ l) {i : Nat} :
    l.findIdx (rank a · == .eq) = i ↔ l[i]? = some a := by
  have hfound : ∀ {j : Nat}, l[j]? = some a → l.findIdx (rank a · == .eq) = j := by
    intro j hj
    obtain ⟨hlt, rfl⟩ := List.getElem?_eq_some_iff.1 hj
    refine (List.findIdx_eq hlt).2 ⟨by simp, fun k hk => ?_⟩
    simpa [level_iff] using (ne_of_rank (List.pairwise_iff_getElem.1 h k j _ hlt hk)).symm
  refine ⟨?_, hfound⟩
  rintro rfl
  obtain ⟨j, hj⟩ := List.mem_iff_getElem?.1 ha
  rwa [hfound hj]

/-- The mask of the positions at which a list has true. -/
def Mask.ofValues (values : List Bool) : Mask := (BitVec.ofBoolListLE values).setWidth 64

theorem Mask.getLsbD_ofValues {values : List Bool} {i : Nat} {b : Bool} (hi : i < 64)
    (h : values[i]? = some b) : (ofValues values).getLsbD i = b := by
  unfold ofValues
  rw [BitVec.getLsbD_setWidth, BitVec.getLsbD_ofBoolListLE, decide_eq_true hi, Bool.true_and,
    List.getD_eq_getElem?_getD, h, Option.getD_some]

/-- The terms at the positions that a mask has. -/
def Mask.pick (terms : List α) (m : Mask) : List α :=
  (terms.zipIdx.filter fun p => m.getLsbD p.2).map (·.1)

omit [Ranked α] in
theorem Mask.mem_pick {m : Mask} {t : α} :
    t ∈ pick terms m ↔ ∃ i, terms[i]? = some t ∧ m.getLsbD i = true := by
  simp [pick, List.mem_zipIdx_iff_getElem?]

namespace MaskClause

/-- The clause over the terms at the positions, plain and negated. -/
def clause (terms : List α) (d : MaskClause) : Clause α :=
  .ofList ((Mask.pick terms d.positive).map .plain ++ (Mask.pick terms d.negative).map .negative)

theorem mem_clause {d : MaskClause} {l : Literal α} : l ∈ d.clause terms
    ↔ ∃ i, terms[i]? = some l.term
      ∧ (if l.negated then d.negative else d.positive).getLsbD i = true := by
  obtain ⟨t, n⟩ := l
  cases n <;> simp [clause, Literal.plain, Literal.negative, Mask.mem_pick]

theorem clause_empty : empty.clause terms = SortedSet.empty :=
  SortedSet.ext_mem fun l => by simp [mem_clause, empty]

/-- Masks of the positions of a clause's literals are read back as the clause if the position of
each term is its place in the list. -/
theorem clause_of_holds {position : α → Except Error Nat} {c : Clause α} {d : MaskClause}
    (h : Holds position c.toList d) (hpos : ∀ l ∈ c, ∃ i, position l.term = .ok i)
    (hp : ∀ l ∈ c, ∀ i, position l.term = .ok i ↔ terms[i]? = some l.term) :
    d.clause terms = c := by
  -- the mask that a literal is in depends on its sign alone
  have hbit : ∀ n i, (if n = true then d.negative else d.positive).getLsbD i = true
      ↔ ∃ l ∈ c, l.negated = n ∧ position l.term = .ok i := by
    intro n i
    cases n
    · exact h.positive i
    · exact h.negative i
  refine SortedSet.ext_mem fun l => ?_
  simp only [mem_clause, hbit]
  constructor
  · rintro ⟨i, hi, k, hk, hn, hki⟩
    rw [hp k hk, hi, Option.some.injEq] at hki
    rwa [Literal.determined l k hki hn.symm]
  · intro hl
    obtain ⟨i, hi⟩ := hpos l hl
    exact ⟨i, (hp l hl i).1 hi, l, hl, rfl, hi⟩

end MaskClause

namespace Formula

/-- Some literal of the formula tests the term. -/
def Mentions (f : Formula α) (x : α) : Prop := ∃ c ∈ f.clauses, ∃ l ∈ c, l.term = x

theorem mem_terms_iff_mentions {f : Formula α} {x : α} : x ∈ f.terms ↔ f.Mentions x := by
  simp only [mem_terms, mem_literals, Mentions]
  constructor
  · rintro ⟨l, ⟨c, hc, hl⟩, hx⟩
    exact ⟨c, hc, l, hl, hx⟩
  · rintro ⟨c, hc, l, hl, hx⟩
    exact ⟨l, ⟨c, hc, hl⟩, hx⟩

theorem ncard_mentions (f : Formula α) : {x | f.Mentions x}.ncard = f.terms.toList.length := by
  classical
  have hset : {x | f.Mentions x} = (f.terms.toList.toFinset : Set α) := by
    ext x
    rw [List.coe_toFinset]
    exact mem_terms_iff_mentions.symm
  rw [hset, Set.ncard_coe_finset, List.toFinset_card_of_nodup f.terms.ascending.nodup]

end Formula

namespace MaskTest

variable {f : Formula α} {test : MaskTest}

/-- The formula of the clauses over the terms at the positions. -/
def formula (terms : List α) (test : MaskTest) : Formula α :=
  .ofClauses (test.clauses.map (·.clause terms))

/-- A test of a formula loses nothing of it: the masks of its pairs are sets of places in the list
of the formula's terms, each pair is read back as the clause at its place, and the test of the mask
of the terms that are true is the formula's truth value. -/
structure Lossless (f : Formula α) (test : MaskTest) (terms : List α) : Prop where
  ascending : Ascending terms
  mem_iff : ∀ x, x ∈ terms ↔ f.Mentions x
  within : ∀ d ∈ test.clauses, ∀ i, (d.positive ||| d.negative).getLsbD i = true → i < terms.length
  clauses : test.clauses.map (·.clause terms) = f.clauses.toList
  nodup : test.clauses.Nodup
  nonzero : MaskClause.empty ∉ test.clauses
  formula : test.formula terms = f
  accepts : ∀ v : α → Bool, test.accepts (.ofValues (terms.map v)) = f.eval v

section Places

variable {position : α → Except Error Nat}
  (hp : ∀ x ∈ f.terms, ∀ i, position x = .ok i ↔ f.terms.toList[i]? = some x)

include hp

theorem map_clause_of_compile (h : compile position f = .ok test) :
    test.clauses.map (·.clause f.terms.toList) = f.clauses.toList := by
  have hterm : ∀ c ∈ f.clauses, ∀ l ∈ c, l.term ∈ f.terms := fun c hc l hl =>
    Formula.mem_terms_iff_mentions.2 ⟨c, hc, l, hl, rfl⟩
  have hpairs := (List.forall₂_and_left _ _).2 ⟨fun c hc => hc, clauses_of_compile h⟩
  have hread : List.Forall₂ Eq f.clauses.toList (test.clauses.map (·.clause f.terms.toList)) := by
    refine List.forall₂_map_right_iff.2 (hpairs.imp ?_)
    rintro c d ⟨hc, hd, hpos⟩
    refine (MaskClause.clause_of_holds hd (fun l hl => ?_) fun l hl => hp _ (hterm c hc l hl)).symm
    exact (hpos l hl).imp fun i hi => hi.2
  rw [List.forall₂_eq_eq_eq] at hread
  exact hread.symm

theorem getElem?_of_position {l : Literal α} (hl : l ∈ f.literals) {i : Nat}
    (hi : position l.term = .ok i) : f.terms.toList[i]? = some l.term :=
  (hp _ (Formula.mem_terms.2 ⟨l, hl, rfl⟩) i).1 hi

/-- Positions that are the places of the terms in their order make a test without loss. -/
theorem lossless_of_compile (h : compile position f = .ok test) :
    Lossless f test f.terms.toList where
  ascending := f.terms.ascending
  mem_iff _ := Formula.mem_terms_iff_mentions
  within := by
    intro d hd i hi
    obtain ⟨l, hl, hpos⟩ := position_of_compile h hd hi
    exact (List.getElem?_eq_some_iff.1 (getElem?_of_position hp hl hpos)).1
  clauses := map_clause_of_compile hp h
  nodup := List.Nodup.of_map _ (map_clause_of_compile hp h ▸ f.clauses.ascending.nodup)
  nonzero := by
    intro hempty
    refine f.empty_not_mem ?_
    rw [SortedSet.mem_def, ← map_clause_of_compile hp h, ← MaskClause.clause_empty]
    exact List.mem_map_of_mem hempty
  formula := by
    unfold formula
    rw [map_clause_of_compile hp h, Formula.ofClauses_toList]
  accepts := by
    intro v
    rw [accepts_compile h]
    refine Formula.eval_congr fun l hl => ?_
    obtain ⟨i, hi, hpos⟩ := exists_position_of_compile h hl
    have hvalue : (f.terms.toList.map v)[i]? = some (v l.term) := by
      rw [List.getElem?_map, getElem?_of_position hp hl hpos, Option.map_some]
    rw [reading_of_ok hpos, Mask.getLsbD_ofValues hi hvalue]

end Places

/-- The position of a term: the place at which a search of the list finds it. -/
def place (terms : List α) (t : α) : Except Error Nat :=
  .ok (terms.findIdx fun u => rank t u == .eq)

theorem place_eq_ok_iff {x : α} {i : Nat} (hx : x ∈ f.terms) :
    place f.terms.toList x = .ok i ↔ f.terms.toList[i]? = some x := by
  unfold place
  rw [Except.ok.injEq, f.terms.ascending.findIdx_eq_iff hx]

theorem compileDense_eq (f : Formula α) : compileDense f
    = if 64 < f.terms.toList.length then .error (.capacity (.terms (f.terms.toList.length - 1)))
      else (·, f.terms.toList) <$> compile (place f.terms.toList) f := by
  unfold compileDense
  by_cases h : 64 < f.terms.toList.length
  · rw [if_pos h]
    exact if_pos h
  · rw [if_neg h, ← bind_pure_comp]
    exact if_neg h

/-- A formula of at most 64 terms compiles, and its test loses nothing. -/
theorem exists_lossless (h : f.terms.toList.length ≤ 64) :
    ∃ test, compile (place f.terms.toList) f = .ok test ∧ Lossless f test f.terms.toList := by
  have hfits : ∀ x ∈ f.terms, ∃ i < 64, place f.terms.toList x = .ok i := by
    intro x hx
    obtain ⟨i, hi⟩ := List.mem_iff_getElem?.1 hx
    exact ⟨i, (List.getElem?_eq_some_iff.1 hi).1.trans_le h, (place_eq_ok_iff hx).2 hi⟩
  obtain ⟨test, htest⟩ := exists_compile_iff.2 hfits
  exact ⟨test, htest, lossless_of_compile (fun _ hx _ => place_eq_ok_iff hx) htest⟩

/-- A formula compiles with positions in the order of its terms exactly when it has at most 64 of
them, and otherwise fails for their number. The test loses nothing of the formula. -/
theorem compileDense_spec (f : Formula α) :
    ((∃ test terms, compileDense f = .ok (test, terms)) ↔ {x | f.Mentions x}.ncard ≤ 64)
      ∧ (∀ e, compileDense f = .error e ↔ 64 < {x | f.Mentions x}.ncard
        ∧ e = .capacity (.terms ({x | f.Mentions x}.ncard - 1)))
      ∧ ∀ test terms, compileDense f = .ok (test, terms) → Lossless f test terms := by
  rw [f.ncard_mentions, compileDense_eq]
  rcases Nat.lt_or_ge 64 f.terms.toList.length with hgt | hle
  · rw [if_pos hgt]
    refine ⟨iff_of_false nofun hgt.not_ge, fun e => ?_, nofun⟩
    rw [Except.error.injEq, and_iff_right hgt, eq_comm]
  · obtain ⟨test, htest, hlossless⟩ := exists_lossless hle
    rw [if_neg hle.not_gt, htest]
    refine ⟨iff_of_true ⟨_, _, rfl⟩ hle, fun e => iff_of_false nofun fun h => hle.not_gt h.1, ?_⟩
    rintro _ _ ⟨⟩
    exact hlossless

end MaskTest

end Cohort
