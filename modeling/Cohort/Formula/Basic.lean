import Cohort.SortedSet

/-!
# Formulas in conjunctive normal form

A formula is a conjunction of clauses, a clause a disjunction of literals, a literal a term tested
plainly or negated. Both levels are sorted sets, so formulas that hold the same clauses are equal
(`Formula.ext_mem`), however they came about, and no formula holds the empty clause. The formula
without clauses asks nothing and is satisfied by everything.

The algebra keeps to clauses: a conjunction pools them, a disjunction unites each clause of one
side with each of the other, and a negation is the disjunction of its negated clauses. The formula
without clauses is left out of a disjunction rather than making it vacuous.

Literals stand in the order of their terms, the plain one first; this is the canonical order in
which terms are visited, mapped and reported.
-/

namespace Cohort

open Ranked

universe u v

/-- A term, tested plainly or negated. -/
structure Literal (α : Type u) where
  term : α
  negated : Bool
  deriving DecidableEq

namespace Literal

variable {α : Type u} {β : Type v}

/-- The test that a term is true. -/
def plain (t : α) : Literal α := ⟨t, false⟩

/-- The test that a term is false. -/
def negative (t : α) : Literal α := ⟨t, true⟩

/-- The opposite test of the same term. -/
protected def not (l : Literal α) : Literal α := ⟨l.term, !l.negated⟩

/-- Whether the test succeeds when the term has the given truth value. -/
def holds (l : Literal α) (value : Bool) : Bool := value != l.negated

/-- The same test of another term. -/
def map (g : α → β) (l : Literal α) : Literal β := ⟨g l.term, l.negated⟩

theorem determined (a b : Literal α) (ht : a.term = b.term) (hn : a.negated = b.negated) :
    a = b := by
  cases a
  cases b
  cases ht
  cases hn
  rfl

/-- Literals stand by term, and of one term the plain literal comes first. -/
instance {α : Type} [Ranked α] : Ranked (Literal α) := byKeys term negated determined

@[simp] theorem holds_not (l : Literal α) (b : Bool) : l.not.holds b = !l.holds b := by
  cases b <;> simp [Literal.not, holds]

@[simp] theorem not_not (l : Literal α) : l.not.not = l := by
  simp [Literal.not]

end Literal

/-- A disjunction of literals. -/
abbrev Clause (α : Type) [Ranked α] := SortedSet (Literal α)

variable {α β : Type} [Ranked α] [Ranked β]

/-- A conjunction of clauses, none of which is empty. -/
structure Formula (α : Type) [Ranked α] where
  /-- The clauses, all of which have to hold. -/
  clauses : SortedSet (Clause α)
  empty_not_mem : SortedSet.empty ∉ clauses

namespace Clause

/-- Whether some literal holds when terms have the given truth values. -/
def eval (c : Clause α) (v : α → Bool) : Bool := c.toList.any fun l => l.holds (v l.term)

theorem eval_eq_true_iff {c : Clause α} {v : α → Bool} :
    c.eval v = true ↔ ∃ l ∈ c, l.holds (v l.term) = true :=
  List.any_eq_true

/-- The same tests of other terms. -/
def map (g : α → β) (c : Clause α) : Clause β := SortedSet.ofList (c.toList.map (·.map g))

end Clause

namespace Formula

theorem ext {f g : Formula α} (h : f.clauses = g.clauses) : f = g := by
  cases f
  cases g
  cases h
  rfl

/-- A formula is determined by its clauses. -/
theorem ext_mem {f g : Formula α} (h : ∀ c, c ∈ f.clauses ↔ c ∈ g.clauses) : f = g :=
  ext (SortedSet.ext_mem h)

instance : DecidableEq (Formula α) := fun f g =>
  decidable_of_iff (f.clauses = g.clauses) ⟨ext, congrArg clauses⟩

/-- The conjunction of the clauses in a list, leaving out empty ones. -/
def ofClauses (cs : List (Clause α)) : Formula α where
  clauses := SortedSet.ofList (cs.filter (!·.isEmpty))
  empty_not_mem := by
    simp [SortedSet.isEmpty_iff.2]

@[simp] theorem mem_ofClauses {c : Clause α} {cs : List (Clause α)} :
    c ∈ (ofClauses cs).clauses ↔ c ∈ cs ∧ c ≠ SortedSet.empty := by
  simp [ofClauses, ← SortedSet.isEmpty_iff]

/-- The formula without clauses, which everything satisfies. -/
def always : Formula α := ⟨SortedSet.empty, SortedSet.not_mem_empty⟩

def isEmpty (f : Formula α) : Bool := f.clauses.isEmpty

def size (f : Formula α) : Nat := f.clauses.size

/-- The literals in canonical order, clause by clause. -/
def literals (f : Formula α) : List (Literal α) := f.clauses.toList.flatMap (·.toList)

/-- The distinct terms. -/
def terms (f : Formula α) : SortedSet α := SortedSet.ofList (f.literals.map (·.term))

/-- Whether every clause holds when terms have the given truth values. -/
def eval (f : Formula α) (v : α → Bool) : Bool := f.clauses.toList.all fun c => c.eval v

theorem eval_eq_true_iff {f : Formula α} {v : α → Bool} :
    f.eval v = true ↔ ∀ c ∈ f.clauses, c.eval v = true :=
  List.all_eq_true

/-- Evaluates by asking for one truth value after the other, and for no more than are needed: a
clause is settled by its first true literal, the formula by its first false clause. -/
def evalM {m : Type → Type v} [Monad m] (f : Formula α) (ask : α → m Bool) : m Bool :=
  f.clauses.toList.allM fun c => c.toList.anyM fun l => do return l.holds (← ask l.term)

/-- One term, plainly. -/
def term (t : α) : Formula α := ofClauses [SortedSet.singleton (.plain t)]

/-- At least one of the terms is true: a single clause. -/
def anyOf (ts : List α) : Formula α := ofClauses [SortedSet.ofList (ts.map .plain)]

/-- At least one of the terms is false: a single clause. -/
def notAllOf (ts : List α) : Formula α := ofClauses [SortedSet.ofList (ts.map .negative)]

/-- Every term is true: one clause for each. -/
def allOf (ts : List α) : Formula α := ofClauses (ts.map fun t => SortedSet.singleton (.plain t))

/-- Every term is false: one clause for each. -/
def noneOf (ts : List α) : Formula α :=
  ofClauses (ts.map fun t => SortedSet.singleton (.negative t))

/-- Both formulas: the clauses of either. -/
protected def and (f g : Formula α) : Formula α where
  clauses := f.clauses.union g.clauses
  empty_not_mem := by
    rw [SortedSet.mem_union]
    exact fun h => h.elim f.empty_not_mem g.empty_not_mem

@[simp] theorem mem_and {c : Clause α} {f g : Formula α} :
    c ∈ (f.and g).clauses ↔ c ∈ f.clauses ∨ c ∈ g.clauses :=
  SortedSet.mem_union

/-- Either formula: each clause of one united with each clause of the other. A side without
clauses is left out. -/
protected def or (f g : Formula α) : Formula α :=
  if f.isEmpty then g
  else if g.isEmpty then f
  else ofClauses (f.clauses.toList.flatMap fun c => g.clauses.toList.map fun d => c.union d)

end Formula

/-- None of the literals: each one negated is a clause of its own. -/
protected def Clause.not (c : Clause α) : Formula α :=
  Formula.ofClauses (c.toList.map fun l => SortedSet.singleton l.not)

namespace Formula

/-- The opposite formula: some clause has only false literals. -/
protected def not (f : Formula α) : Formula α :=
  match f.clauses.toList with
  | [] => always
  | c :: cs => cs.foldl (fun g d => g.or (Clause.not d)) (Clause.not c)

/-- All formulas of a list. -/
def all (fs : List (Formula α)) : Formula α := ofClauses (fs.flatMap (·.clauses.toList))

/-- At least one formula of a list, those without clauses left out. The formulas of one clause are
united into one first, so that a disjunction of many terms takes no distribution. -/
def any (fs : List (Formula α)) : Formula α :=
  let (single, several) := (fs.filter (!·.isEmpty)).partition (·.size == 1)
  several.foldl .or (ofClauses [SortedSet.ofList (single.flatMap literals)])

/-- The same formula of other terms; terms that become equal merge. -/
def map (g : α → β) (f : Formula α) : Formula β := ofClauses (f.clauses.toList.map (Clause.map g))

/-- The same formula of other terms, or the first failure to find a term's replacement, in
canonical order. -/
def tryMap {ε : Type} (g : α → Except ε β) (f : Formula α) : Except ε (Formula β) := do
  let cs ← f.clauses.toList.mapM fun c => do
    let ls ← c.toList.mapM fun l => do return Literal.mk (← g l.term) l.negated
    return SortedSet.ofList ls
  return ofClauses cs

end Formula

end Cohort
