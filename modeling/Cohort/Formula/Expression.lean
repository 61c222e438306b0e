import Cohort.Formula.Basic

/-!
# Expressions

The form of a formula's text: terms under negation, conjunction, disjunction and parentheses.
Conjunction also has the form `a ~ b`, which stands for `a & ~b`. An expression has an ordinary
truth value (`eval`), and `formula` is its conjunctive normal form.
-/

namespace Cohort

/-- An expression over terms. -/
inductive Expression where
  | term (name : String)
  /-- Negation, `~e`. -/
  | not (e : Expression)
  /-- Conjunction, `l & r`. -/
  | and (l r : Expression)
  /-- Exclusion, `l ~ r`: `l` and not `r`. -/
  | andNot (l r : Expression)
  /-- Disjunction, `l | r`. -/
  | or (l r : Expression)
  /-- Parentheses, `(e)`. -/
  | group (e : Expression)
  deriving DecidableEq

namespace Expression

/-- The truth value when terms have the given ones. -/
def eval (v : String → Bool) : Expression → Bool
  | term t => v t
  | not e => !e.eval v
  | and l r => l.eval v && r.eval v
  | andNot l r => l.eval v && !r.eval v
  | or l r => l.eval v || r.eval v
  | group e => e.eval v

/-- The conjunctive normal form. -/
def formula : Expression → Formula String
  | term t => Formula.term t
  | not e => e.formula.not
  | and l r => l.formula.and r.formula
  | andNot l r => l.formula.and r.formula.not
  | or l r => l.formula.or r.formula
  | group e => e.formula

end Expression

end Cohort
