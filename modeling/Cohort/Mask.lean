import Cohort.Error

/-!
# Masks and tests of masks

A mask is a set of positions below 64, held as the bits of a word. A formula whose terms have
positions compiles to a test of masks: one pair of masks for each clause, with the positions of its
plain and of its negated literals. A mask passes a clause if it has one of the plain positions or
lacks one of the negated ones, and passes the test if it passes every clause.
-/

namespace Cohort

/-- A set of positions below 64. -/
abbrev Mask := BitVec 64

/-- The mask of one position. -/
def Mask.bit (i : Nat) : Mask := 1#64 <<< i

/-- The mask of the positions below a number that is at most 64. -/
def Mask.below (n : Nat) : Mask := Mask.bit n - 1

/-- A clause over positions. -/
structure MaskClause where
  /-- Positions of which one may be present. -/
  positive : Mask
  /-- Positions of which one may be absent. -/
  negative : Mask
  deriving DecidableEq

namespace MaskClause

/-- The clause that no mask passes. -/
def empty : MaskClause := ⟨0, 0⟩

/-- Whether a mask has a position of `positive` or lacks one of `negative`. -/
def accepts (c : MaskClause) (m : Mask) : Bool := m &&& c.positive != 0 || ~~~m &&& c.negative != 0

/-- The clause with one more literal. -/
def add (c : MaskClause) (position : Nat) (negated : Bool) : MaskClause :=
  if negated then { c with negative := c.negative ||| Mask.bit position }
  else { c with positive := c.positive ||| Mask.bit position }

end MaskClause

/-- A test of masks: clauses, all of which have to be passed. -/
structure MaskTest where
  clauses : List MaskClause
  deriving DecidableEq

namespace MaskTest

/-- The test that every mask passes. -/
def always : MaskTest := ⟨[]⟩

def accepts (t : MaskTest) (m : Mask) : Bool := t.clauses.all (·.accepts m)

section Compile

variable {α : Type} [Ranked α]

/-- A clause with one more literal, whose term's position has to be found and to fit. -/
def addLiteral (position : α → Except Error Nat) (c : MaskClause) (l : Literal α) :
    Except Error MaskClause := do
  let i ← position l.term
  if i < maskWidth then return c.add i l.negated else throw (.capacity (.position i))

/-- The test of a formula whose terms stand for positions. The first literal, in canonical order,
whose term has no position or none that masks have is an error. -/
def compile (position : α → Except Error Nat) (f : Formula α) : Except Error MaskTest := do
  return ⟨← f.clauses.toList.mapM fun c => c.toList.foldlM (addLiteral position) .empty⟩

/-- The test of a formula whose terms get the positions from 0 on in canonical order, and the terms
in the order of their positions. -/
def compileDense (f : Formula α) : Except Error (MaskTest × List α) := do
  let terms := f.terms.toList
  if terms.length > maskWidth then throw (.capacity (.terms (terms.length - 1)))
  let test ← compile (fun t => .ok (terms.findIdx fun u => Ranked.rank t u == .eq)) f
  return (test, terms)

end Compile

end MaskTest

end Cohort
