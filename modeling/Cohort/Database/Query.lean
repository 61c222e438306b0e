import Cohort.Database.Basic

/-!
# Queries

A query is a formula in the plain signs whose terms are leaves. A leaf is the text of a key, and
after a `/` may come a formula over values of the mask field, in the extended dialect, whose signs
the outer formula leaves alone. Leaves that describe the same entities share one part of the
selection.
-/

namespace Cohort.Database

open Text

variable {ε : Type} [Evaluator ε] (db : Database ε)

/-- The texts of a leaf's key and of its formula. -/
def leafParts (text : String) : Except Error (String × String) :=
  match cut '/' text.toList with
  | none => .ok (text, "")
  | some (key, mask) =>
    if '/' ∈ mask then .error (.format (.leaf text))
    else .ok (String.ofList key, String.ofList mask)

def leaf (text : String) : Except Error Leaf := do
  let (key, mask) ← leafParts text
  let f ← Formula.read .extended mask
  db.select (.text key) f

/-- Reads a query. The parts of the selection stand in the order in which the formula first comes to
them. -/
def query (text : String) : Except Error Selection := do
  let f ← Formula.read .standard text
  let parts := (← f.literals.mapM fun l => db.leaf l.term).eraseDups
  if parts.isEmpty then throw (.format .noLeaves)
  let membership ← f.tryMap fun t => do return parts.idxOf (← db.leaf t)
  let test ← MaskTest.compile .ok membership
  Selection.combine (parts.map .leaf) test

end Cohort.Database
