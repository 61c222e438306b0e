import Cohort.Log.Basic
import Cohort.Formula.Printer
import Cohort.Text.Cut

/-!
# Filters of events

A filter is a formula over conditions `field=value`. Against a log its conditions become items, and
an event passes if for every clause it has one of the plain items or lacks one of the negated ones.
A value that the field never had is an error rather than a condition that always fails.
-/

namespace Cohort

open Text

/-- That a field has a value. -/
structure Condition where
  field : String
  value : String
  deriving DecidableEq

namespace Condition

theorem determined (a b : Condition) (hf : a.field = b.field) (hv : a.value = b.value) :
    a = b := by
  cases a
  cases b
  cases hf
  cases hv
  rfl

/-- Conditions stand by field, and those of one field by value. -/
instance : Ranked Condition := Ranked.byKeys field value determined

/-- Reads `field=value`: the first `=` parts the two, and blanks around either are left out. -/
def parse (text : String) : Except Error Condition :=
  match cut '=' text.toList with
  | some (f, v) => .ok ⟨String.ofList (trim f), String.ofList (trim v)⟩
  | none => .error (.format (.condition text))

def render (c : Condition) : List Char := c.field.toList ++ '=' :: c.value.toList

/-- The item of a log that a condition asks for. -/
def resolve (log : Log) (c : Condition) : Except Error Item := do
  log.item (← log.fieldNumber c.field) c.value

end Condition

/-- A test of events: clauses of items, each with whether it is negated. -/
structure Filter where
  /-- The clauses, all of which have to be passed. -/
  clauses : List (List (Item × Bool))
  deriving DecidableEq

namespace Filter

/-- The filter of a formula over conditions. -/
def compile (log : Log) (f : Formula Condition) : Except Error Filter := do
  return ⟨← f.clauses.toList.mapM fun c => c.toList.mapM fun l => do
    return (← l.term.resolve log, l.negated)⟩

/-- Reads a filter. All terms are read as conditions before any of them is looked up. -/
def parse (log : Log) (text : String) : Except Error Filter := do
  let f ← Formula.read .standard text
  compile log (← f.tryMap Condition.parse)

def accepts (f : Filter) (e : Event) : Bool :=
  f.clauses.all fun c => c.any fun i => e.has i.1 != i.2

end Filter

end Cohort
