import Cohort.Log.Basic

/-!
# What an index is made of

An index is described by its key groups, each a list of fields whose values together address a
funnel, and by the mask field, whose values become the positions of masks. Value number `v` has
position `v`, so a mask field has between 1 and 63 values.
-/

namespace Cohort

/-- The fields of a key group: a single one, or a list. The two ways of writing one field are kept
apart. -/
inductive KeyGroup where
  | one (name : String)
  | many (names : List String)
  deriving DecidableEq

def KeyGroup.names : KeyGroup → List String
  | one name => [name]
  | many names => names

/-- The description of an index. -/
structure Config where
  keys : List KeyGroup
  maskField : Option String
  deriving DecidableEq

namespace Config

/-- No key groups, and no mask field. -/
def blank : Config := ⟨[], none⟩

/-- The group without fields, whose one funnel takes in everything, and no mask field. -/
def standard : Config := ⟨[.many []], none⟩

def addGroup (c : Config) (g : KeyGroup) : Config := { c with keys := c.keys ++ [g] }

def withMask (c : Config) (name : String) : Config := { c with maskField := some name }

/-- Checks a mask field, and gives its number. -/
def checkMask (log : Log) (name : String) : Except Error Nat := do
  let n ← log.fieldNumber name
  let count := (← log.field n).words.length
  if count < 1 then throw (.format (.emptyMaskField name))
  if count ≥ maskWidth then throw (.capacity (.maskValues name count))
  return n

/-- Checks a description against a log, and gives the number of the mask field. -/
def check (log : Log) (c : Config) : Except Error (Option Nat) := do
  if c.keys.isEmpty then throw (.format .noKeyGroup)
  for g in c.keys do
    for name in g.names do
      discard (log.fieldNumber name)
  match c.maskField with
  | none => return none
  | some name => return some (← checkMask log name)

end Config

end Cohort
