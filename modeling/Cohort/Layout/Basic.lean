import Cohort.Config
import Cohort.Key
import Cohort.SortedSet

/-!
# Layouts

A layout numbers the funnels of an index. A key group has one funnel for each way to give every
one of its fields a value or leave it unset: the value numbers are the digits of a number whose
first digit weighs least, each digit's radix being one more than the field had words. The groups'
ranges of numbers follow one another.

A layout is fixed when it is made; the log it is used with may have grown since.
-/

namespace Cohort

/-- A field of a key group, as a digit of its funnels' numbers. -/
structure Digit where
  field : Nat
  /-- How many values the digit can have. -/
  radix : Nat
  /-- What one unit of the digit adds to the number. -/
  weight : Nat
  deriving DecidableEq

/-- The numbers of a key group's funnels. -/
structure GroupLayout where
  /-- The digits, in the order of the group's fields. -/
  digits : List Digit
  /-- The first number. -/
  base : Nat
  /-- How many numbers there are. -/
  count : Nat
  deriving DecidableEq

/-- The numbers of all funnels of an index. -/
structure Layout where
  groups : List GroupLayout
  size : Nat
  /-- The number of the mask field, if there is one. -/
  maskField : Option Nat
  deriving DecidableEq

namespace GroupLayout

def fields (g : GroupLayout) : List Nat := g.digits.map (·.field)

def hasField (g : GroupLayout) (field : Nat) : Bool := g.fields.contains field

/-- Whether a funnel's number is in the group's range. -/
def contains (g : GroupLayout) (id : Nat) : Bool := g.base ≤ id && id < g.base + g.count

/-- The value numbers of the funnel at an offset in the group's range. -/
def values (g : GroupLayout) (offset : Nat) : List Nat :=
  g.digits.map fun d => offset / d.weight % d.radix

/-- What one unit of a field's digit adds to a funnel's number. -/
def weight (g : GroupLayout) (field : Nat) : Nat :=
  ((g.digits.find? (·.field = field)).map (·.weight)).getD 0

end GroupLayout

namespace Layout

/-- The largest number that sizes of layouts are reckoned with. -/
def largest : Nat := 18446744073709551615

/-- A number, unless it is too large to reckon with. -/
def reckon (n : Nat) : Except Error Nat :=
  if n ≤ largest then .ok n else .error (.capacity (.funnels largest))

/-- A group's digits and number of funnels with one more field. -/
def addField (log : Log) (group : List Digit × Nat) (name : String) :
    Except Error (List Digit × Nat) := do
  let field ← log.fieldNumber name
  if group.1.any (·.field = field) then throw (.format (.fieldTwiceInGroup name))
  let radix := (← log.field field).words.length + 1
  return (group.1 ++ [⟨field, radix, group.2⟩], ← reckon (group.2 * radix))

/-- The groups so far and the number of their funnels, with one more group. -/
def addGroup (log : Log) (layout : List GroupLayout × Nat) (group : KeyGroup) :
    Except Error (List GroupLayout × Nat) := do
  let (digits, count) ← group.names.foldlM (addField log) ([], 1)
  return (layout.1 ++ [⟨digits, layout.2, count⟩], ← reckon (layout.2 + count))

/-- The layout of an index over a log. -/
def build (log : Log) (config : Config) : Except Error Layout := do
  let maskField ← config.check log
  let (groups, size) ← config.keys.foldlM (addGroup log) ([], 0)
  if size > funnelLimit then throw (.capacity (.funnels size))
  return ⟨groups, size, maskField⟩

/-- A key's fields by number, with their values; no field may be given twice. -/
def resolveFields (log : Log) (key : Key) : Except Error (List (Nat × String)) :=
  key.pairs.foldlM (fun known p => do
    let field ← log.fieldNumber p.1
    if known.any (·.1 = field) then throw (.format (.fieldTwiceInKey p.1))
    return known ++ [(field, p.2)]) []

/-- The first of some fields that no group has. -/
def fieldOutside? (layout : Layout) (fields : List Nat) : Option Nat :=
  (SortedSet.ofList fields).toList.find? fun f => !layout.groups.any (·.hasField f)

/-- The group that addresses some fields: the first that has exactly these, or else the first that
has all of them. -/
def owner (layout : Layout) (log : Log) (fields : List Nat) : Except Error GroupLayout :=
  let covering := layout.groups.filter fun g => fields.all g.hasField
  match covering.find? (fun g => g.fields.all fields.contains), covering with
  | some g, _ => .ok g
  | none, g :: _ => .ok g
  | none, [] =>
    match layout.fieldOutside? fields with
    | some f => do throw (.notFound (.keyField (← log.field f).name))
    | none => .error (.format .mixedGroups)

/-- The funnel of a key: fields that the key leaves out are unset. A value number beyond the radix
of its digit, which only a log that has grown can give, is not noticed; numbers are taken modulo
the number of funnel ids. -/
def resolve (layout : Layout) (log : Log) (key : Key) : Except Error FunnelId := do
  let fields ← resolveFields log key
  let group ← layout.owner log (fields.map (·.1))
  let number ← fields.foldlM (fun number f => do
    return number + (← log.number f.1 f.2) * group.weight f.1) group.base
  return UInt32.ofNat number

/-- Checks that a funnel is one of so many. -/
def checkFunnel (size : Nat) (id : FunnelId) : Except Error Unit :=
  if id.toNat < size then .ok () else .error (.notFound (.funnel id.toNat))

def funnel (layout : Layout) (log : Log) : Address → Except Error FunnelId
  | .id id => do
    checkFunnel layout.size id
    return id
  | .key key => layout.resolve log key
  | .text text => do layout.resolve log (← Key.parse text)

/-- What an event's values add up to in a group; each has to be below its digit's radix. -/
def eventNumber (group : GroupLayout) (e : Event) : Except Error Nat :=
  group.digits.foldlM (fun number d =>
    let value := e.value d.field
    if value < d.radix then .ok (number + value * d.weight)
    else .error (.format (.valueOutOfRange value d.field))) group.base

/-- The funnel of a key group that an event lands in. -/
def eventFunnel (layout : Layout) (group : Nat) (e : Event) : Except Error FunnelId :=
  match layout.groups[group]? with
  | none => .error (.notFound (.keyGroup group))
  | some g => UInt32.ofNat <$> eventNumber g e

/-- The key of a funnel: the fields that are set, with their values. -/
def keyOf (layout : Layout) (log : Log) (id : FunnelId) : Except Error Key := do
  match layout.groups.find? (·.contains id.toNat) with
  | none => throw (.notFound (.funnel id.toNat))
  | some g =>
    let set := (g.fields.zip (g.values (id.toNat - g.base))).filter (·.2 ≠ 0)
    return ⟨← set.mapM fun p => do return ((← log.field p.1).name, ← log.word p.1 p.2)⟩

end Layout

end Cohort
