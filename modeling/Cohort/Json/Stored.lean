import Cohort.Config
import Cohort.Index.Basic
import Cohort.Json.Decode
import Cohort.Json.Printer
import Cohort.Key
import Cohort.Log.Filter

/-!
# Stored forms

The JSON forms of descriptions, keys, tests, events and indexes. Records are written as objects of
all their fields in order and read by the rules for records; numbers have to fit the width their
field has. Reading an index also checks that its funnels lie within its size.
-/

namespace Cohort

open Json

/-- A type with a JSON form. -/
class Stored (α : Type) where
  write : α → List Char
  /-- Reads a value, if the JSON has the right form. -/
  read? : Json → Option α

/-- The JSON text of a value. -/
def store {α : Type} [Stored α] (a : α) : String := String.ofList (Stored.write a)

/-- Reads a value from a JSON text. -/
def restore {α : Type} [Stored α] (text : String) : Except Error α :=
  match (Json.read? text.toList).bind Stored.read? with
  | some a => .ok a
  | none => .error (.format .json)

namespace Stored

instance : Stored KeyGroup where
  write
    | .one name => quote name
    | .many names => writeArray (names.map quote)
  read?
    | .string s => (text? (.string s)).map .one
    | v => (list? text? v).map .many

instance : Stored Config where
  write c := writeObject [
    ("keys", writeArray (c.keys.map write)),
    ("mask_field", (c.maskField.map quote).getD ['n', 'u', 'l', 'l'])]
  read? v := do
    match ← fields? ["keys", "mask_field"] v with
    | [keys, mask] =>
      let keys ← keys.elim (some Config.standard.keys) (list? read?)
      let mask ← mask.elim (some none) (optional? text?)
      return ⟨keys, mask⟩
    | _ => none

instance : Stored Key where
  write k := writeObject [
    ("pairs", writeArray (k.pairs.map fun p => writeArray [quote p.1, quote p.2]))]
  read? v := do
    match ← fields? ["pairs"] v with
    | [some pairs] => return ⟨← list? (pair? text? text?) pairs⟩
    | _ => none

instance : Stored Mask where
  write m := writeNat m.toNat
  read? v := (nat? bound64 v).map (BitVec.ofNat 64)

instance : Stored MaskClause where
  write c := writeObject [("positive", write c.positive), ("negative", write c.negative)]
  read? v := do
    match ← fields? ["positive", "negative"] v with
    | [some p, some n] => return ⟨← read? p, ← read? n⟩
    | _ => none

instance : Stored MaskTest where
  write t := writeObject [("clauses", writeArray (t.clauses.map write))]
  read? v := do
    match ← fields? ["clauses"] v with
    | [some cs] => return ⟨← list? read? cs⟩
    | _ => none

instance : Stored Item where
  write i := writeObject [("field", writeNat i.field), ("val", writeNat i.number)]
  read? v := do
    match ← fields? ["field", "val"] v with
    | [some f, some n] => return ⟨← nat? bound32 f, ← nat? bound64 n⟩
    | _ => none

instance : Stored Event where
  write e := writeObject [
    ("timestamp", writeNat e.timestamp.toNat),
    ("values", writeArray (e.values.map writeNat))]
  read? v := do
    match ← fields? ["timestamp", "values"] v with
    | [some t, some vs] => return ⟨UInt64.ofNat (← nat? bound64 t), ← list? (nat? bound64) vs⟩
    | _ => none

instance : Stored Element where
  write e := writeObject [("id", writeNat e.id.toNat), ("mask", write e.mask)]
  read? v := do
    match ← fields? ["id", "mask"] v with
    | [some i, some m] => return ⟨UInt32.ofNat (← nat? bound32 i), ← read? m⟩
    | _ => none

instance : Stored Condition where
  write c := writeObject [("field", quote c.field), ("value", quote c.value)]
  read? v := do
    match ← fields? ["field", "value"] v with
    | [some f, some w] => return ⟨← text? f, ← text? w⟩
    | _ => none

/-- Maps by number are objects whose names are the numbers. -/
instance {α : Type} [Stored α] : Stored (SortedMap UInt32 α) where
  write m := writeObject (m.entries.map fun e => (e.1.toNat.repr, write e.2))
  read? v := do
    return SortedMap.ofList ((← entries? bound32 read? v).map fun e => (UInt32.ofNat e.1, e.2))

end Stored

namespace Index

/-- The JSON form of an index. -/
def write (index : Index) : List Char :=
  writeObject [("num_funnels", writeNat index.size.toNat), ("funnels", Stored.write index.funnels)]

/-- The size and the funnels that the JSON form of an index gives. -/
def parts? (v : Json) : Option (UInt64 × SortedMap FunnelId (SortedMap EntityId Mask)) := do
  match ← fields? ["num_funnels", "funnels"] v with
  | [some n, some fs] => return (UInt64.ofNat (← nat? bound64 n), ← Stored.read? fs)
  | _ => none

/-- Hands the text of an index to a sink, which may refuse it for a reason. -/
def save {α : Type} (index : Index) (sink : String → Except String α) : Except Error α :=
  (sink (String.ofList index.write)).mapError fun reason => .engine (.write reason)

def load (text : String) : Except Error Index :=
  match (Json.read? text.toList).bind parts? with
  | none => .error (.format .json)
  | some (size, funnels) =>
    match h : funnels.keys.find? fun id => size.toNat ≤ id.toNat with
    | some id => .error (.format (.funnelBeyond id.toNat size.toNat))
    | none => .ok {
        size
        funnels
        within := fun id hid => by
          have := List.find?_eq_none.1 h id hid
          simpa using this }

end Index

end Cohort
