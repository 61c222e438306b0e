import Cohort.Layout.Basic
import Cohort.Selection
import Cohort.SortedMap

/-!
# Indexes

An index holds, for each of its funnels, the entities in it with a mask each. Built from a log, an
event puts its entity into one funnel of every key group and adds its mask field's value, if set, to
the entity's masks there.
-/

namespace Cohort

/-- An entity of a funnel or selection, with its mask. -/
structure Element where
  id : EntityId
  mask : Mask
  deriving DecidableEq

/-- The entities of funnels, with their masks. -/
structure Index where
  /-- How many funnels there are. -/
  size : UInt64
  /-- The funnels with their entities and masks. -/
  funnels : SortedMap FunnelId (SortedMap EntityId Mask)
  within : ∀ id ∈ funnels.keys, id.toNat < size.toNat

namespace Index

theorem ext {i j : Index} (hs : i.size = j.size) (hf : i.funnels = j.funnels) : i = j := by
  cases i
  cases j
  cases hs
  cases hf
  rfl

instance : DecidableEq Index := fun i j =>
  decidable_of_iff (i.size = j.size ∧ i.funnels = j.funnels)
    ⟨fun h => ext h.1 h.2, fun h => h ▸ ⟨rfl, rfl⟩⟩

/-- The index of so many funnels without entities. -/
def empty (size : UInt64) : Index := ⟨size, .empty, nofun⟩

/-- A funnel's entities with one more, or with more positions in its mask. -/
def addBits (entity : EntityId) (bits : Mask) (members : Option (SortedMap EntityId Mask)) :
    SortedMap EntityId Mask :=
  (members.getD .empty).change entity fun mask => mask.getD 0 ||| bits

/-- The index with positions added to an entity's mask in a funnel. -/
def insert (index : Index) (funnel : FunnelId) (entity : EntityId) (bits : Mask) :
    Except Error Index :=
  if h : funnel.toNat < index.size.toNat then
    .ok {
      size := index.size
      funnels := index.funnels.change funnel (addBits entity bits)
      within := fun id hid => by
        rcases SortedMap.mem_keys_change.1 hid with rfl | hid
        · exact h
        · exact index.within id hid }
  else .error (.notFound (.funnel funnel.toNat))

/-- The positions that an event adds to its entity's masks. -/
def eventBits (layout : Layout) (e : Event) : Mask :=
  match layout.maskField with
  | none => 0
  | some field => if e.value field = 0 then 0 else Mask.bit (e.value field)

/-- The index with an event taken in. -/
def addEvent (layout : Layout) (entity : EntityId) (index : Index) (e : Event) :
    Except Error Index :=
  (List.range layout.groups.length).foldlM (fun index group => do
    index.insert (← layout.eventFunnel group e) entity (eventBits layout e)) index

/-- The index of a log. -/
def build (log : Log) (config : Config) : Except Error Index := do
  let layout ← Layout.build log config
  log.numberedTrails.foldlM (fun index t => t.2.events.foldlM (addEvent layout t.1) index)
    (empty (UInt64.ofNat layout.size))

/-- The entities of a funnel, in ascending order. -/
def elements (index : Index) (funnel : FunnelId) : List Element :=
  match index.funnels.get? funnel with
  | none => []
  | some members => members.entries.map fun e => ⟨e.1, e.2⟩

/-- The entities of a funnel, in ascending order, if there is such a funnel. -/
def funnel (index : Index) (funnel : FunnelId) : Except Error (List Element) := do
  Layout.checkFunnel index.size.toNat funnel
  return index.elements funnel

/-- The mask of an entity in a funnel. -/
def mask? (index : Index) (funnel : FunnelId) (entity : EntityId) : Option Mask :=
  (index.funnels.get? funnel).bind (·.get? entity)

end Index

end Cohort
