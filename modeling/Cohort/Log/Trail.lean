/-!
# Events and trails

An event has a time and a value number for each field. A trail is the history of one entity: its
events in order of time, those of one time in the order in which they were added.
-/

namespace Cohort

/-- An event: its time, and the number of its value for each field. -/
structure Event where
  timestamp : UInt64
  /-- The value numbers, by field. -/
  values : List Nat
  deriving DecidableEq

/-- A value of a field, by numbers. -/
structure Item where
  field : Nat
  number : Nat
  deriving DecidableEq

namespace Event

/-- The number of an event's value for a field; 0 if there is no such field. -/
def value (e : Event) (field : Nat) : Nat := e.values[field]?.getD 0

def has (e : Event) (i : Item) : Bool := e.value i.field == i.number

end Event

/-- The events of one entity. -/
structure Trail where
  /-- The events, in order of time. -/
  events : List Event
  ordered : events.Pairwise fun a b => a.timestamp ≤ b.timestamp

namespace Trail

def empty : Trail := ⟨[], List.Pairwise.nil⟩

/-- Puts an event after all those of its time or earlier. -/
def place (e : Event) : List Event → List Event
  | [] => [e]
  | a :: l => if a.timestamp ≤ e.timestamp then a :: place e l else e :: a :: l

theorem mem_place {e x : Event} {l : List Event} : x ∈ place e l ↔ x = e ∨ x ∈ l := by
  induction l with
  | nil => simp [place]
  | cons a l ih =>
    rw [place]
    split
    · simp only [List.mem_cons, ih]
      exact or_left_comm
    · simp

theorem ordered_place (e : Event) {l : List Event}
    (h : l.Pairwise fun a b => a.timestamp ≤ b.timestamp) :
    (place e l).Pairwise fun a b => a.timestamp ≤ b.timestamp := by
  induction l with
  | nil => simp [place]
  | cons a l ih =>
    obtain ⟨ha, hl⟩ := List.pairwise_cons.1 h
    rw [place]
    split
    · next hae =>
      refine List.pairwise_cons.2 ⟨fun b hb => ?_, ih hl⟩
      rcases mem_place.1 hb with rfl | hb
      · exact hae
      · exact ha b hb
    · next hae =>
      have hea : e.timestamp ≤ a.timestamp := UInt64.le_of_lt (UInt64.not_le.1 hae)
      refine List.pairwise_cons.2 ⟨fun b hb => ?_, h⟩
      rcases List.mem_cons.1 hb with rfl | hb
      · exact hea
      · exact UInt64.le_trans hea (ha b hb)

/-- The trail with one more event. -/
def insert (t : Trail) (e : Event) : Trail := ⟨place e t.events, ordered_place e t.ordered⟩

theorem mem_insert {t : Trail} {e x : Event} :
    x ∈ (t.insert e).events ↔ x = e ∨ x ∈ t.events :=
  mem_place

end Trail

end Cohort
