import Cohort.Log.Field
import Cohort.Log.Trail

/-!
# Event logs

A log has named fields and a trail of events for each entity, up to the last one that was given an
event. Each event has a value number for every field, none beyond the field's words
(`Log.coded`), so a log can always be read back in words; and there is no more than one trail for
each entity id (`Log.addressable`).
-/

namespace Cohort

/-- The number of an entity, which has one trail. -/
abbrev EntityId := UInt32

/-- The number of a funnel. -/
abbrev FunnelId := UInt32

/-- How many entity ids there are. -/
def entityLimit : Nat := 4294967296

/-- An event has one number for each field, and none beyond the field's words. -/
def Event.Coded (fields : List Field) (e : Event) : Prop :=
  e.values.length = fields.length ∧
    ∀ (n : Nat) (f : Field), fields[n]? = some f → e.value n ≤ f.words.length

/-- An event log. -/
structure Log where
  /-- The fields, by number. -/
  fields : List Field
  /-- The trails, by entity. -/
  trails : Array Trail
  coded : ∀ t ∈ trails, ∀ e ∈ t.events, e.Coded fields
  addressable : trails.size ≤ entityLimit

namespace Log

def empty (names : List String) : Log where
  fields := names.map .fresh
  trails := #[]
  coded := nofun
  addressable := Nat.zero_le _

/-- The fields after learning one value each. -/
def learn (fields : List Field) (values : List String) : List Field :=
  List.zipWith Field.learn fields values

/-- The numbers of one value for each field. -/
def code (fields : List Field) (values : List String) : List Nat :=
  List.zipWith Field.code fields values

theorem length_learn {fields : List Field} {values : List String}
    (h : values.length = fields.length) : (learn fields values).length = fields.length := by
  rw [learn, List.length_zipWith, h, Nat.min_self]

theorem coded_code {fields : List Field} {values : List String} {timestamp : UInt64}
    (h : values.length = fields.length) :
    Event.Coded fields ⟨timestamp, code fields values⟩ := by
  refine ⟨by simp [code, List.length_zipWith, h], fun n f hf => ?_⟩
  rw [Event.value, code, List.getElem?_zipWith, hf]
  cases values[n]? with
  | none => exact Nat.zero_le _
  | some v => exact f.code_le v

/-- Events stay coded when the fields learn. -/
theorem Event.Coded.learn {fields : List Field} {values : List String} {e : Event}
    (h : values.length = fields.length) (he : e.Coded fields) :
    e.Coded (learn fields values) := by
  refine ⟨he.1.trans (length_learn h).symm, fun n f hf => ?_⟩
  rw [Log.learn, List.getElem?_zipWith_eq_some] at hf
  obtain ⟨f₀, v, hf₀, -, rfl⟩ := hf
  exact Nat.le_trans (he.2 n f₀ hf₀) (f₀.words_prefix_learn v).length_le

/-- Trails with one more event, and with empty trails up to that of the event. -/
def insertEvent (trails : Array Trail) (trail : Nat) (e : Event) : Array Trail :=
  (trails ++ Array.replicate (trail + 1 - trails.size) Trail.empty).modify trail (·.insert e)

theorem size_insertEvent (trails : Array Trail) (trail : Nat) (e : Event) :
    (insertEvent trails trail e).size = max trails.size (trail + 1) := by
  simp only [insertEvent, Array.size_modify, Array.size_append, Array.size_replicate]
  omega

theorem mem_insertEvent {trails : Array Trail} {trail : Nat} {e x : Event} {t : Trail}
    (ht : t ∈ insertEvent trails trail e) (hx : x ∈ t.events) :
    x = e ∨ ∃ t ∈ trails, x ∈ t.events := by
  have old {t : Trail} (ht : t ∈ trails ++ Array.replicate (trail + 1 - trails.size) Trail.empty)
      (hx : x ∈ t.events) : ∃ t ∈ trails, x ∈ t.events := by
    rcases Array.mem_append.1 ht with ht | ht
    · exact ⟨t, ht, hx⟩
    · rw [Array.eq_of_mem_replicate ht] at hx
      exact nomatch hx
  obtain ⟨n, hn⟩ := Array.mem_iff_getElem?.1 ht
  rw [insertEvent, Array.getElem?_modify] at hn
  split at hn
  · obtain ⟨t', ht', rfl⟩ := Option.map_eq_some_iff.1 hn
    exact (Trail.mem_insert.1 hx).imp id (old (Array.mem_iff_getElem?.2 ⟨n, ht'⟩))
  · exact .inr (old (Array.mem_iff_getElem?.2 ⟨n, hn⟩) hx)

/-- The log with one more event, given by one value for each field. -/
def add (log : Log) (trail : EntityId) (timestamp : UInt64) (values : List String) :
    Except Error Log :=
  if h : values.length = log.fields.length then
    let fields := learn log.fields values
    .ok {
      fields
      trails := insertEvent log.trails trail.toNat ⟨timestamp, code fields values⟩
      coded := fun t ht e he => by
        rcases mem_insertEvent ht he with rfl | ⟨t, ht, he⟩
        · exact coded_code (h.trans (length_learn h).symm)
        · exact Event.Coded.learn h (log.coded t ht e he)
      addressable := by
        rw [size_insertEvent]
        exact Nat.max_le.2 ⟨log.addressable, trail.toNat_lt⟩ }
  else .error (.format (.arity values.length log.fields.length))

/-- The number of the first field of a name. -/
def fieldNumber (log : Log) (name : String) : Except Error Nat :=
  match log.fields.findIdx? (·.name = name) with
  | some n => .ok n
  | none => .error (.notFound (.field name))

def field (log : Log) (number : Nat) : Except Error Field :=
  match log.fields[number]? with
  | some f => .ok f
  | none => .error (.notFound (.fieldNumber number))

/-- The word of a field's value. -/
def word (log : Log) (fieldNumber number : Nat) : Except Error String := do
  let f ← log.field fieldNumber
  match f.word? number with
  | some w => return w
  | none => throw (.notFound (.valueNumber number f.name))

/-- The number of a field's value. -/
def number (log : Log) (fieldNumber : Nat) (value : String) : Except Error Nat := do
  let f ← log.field fieldNumber
  match f.number? value with
  | some n => return n
  | none => throw (.notFound (.value value f.name))

/-- A value of a field, by numbers. -/
def item (log : Log) (fieldNumber : Nat) (value : String) : Except Error Item := do
  return ⟨fieldNumber, ← log.number fieldNumber value⟩

def trail (log : Log) (entity : EntityId) : Except Error Trail :=
  match log.trails[entity.toNat]? with
  | some t => .ok t
  | none => .error (.notFound (.trail entity.toNat))

/-- The trails with their entities, in ascending order. -/
def numberedTrails (log : Log) : List (EntityId × Trail) :=
  log.trails.toList.zipIdx.map fun p => (UInt32.ofNat p.2, p.1)

/-- The entities with an event of some kind, in ascending order. -/
def matching (log : Log) (accepts : Event → Bool) : List EntityId :=
  (log.numberedTrails.filter fun t => t.2.events.any accepts).map (·.1)

end Log

end Cohort
