import Cohort.Proofs.Contents

/-!
# The log of a history

A log learns the values of each event as it takes the event in. What it has learned keeps its number
(`Field.code_learn`), and values that it knows have different numbers (`Field.code_inj`), so the log
that a history of calls gives holds, for every entity, the events of the calls for it and no others
(`Log.records_replay`).
-/

namespace Cohort

namespace Field

/-- A value that a field has a number for: one of its words, or the empty string. -/
def Knows (f : Field) (v : String) : Prop := v = "" ∨ v ∈ f.words

variable {f : Field} {v w : String}

theorem knows_learn (f : Field) (v : String) : (f.learn v).Knows v := by
  unfold learn Knows
  split
  · next h => exact h
  · simp

theorem Knows.learn (h : f.Knows v) (w : String) : (f.learn w).Knows v :=
  h.imp id fun hv => (f.words_prefix_learn w).subset hv

theorem number?_empty (f : Field) : f.number? "" = none := number?_eq_none_iff.2 f.proper

theorem code_empty (f : Field) : f.code "" = 0 := by
  unfold code
  rw [number?_empty]
  rfl

theorem knows_of_number? {n : Nat} (h : f.number? w = some n) : f.Knows w ∧ f.code w = n := by
  constructor
  · refine .inr ?_
    by_contra hw
    rw [number?_eq_none_iff.2 hw] at h
    exact nomatch h
  · unfold code
    rw [h]
    rfl

theorem code_pos (h : v ∈ f.words) : f.number? v = some (f.code v) ∧ 0 < f.code v := by
  cases hn : f.number? v with
  | none => exact absurd h (number?_eq_none_iff.1 hn)
  | some n =>
    rw [(knows_of_number? hn).2]
    obtain ⟨i, -, rfl⟩ := Option.map_eq_some_iff.1 hn
    exact ⟨rfl, Nat.succ_pos i⟩

/-- Values that a field knows have different numbers. -/
theorem code_inj (hv : f.Knows v) (hw : f.Knows w) : f.code v = f.code w ↔ v = w := by
  refine ⟨fun h => ?_, fun h => h ▸ rfl⟩
  rcases hv with rfl | hv <;> rcases hw with rfl | hw
  · rfl
  · have := (code_pos hw).2
    rw [code_empty] at h
    omega
  · have := (code_pos hv).2
    rw [code_empty] at h
    omega
  · have h₁ := number?_eq_some_iff.1 (code_pos hv).1
    have h₂ := number?_eq_some_iff.1 (code_pos hw).1
    rw [h, h₂, Option.some.injEq] at h₁
    exact h₁.symm

/-- A field of the same name, with the words of another under the same numbers. -/
structure Extends (f f' : Field) : Prop where
  name : f'.name = f.name
  words : f.words <+: f'.words

theorem extends_learn (f : Field) (v : String) : f.Extends (f.learn v) :=
  ⟨f.name_learn v, f.words_prefix_learn v⟩

theorem Extends.word? {f' : Field} (h : f.Extends f') {n : Nat} (hw : f.word? n = some w) :
    f'.word? n = some w := by
  unfold Field.word? at *
  split at hw
  · exact nomatch hw
  · next hn =>
    obtain ⟨t, ht⟩ := h.words
    rw [if_neg hn, ← ht, List.getElem?_append_left (List.getElem?_eq_some_iff.1 hw).1, hw]

theorem Extends.number? {f' : Field} (h : f.Extends f') {n : Nat} (hn : f.number? w = some n) :
    f'.number? w = some n :=
  number?_eq_some_iff.2 (h.word? (number?_eq_some_iff.1 hn))

/-- A value that a field knows keeps its number. -/
theorem code_learn (h : f.Knows v) (w : String) : (f.learn w).code v = f.code v := by
  rcases h with rfl | hv
  · rw [code_empty, code_empty]
  · exact (knows_of_number? ((f.extends_learn w).number? (code_pos hv).1)).2

end Field

/-- A call that adds an event to a log. -/
structure Entry where
  entity : EntityId
  timestamp : UInt64
  /-- The values, which should be one for each field. -/
  values : List String

namespace Log

/-- The log after a call. A call that is refused leaves it as it was. -/
def record (log : Log) (c : Entry) : Log :=
  match log.add c.entity c.timestamp c.values with
  | .ok log => log
  | .error _ => log

/-- The log that calls give, one after the other, from one without events on. -/
def replay (names : List String) (calls : List Entry) : Log := calls.foldl record (empty names)

/-- The event of a call, in the numbers of fields. -/
def eventOf (fields : List Field) (c : Entry) : Event := ⟨c.timestamp, code fields c.values⟩

/-- A log holds the events of the calls so far that gave one value for each field. -/
structure Records (names : List String) (calls : List Entry) (log : Log) : Prop where
  fields : log.fields.map (·.name) = names
  known : ∀ c ∈ calls, c.values.length = names.length →
    List.Forall₂ Field.Knows log.fields c.values
  events : ∀ x e, e ∈ log.eventsOf x ↔ ∃ c ∈ calls, c.values.length = names.length ∧ c.entity = x
    ∧ eventOf log.fields c = e

theorem names_learn : ∀ {fields : List Field} {values : List String},
    values.length = fields.length → (learn fields values).map (·.name) = fields.map (·.name)
  | [], [], _ => rfl
  | f :: fields, v :: values, h => by
    have ih : (learn fields values).map (·.name) = fields.map (·.name) :=
      names_learn (by simpa using h)
    unfold learn at *
    simp [ih]

theorem knows_learn : ∀ {fields : List Field} {values : List String},
    values.length = fields.length → List.Forall₂ Field.Knows (learn fields values) values
  | [], [], _ => .nil
  | f :: fields, v :: values, h =>
    .cons (f.knows_learn v) (knows_learn (by simpa using h))

theorem knows_learn_of_knows : ∀ {fields : List Field} {values ws : List String},
    ws.length = fields.length → List.Forall₂ Field.Knows fields values →
      List.Forall₂ Field.Knows (learn fields ws) values
  | [], [], [], _, _ => .nil
  | f :: fields, v :: values, w :: ws, h, hk => by
    obtain ⟨hv, hvs⟩ := List.forall₂_cons.1 hk
    exact .cons (hv.learn w) (knows_learn_of_knows (by simpa using h) hvs)

theorem code_learn : ∀ {fields : List Field} {values ws : List String},
    ws.length = fields.length → List.Forall₂ Field.Knows fields values →
      code (learn fields ws) values = code fields values
  | [], [], [], _, _ => rfl
  | f :: fields, v :: values, w :: ws, h, hk => by
    obtain ⟨hv, hvs⟩ := List.forall₂_cons.1 hk
    have ih : code (learn fields ws) values = code fields values :=
      code_learn (by simpa using h) hvs
    unfold code learn at *
    simp [ih, Field.code_learn hv]

/-- A trail that gets an event has it placed among those that it had, if any. -/
theorem events_insertEvent {trails : Array Trail} {n i : Nat} {e : Event} :
    (((insertEvent trails n e)[i]?).map (·.events)).getD []
      = if i = n then Trail.place e (((trails[i]?).map (·.events)).getD [])
        else ((trails[i]?).map (·.events)).getD [] := by
  have hold : (((trails ++ Array.replicate (n + 1 - trails.size) Trail.empty)[i]?).map
      (·.events)).getD [] = ((trails[i]?).map (·.events)).getD [] := by
    rw [Array.getElem?_append]
    split
    · rfl
    · next h =>
      rw [Array.getElem?_eq_none (show trails.size ≤ i by omega), Array.getElem?_replicate]
      split <;> rfl
  have hin : i = n → i < (trails ++ Array.replicate (n + 1 - trails.size) Trail.empty).size := by
    rintro rfl
    simp
    omega
  unfold insertEvent
  rw [← hold, Array.getElem?_modify]
  by_cases hi : n = i
  · rw [if_pos hi, if_pos hi.symm, Array.getElem?_eq_getElem (hin hi.symm)]
    rfl
  · rw [if_neg hi, if_neg (Ne.symm hi)]

theorem mem_events_insertEvent {trails : Array Trail} {n i : Nat} {e x : Event} :
    x ∈ (((insertEvent trails n e)[i]?).map (·.events)).getD []
      ↔ i = n ∧ x = e ∨ x ∈ ((trails[i]?).map (·.events)).getD [] := by
  rw [events_insertEvent]
  split
  · next hi => rw [Trail.mem_place, and_iff_right hi]
  · next hi => simp [hi]

theorem fields_record {log : Log} {c : Entry} (h : c.values.length = log.fields.length) :
    (log.record c).fields = learn log.fields c.values := by
  unfold record add
  rw [dif_pos h]

theorem trails_record {log : Log} {c : Entry} (h : c.values.length = log.fields.length) :
    (log.record c).trails
      = insertEvent log.trails c.entity.toNat (eventOf (log.record c).fields c) := by
  unfold record add
  rw [dif_pos h]
  rfl

theorem record_refused {log : Log} {c : Entry} (h : c.values.length ≠ log.fields.length) :
    log.record c = log := by
  unfold record add
  rw [dif_neg h]

/-- What a log knows has the same event after a call. -/
theorem eventOf_record {log : Log} {c d : Entry} (hc : c.values.length = log.fields.length)
    (hd : List.Forall₂ Field.Knows log.fields d.values) :
    eventOf (log.record c).fields d = eventOf log.fields d := by
  unfold eventOf
  rw [fields_record hc, code_learn hc hd]

/-- A call adds its event, if it gives one value for each field, and changes nothing else. -/
theorem Records.snoc {names : List String} {calls : List Entry} {log : Log}
    (h : Records names calls log) (c : Entry) : Records names (calls ++ [c]) (log.record c) := by
  have hlen : log.fields.length = names.length := by rw [← h.fields, List.length_map]
  by_cases hc : c.values.length = log.fields.length
  · have hknown : ∀ d ∈ calls ++ [c], d.values.length = names.length →
        List.Forall₂ Field.Knows (log.record c).fields d.values := by
      intro d hd hdl
      rw [fields_record hc]
      rcases List.mem_append.1 hd with hd | hd
      · exact knows_learn_of_knows hc (h.known d hd hdl)
      · obtain rfl := List.mem_singleton.1 hd
        exact knows_learn hc
    have hsame : ∀ d ∈ calls, d.values.length = names.length →
        eventOf (log.record c).fields d = eventOf log.fields d :=
      fun d hd hdl => eventOf_record hc (h.known d hd hdl)
    refine ⟨?_, hknown, fun x e => ?_⟩
    · rw [fields_record hc, names_learn hc, h.fields]
    · have hold := h.events x e
      unfold eventsOf at *
      rw [trails_record hc, mem_events_insertEvent, hold]
      constructor
      · rintro (⟨hx, rfl⟩ | ⟨d, hd, hdl, hx, rfl⟩)
        · exact ⟨c, by simp, hc.trans hlen, (UInt32.toNat_inj.1 hx).symm, rfl⟩
        · exact ⟨d, by simp [hd], hdl, hx, hsame d hd hdl⟩
      · rintro ⟨d, hd, hdl, rfl, rfl⟩
        rcases List.mem_append.1 hd with hd | hd
        · exact .inr ⟨d, hd, hdl, rfl, (hsame d hd hdl).symm⟩
        · obtain rfl := List.mem_singleton.1 hd
          exact .inl ⟨rfl, rfl⟩
  · have hcalls : ∀ d, d ∈ calls ++ [c] ∧ d.values.length = names.length
        ↔ d ∈ calls ∧ d.values.length = names.length := by
      intro d
      rw [List.mem_append, List.mem_singleton, or_and_right, or_iff_left]
      rintro ⟨rfl, hd⟩
      exact hc (hd.trans hlen.symm)
    rw [record_refused hc]
    refine ⟨h.fields, fun d hd hdl => ?_, fun x e => ?_⟩
    · exact h.known d ((hcalls d).1 ⟨hd, hdl⟩).1 hdl
    · rw [h.events]
      refine exists_congr fun d => ?_
      rw [← and_assoc, ← hcalls, and_assoc]

/-- The log of a history holds the events of its calls. -/
theorem records_replay (names : List String) (calls : List Entry) :
    Records names calls (replay names calls) := by
  have run : ∀ (todo done : List Entry) (log : Log), Records names done log →
      Records names (done ++ todo) (todo.foldl record log) := by
    intro todo
    induction todo with
    | nil => simp
    | cons c todo ih =>
      intro done log h
      simpa using ih _ _ (h.snoc c)
  refine run calls [] (empty names) ⟨?_, by simp, fun x e => ?_⟩
  · unfold empty
    simp [Field.fresh, Function.comp_def]
  · simp [eventsOf, empty]

end Log

end Cohort
