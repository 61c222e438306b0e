import Cohort.Proofs.Capacity
import Cohort.Proofs.Repeats
import Cohort.Proofs.Scan

/-!
# The words of a log

A call that is refused leaves the log as it was, so a log is that of its accepted calls
(`History.log_accepted`). Every accepted call has each field learn the value that it gives, and so
a field's words are the values of the accepted calls for it, without the empty string, each where it
first came up (`History.wordsOf_log`).
-/

namespace Cohort

namespace Field

theorem words_learn (f : Field) (v : String) :
    (f.learn v).words = if v = "" ∨ v ∈ f.words then f.words else f.words ++ [v] := by
  unfold learn
  split <;> rfl

/-- A field that has learned some values has for words those that are not empty, each once. -/
theorem words_foldl_learn (name : String) (vs : List String) :
    (vs.foldl learn (fresh name)).words = (vs.filter (· ≠ "")).eraseDups := by
  induction vs using List.reverseRecOn with
  | nil => rfl
  | append_singleton vs v ih =>
    rw [List.foldl_append, List.foldl_cons, List.foldl_nil, words_learn]
    simp only [ih, List.mem_eraseDups, List.filter_append]
    by_cases hv : v = ""
    · simp [hv]
    · have hlast : [v].filter (· ≠ "") = [v] := by simp [hv]
      rw [hlast, eraseDups_snoc]
      simp only [hv, false_or]

end Field

namespace Log

variable {log : Log} {c : Entry}

theorem wordsOf_eq_nil {a : String} (ha : a ∉ log.fields.map (·.name)) : log.wordsOf a = [] := by
  have hnone : log.fields.find? (·.name = a) = none := by simpa using ha
  unfold wordsOf
  rw [hnone]
  rfl

theorem length_fields_record (log : Log) (c : Entry) :
    (log.record c).fields.length = log.fields.length := by
  by_cases hc : c.values.length = log.fields.length
  · rw [fields_record hc, length_learn hc]
  · rw [record_refused hc]

/-- The calls that a log refuses can be left out. -/
theorem foldl_record_filter : ∀ (calls : List Entry) (log : Log), calls.foldl record log
    = (calls.filter fun c => c.values.length = log.fields.length).foldl record log
  | [], _ => rfl
  | c :: calls, log => by
    rw [List.foldl_cons, foldl_record_filter calls, length_fields_record, List.filter_cons]
    by_cases hc : c.values.length = log.fields.length
    · rw [if_pos (decide_eq_true hc), List.foldl_cons]
    · rw [if_neg (by simpa using hc), record_refused hc]

theorem getElem?_fields_record (hc : c.values.length = log.fields.length) (n : Nat) :
    (log.record c).fields[n]? = log.fields[n]?.map (·.learn (c.values[n]?.getD "")) := by
  rw [fields_record hc]
  unfold learn
  rw [List.getElem?_zipWith]
  by_cases hn : n < log.fields.length
  · rw [List.getElem?_eq_getElem hn, List.getElem?_eq_getElem (hc ▸ hn)]
    rfl
  · rw [List.getElem?_eq_none (Nat.le_of_not_lt hn)]
    rfl

/-- A field learns the values that accepted calls give for it, one after the other. -/
theorem getElem?_fields_foldl (n : Nat) : ∀ {calls : List Entry} {log : Log},
    (∀ c ∈ calls, c.values.length = log.fields.length) → (calls.foldl record log).fields[n]?
      = log.fields[n]?.map fun f => (calls.map fun c => c.values[n]?.getD "").foldl Field.learn f
  | [], log, _ => by simp
  | c :: calls, log, h => by
    obtain ⟨hc, h⟩ := List.forall_mem_cons.1 h
    rw [List.foldl_cons, getElem?_fields_foldl n (by rwa [length_fields_record]),
      getElem?_fields_record hc, Option.map_map]
    rfl

end Log

namespace History

variable {h : History}

/-- The calls that were not refused. -/
def accepted (h : History) : List Entry := h.calls.filter fun c => c.values.length = h.names.length

theorem mem_accepted {c : Entry} :
    c ∈ h.accepted ↔ c ∈ h.calls ∧ c.values.length = h.names.length := by
  unfold accepted
  rw [List.mem_filter, decide_eq_true_eq]

theorem length_names (h : History) : (Log.empty h.names).fields.length = h.names.length :=
  List.length_map _

/-- The log that the calls give is that of the accepted ones. -/
theorem log_accepted (h : History) : Log.replay h.names h.accepted = h.log := by
  unfold log Log.replay
  rw [Log.foldl_record_filter h.calls, length_names]
  rfl

theorem callsFor_eq (h : History) (x : EntityId) :
    h.callsFor x = h.accepted.filter (·.entity = x) := by
  unfold callsFor accepted
  rw [List.filter_filter]
  simp [and_comm]

/-- The words of a field are the values that the accepted calls give for it, without the empty
string, each where it first came up. -/
theorem words_log {f : Field} {n : Nat} (hf : h.log.fields[n]? = some f) : f.words
    = ((h.accepted.map fun c => c.values[n]?.getD "").filter (· ≠ "")).eraseDups := by
  have hlen : ∀ c ∈ h.accepted, c.values.length = (Log.empty h.names).fields.length := by
    intro c hc
    rw [length_names]
    exact (mem_accepted.1 hc).2
  -- what refused calls give for the field is not learned, so they are left out first
  rw [← log_accepted] at hf
  unfold Log.replay at hf
  rw [Log.getElem?_fields_foldl n hlen, Option.map_eq_some_iff] at hf
  obtain ⟨f₀, hf₀, rfl⟩ := hf
  unfold Log.empty at hf₀
  rw [List.getElem?_map, Option.map_eq_some_iff] at hf₀
  obtain ⟨name, -, rfl⟩ := hf₀
  exact Field.words_foldl_learn name _

/-- The words of a name are those of the first field of this name. -/
theorem wordsOf_log {a : String} {n : Nat} (ha : h.log.fieldNumber a = .ok n) :
    h.log.wordsOf a = ((h.accepted.map (h.value · a)).filter (· ≠ "")).eraseDups := by
  obtain ⟨f, hf, -, hw⟩ := Layout.exists_field ha
  unfold value
  rw [hw, words_log hf, Layout.idxOf_of_fieldNumber ha]

/-- The words of field `c` are those of the three accepted visits. -/
example : (Log.replay ["c", "k"] [⟨2, 10, ["n", "v"]⟩, ⟨0, 20, ["b", ""]⟩, ⟨0, 5, ["n", "v"]⟩,
    ⟨1, 7, ["z"]⟩]).wordsOf "c" = ["n", "b"] := by decide

end History

end Cohort
