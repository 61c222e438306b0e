import Cohort.Proofs.Growth
import Cohort.Proofs.Words

/-!
# What a log keeps of its calls

A list in order of time is determined by what it has of each time (`eq_of_filter_time`). An event
that comes in is placed behind those of its time (`Trail.filter_place`), as a stable sort would have
it, so an entity's events are those of the accepted calls for it, sorted by time
(`History.eventsOf_log`). Each of them has one number for every field, and the field's words give
back the value of the call (`Log.Encodes`). Together with the words, their numbers and the trails
that there are, this is what a log keeps of the calls that made it (`History.kept_log`).
-/

namespace Cohort

section Time

variable {α : Type} {time : α → UInt64}

theorem mem_of_filter_time {l m : List α}
    (h : ∀ τ, l.filter (time · = τ) = m.filter (time · = τ)) {a : α} (ha : a ∈ l) : a ∈ m := by
  have hmem : a ∈ l.filter (time · = time a) := List.mem_filter.2 ⟨ha, decide_eq_true rfl⟩
  rw [h] at hmem
  exact (List.mem_filter.1 hmem).1

theorem time_head_le {l : List α} {a b : α} (hl : (a :: l).Pairwise fun a b => time a ≤ time b)
    (hb : b ∈ a :: l) : time a ≤ time b := by
  rcases List.mem_cons.1 hb with rfl | hb
  · exact UInt64.le_refl _
  · exact (List.pairwise_cons.1 hl).1 b hb

/-- Lists in order of time that have the same members of each time in the same order are the same.
-/
theorem eq_of_filter_time : ∀ {l m : List α}, (l.Pairwise fun a b => time a ≤ time b) →
    (m.Pairwise fun a b => time a ≤ time b) →
    (∀ τ, l.filter (time · = τ) = m.filter (time · = τ)) → l = m
  | [], [], _, _, _ => rfl
  | [], b :: m, _, _, h => nomatch mem_of_filter_time (fun τ => (h τ).symm) List.mem_cons_self
  | a :: l, [], _, _, h => nomatch mem_of_filter_time h List.mem_cons_self
  | a :: l, b :: m, hl, hm, h => by
    have htime : time a = time b := UInt64.le_antisymm
      (time_head_le hl (mem_of_filter_time (fun τ => (h τ).symm) List.mem_cons_self))
      (time_head_le hm (mem_of_filter_time h List.mem_cons_self))
    have hheads := h (time b)
    rw [List.filter_cons, List.filter_cons, if_pos (decide_eq_true htime),
      if_pos (decide_eq_true rfl), List.cons.injEq] at hheads
    obtain ⟨rfl, -⟩ := hheads
    refine congrArg (a :: ·) (eq_of_filter_time hl.of_cons hm.of_cons fun τ => ?_)
    have hτ := h τ
    rw [List.filter_cons, List.filter_cons] at hτ
    split at hτ
    · exact (List.cons.inj hτ).2
    · exact hτ

variable (time)

theorem time_le_trans (a b c : α) (hab : decide (time a ≤ time b) = true)
    (hbc : decide (time b ≤ time c) = true) : decide (time a ≤ time c) = true :=
  decide_eq_true (UInt64.le_trans (of_decide_eq_true hab) (of_decide_eq_true hbc))

theorem time_le_total (a b : α) :
    (decide (time a ≤ time b) || decide (time b ≤ time a)) = true := by
  simpa only [Bool.or_eq_true, decide_eq_true_eq] using UInt64.le_total (time a) (time b)

theorem pairwise_mergeSort_time (l : List α) :
    (l.mergeSort fun a b => time a ≤ time b).Pairwise fun a b => time a ≤ time b :=
  (List.pairwise_mergeSort (time_le_trans time) (time_le_total time) l).imp of_decide_eq_true

/-- Sorting by time leaves the members of one time in their order. -/
theorem filter_mergeSort_time (l : List α) (τ : UInt64) :
    (l.mergeSort fun a b => time a ≤ time b).filter (time · = τ) = l.filter (time · = τ) := by
  have hlevel : (l.filter (time · = τ)).Pairwise fun a b => decide (time a ≤ time b) = true := by
    refine List.pairwise_of_forall_mem_list fun a ha b hb => ?_
    rw [List.mem_filter, decide_eq_true_eq] at ha hb
    rw [decide_eq_true_eq, ha.2, hb.2]
    exact UInt64.le_refl τ
  -- as a sublist that is sorted, they stay together in this order
  have hsub := (List.sublist_mergeSort (time_le_trans time) (time_le_total time) hlevel
    List.filter_sublist).filter (time · = τ)
  rw [List.filter_filter] at hsub
  simp only [Bool.and_self] at hsub
  exact (hsub.eq_of_length ((List.mergeSort_perm l _).filter _).length_eq.symm).symm

end Time

namespace Trail

/-- An event goes behind those of its time. -/
theorem filter_place (e : Event) (τ : UInt64) : ∀ {l : List Event},
    (l.Pairwise fun a b => a.timestamp ≤ b.timestamp) →
    (place e l).filter (·.timestamp = τ) = (l ++ [e]).filter (·.timestamp = τ)
  | [], _ => rfl
  | a :: l, h => by
    unfold place
    split
    · rw [List.cons_append, List.filter_cons, List.filter_cons, filter_place e τ h.of_cons]
    · next hlate =>
      have hnone : e.timestamp = τ → (a :: l).filter (·.timestamp = τ) = [] := by
        rintro rfl
        rw [List.filter_eq_nil_iff]
        intro b hb hbe
        rw [decide_eq_true_eq] at hbe
        exact hlate (hbe ▸ time_head_le h hb)
      rw [List.filter_append, List.filter_cons (x := e), List.filter_singleton]
      by_cases hτ : e.timestamp = τ
      · simp [hτ, hnone hτ]
      · simp [hτ]

end Trail

namespace Log

variable {log : Log} {c : Entry} {x : EntityId}

theorem eventsOf_ordered (log : Log) (x : EntityId) :
    (log.eventsOf x).Pairwise fun a b => a.timestamp ≤ b.timestamp := by
  unfold eventsOf
  cases log.trails[x.toNat]? with
  | none => exact List.Pairwise.nil
  | some t => exact t.ordered

theorem eventsOf_of_trail {t : Trail} (ht : log.trail x = .ok t) : log.eventsOf x = t.events := by
  unfold eventsOf
  rw [trail_eq_ok_iff.1 ht]
  rfl

theorem eventsOf_record (hc : c.values.length = log.fields.length) :
    (log.record c).eventsOf x = if x = c.entity then
      Trail.place (eventOf (log.record c).fields c) (log.eventsOf x) else log.eventsOf x := by
  unfold eventsOf
  rw [trails_record hc, events_insertEvent]
  simp only [UInt32.toNat_inj]

theorem replay_append (names : List String) (calls more : List Entry) :
    replay names (calls ++ more) = more.foldl record (replay names calls) :=
  List.foldl_append

section Accepted

variable {names : List String} {calls : List Entry}

theorem length_fields_replay (names : List String) (calls : List Entry) :
    (replay names calls).fields.length = names.length :=
  (List.length_map _).symm.trans (congrArg List.length (records_replay names calls).fields)

/-- Of one time, an entity has the events of the calls for it in the order of the calls. -/
theorem filter_eventsOf_replay (x : EntityId) (τ : UInt64)
    (h : ∀ c ∈ calls, c.values.length = names.length) :
    ((replay names calls).eventsOf x).filter (·.timestamp = τ)
      = ((calls.filter (·.entity = x)).filter (·.timestamp = τ)).map
        (eventOf (replay names calls).fields) := by
  induction calls using List.reverseRecOn with
  | nil => simp [replay, eventsOf, empty]
  | append_singleton calls c ih =>
    obtain ⟨hcalls, hc⟩ := List.forall_mem_append.1 h
    have hc : c.values.length = (replay names calls).fields.length :=
      (hc c (List.mem_singleton_self c)).trans (length_fields_replay names calls).symm
    have hsame : ((calls.filter (·.entity = x)).filter (·.timestamp = τ)).map
        (eventOf ((replay names calls).record c).fields)
          = ((replay names calls).eventsOf x).filter (·.timestamp = τ) := by
      rw [ih hcalls]
      refine List.map_congr_left fun d hd => ?_
      have hd := (List.mem_filter.1 (List.mem_filter.1 hd).1).1
      exact eventOf_record hc ((records_replay names calls).known d hd (hcalls d hd))
    rw [replay_append, List.foldl_cons, List.foldl_nil, eventsOf_record hc, List.filter_append,
      List.filter_append, List.map_append, hsame]
    by_cases hx : x = c.entity
    · rw [if_pos hx, Trail.filter_place _ _ (eventsOf_ordered _ x), List.filter_append]
      by_cases hτ : c.timestamp = τ <;> simp [eventOf, hx, hτ]
    · simp [hx, Ne.symm hx]

/-- There are trails up to the highest entity that a call was for. -/
theorem lt_size_trails_iff {n : Nat} (h : ∀ c ∈ calls, c.values.length = names.length) :
    n < (replay names calls).trails.size ↔ ∃ c ∈ calls, n ≤ c.entity.toNat := by
  induction calls using List.reverseRecOn with
  | nil => simp [replay, empty]
  | append_singleton calls c ih =>
    obtain ⟨hcalls, hc⟩ := List.forall_mem_append.1 h
    have hc : c.values.length = (replay names calls).fields.length :=
      (hc c (List.mem_singleton_self c)).trans (length_fields_replay names calls).symm
    rw [replay_append, List.foldl_cons, List.foldl_nil, trails_record hc, size_insertEvent,
      lt_max_iff, ih hcalls, Nat.lt_succ_iff]
    simp only [List.mem_append, List.mem_singleton, or_and_right, exists_or, exists_eq_left]

end Accepted

/-- An event stands for a call: it has the call's time and one number for each field, which is 0 if
the call leaves the field unset and otherwise that of the word which the call gives. -/
structure Encodes (log : Log) (c : Entry) (e : Event) : Prop where
  timestamp : e.timestamp = c.timestamp
  length : e.values.length = log.fields.length
  unset : ∀ (n : Nat) (w : String), c.values[n]? = some w → (e.value n = 0 ↔ w = "")
  word : ∀ (n : Nat) (w : String), c.values[n]? = some w → w ≠ "" → log.word n (e.value n) = .ok w

theorem encodes_eventOf (hc : List.Forall₂ Field.Knows log.fields c.values) :
    log.Encodes c (eventOf log.fields c) := by
  have hvalue : ∀ (n : Nat) (w : String), c.values[n]? = some w → ∃ f, log.fields[n]? = some f
      ∧ f.Knows w ∧ (eventOf log.fields c).value n = f.code w := by
    intro n w hw
    obtain ⟨f, hf, hknows⟩ := exists_left_of_getElem? hc hw
    refine ⟨f, hf, hknows, ?_⟩
    unfold Event.value eventOf code
    rw [List.getElem?_zipWith, hf, hw]
    rfl
  refine ⟨rfl, ?_, fun n w hw => ?_, fun n w hw hne => ?_⟩
  · unfold eventOf code
    rw [List.length_zipWith, ← hc.length_eq, Nat.min_self]
  · obtain ⟨f, -, hknows, hcode⟩ := hvalue n w hw
    rw [hcode, ← f.code_empty, Field.code_inj hknows (.inl rfl)]
  · obtain ⟨f, hf, hknows, hcode⟩ := hvalue n w hw
    rw [hcode, word_eq_ok_iff]
    exact ⟨f, hf, Field.number?_eq_some_iff.1 (Field.code_pos (hknows.resolve_left hne)).1⟩

/-- A field's words have the numbers from 1 on, by which they are found and which are found by them,
and nothing else has a number or is one. -/
structure Lexicon (log : Log) (n : Nat) (f : Field) : Prop where
  word : ∀ (v : Nat) (w : String), log.word n v = .ok w ↔ 1 ≤ v ∧ f.words[v - 1]? = some w
  number : ∀ (v : Nat) (w : String), log.number n w = .ok v ↔ log.word n v = .ok w
  word_error : ∀ v, v = 0 ∨ f.words.length < v →
    log.word n v = .error (.notFound (.valueNumber v f.name))
  number_error : ∀ w ∉ f.words, log.number n w = .error (.notFound (.value w f.name))

theorem lexicon_of_field {n : Nat} {f : Field} (hf : log.fields[n]? = some f) :
    log.Lexicon n f := by
  have hfield : log.field n = .ok f := Layout.field_eq_ok_iff.2 hf
  refine ⟨fun v w => ?_, fun v w => ?_, fun v hv => ?_, fun w hw => ?_⟩
  · rw [word_eq_ok_iff, hf]
    simp only [Option.some.injEq, exists_eq_left']
    unfold Field.word?
    rw [Nat.one_le_iff_ne_zero]
    split
    · next h0 => simp [h0]
    · next h0 => rw [and_iff_right h0]
  · rw [word_eq_ok_iff, Layout.number_eq_ok_iff]
    exact exists_congr fun g => and_congr_right fun _ => Field.number?_eq_some_iff
  · have hnone : f.word? v = none := by
      unfold Field.word?
      rw [ite_eq_left_iff, List.getElem?_eq_none_iff]
      omega
    simp only [word, hfield, bind, Except.bind, hnone]
    rfl
  · simp only [number, hfield, bind, Except.bind, Field.number?_eq_none_iff.2 hw]
    rfl

end Log

namespace History

variable {h : History} {x : EntityId}

/-- The events of an entity are those of the accepted calls for it, sorted by time. -/
theorem eventsOf_log (h : History) (x : EntityId) : h.log.eventsOf x
    = ((h.callsFor x).mergeSort fun c d => c.timestamp ≤ d.timestamp).map
      (Log.eventOf h.log.fields) := by
  refine eq_of_filter_time (Log.eventsOf_ordered _ x) ?_ fun τ => ?_
  · rw [List.pairwise_map]
    exact pairwise_mergeSort_time Entry.timestamp _
  · have htime : (fun e : Event => decide (e.timestamp = τ)) ∘ Log.eventOf h.log.fields
        = fun c : Entry => decide (c.timestamp = τ) := rfl
    rw [List.filter_map, htime, filter_mergeSort_time Entry.timestamp, callsFor_eq, ← log_accepted]
    exact Log.filter_eventsOf_replay x τ fun c hc => (mem_accepted.1 hc).2

theorem encodes_of_callsFor {c : Entry} (hc : c ∈ h.callsFor x) :
    h.log.Encodes c (Log.eventOf h.log.fields c) := by
  rw [callsFor_eq, List.mem_filter] at hc
  obtain ⟨hcalls, hlen⟩ := mem_accepted.1 hc.1
  exact Log.encodes_eventOf ((Layout.records_log h).known c hcalls hlen)

theorem exists_trail_iff : (∃ t, h.log.trail x = .ok t) ↔ ∃ c ∈ h.accepted, x ≤ c.entity := by
  have hsize := Log.lt_size_trails_iff (n := x.toNat) fun c (hc : c ∈ h.accepted) =>
    (mem_accepted.1 hc).2
  rw [log_accepted] at hsize
  simp only [Log.trail_eq_ok_iff, UInt32.le_iff_toNat_le, ← hsize]
  rw [← Option.isSome_iff_exists]
  simp

/-- What a log keeps of the calls that made it. -/
structure Kept (h : History) (log : Log) : Prop where
  names : log.fields.map (·.name) = h.names
  /-- A field's words are the values given for it that are not empty, each where it first came up.
  -/
  words : ∀ (n : Nat) (f : Field), log.fields[n]? = some f → f.words
    = ((h.accepted.map fun c => c.values[n]?.getD "").filter (· ≠ "")).eraseDups
  lexicon : ∀ (n : Nat) (f : Field), log.fields[n]? = some f → log.Lexicon n f
  /-- There are trails up to the highest entity that was given an event. -/
  trail : ∀ x, (∃ t, log.trail x = .ok t) ↔ ∃ c ∈ h.accepted, x ≤ c.entity
  /-- A trail has the events of the calls for it, sorted by time. -/
  events : ∀ x t, log.trail x = .ok t → List.Forall₂ log.Encodes
    ((h.callsFor x).mergeSort fun c d => c.timestamp ≤ d.timestamp) t.events
  unwritten : ∀ x t, log.trail x = .ok t → (∀ c ∈ h.accepted, c.entity ≠ x) → t.events = []

/-- A log keeps of the calls that made it the words of its fields, numbered as they came up, and for
every entity the events of the calls for it, sorted by time. Field numbers and the numbers of words
stay the same whatever calls follow, and a call that has not one value for each field is refused and
changes nothing. -/
theorem kept_log (h : History) : h.Kept h.log
    ∧ (∀ more : List Entry,
      (∀ a, (Log.replay h.names (h.calls ++ more)).fieldNumber a = h.log.fieldNumber a)
        ∧ ∀ n v w, h.log.number n w = .ok v →
          (Log.replay h.names (h.calls ++ more)).number n w = .ok v)
    ∧ ∀ c : Entry, (c.values.length = h.names.length →
        h.log.add c.entity c.timestamp c.values = .ok (Log.replay h.names (h.calls ++ [c])))
      ∧ (c.values.length ≠ h.names.length → h.log.add c.entity c.timestamp c.values
          = .error (.format (.arity c.values.length h.names.length))
        ∧ ∀ more, Log.replay h.names (h.calls ++ c :: more)
          = Log.replay h.names (h.calls ++ more)) := by
  have hlen : h.log.fields.length = h.names.length := Log.length_fields_replay h.names h.calls
  refine ⟨⟨(Layout.records_log h).fields, fun _ _ => words_log, fun _ _ => Log.lexicon_of_field,
    fun _ => exists_trail_iff, fun x t ht => ?_, fun x t ht hnone => ?_⟩, fun more => ?_,
    fun c => ⟨fun hc => ?_, fun hc => ⟨?_, fun more => ?_⟩⟩⟩
  · rw [← Log.eventsOf_of_trail ht, eventsOf_log, List.forall₂_map_right_iff, List.forall₂_same]
    exact fun c hc => encodes_of_callsFor (List.mem_mergeSort.1 hc)
  · have hcalls : h.callsFor x = [] := by
      rw [callsFor_eq, List.filter_eq_nil_iff]
      simpa using hnone
    rw [← Log.eventsOf_of_trail ht, eventsOf_log, hcalls, List.mergeSort_nil, List.map_nil]
  · rw [Log.replay_append]
    have hgrown := Log.extends_foldl more h.log
    exact ⟨hgrown.fieldNumber, fun _ _ _ => hgrown.number⟩
  · rw [Log.replay_append]
    show _ = Except.ok (h.log.record c)
    unfold Log.record Log.add
    rw [dif_pos (hc.trans hlen.symm)]
  · unfold Log.add
    rw [dif_neg (hlen ▸ hc), hlen]
  · rw [Log.replay_append, Log.replay_append, List.foldl_cons]
    show more.foldl Log.record (h.log.record c) = more.foldl Log.record h.log
    rw [Log.record_refused (hlen ▸ hc)]

/-- Of the visits at time 5, which come in after that at time 9, the one with the unset value comes
first. -/
example : (Log.replay ["c"] [⟨2, 9, ["n"]⟩, ⟨2, 5, [""]⟩, ⟨2, 5, ["b"]⟩, ⟨0, 1, []⟩]).eventsOf 2
    = [⟨5, [0]⟩, ⟨5, [2]⟩, ⟨9, [1]⟩] := by decide

end History

end Cohort
