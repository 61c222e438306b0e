import Cohort.Proofs.Chronicle
import Cohort.Proofs.Filters

/-!
# What the text of a filter lists

A term states a condition if it has a `=` (`Condition.parse_eq_ok_iff`), and a log has an item for
the condition if it has the field and the value is one of the field's words
(`Condition.exists_resolve_iff`). A text all of whose terms are such is that of a filter
(`Filter.exists_parse_iff`); a term without a `=` is refused before any other is looked up
(`Filter.exists_parse_error`). Of the events that the log made of its calls, a filter accepts those
whose calls its formula is true of (`History.accepts_eventOf`), so what it lists of the log can be
read off the calls (`History.matching_text`).
-/

namespace Cohort

open Text

namespace Condition

variable {log : Log} {k : Condition} {t : String}

/-- A term states a condition: what stands before and after the first `=`, without the blanks
around. -/
def Stated (t : String) (k : Condition) : Prop :=
  ∃ a v, t.toList = a ++ '=' :: v ∧ '=' ∉ a
    ∧ k = ⟨String.ofList (trim a), String.ofList (trim v)⟩

theorem parse_eq_ok_iff : parse t = .ok k ↔ Stated t k := by
  unfold parse
  constructor
  · intro h
    split at h
    · next a v hcut =>
      obtain ⟨happ, hnot⟩ := eq_append_of_cut hcut
      exact ⟨a, v, happ, hnot, (Except.ok.inj h).symm⟩
    · exact nomatch h
  · rintro ⟨a, v, happ, hnot, rfl⟩
    rw [happ, cut_append hnot]

theorem parse_eq_error_iff {e : Error} :
    parse t = .error e ↔ '=' ∉ t.toList ∧ e = .format (.condition t) := by
  unfold parse
  rw [← cut_eq_none_iff]
  cases cut '=' t.toList <;> simp [eq_comm]

/-- A log has an item for a condition when it has the field and the value is one of its words. -/
theorem exists_resolve_iff : (∃ i, k.resolve log = .ok i)
    ↔ k.field ∈ log.fields.map (·.name) ∧ k.value ∈ log.wordsOf k.field := by
  unfold resolve Log.item
  simp only [bind_eq_ok_iff, pure_eq_ok_iff]
  constructor
  · rintro ⟨i, n, hn, v, hv, -⟩
    exact ⟨Layout.exists_fieldNumber_iff.1 ⟨n, hn⟩, (Layout.exists_number_iff hn).1 ⟨v, hv⟩⟩
  · rintro ⟨hfield, hvalue⟩
    obtain ⟨n, hn⟩ := Layout.exists_fieldNumber_iff.2 hfield
    obtain ⟨v, hv⟩ := (Layout.exists_number_iff hn).2 hvalue
    exact ⟨_, n, hn, v, hv, rfl⟩

end Condition

namespace Filter

variable {log : Log} {text : String} {filter : Filter}

/-- A text can be read as a filter: it is a formula's, and each of its terms states a condition on a
field of the log, with one of the field's words for the value. -/
structure Readable (log : Log) (text : String) : Prop where
  formula : ∃ f, Formula.parse .standard text = .ok f
  term : ∀ t ∈ Database.terms text, ∃ k, Condition.Stated t k
    ∧ k.field ∈ log.fields.map (·.name) ∧ k.value ∈ log.wordsOf k.field

theorem Readable.of_literal (h : Readable log text) {f : Formula String}
    (hf : Formula.parse .standard text = .ok f) {l : Literal String} (hl : l ∈ f.literals) :
    ∃ k, Condition.parse l.term = .ok k
      ∧ k.field ∈ log.fields.map (·.name) ∧ k.value ∈ log.wordsOf k.field := by
  obtain ⟨k, hk, hknown⟩ := (Database.forall_literals_iff hf).2 h.term l hl
  exact ⟨k, Condition.parse_eq_ok_iff.2 hk, hknown⟩

/-- What a term of such a text states is known to the log. -/
theorem Readable.known (h : Readable log text) {f : Formula String}
    (hf : Formula.parse .standard text = .ok f) {l : Literal String} (hl : l ∈ f.literals)
    {k : Condition} (hk : Condition.parse l.term = .ok k) :
    k.field ∈ log.fields.map (·.name) ∧ k.value ∈ log.wordsOf k.field := by
  obtain ⟨k', hk', hknown⟩ := h.of_literal hf hl
  obtain rfl : k = k' := Except.ok.inj (hk.symm.trans hk')
  exact hknown

theorem parse_eq_ok_iff : parse log text = .ok filter ↔ ∃ f g,
    Formula.parse .standard text = .ok f ∧ f.tryMap Condition.parse = .ok g
      ∧ compile log g = .ok filter := by
  unfold parse
  simp only [bind_eq_ok_iff, Database.read_eq_ok_iff]
  exact ⟨fun ⟨f, hf, g, hg, h⟩ => ⟨f, g, hf, hg, h⟩, fun ⟨f, g, hf, hg, h⟩ => ⟨f, hf, g, hg, h⟩⟩

theorem exists_parse_iff : (∃ filter, parse log text = .ok filter) ↔ Readable log text := by
  simp only [parse_eq_ok_iff]
  constructor
  · rintro ⟨filter, f, g, hf, hg, hfilter⟩
    refine ⟨⟨f, hf⟩, (Database.forall_literals_iff hf).1 fun l hl => ?_⟩
    obtain ⟨k, hk⟩ := Formula.exists_tryMap_iff.1 ⟨g, hg⟩ l hl
    have hlk := (Formula.mem_literals_tryMap hg).2 ⟨l, hl, k, hk, rfl⟩
    exact ⟨k, Condition.parse_eq_ok_iff.1 hk,
      Condition.exists_resolve_iff.1 (exists_compile_iff.1 ⟨filter, hfilter⟩ _ hlk)⟩
  · intro h
    obtain ⟨f, hf⟩ := h.formula
    obtain ⟨g, hg⟩ := Formula.exists_tryMap_iff.2 fun l hl => by
      obtain ⟨k, hk, -⟩ := h.of_literal hf hl
      exact ⟨k, hk⟩
    obtain ⟨filter, hfilter⟩ := exists_compile_iff.2 fun m hm => by
      obtain ⟨l, hl, k, hk, rfl⟩ := (Formula.mem_literals_tryMap hg).1 hm
      exact Condition.exists_resolve_iff.2 (h.known hf hl hk)
    exact ⟨filter, f, g, hf, hg, hfilter⟩

/-- All terms are read as conditions before any of them is looked up, so a term without a `=` is
what the error names, whatever the log has items for. -/
theorem exists_parse_error {f : Formula String} (hf : Formula.parse .standard text = .ok f)
    (h : ∃ t ∈ Database.terms text, '=' ∉ t.toList) : ∃ t ∈ Database.terms text, '=' ∉ t.toList
      ∧ ∀ log, parse log text = .error (.format (.condition t)) := by
  cases hg : f.tryMap Condition.parse with
  | ok g =>
    obtain ⟨t, ht, hnot⟩ := h
    have hterm : ∀ t ∈ Database.terms text, ∃ k, Condition.parse t = .ok k :=
      (Database.forall_literals_iff hf).1 (Formula.exists_tryMap_iff.1 ⟨g, hg⟩)
    obtain ⟨k, hk⟩ := hterm t ht
    obtain ⟨a, v, happ, -⟩ := Condition.parse_eq_ok_iff.1 hk
    exact absurd (happ ▸ List.mem_append_right a List.mem_cons_self) hnot
  | error e =>
    obtain ⟨l, hl, he⟩ := Formula.exists_of_tryMap_error hg
    obtain ⟨hnot, rfl⟩ := Condition.parse_eq_error_iff.1 he
    have hterm : l.term ∈ Database.terms text :=
      (Database.forall_literals_iff hf (p := (· ∈ Database.terms text))).2 (fun _ ht => ht) l hl
    refine ⟨l.term, hterm, hnot, fun log => ?_⟩
    unfold parse
    rw [Database.read_eq_ok_iff.2 hf]
    show (f.tryMap Condition.parse >>= compile log) = _
    rw [hg]
    rfl

end Filter

namespace History

variable {h : History} {c : Entry} {k : Condition} {text : String} {filter : Filter}

/-- Whether a call meets the condition that a term states. -/
def meets (h : History) (c : Entry) (term : String) : Bool :=
  (Condition.parse term).toOption.any fun k => h.value c k.field == k.value

/-- An event meets a condition when its call gives the field the value. -/
theorem holds_eventOf (hc : c ∈ h.accepted) (hfield : k.field ∈ h.log.fields.map (·.name))
    (hvalue : k.value ∈ h.log.wordsOf k.field) :
    Condition.holds h.log (Log.eventOf h.log.fields c) k = (h.value c k.field == k.value) := by
  obtain ⟨n, hn⟩ := Layout.exists_fieldNumber_iff.2 hfield
  obtain ⟨hcall, hlen⟩ := mem_accepted.1 hc
  obtain ⟨hcode, hknows⟩ := Layout.value_eventOf hcall hlen hn
  obtain ⟨f, hf, -, hw⟩ := Layout.exists_field hn
  have hword : h.log.KnowsIn k.field k.value := ⟨n, f, hn, hf, .inr (hw ▸ hvalue)⟩
  rw [Bool.eq_iff_iff, Layout.holds_iff hn hvalue, hcode, Log.codeIn_inj hknows hword, beq_iff_eq]

/-- A filter accepts an event when its formula is true of what the call meets. -/
theorem accepts_eventOf (hfilter : Filter.parse h.log text = .ok filter) {f : Formula String}
    (hf : Formula.parse .standard text = .ok f) (hc : c ∈ h.accepted) :
    filter.accepts (Log.eventOf h.log.fields c) = f.eval (h.meets c) := by
  obtain ⟨f', g, hf', hg, hcompile⟩ := Filter.parse_eq_ok_iff.1 hfilter
  obtain rfl : f = f' := Except.ok.inj (hf.symm.trans hf')
  rw [Filter.accepts_compile hcompile]
  refine Formula.eval_of_tryMap hg fun l hl k hk => ?_
  obtain ⟨hfield, hvalue⟩ := (Filter.exists_parse_iff.1 ⟨_, hfilter⟩).known hf hl hk
  rw [holds_eventOf hc hfield hvalue]
  unfold meets
  rw [hk]
  rfl

theorem exists_mem_eventsOf_iff {x : EntityId} {p : Event → Prop} :
    (∃ e ∈ h.log.eventsOf x, p e) ↔ ∃ c ∈ h.callsFor x, p (Log.eventOf h.log.fields c) := by
  rw [eventsOf_log]
  simp only [List.mem_map, List.mem_mergeSort, exists_exists_and_eq_and]

/-- A text is read as a filter exactly when it is a formula's and each of its terms states a
condition on a field of the log, with one of the field's words. The filter lists, in ascending
order, the entities with a call that the formula is true of when a term asks whether the call gives
the field the value; an entity without events is not among them. -/
theorem matching_text (h : History) (text : String) :
    ((∃ filter, Filter.parse h.log text = .ok filter) ↔ Filter.Readable h.log text)
      ∧ ∀ filter, Filter.parse h.log text = .ok filter →
        ∃ f, Formula.parse .standard text = .ok f
          ∧ (h.log.matching filter.accepts).Pairwise (· < ·)
          ∧ (∀ x, x ∈ h.log.matching filter.accepts
            ↔ ∃ c ∈ h.callsFor x, f.eval (h.meets c) = true)
          ∧ ∀ x, h.log.eventsOf x = [] → x ∉ h.log.matching filter.accepts := by
  refine ⟨Filter.exists_parse_iff, fun filter hfilter => ?_⟩
  obtain ⟨f, -, hf, -⟩ := Filter.parse_eq_ok_iff.1 hfilter
  refine ⟨f, hf, Log.matching_ascending _ _, fun x => ?_, fun x hx => ?_⟩
  · rw [Log.mem_matching, exists_mem_eventsOf_iff]
    refine exists_congr fun c => and_congr_right fun hc => ?_
    rw [callsFor_eq, List.mem_filter] at hc
    rw [accepts_eventOf hfilter hf hc.1]
  · rw [Log.mem_matching, hx]
    exact fun ⟨_, he, _⟩ => nomatch he

theorem matching_text_visits : ∃ filter f,
    Filter.parse Database.visits.log " ~ c = n | k=w" = .ok filter
      ∧ Formula.parse .standard " ~ c = n | k=w" = .ok f
      ∧ ∀ x, x ∈ Database.visits.log.matching filter.accepts
        ↔ ∃ c ∈ Database.visits.callsFor x, f.eval (Database.visits.meets c) = true := by
  have hread : Expression.parse (" ~ c = n | k=w".toList.map Dialect.standard.sign)
      = .ok (some (.or (.not (.term "c = n")) (.term "k=w"))) := by decide +kernel
  have hliterals : ((Formula.term "c = n").not.or (Formula.term "k=w")).literals
      = [.negative "c = n", .plain "k=w"] := by cbv
  let k (t : String) : Condition := if t = "c = n" then ⟨"c", "n"⟩ else ⟨"k", "w"⟩
  have hk : ∀ l ∈ ((Formula.term "c = n").not.or (Formula.term "k=w")).literals,
      Condition.parse l.term = .ok (k l.term) := by
    rw [hliterals]
    decide +kernel
  have hfilter : Filter.parse Database.visits.log " ~ c = n | k=w"
      = .ok ⟨[[(⟨0, 1⟩, true), (⟨1, 2⟩, false)]]⟩ :=
    Filter.parse_eq_ok_iff.2
      ⟨_, _, Formula.parse_of_expression hread, Formula.tryMap_eq_map hk, by cbv⟩
  obtain ⟨f, hf, -, hmem, -⟩ := (matching_text Database.visits _).2 _ hfilter
  exact ⟨_, f, hfilter, hf, hmem⟩

/-- Only entity 0 has a visit with another value than `n`. -/
example : Database.visits.log.matching (Filter.mk [[(⟨0, 1⟩, true)]]).accepts = [0] := by decide

end History

end Cohort
