import Cohort.Log.Filter
import Cohort.Proofs.Answers
import Cohort.Proofs.LeafIdentity
import Cohort.Proofs.Leaves

/-!
# Filters and the index

A compiled filter accepts an event exactly when the formula is true of which conditions the event
meets (`Filter.accepts_compile`). The conditions of a key whose fields are those of a key group are
met by the events that land in the key's funnel (`Layout.lands_iff_conditions`), so the entities
that a log lists for them, event by event, are those that an index lists for the key, and with a
value of the mask field those that it lists for the key and this value
(`Database.matching_conditions`).
-/

namespace Cohort

theorem all_rel {α β : Type} {R : α → β → Prop} {p : α → Bool} {q : β → Bool}
    (h : ∀ a b, R a b → p a = q b) {l : List α} {m : List β} (hR : List.Forall₂ R l m) :
    l.all p = m.all q := by
  induction hR with
  | nil => rfl
  | cons hab _ ih => rw [List.all_cons, List.all_cons, h _ _ hab, ih]

theorem any_rel {α β : Type} {R : α → β → Prop} {p : α → Bool} {q : β → Bool}
    (h : ∀ a b, R a b → p a = q b) {l : List α} {m : List β} (hR : List.Forall₂ R l m) :
    l.any p = m.any q := by
  induction hR with
  | nil => rfl
  | cons hab _ ih => rw [List.any_cons, List.any_cons, h _ _ hab, ih]

/-- Whether an event of a log meets a condition. -/
def Condition.holds (log : Log) (e : Event) (c : Condition) : Bool :=
  (c.resolve log).toOption.any e.has

namespace Filter

variable {log : Log} {f : Formula Condition} {filter : Filter}

/-- A filter accepts an event exactly when its formula is true of the conditions that the event
meets. -/
theorem accepts_compile (h : compile log f = .ok filter) (e : Event) :
    filter.accepts e = f.eval (Condition.holds log e) := by
  unfold compile at h
  simp only [bind_eq_ok_iff, pure_eq_ok_iff, mapM_eq_ok_iff] at h
  obtain ⟨cs, hcs, rfl⟩ := h
  refine (all_rel (fun c items hc => ?_) hcs).symm
  refine any_rel (fun l i hl => ?_) hc
  obtain ⟨item, hitem, rfl⟩ := hl
  unfold Literal.holds Condition.holds
  rw [hitem]
  rfl

/-- A formula is a filter when the log has an item for each of its conditions. -/
theorem exists_compile_iff : (∃ filter, compile log f = .ok filter)
    ↔ ∀ l ∈ f.literals, ∃ i, l.term.resolve log = .ok i := by
  unfold compile Formula.literals
  simp only [exists_bind_pure_iff, exists_mapM_iff, List.forall_mem_flatMap]

/-- Conditions that a log has items for are met all together. -/
theorem exists_compile_allOf {cs : List Condition} (h : ∀ c ∈ cs, ∃ i, c.resolve log = .ok i) :
    ∃ filter, compile log (.allOf cs) = .ok filter
      ∧ ∀ e, filter.accepts e = true ↔ ∀ c ∈ cs, c.holds log e = true := by
  obtain ⟨filter, hfilter⟩ := exists_compile_iff.2 fun l
      (hl : l ∈ (Formula.allOf cs).literals) => by
    obtain ⟨_, hc, hl⟩ := Formula.term_of_mem_literals_ofClauses hl
    obtain ⟨c, hmem, rfl⟩ := List.mem_map.1 hc
    obtain rfl := SortedSet.mem_singleton.1 hl
    exact h c hmem
  refine ⟨filter, hfilter, fun e => ?_⟩
  rw [accepts_compile hfilter, Formula.eval_allOf, List.all_eq_true]

end Filter

/-- The conditions that a key's pairs state. -/
def Key.conditions (k : Key) : List Condition := k.pairs.map fun p => ⟨p.1, p.2⟩

namespace Layout

variable {log : Log} {config : Config} {layout : Layout} {key : Key} {f : FunnelId} {e : Event}

section Conditions

variable {a v : String} {n : Nat}

theorem number_of_word (ha : log.fieldNumber a = .ok n) (hv : v ∈ log.wordsOf a) :
    log.number n v = .ok (log.codeIn a v) := by
  obtain ⟨f, hf, -, hw⟩ := exists_field ha
  rw [number_eq_ok_iff]
  exact ⟨f, hf, by rw [codeIn_eq_code ha hf, (Field.code_pos (hw ▸ hv)).1]⟩

theorem resolve_condition (ha : log.fieldNumber a = .ok n) (hv : v ∈ log.wordsOf a) :
    Condition.resolve log ⟨a, v⟩ = .ok ⟨n, log.codeIn a v⟩ := by
  unfold Condition.resolve Log.item
  rw [ha]
  show (do return Item.mk n (← log.number n v)) = _
  rw [number_of_word ha hv]
  rfl

theorem holds_iff (ha : log.fieldNumber a = .ok n) (hv : v ∈ log.wordsOf a) :
    Condition.holds log e ⟨a, v⟩ = true ↔ e.value n = log.codeIn a v := by
  unfold Condition.holds
  rw [resolve_condition ha hv]
  exact beq_iff_eq

end Conditions

theorem Numbered.map_eq_iff {as : List String} {ns : List Nat} (h : Numbered log as ns)
    {v : Nat → Nat} {w : String → Nat} : ns.map v = as.map w
      ↔ ∀ a ∈ as, ∀ n, log.fieldNumber a = .ok n → v n = w a := by
  induction h with
  | nil => simp
  | cons ha _ ih =>
    rw [List.map_cons, List.map_cons, List.cons.injEq, ih, List.forall_mem_cons, ha]
    simp only [Except.ok.injEq, forall_eq']

/-- Fields that are exactly those of some group address such a group. -/
theorem exact_of_place {as : List String} {g k : KeyGroup} {i : Nat} (hg : g ∈ config.keys)
    (has : ∀ a, a ∈ as ↔ a ∈ g.names) (hp : config.place? as = some i)
    (hk : config.keys[i]? = some k) : ∀ a, a ∈ as ↔ a ∈ k.names := by
  have hexact : ∀ k : KeyGroup, (as.all k.names.contains && k.names.all as.contains) = true
      ↔ ∀ a, a ∈ as ↔ a ∈ k.names := by
    intro k
    simp only [Bool.and_eq_true, List.all_eq_true, List.contains_iff_mem]
    exact ⟨fun h a => ⟨h.1 a, h.2 a⟩, fun h => ⟨fun a => (h a).1, fun a => (h a).2⟩⟩
  unfold Config.place? at hp
  rcases Option.or_eq_some_iff.1 hp with hp | ⟨hp, -⟩
  · obtain ⟨hlt, hi, -⟩ := List.findIdx?_eq_some_iff_getElem.1 hp
    obtain rfl : config.keys[i] = k := by simpa [hlt] using hk
    exact (hexact _).1 hi
  · rw [List.findIdx?_eq_none_iff] at hp
    exact absurd ((hexact g).2 has) (by simp [hp g hg])

/-- An event lands in a key's funnel exactly when it meets the key's conditions. -/
theorem lands_iff_conditions (hd : layout.Describes log config)
    (hf : layout.resolve log key = .ok f) {g : KeyGroup} (hg : g ∈ config.keys)
    (hkey : ∀ a, a ∈ key.pairs.map (·.1) ↔ a ∈ g.names) (he : e.Coded log.fields) :
    layout.lands f e = true ↔ ∀ c ∈ key.conditions, c.holds log e = true := by
  obtain ⟨i, gl, k, hi, hdk, hplace, hk, ha, -⟩ := exists_address_of_resolve hd hf
  have hexact := exact_of_place hg hkey hplace hk
  have hadm := (exists_resolve_iff hd).1 ⟨f, hf⟩
  have hholds : ∀ p ∈ key.pairs, Condition.holds log e ⟨p.1, p.2⟩ = true
      ↔ ∀ n, log.fieldNumber p.1 = .ok n → e.value n = log.codeIn p.1 (key.value p.1) := by
    intro p hp
    obtain ⟨n, hn⟩ := exists_fieldNumber_iff.2 (hadm.known p hp)
    rw [Key.value_of_mem hadm.distinct hp, holds_iff hn (hadm.words p hp), hn]
    simp only [Except.ok.injEq, forall_eq']
  unfold Key.conditions
  rw [lands_iff hd he ha hi, (numbered_fields hdk).map_eq_iff, List.forall_mem_map]
  simp only [← hexact, List.forall_mem_map]
  exact (forall₂_congr hholds).symm

end Layout

namespace Log

variable {log : Log} {x : EntityId} {accepts : Event → Bool}

theorem toNat_ofNat_trail {n : Nat} (h : n < log.trails.size) : (UInt32.ofNat n).toNat = n :=
  UInt32.toNat_ofNat_of_lt' (Nat.lt_of_lt_of_le h log.addressable)

theorem mem_numberedTrails {t : Trail} :
    (x, t) ∈ log.numberedTrails ↔ log.trails[x.toNat]? = some t := by
  unfold numberedTrails
  simp only [List.mem_map, List.mem_zipIdx_iff_getElem?, Array.getElem?_toList, Prod.mk.injEq]
  constructor
  · rintro ⟨⟨u, n⟩, hn, rfl, rfl⟩
    obtain ⟨hlt, -⟩ := Array.getElem?_eq_some_iff.1 hn
    rwa [toNat_ofNat_trail hlt]
  · exact fun h => ⟨(t, x.toNat), h, UInt32.ofNat_toNat, rfl⟩

theorem numberedTrails_ascending (log : Log) :
    (log.numberedTrails.map (·.1)).Pairwise (· < ·) := by
  have hnumbers : log.numberedTrails.map (·.1)
      = (List.range' 0 log.trails.size).map UInt32.ofNat := by
    unfold numberedTrails
    rw [List.map_map, ← Array.length_toList, ← List.zipIdx_map_snd, List.map_map]
    rfl
  rw [hnumbers, List.pairwise_map]
  refine List.Pairwise.imp_of_mem (fun ha hb hlt => ?_) (List.pairwise_lt_range' 1)
  rw [List.mem_range'_1, Nat.zero_add] at ha hb
  rwa [UInt32.lt_iff_toNat_lt, toNat_ofNat_trail ha.2, toNat_ofNat_trail hb.2]

/-- An entity is listed when one of its events is accepted. -/
theorem mem_matching : x ∈ log.matching accepts ↔ ∃ e ∈ log.eventsOf x, accepts e = true := by
  unfold matching eventsOf
  simp only [List.mem_map, List.mem_filter, List.any_eq_true, Prod.exists, mem_numberedTrails]
  constructor
  · rintro ⟨y, t, ⟨ht, he⟩, rfl⟩
    rw [ht]
    exact he
  · rintro ⟨e, he, hacc⟩
    cases ht : log.trails[x.toNat]? with
    | none => simp [ht] at he
    | some t =>
      rw [ht] at he
      exact ⟨x, t, ⟨ht, e, he, hacc⟩, rfl⟩

theorem coded_of_mem_eventsOf {e : Event} (he : e ∈ log.eventsOf x) : e.Coded log.fields := by
  unfold eventsOf at he
  cases ht : log.trails[x.toNat]? with
  | none => simp [ht] at he
  | some t =>
    rw [ht] at he
    exact log.coded t (Array.mem_of_getElem? ht) e he

theorem matching_ascending (log : Log) (accepts : Event → Bool) :
    (log.matching accepts).Pairwise (· < ·) := by
  unfold matching
  exact (numberedTrails_ascending log).sublist (List.filter_sublist.map _)

end Log

namespace Database

variable {log : Log} {config : Config} {db : Database Index} {key : Key} {f : FunnelId}
  {test : MaskTest} {accepts : Event → Bool}

/-- What a leaf has by single events is what the log lists for these events. -/
theorem elements_eq_matching (hf : db.layout.resolve db.log key = .ok f)
    (h : ∀ x, db.index.has x (.leaf ⟨f, test⟩) = true
      ↔ ∃ e ∈ db.log.eventsOf x, accepts e = true) :
    ∃ els : List Element, db.elements (.leaf ⟨f, test⟩) = .ok (els.map .ok)
      ∧ db.log.matching accepts = els.map (·.id) := by
  have hcovers : db.index.Covers (.leaf ⟨f, test⟩) := covers_leaf (lt_of_resolve hf)
  obtain ⟨els, hels, hids, -⟩ := evaluates_of_covers hcovers
  refine ⟨els, hels, ?_⟩
  rw [hids]
  refine eq_of_ascending (Log.matching_ascending _ _) (Index.members_ascending _ _) fun x => ?_
  rw [Log.mem_matching, Index.mem_members_leaf_iff, h]

section Build

variable (hdb : Database.build log config = .ok db)

include hdb

/-- A leaf of a built index has an entity by the events that land in its funnel. -/
theorem has_leaf_of_build (x : EntityId) : db.index.has x (.leaf ⟨f, test⟩) = true
    ↔ (db.log.eventsOf x).filter (db.layout.lands f) ≠ [] ∧ test.accepts
      (db.layout.maskOf ((db.log.eventsOf x).filter (db.layout.lands f))) = true := by
  obtain ⟨rfl, hl, hi⟩ := of_build hdb
  rw [Index.has_leaf, Index.mask?_of_build hl hi]
  unfold Layout.maskIn?
  by_cases hnil : (db.log.eventsOf x).filter (db.layout.lands f) = []
  · simp [hnil]
  · simp [hnil, List.isEmpty_iff]

/-- The entities of a key's leaf are those with an event that meets the key's conditions. -/
theorem has_key_iff (hf : db.layout.resolve db.log key = .ok f) {g : KeyGroup}
    (hg : g ∈ config.keys) (hkey : ∀ a, a ∈ key.pairs.map (·.1) ↔ a ∈ g.names) (x : EntityId) :
    db.index.has x (.leaf ⟨f, .always⟩) = true
      ↔ ∃ e ∈ db.log.eventsOf x, ∀ c ∈ key.conditions, c.holds db.log e = true := by
  obtain ⟨rfl, hl, -⟩ := of_build hdb
  have hd := Layout.describes_of_build hl
  have halways : ∀ m, MaskTest.always.accepts m = true := fun m => rfl
  have hne : ∀ es : List Event, es ≠ [] ↔ ∃ e, e ∈ es := fun es =>
    ⟨List.exists_mem_of_ne_nil es, fun ⟨_, he⟩ => List.ne_nil_of_mem he⟩
  rw [has_leaf_of_build hdb, and_iff_left (halways _), hne]
  simp only [List.mem_filter]
  refine exists_congr fun e => and_congr_right fun he => ?_
  exact Layout.lands_iff_conditions hd hf hg hkey (Log.coded_of_mem_eventsOf he)

/-- The test for a value of the mask field passes the masks with the value's position. -/
theorem exists_maskTest {field v : String} (hm : config.maskField = some field)
    (hv : v ∈ db.log.wordsOf field) : ∃ n test, db.log.fieldNumber field = .ok n
      ∧ db.maskTest (.term v) = .ok test
      ∧ ∀ es, test.accepts (db.layout.maskOf es) = true
        ↔ ∃ e ∈ es, e.value n = db.log.codeIn field v := by
  have hmask : db.config.maskField = some field := config_of_build hdb ▸ hm
  obtain ⟨i, hlt, hi⟩ := exists_position_iff.2 ⟨field, hmask, hv⟩
  obtain ⟨n, -, hn, hfield, -⟩ := exists_maskField hmask
  obtain ⟨n', hn', hnumber⟩ := maskPosition_eq_ok_iff.1 hi
  obtain rfl : n = n' := by simpa [hn] using hn'
  obtain rfl : i = db.log.codeIn field v :=
    Except.ok.inj (hnumber.symm.trans (Layout.number_of_word hfield hv))
  -- the code 0 of an unset field sets no position, so it has to be excluded
  have hpos : db.log.codeIn field v ≠ 0 := ((maskPosition_iff hmask).1 hi).1
  have hterm : ∀ w ∈ (Formula.term v).terms, db.HasMaskWord w := by
    intro w hw
    obtain ⟨l, hl, rfl⟩ := Formula.mem_terms.1 hw
    rw [Formula.literals_term, List.mem_singleton] at hl
    exact hl ▸ ⟨field, hmask, hv⟩
  obtain ⟨test, htest⟩ := exists_maskTest_iff.2 hterm
  refine ⟨n, test, hfield, htest, fun es => ?_⟩
  rw [MaskTest.accepts_compile htest, Formula.eval_term, MaskTest.reading_of_ok hi,
    Layout.getLsbD_maskOf, hn]
  simp [hpos, hlt]

/-- With a value of the mask field, they are those with such an event that has the value as well. -/
theorem exists_key_value (hf : db.layout.resolve db.log key = .ok f) {g : KeyGroup}
    (hg : g ∈ config.keys) (hkey : ∀ a, a ∈ key.pairs.map (·.1) ↔ a ∈ g.names) {field v : String}
    (hm : config.maskField = some field) (hv : v ∈ db.log.wordsOf field) :
    ∃ test, db.maskTest (.term v) = .ok test ∧ ∀ x,
      db.index.has x (.leaf ⟨f, test⟩) = true ↔ ∃ e ∈ db.log.eventsOf x,
        ∀ c ∈ key.conditions ++ [⟨field, v⟩], c.holds db.log e = true := by
  obtain ⟨n, test, hn, htest, haccepts⟩ := exists_maskTest hdb hm hv
  refine ⟨test, htest, fun x => ?_⟩
  have hl := (of_build hdb).2.1
  rw [← (of_build hdb).1] at hl
  have hd := Layout.describes_of_build hl
  -- the test asks for an event that lands, so that one does need not be asked as well
  rw [has_leaf_of_build hdb, haccepts, and_iff_right_of_imp]
  · simp only [List.mem_filter, and_assoc]
    refine exists_congr fun e => and_congr_right fun he => ?_
    rw [Layout.lands_iff_conditions hd hf hg hkey (Log.coded_of_mem_eventsOf he),
      List.forall_mem_append, List.forall_mem_singleton, Layout.holds_iff hn hv]
  · rintro ⟨e, he, -⟩
    exact List.ne_nil_of_mem he

end Build

/-- The filter of a key's conditions lists, of the entities of a log, those that an index built from
it has for the key, if the key's fields are those of a key group. With a value of the mask field, it
lists those that the index has for the key and this value. -/
theorem matching_conditions (log : Log) (config : Config) (db : Database Index)
    (hdb : Database.build log config = .ok db) (key : Key) (f : FunnelId)
    (hf : db.funnelOf (.key key) = .ok f) (g : KeyGroup) (hg : g ∈ config.keys)
    (hkey : ∀ a, a ∈ key.pairs.map (·.1) ↔ a ∈ g.names) :
    (∃ (l : Leaf) (filter : Filter) (els : List Element), db.select (.key key) .always = .ok l
        ∧ Filter.compile db.log (.allOf key.conditions) = .ok filter
        ∧ db.elements (.leaf l) = .ok (els.map .ok)
        ∧ db.log.matching filter.accepts = els.map (·.id))
      ∧ ∀ field v, config.maskField = some field → v ∈ db.log.wordsOf field →
        ∃ (l : Leaf) (filter : Filter) (els : List Element),
          db.select (.key key) (.term v) = .ok l
            ∧ Filter.compile db.log (.allOf (key.conditions ++ [⟨field, v⟩])) = .ok filter
            ∧ db.elements (.leaf l) = .ok (els.map .ok)
            ∧ db.log.matching filter.accepts = els.map (·.id) := by
  have hadm := (Layout.exists_resolve_iff (Layout.describes_of_build db.layout_eq)).1 ⟨f, hf⟩
  have hitems : ∀ c ∈ key.conditions, ∃ i, c.resolve db.log = .ok i := by
    unfold Key.conditions
    rw [List.forall_mem_map]
    intro p hp
    obtain ⟨n, hn⟩ := Layout.exists_fieldNumber_iff.2 (hadm.known p hp)
    exact ⟨_, Layout.resolve_condition hn (hadm.words p hp)⟩
  have hselect : ∀ {mask test}, db.maskTest mask = .ok test →
      db.select (.key key) mask = .ok ⟨f, test⟩ := by
    intro mask test htest
    unfold select
    rw [hf, htest]
    rfl
  refine ⟨?_, fun field v hm hv => ?_⟩
  · obtain ⟨filter, hfilter, haccepts⟩ := Filter.exists_compile_allOf hitems
    have hhas : ∀ x, db.index.has x (.leaf ⟨f, .always⟩) = true
        ↔ ∃ e ∈ db.log.eventsOf x, filter.accepts e = true := by
      simpa only [haccepts] using has_key_iff hdb hf hg hkey
    obtain ⟨els, hels, hids⟩ := elements_eq_matching hf hhas
    exact ⟨_, filter, els, hselect rfl, hfilter, hels, hids⟩
  · obtain ⟨n, -, hn, -⟩ := exists_maskTest hdb hm hv
    have hall : ∀ c ∈ key.conditions ++ [⟨field, v⟩], ∃ i, c.resolve db.log = .ok i :=
      List.forall_mem_append.2
        ⟨hitems, List.forall_mem_singleton.2 ⟨_, Layout.resolve_condition hn hv⟩⟩
    obtain ⟨filter, hfilter, haccepts⟩ := Filter.exists_compile_allOf hall
    obtain ⟨test, htest, hkeyed⟩ := exists_key_value hdb hf hg hkey hm hv
    have hhas : ∀ x, db.index.has x (.leaf ⟨f, test⟩) = true
        ↔ ∃ e ∈ db.log.eventsOf x, filter.accepts e = true := by
      simpa only [haccepts] using hkeyed
    obtain ⟨els, hels, hids⟩ := elements_eq_matching hf hhas
    exact ⟨_, filter, els, hselect htest, hfilter, hels, hids⟩

theorem matching_conditions_visits : ∃ db, Database.build visits.log ⟨[.one "c"], some "k"⟩ = .ok db
    ∧ (∃ (l : Leaf) (filter : Filter) (els : List Element),
      db.select (.key ⟨[("c", "n")]⟩) .always = .ok l
        ∧ Filter.compile db.log (.allOf [⟨"c", "n"⟩]) = .ok filter
        ∧ db.elements (.leaf l) = .ok (els.map .ok)
        ∧ db.log.matching filter.accepts = els.map (·.id))
    ∧ ∃ (l : Leaf) (filter : Filter) (els : List Element),
      db.select (.key ⟨[("c", "n")]⟩) (.term "v") = .ok l
        ∧ Filter.compile db.log (.allOf [⟨"c", "n"⟩, ⟨"k", "v"⟩]) = .ok filter
        ∧ db.elements (.leaf l) = .ok (els.map .ok)
        ∧ db.log.matching filter.accepts = els.map (·.id) := by
  have hword : "v" ∈ visits.log.wordsOf "k" := by decide
  obtain ⟨hkey, hvalue⟩ := matching_conditions _ _ _ build_visits ⟨[("c", "n")]⟩ 1 rfl (.one "c")
    (List.mem_singleton_self _) fun a => Iff.rfl
  exact ⟨_, build_visits, hkey, hvalue "k" "v" rfl hword⟩

end Database

end Cohort
