import Cohort.Database.Query
import Cohort.Proofs.Formulas
import Cohort.Proofs.Resolution

/-!
# Leaves, read off the calls

What a leaf asks for can be read off the calls that made the log, without any numbers: which of an
entity's calls match the leaf's key (`History.matching`), and whether its formula is true of the
values that these carry in the mask field (`History.leafHolds`). A call matches exactly when its
event lands in the leaf's funnel (`lands_iff_matches`), and an entity is in the leaf of an index
built from the log exactly when the calls say so (`has_leaf_iff`).
-/

namespace Cohort

/-- A log's field names and the calls that added events to it. -/
structure History where
  names : List String
  calls : List Entry

namespace History

variable (h : History)

/-- The log that the calls give. -/
def log : Log := Log.replay h.names h.calls

/-- The calls for an entity that were not refused. -/
def callsFor (x : EntityId) : List Entry :=
  h.calls.filter fun c => c.values.length = h.names.length ∧ c.entity = x

/-- The value of a call for a field. -/
def value (c : Entry) (field : String) : String := (c.values[h.names.idxOf field]?).getD ""

/-- Whether a call gives every field of a group the value that a key asks for. -/
def agrees (g : KeyGroup) (k : Key) (c : Entry) : Bool :=
  g.names.all fun field => h.value c field == k.value field

/-- The calls for an entity that match a key: those that agree with it on the group that the key's
fields address. -/
def matching (config : Config) (k : Key) (x : EntityId) : List Entry :=
  match config.owner? (k.pairs.map (·.1)) with
  | some g => (h.callsFor x).filter (h.agrees g k)
  | none => []

/-- Whether one of some calls carries a value in the mask field. -/
def carries (config : Config) (cs : List Entry) (v : String) : Bool :=
  match config.maskField with
  | some field => cs.any fun c => h.value c field == v
  | none => false

/-- The key and the formula of a leaf. -/
def readLeaf (text : String) : Except Error (Key × Formula String) := do
  let (key, mask) ← Database.leafParts text
  return (← Key.parse key, ← Formula.read .extended mask)

/-- The calls for an entity that land in a leaf. -/
def landing (config : Config) (text : String) (x : EntityId) : List Entry :=
  match readLeaf text with
  | .ok (k, _) => h.matching config k x
  | .error _ => []

/-- Whether an entity is in the leaf of a key and a formula: some call matches the key, and the
formula is true of the values that the matching calls carry. -/
def keyHolds (config : Config) (k : Key) (f : Formula String) (x : EntityId) : Bool :=
  !(h.matching config k x).isEmpty && f.eval (h.carries config (h.matching config k x))

/-- Whether an entity is in a leaf: in that of the key and the formula that its text gives. -/
def leafHolds (config : Config) (x : EntityId) (text : String) : Bool :=
  match readLeaf text with
  | .ok (k, f) => h.keyHolds config k f x
  | .error _ => false

end History

namespace Layout

variable {h : History} {config : Config} {layout : Layout}

theorem records_log (h : History) : Log.Records h.names h.calls h.log :=
  Log.records_replay h.names h.calls

theorem idxOf_of_fieldNumber {a : String} {n : Nat} (ha : h.log.fieldNumber a = .ok n) :
    h.names.idxOf a = n := by
  rw [fieldNumber_eq_ok_iff, List.findIdx?_eq_some_iff_findIdx_eq] at ha
  rw [← (records_log h).fields, List.idxOf, List.findIdx_map, ← ha.2]
  congr 1

/-- The number of an event's value is that of the value which its call gives. -/
theorem value_eventOf {c : Entry} (hc : c ∈ h.calls) (hl : c.values.length = h.names.length)
    {a : String} {n : Nat} (ha : h.log.fieldNumber a = .ok n) :
    (Log.eventOf h.log.fields c).value n = h.log.codeIn a (h.value c a)
      ∧ h.log.KnowsIn a (h.value c a) := by
  have hknown := (records_log h).known c hc hl
  have hn : n < h.log.fields.length := by
    rw [fieldNumber_eq_ok_iff, List.findIdx?_eq_some_iff_findIdx_eq] at ha
    exact ha.1
  have hv : n < c.values.length := hknown.length_eq ▸ hn
  have hf : h.log.fields[n]? = some h.log.fields[n] := List.getElem?_eq_getElem hn
  have hw : h.value c a = c.values[n] := by
    unfold History.value
    rw [idxOf_of_fieldNumber ha, List.getElem?_eq_getElem hv, Option.getD_some]
  constructor
  · rw [codeIn_of_fieldNumber ha, hw]
    unfold Event.value Log.eventOf Log.code codeAt
    rw [hf, List.getElem?_zipWith, hf, List.getElem?_eq_getElem hv]
    rfl
  · rw [hw]
    exact ⟨n, _, ha, hf, hknown.get hn hv⟩

/-- A call matches a key exactly when its event lands in the key's funnel. -/
theorem lands_iff_matches (hd : layout.Describes h.log config) {k : Key} {f : FunnelId}
    (hf : layout.resolve h.log k = .ok f) {c : Entry} (hc : c ∈ h.calls)
    (hl : c.values.length = h.names.length) :
    layout.lands f (Log.eventOf h.log.fields c) = true
      ↔ ∃ g, config.owner? (k.pairs.map (·.1)) = some g ∧ h.agrees g k c = true := by
  obtain ⟨i, g, o, hg, hdg, hplace, hk, ha, hkey⟩ := exists_address_of_resolve hd hf
  have ho := Config.owner?_eq_some_iff.2 ⟨i, hplace, hk⟩
  have hcoded : (Log.eventOf h.log.fields c).Coded h.log.fields := by
    refine Log.coded_code ?_
    rw [hl, ← (records_log h).fields, List.length_map]
  have hvalues : g.fields.map (Log.eventOf h.log.fields c).value
      = o.names.map fun a => h.log.codeIn a (h.value c a) :=
    (numbered_fields hdg).map_eq fun a n han => (value_eventOf hc hl han).1
  rw [lands_iff hd hcoded ha hg, hvalues, List.map_inj_left, ho]
  simp only [Option.some.injEq, exists_eq_left']
  unfold History.agrees
  rw [List.all_eq_true]
  refine forall₂_congr fun a hmem => ?_
  obtain ⟨d, -, hdn⟩ := exists_right_of_mem hdg.digits hmem
  rw [Log.codeIn_inj (value_eventOf hc hl hdn.number).2 (hkey a hmem), beq_iff_eq]

/-- The events of an entity that land in a key's funnel are those of the calls that match it. -/
theorem mem_landing_iff (hd : layout.Describes h.log config) {k : Key} {f : FunnelId}
    (hf : layout.resolve h.log k = .ok f) {x : EntityId} {e : Event} :
    e ∈ (h.log.eventsOf x).filter (layout.lands f)
      ↔ ∃ c ∈ h.matching config k x, Log.eventOf h.log.fields c = e := by
  have hm : ∀ c, c ∈ h.matching config k x ↔ c ∈ h.callsFor x
      ∧ ∃ g, config.owner? (k.pairs.map (·.1)) = some g ∧ h.agrees g k c = true := by
    intro c
    unfold History.matching
    cases config.owner? (k.pairs.map (·.1)) <;> simp
  rw [List.mem_filter, (records_log h).events]
  simp only [hm]
  unfold History.callsFor
  constructor
  · rintro ⟨⟨c, hc, hl, hx, rfl⟩, hland⟩
    exact ⟨c, ⟨by simp [hc, hl, hx], (lands_iff_matches hd hf hc hl).1 hland⟩, rfl⟩
  · rintro ⟨c, ⟨hc, hg⟩, rfl⟩
    obtain ⟨hc, hlx⟩ := List.mem_filter.1 hc
    obtain ⟨hl, hx⟩ := of_decide_eq_true hlx
    exact ⟨⟨c, hc, hl, hx, rfl⟩, (lands_iff_matches hd hf hc hl).2 hg⟩

end Layout

namespace Database

variable {h : History} {config : Config} {db : Database Index}

theorem mask?_of_resolve (hdb : Database.build h.log config = .ok db) {k : Key} {f : FunnelId}
    (hf : db.layout.resolve db.log k = .ok f) (x : EntityId) :
    ((db.index.mask? f x).isSome = true ↔ h.matching config k x ≠ [])
      ∧ ∀ m, db.index.mask? f x = some m → ∀ i, m.getLsbD i = true ↔ i < 64 ∧ i ≠ 0
        ∧ ∃ n, db.layout.maskField = some n ∧ ∃ c ∈ h.matching config k x,
          (Log.eventOf h.log.fields c).value n = i := by
  obtain ⟨hlog, hlayout, hindex⟩ := of_build hdb
  have hd := Layout.describes_of_build hlayout
  rw [hlog] at hf
  have hland : ∀ e, e ∈ (h.log.eventsOf x).filter (db.layout.lands f)
      ↔ ∃ c ∈ h.matching config k x, Log.eventOf h.log.fields c = e :=
    fun e => Layout.mem_landing_iff hd hf
  have hempty :
      (h.log.eventsOf x).filter (db.layout.lands f) = [] ↔ h.matching config k x = [] := by
    simp only [List.eq_nil_iff_forall_not_mem, hland]
    exact ⟨fun hn c hc => hn _ ⟨c, hc, rfl⟩, fun hn e ⟨c, hc, _⟩ => hn c hc⟩
  rw [Index.mask?_of_build hlayout hindex]
  unfold Layout.maskIn?
  simp only [List.isEmpty_iff, hempty]
  by_cases hm : h.matching config k x = []
  · simp [hm]
  · rw [if_neg hm]
    refine ⟨by simp [hm], fun m hmask i => ?_⟩
    obtain rfl := Option.some.inj hmask
    simp only [Layout.getLsbD_maskOf, hland]
    refine and_congr_right fun _ => and_congr_right fun _ => exists_congr fun n =>
      and_congr_right fun _ => ?_
    constructor
    · rintro ⟨-, ⟨c, hc, rfl⟩, hv⟩
      exact ⟨c, hc, hv⟩
    · rintro ⟨c, hc, hv⟩
      exact ⟨_, ⟨c, hc, rfl⟩, hv⟩

/-- A leaf is that of the key and the formula in its text. -/
theorem readLeaf_of_leaf {text : String} {l : Leaf} (hl : db.leaf text = .ok l) :
    ∃ k mask, History.readLeaf text = .ok (k, mask)
      ∧ db.layout.resolve db.log k = .ok l.funnel
      ∧ MaskTest.compile db.maskPosition mask = .ok l.test := by
  unfold leaf select at hl
  simp only [bind_eq_ok_iff, pure_eq_ok_iff] at hl
  obtain ⟨⟨key, m⟩, hparts, mask, hmask, f, hf, t, ht, rfl⟩ := hl
  unfold funnelOf Layout.funnel at hf
  simp only [bind_eq_ok_iff] at hf
  obtain ⟨k, hk, hf⟩ := hf
  refine ⟨k, mask, ?_, hf, ht⟩
  unfold History.readLeaf
  rw [hparts]
  show (do return (← Key.parse key, ← Formula.read .extended m)) = _
  rw [hk, hmask]
  rfl

theorem maskPosition_eq_ok_iff {ε : Type} [Evaluator ε] {db : Database ε} {v : String} {i : Nat} :
    db.maskPosition v = .ok i
    ↔ ∃ n, db.layout.maskField = some n ∧ db.log.number n v = .ok i := by
  unfold maskPosition maskField
  cases db.layout.maskField <;> simp [bind_eq_ok_iff]

/-- A value's position is in the masks of those whose matching calls carry the value. -/
theorem carries_eq (hdb : Database.build h.log config = .ok db) {cs : List Entry}
    (hcs : ∀ c ∈ cs, c ∈ h.calls ∧ c.values.length = h.names.length) {v : String} {i : Nat}
    (hv : db.maskPosition v = .ok i) : i ≠ 0 ∧ (h.carries config cs v = true
      ↔ ∃ n, db.layout.maskField = some n
        ∧ ∃ c ∈ cs, (Log.eventOf h.log.fields c).value n = i) := by
  obtain ⟨hlog, hlayout, -⟩ := of_build hdb
  obtain ⟨n, hn, hi⟩ := maskPosition_eq_ok_iff.1 hv
  have hcheck := (Layout.describes_of_build hlayout).mask
  rw [hn] at hcheck
  obtain ⟨name, f, hname, hnum, hf, -⟩ := Layout.exists_name_of_check hcheck
  rw [hlog] at hi
  obtain ⟨f', hf', hfi⟩ := Layout.number_eq_ok_iff.1 hi
  obtain rfl : f = f' := by simpa [hf] using hf'
  obtain ⟨hknows, hcode⟩ := Field.knows_of_number? hfi
  have hin : h.log.codeIn name v = i := by
    rw [Layout.codeIn_of_fieldNumber hnum]
    unfold Layout.codeAt
    rw [hf]
    exact hcode
  refine ⟨?_, ?_⟩
  · obtain ⟨j, -, rfl⟩ := Option.map_eq_some_iff.1 hfi
    exact Nat.succ_ne_zero j
  · unfold History.carries
    simp only [hname, hn, Option.some.injEq, exists_eq_left', List.any_eq_true, beq_iff_eq]
    refine exists_congr fun c => and_congr_right fun hc => ?_
    obtain ⟨hvalue, hk⟩ := Layout.value_eventOf (hcs c hc).1 (hcs c hc).2 hnum
    rw [hvalue, ← hin, Log.codeIn_inj hk ⟨n, f, hnum, hf, hknows⟩]

theorem mem_calls_of_matching {k : Key} {x : EntityId} {c : Entry}
    (hc : c ∈ h.matching config k x) : c ∈ h.calls ∧ c.values.length = h.names.length := by
  unfold History.matching at hc
  split at hc
  · obtain ⟨hc, hl⟩ := List.mem_filter.1 (List.mem_of_mem_filter hc)
    exact ⟨hc, (of_decide_eq_true hl).1⟩
  · exact nomatch hc

/-- The entities of a key's funnel whose masks pass the test of a formula are those that the calls
say are in the leaf of the two. -/
theorem has_of_resolve (hdb : Database.build h.log config = .ok db) {k : Key} {f : FunnelId}
    {mask : Formula String} {test : MaskTest} (hf : db.layout.resolve db.log k = .ok f)
    (ht : MaskTest.compile db.maskPosition mask = .ok test) (x : EntityId) :
    db.index.has x (.leaf ⟨f, test⟩) = h.keyHolds config k mask x := by
  obtain ⟨hsome, hbits⟩ := mask?_of_resolve hdb hf x
  have heval : ∀ m, db.index.mask? f x = some m →
      test.accepts m = mask.eval (h.carries config (h.matching config k x)) := by
    intro m hm
    rw [MaskTest.accepts_compile ht]
    refine Formula.eval_congr fun t htm => ?_
    obtain ⟨i, hi, hp⟩ := MaskTest.exists_position_of_compile ht htm
    obtain ⟨h0, hcarry⟩ := carries_eq hdb (fun c hc => mem_calls_of_matching hc) hp
    rw [MaskTest.reading_of_ok hp, Bool.eq_iff_iff, hbits m hm, hcarry]
    exact ⟨fun hb => hb.2.2, fun hb => ⟨hi, h0, hb⟩⟩
  unfold History.keyHolds
  rw [Bool.eq_iff_iff, Index.has_leaf, Bool.and_eq_true, Bool.not_eq_true',
    List.isEmpty_eq_false_iff, ← hsome, Option.isSome_iff_exists]
  constructor
  · rintro ⟨m, hm, ha⟩
    exact ⟨⟨m, hm⟩, heval m hm ▸ ha⟩
  · rintro ⟨⟨m, hm⟩, ha⟩
    exact ⟨m, hm, (heval m hm).trans ha⟩

/-- An entity is in the funnel of a leaf exactly when one of its calls lands there, and in the leaf
exactly when its calls say so. -/
theorem has_leaf_iff (hdb : Database.build h.log config = .ok db) {text : String} {l : Leaf}
    (hl : db.leaf text = .ok l) (x : EntityId) :
    ((db.index.mask? l.funnel x).isSome = true ↔ h.landing config text x ≠ [])
      ∧ db.index.has x (.leaf l) = h.leafHolds config x text := by
  obtain ⟨k, mask, hread, hf, ht⟩ := readLeaf_of_leaf hl
  unfold History.landing History.leafHolds
  simp only [hread]
  exact ⟨(mask?_of_resolve hdb hf x).1, has_of_resolve hdb hf ht x⟩

end Database

end Cohort
