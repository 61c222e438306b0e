import Cohort.Database.Basic
import Cohort.Proofs.Evaluation
import Cohort.Proofs.Layout

/-!
# What a built index holds

Taking in an event changes the masks of its entity in the funnels that the event lands in and
nothing else, so an index always reflects the events taken in so far (`Index.Reflects`): an entity
is in a funnel if one of its events landed there, with the positions of those events' values. An
event of the log lands in one funnel of every group, so building fails only where the layout does
(`Index.exists_build`).
-/

namespace Cohort

namespace Layout

/-- The positions of the values that events have in the mask field, where it is set. -/
def maskOf (layout : Layout) (es : List Event) : Mask :=
  match layout.maskField with
  | none => 0
  | some field => ((es.map (·.value field)).filter (· ≠ 0)).foldr (fun v m => Mask.bit v ||| m) 0

/-- The mask that an entity with some events has in a funnel. -/
def maskIn? (layout : Layout) (f : FunnelId) (es : List Event) : Option Mask :=
  if (es.filter (layout.lands f)).isEmpty then none
  else some (layout.maskOf (es.filter (layout.lands f)))

variable {layout : Layout}

theorem foldr_or_append (vs : List Nat) (v : Nat) :
    (vs ++ [v]).foldr (fun v m => Mask.bit v ||| m) 0
      = vs.foldr (fun v m => Mask.bit v ||| m) 0 ||| Mask.bit v := by
  induction vs with
  | nil => simp
  | cons u vs ih => rw [List.cons_append, List.foldr_cons, ih, List.foldr_cons, BitVec.or_assoc]

theorem maskOf_snoc (es : List Event) (e : Event) :
    layout.maskOf (es ++ [e]) = layout.maskOf es ||| Index.eventBits layout e := by
  unfold maskOf Index.eventBits
  cases layout.maskField with
  | none => simp
  | some field =>
    simp only [List.map_append, List.map_singleton, List.filter_append]
    by_cases hv : e.value field = 0
    · simp [hv]
    · rw [if_neg hv, ← foldr_or_append, List.filter_singleton]
      simp [hv]

theorem getLsbD_foldr_or (vs : List Nat) (i : Nat) :
    (vs.foldr (fun v m => Mask.bit v ||| m) 0).getLsbD i = true ↔ i < 64 ∧ i ∈ vs := by
  induction vs with
  | nil => simp
  | cons v vs ih =>
    rw [List.foldr_cons, BitVec.getLsbD_or, Bool.or_eq_true, ih, Mask.getLsbD_bit,
      decide_eq_true_eq, List.mem_cons, ← and_or_left, eq_comm]

theorem getLsbD_maskOf {es : List Event} {i : Nat} : (layout.maskOf es).getLsbD i = true
    ↔ i < 64 ∧ i ≠ 0 ∧ ∃ field, layout.maskField = some field ∧ ∃ e ∈ es, e.value field = i := by
  unfold maskOf
  cases layout.maskField with
  | none => simp
  | some field =>
    simp only [getLsbD_foldr_or, List.mem_filter, List.mem_map, decide_eq_true_eq,
      Option.some.injEq, exists_eq_left', and_comm (b := i ≠ 0), ne_eq]

theorem maskIn?_snoc (f : FunnelId) (es : List Event) (e : Event) :
    layout.maskIn? f (es ++ [e])
      = if layout.lands f e then some ((layout.maskIn? f es).getD 0 ||| Index.eventBits layout e)
        else layout.maskIn? f es := by
  unfold maskIn?
  rw [List.filter_append]
  by_cases hl : layout.lands f e
  · rw [List.filter_singleton, hl, cond_true, maskOf_snoc, if_neg (by simp), if_pos rfl]
    split
    · next h =>
      rw [List.isEmpty_iff] at h
      have h0 : layout.maskOf [] = 0 := by
        unfold maskOf
        cases layout.maskField <;> rfl
      rw [h, h0, Option.getD_none]
    · rfl
  · simp [hl]

end Layout

namespace Index

open Layout (place)

variable {log : Log} {config : Config} {layout : Layout} {index : Index} {x : EntityId} {e : Event}

theorem exists_insert {f : FunnelId} (h : f.toNat < index.size.toNat) (x : EntityId) (bits : Mask) :
    ∃ index', index.insert f x bits = .ok index' ∧ index'.size = index.size
      ∧ ∀ k y, index'.mask? k y = if y = x ∧ k = f then
        some ((index.mask? k y).getD 0 ||| bits) else index.mask? k y := by
  unfold insert
  rw [dif_pos h]
  refine ⟨_, rfl, rfl, fun k y => ?_⟩
  unfold mask?
  simp only [SortedMap.get?_change]
  by_cases hk : k = f
  · subst hk
    simp only [if_true, Option.bind_some, addBits, SortedMap.get?_change, and_true]
    cases index.funnels.get? k <;> by_cases hy : y = x <;> simp [hy]
  · simp [hk]

theorem any_range (gs : List GroupLayout) (p : GroupLayout → Bool) :
    ((List.range gs.length).any fun i => gs[i]?.any p) = gs.any p := by
  rw [Bool.eq_iff_iff, List.any_eq_true, List.any_eq_true]
  constructor
  · rintro ⟨i, -, hi⟩
    obtain ⟨g, hg, hp⟩ := (Option.any_eq_true _ _).1 hi
    exact ⟨g, List.mem_of_getElem? hg, hp⟩
  · rintro ⟨g, hg, hp⟩
    obtain ⟨i, hi⟩ := List.mem_iff_getElem?.1 hg
    exact ⟨i, List.mem_range.2 (List.getElem?_eq_some_iff.1 hi).1, by simp [hi, hp]⟩

/-- An index comes from another one by adding an event's positions to its entity's masks in the
funnels that the event has in some groups. -/
structure Adds (layout : Layout) (x : EntityId) (e : Event) (before : Index) (groups : List Nat)
    (after : Index) : Prop where
  size : after.size = before.size
  mask? : ∀ f y, after.mask? f y =
    if y = x ∧ groups.any fun i => layout.groups[i]?.any (place · e == f.toNat) then
      some ((before.mask? f y).getD 0 ||| eventBits layout e) else before.mask? f y

theorem Adds.snoc {before : Index} {groups : List Nat} (h : layout.Describes log config)
    (hs : before.size.toNat = layout.size) (he : e.Coded log.fields) {i : Nat}
    (hi : i < layout.groups.length) (hb : Adds layout x e before groups index) :
    ∃ after, (do index.insert (← layout.eventFunnel i e) x (eventBits layout e)) = .ok after
      ∧ Adds layout x e before (groups ++ [i]) after := by
  have hg : layout.groups[i]? = some layout.groups[i] := List.getElem?_eq_getElem hi
  obtain ⟨f, hf, hp, hlt⟩ := Layout.eventFunnel_of_coded h he hg
  have hf' : f.toNat < index.size.toNat := by rwa [hb.size, hs]
  obtain ⟨after, ha, hsize, hmask⟩ := exists_insert hf' x (eventBits layout e)
  refine ⟨after, ?_, hsize.trans hb.size, fun k y => ?_⟩
  · rw [hf]
    exact ha
  · have hk : layout.groups[i]?.any (place · e == k.toNat) = decide (k = f) := by
      rw [hg, Option.any_some, Bool.eq_iff_iff, beq_iff_eq, decide_eq_true_eq, ← hp,
        UInt32.toNat_inj]
      exact eq_comm
    rw [hmask, hb.mask?, List.any_append, List.any_cons, List.any_nil, hk, Bool.or_false]
    -- a second group with the same funnel would add the same positions once more
    by_cases hy : y = x <;> by_cases hkf : k = f <;>
      cases (groups.any fun i => layout.groups[i]?.any (place · e == k.toNat)) <;>
      simp [hy, hkf, BitVec.or_assoc]

/-- Taking in an event adds its positions in the funnels that it lands in. -/
theorem exists_addEvent (h : layout.Describes log config) (hs : index.size.toNat = layout.size)
    (he : e.Coded log.fields) (x : EntityId) :
    ∃ after, addEvent layout x index e = .ok after ∧ after.size = index.size
      ∧ ∀ f y, after.mask? f y = if y = x ∧ layout.lands f e then
        some ((index.mask? f y).getD 0 ||| eventBits layout e) else index.mask? f y := by
  have hnil : Adds layout x e index [] index := ⟨rfl, by simp⟩
  obtain ⟨after, ha, hadd⟩ := exists_foldlM (P := Adds layout x e index)
    (fun _ _ i hi hb => hb.snoc h hs he (List.mem_range.1 hi)) hnil
  refine ⟨after, ha, hadd.size, fun f y => ?_⟩
  rw [hadd.mask?, List.nil_append, any_range]
  rfl

/-- An index has the entities of some events in the funnels where these landed, with their
positions. -/
structure Reflects (layout : Layout) (seen : List (EntityId × Event)) (index : Index) : Prop where
  size : index.size.toNat = layout.size
  mask? : ∀ f x, index.mask? f x = layout.maskIn? f ((seen.filter (·.1 = x)).map (·.2))

theorem Reflects.snoc {seen : List (EntityId × Event)} (h : layout.Describes log config)
    (hi : Reflects layout seen index) (he : e.Coded log.fields) (x : EntityId) :
    ∃ after, addEvent layout x index e = .ok after ∧ Reflects layout (seen ++ [(x, e)]) after := by
  obtain ⟨after, ha, hsize, hmask⟩ := exists_addEvent h hi.size he x
  refine ⟨after, ha, by rw [hsize, hi.size], fun f y => ?_⟩
  rw [hmask, hi.mask?, List.filter_append, List.map_append, List.filter_singleton]
  by_cases hy : y = x
  · simp [hy, Layout.maskIn?_snoc]
  · simp [hy, Ne.symm hy]

theorem Reflects.append {seen : List (EntityId × Event)} (h : layout.Describes log config)
    (x : EntityId) {es : List Event} (he : ∀ e ∈ es, e.Coded log.fields)
    (hi : Reflects layout seen index) : ∃ after, es.foldlM (addEvent layout x) index = .ok after
      ∧ Reflects layout (seen ++ es.map (x, ·)) after := by
  have hnil : Reflects layout (seen ++ [].map (x, ·)) index := by simpa using hi
  exact exists_foldlM (P := fun done => Reflects layout (seen ++ done.map (x, ·)))
    (fun done b e hmem hb => by simpa using hb.snoc h (he e hmem) x) hnil

end Index

/-- The events of trails, with their entities. -/
def occurrences (ts : List (EntityId × Trail)) : List (EntityId × Event) :=
  ts.flatMap fun t => t.2.events.map (t.1, ·)

namespace Log

/-- The events of an entity; none if it has no trail. -/
def eventsOf (log : Log) (x : EntityId) : List Event :=
  ((log.trails[x.toNat]?).map (·.events)).getD []

theorem trail_eq_ok_iff {log : Log} {x : EntityId} {t : Trail} :
    log.trail x = .ok t ↔ log.trails[x.toNat]? = some t := by
  unfold trail
  cases log.trails[x.toNat]? <;> simp

theorem eventsOf_zipIdx (x : EntityId) :
    ∀ (ts : List Trail) (n : Nat), n + ts.length ≤ entityLimit →
    ((occurrences ((ts.zipIdx n).map fun p => (UInt32.ofNat p.2, p.1))).filter (·.1 = x)).map (·.2)
      = if n ≤ x.toNat then ((ts[x.toNat - n]?).map (·.events)).getD [] else []
  | [], n, _ => by simp [occurrences]
  | t :: ts, n, h => by
    have ih := eventsOf_zipIdx x ts (n + 1) (by simp at h; omega)
    have hn : (UInt32.ofNat n).toNat = n :=
      UInt32.toNat_ofNat_of_lt' (by simp [entityLimit] at h; simp [UInt32.size]; omega)
    unfold occurrences at *
    rw [List.zipIdx_cons, List.map_cons, List.flatMap_cons, List.filter_append, List.map_append, ih]
    by_cases hx : UInt32.ofNat n = x
    · subst hx
      simp [hn, List.filter_eq_self.2]
    · have hne : x.toNat ≠ n := fun h => hx (by rw [← h, UInt32.ofNat_toNat])
      by_cases hle : n ≤ x.toNat
      · have : x.toNat - n = x.toNat - (n + 1) + 1 := by omega
        simp [hx, hle, this, show n + 1 ≤ x.toNat by omega]
      · simp [hx, hle, show ¬ n + 1 ≤ x.toNat by omega]

theorem eventsOf_occurrences (log : Log) (x : EntityId) :
    ((occurrences log.numberedTrails).filter (·.1 = x)).map (·.2) = log.eventsOf x := by
  unfold numberedTrails eventsOf
  rw [eventsOf_zipIdx x _ 0 (by simpa using log.addressable)]
  simp

theorem coded_of_mem_numberedTrails {log : Log} {t : EntityId × Trail}
    (ht : t ∈ log.numberedTrails) : ∀ e ∈ t.2.events, e.Coded log.fields := by
  unfold numberedTrails at ht
  obtain ⟨p, hp, rfl⟩ := List.mem_map.1 ht
  exact log.coded p.1 (by simpa using List.fst_mem_of_mem_zipIdx hp)

end Log

/-- An index with the funnels of the layout makes a database. -/
theorem Database.make_eq_ok {ε : Type} [Evaluator ε] {log : Log} {config : Config}
    {layout : Layout} {index : ε} (hl : Layout.build log config = .ok layout)
    (hs : Evaluator.size index = layout.size) :
    make log index config = .ok ⟨log, index, config, layout, hl, hs⟩ := by
  unfold make
  split
  · next h => simp [hl] at h
  · next l h =>
    obtain rfl : layout = l := by simpa [hl] using h
    rw [dif_pos hs]

theorem Database.build_eq_ok {log : Log} {config : Config} {layout : Layout} {index : Index}
    (hl : Layout.build log config = .ok layout) (hi : Index.build log config = .ok index)
    (hs : Evaluator.size index = layout.size) :
    build log config = .ok ⟨log, index, config, layout, hl, hs⟩ := by
  unfold build
  rw [hi]
  exact make_eq_ok hl hs

/-- What a database built from a log holds. -/
theorem Database.of_build {log : Log} {config : Config} {db : Database Index}
    (h : Database.build log config = .ok db) : db.log = log
      ∧ Layout.build log config = .ok db.layout ∧ Index.build log config = .ok db.index := by
  unfold build at h
  rw [bind_eq_ok_iff] at h
  obtain ⟨index, hi, h⟩ := h
  unfold make at h
  split at h
  · exact nomatch h
  · next layout hl =>
    split at h
    · rw [Except.ok.injEq] at h
      subst h
      exact ⟨rfl, hl, hi⟩
    · exact nomatch h

theorem Database.config_of_build {log : Log} {config : Config} {db : Database Index}
    (h : Database.build log config = .ok db) : db.config = config := by
  unfold build make at h
  obtain ⟨index, -, h⟩ := bind_eq_ok_iff.1 h
  split at h
  · exact nomatch h
  · split at h
    · exact (Except.ok.inj h) ▸ rfl
    · exact nomatch h

namespace Index

variable {log : Log} {config : Config} {layout : Layout}

/-- Building an index fails only where its layout does. -/
theorem exists_build (hl : Layout.build log config = .ok layout) :
    ∃ index, build log config = .ok index
      ∧ Reflects layout (occurrences log.numberedTrails) index := by
  have h := Layout.describes_of_build hl
  have hnil : Reflects layout (occurrences []) (empty (UInt64.ofNat layout.size)) := by
    refine ⟨?_, fun f x => rfl⟩
    have hle := h.size_le
    unfold empty funnelLimit at *
    exact UInt64.toNat_ofNat_of_lt' (by simp [UInt64.size]; omega)
  unfold build
  rw [hl]
  exact exists_foldlM (P := fun done => Reflects layout (occurrences done))
    (fun done b t ht hb => by
      simpa [occurrences] using hb.append h t.1 (Log.coded_of_mem_numberedTrails ht)) hnil

/-- An entity is in a funnel with the positions of its events that landed there. -/
theorem mask?_of_build (hl : Layout.build log config = .ok layout) {index : Index}
    (hi : build log config = .ok index) (f : FunnelId) (x : EntityId) :
    index.mask? f x = layout.maskIn? f (log.eventsOf x) := by
  obtain ⟨index', hi', hr⟩ := exists_build hl
  obtain rfl : index = index' := by simpa [hi] using hi'
  rw [hr.mask?, Log.eventsOf_occurrences]

/-- What an index built from a log holds. -/
structure Contents (log : Log) (layout : Layout) (index : Index) : Prop where
  size : index.size.toNat = layout.size
  /-- The positions that events add are those from 1 to 63. -/
  position : ∀ field, layout.maskField = some field → ∀ x t, log.trail x = .ok t →
    ∀ e ∈ t.events, e.value field ≠ 0 → 1 ≤ e.value field ∧ e.value field ≤ 63
  /-- Every funnel has one address. -/
  address : ∀ n < layout.size, ∃! a : Nat × List Nat, layout.Addresses a.1 a.2 n
  /-- A funnel lists, in ascending order, the trails with events that have the values of its
  address, each with the positions of all these events. -/
  funnel : ∀ (f : FunnelId) (i : Nat) (g : GroupLayout) (values : List Nat),
    layout.groups[i]? = some g → layout.Addresses i values f.toNat →
      ∃ els, index.funnel f = .ok els ∧ (els.map (·.id)).Pairwise (· < ·)
        ∧ ∀ a, a ∈ els ↔ ∃ t, log.trail a.id = .ok t
          ∧ (∃ e ∈ t.events, g.fields.map e.value = values)
          ∧ a.mask = layout.maskOf (t.events.filter fun e => g.fields.map e.value = values)

theorem coded_of_trail {x : EntityId} {t : Trail} (h : log.trail x = .ok t) :
    ∀ e ∈ t.events, e.Coded log.fields :=
  log.coded t (Array.mem_of_getElem? (Log.trail_eq_ok_iff.1 h))

theorem mem_elements_of_build (hl : Layout.build log config = .ok layout) {index : Index}
    (hi : build log config = .ok index) {f : FunnelId} {i : Nat} {g : GroupLayout}
    {values : List Nat} (hg : layout.groups[i]? = some g)
    (ha : layout.Addresses i values f.toNat) (a : Element) :
    a ∈ index.elements f ↔ ∃ t, log.trail a.id = .ok t
      ∧ (∃ e ∈ t.events, g.fields.map e.value = values)
      ∧ a.mask = layout.maskOf (t.events.filter fun e => g.fields.map e.value = values) := by
  rw [mem_elements_iff, mask?_of_build hl hi]
  unfold Layout.maskIn? Log.eventsOf
  simp only [Log.trail_eq_ok_iff]
  cases ht : log.trails[a.id.toNat]? with
  | none => simp
  | some t =>
    have hf : t.events.filter (layout.lands f)
        = t.events.filter fun e => g.fields.map e.value = values := by
      refine List.filter_congr fun e he => ?_
      rw [Bool.eq_iff_iff, decide_eq_true_eq]
      have hc := coded_of_trail (Log.trail_eq_ok_iff.2 ht) e he
      exact Layout.lands_iff (Layout.describes_of_build hl) hc ha hg
    simp only [Option.map_some, Option.getD_some, hf, Option.some.injEq, exists_eq_left',
      List.isEmpty_iff, List.filter_eq_nil_iff, decide_eq_true_eq]
    by_cases hn : ∃ e ∈ t.events, g.fields.map e.value = values
    · rw [if_neg (by simpa using hn), Option.some.injEq, and_iff_right hn]
      exact eq_comm
    · rw [if_pos (by simpa using hn)]
      simp [hn]

/-- The values that events of a log have in the mask field are positions of masks. -/
theorem value_le_of_build (hl : Layout.build log config = .ok layout) {field : Nat}
    (hm : layout.maskField = some field) {x : EntityId} {t : Trail} (ht : log.trail x = .ok t)
    {e : Event} (he : e ∈ t.events) : e.value field ≤ 63 := by
  have hc := (Layout.describes_of_build hl).mask
  rw [hm] at hc
  obtain ⟨-, f, -, -, hf, -, hlt⟩ := Layout.exists_name_of_check hc
  have := (coded_of_trail ht e he).2 field f hf
  omega

theorem contents_of_build (hl : Layout.build log config = .ok layout) {index : Index}
    (hi : build log config = .ok index) (hs : index.size.toNat = layout.size) :
    Contents log layout index where
  size := hs
  position field hm x t ht e he h0 :=
    ⟨Nat.one_le_iff_ne_zero.2 h0, value_le_of_build hl hm ht he⟩
  address n hn := Layout.existsUnique_address (Layout.describes_of_build hl) hn
  funnel f i g values hg ha := by
    have hlt : f.toNat < index.size.toNat := by
      obtain ⟨k, hk, hf, hn⟩ := ha
      rw [hs, ← hn]
      exact ((Layout.describes_of_build hl).number_lt (List.mem_of_getElem? hk) hf).2
    refine ⟨index.elements f, ?_, elements_ascending index f, mem_elements_of_build hl hi hg ha⟩
    unfold funnel Layout.checkFunnel
    rw [if_pos hlt]
    rfl

/-- Building an index, or a database with it, fails only where its layout does, with the same
error. -/
theorem build_contents (log : Log) (config : Config) :
    match Layout.build log config with
    | .error e => build log config = .error e ∧ Database.build log config = .error e
    | .ok layout => ∃ index db, build log config = .ok index ∧ Database.build log config = .ok db
        ∧ db.index = index ∧ layout.Describes log config ∧ Contents log layout index := by
  cases hl : Layout.build log config with
  | error e =>
    have hi : build log config = .error e := by
      unfold build
      rw [hl]
      rfl
    refine ⟨hi, ?_⟩
    unfold Database.build
    rw [hi]
    rfl
  | ok layout =>
    obtain ⟨index, hi, hr⟩ := exists_build hl
    refine ⟨index, ⟨log, index, config, layout, hl, hr.size⟩, hi, ?_, rfl,
      Layout.describes_of_build hl, contents_of_build hl hi hr.size⟩
    unfold Database.build
    rw [hi]
    exact Database.make_eq_ok hl hr.size

end Index

end Cohort
