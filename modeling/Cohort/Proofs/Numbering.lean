import Cohort.Proofs.Capacity
import Mathlib.Data.Set.Function

/-!
# The numbers of funnels

An address is a key group with a value number for each of its fields. An event lands in the funnel
of its values (`Layout.eventFunnel_eq_ok_iff`), and the key of a funnel is read off its address
(`Layout.keyOf_of_addresses`), so addresses and funnels determine each other and no sum on the way
is larger than the funnel's number (`Layout.build_numbers`).
-/

namespace Cohort

/-- The event with a value for each of some fields, the others of so many being unset. -/
def Event.ofValues (count : Nat) (fields values : List Nat) : Event :=
  ⟨0, (List.range count).map fun n => ((fields.zip values).lookup n).getD 0⟩

theorem Event.value_ofValues {count n : Nat} (fields values : List Nat) (h : n < count) :
    (ofValues count fields values).value n = ((fields.zip values).lookup n).getD 0 := by
  unfold ofValues Event.value
  simp [h]

theorem map_lookup_zip : ∀ {fields values : List Nat}, fields.Nodup →
    values.length = fields.length →
      (fields.map fun n => ((fields.zip values).lookup n).getD 0) = values
  | [], [], _, _ => rfl
  | f :: fields, v :: values, hnd, hl => by
    obtain ⟨hf, hnd⟩ := List.nodup_cons.1 hnd
    have ih := map_lookup_zip hnd (by simpa using hl)
    rw [List.zip_cons_cons, List.map_cons, List.lookup_cons_self, Option.getD_some]
    congr 1
    refine Eq.trans (List.map_congr_left fun n hn => ?_) ih
    have hne : (n == f) = false := beq_eq_false_iff_ne.2 fun h => hf (h ▸ hn)
    rw [List.lookup_cons, hne]

namespace Log

/-- The number of the field of a name. -/
def numberOf (log : Log) (name : String) : Nat := log.fields.findIdx (·.name = name)

/-- The values of an event in the fields of some names. -/
def valuesOf (log : Log) (names : List String) (e : Event) : List Nat :=
  names.map fun a => e.value (log.numberOf a)

/-- The word of a value in the field of a name; none for 0. -/
def wordAt? (log : Log) (name : String) (v : Nat) : Option String :=
  if v = 0 then none else (log.wordsOf name)[v - 1]?

/-- The fields that are set, of those of some names, with the words of their values. -/
def pairsOf (log : Log) (names : List String) (values : List Nat) : List (String × String) :=
  (names.zip values).filterMap fun p => (log.wordAt? p.1 p.2).map (p.1, ·)

end Log

/-- An address: the place of a key group, and for each of its fields the number of one of the
field's words, or 0 to leave it unset. -/
def Config.IsAddress (log : Log) (c : Config) (a : Nat × List Nat) : Prop :=
  ∃ k, c.keys[a.1]? = some k
    ∧ List.Forall₂ (fun name v => v ≤ (log.wordsOf name).length) k.names a.2

/-- The event that sets the values of an address, and no others. -/
def Config.eventAt (log : Log) (c : Config) (a : Nat × List Nat) : Event :=
  match c.keys[a.1]? with
  | some k => .ofValues log.fields.length (k.names.map log.numberOf) a.2
  | none => ⟨0, []⟩

namespace Layout

variable {log : Log} {config : Config} {layout : Layout} {g : GroupLayout} {k : KeyGroup}
  {i : Nat}

theorem numberOf_of_fieldNumber {a : String} {n : Nat} (h : log.fieldNumber a = .ok n) :
    log.numberOf a = n :=
  (List.findIdx?_eq_some_iff_findIdx_eq.1 (fieldNumber_eq_ok_iff.1 h)).2

theorem fieldNumber_lt {a : String} {n : Nat} (h : log.fieldNumber a = .ok n) :
    n < log.fields.length :=
  (List.findIdx?_eq_some_iff_findIdx_eq.1 (fieldNumber_eq_ok_iff.1 h)).1

theorem radix_eq {a : String} {d : Digit} (h : d.Describes log a) :
    d.radix = (log.wordsOf a).length + 1 := by
  obtain ⟨f, hf, hr⟩ := h.radix
  obtain ⟨f', hf', -, hw⟩ := exists_field h.number
  obtain rfl : f = f' := by simpa [hf] using hf'
  rw [hr, hw]

theorem fit_iff {names : List String} {ds : List Digit} :
    ∀ {vs : List Nat}, List.Forall₂ (Digit.Describes log) names ds →
      (Digit.Fit ds vs ↔ List.Forall₂ (fun a v => v ≤ (log.wordsOf a).length) names vs) := by
  intro vs h
  unfold Digit.Fit
  induction h generalizing vs with
  | nil => cases vs <;> simp
  | cons hd _ ih =>
    cases vs with
    | nil => simp
    | cons v vs =>
      rw [List.forall₂_cons, List.forall₂_cons, ih, radix_eq hd, Nat.lt_succ_iff]

theorem valuesOf_eq {names : List String} (h : g.Describes log names) (e : Event) :
    g.fields.map e.value = log.valuesOf names e :=
  (numbered_fields h).map_eq fun _ _ ha => by rw [numberOf_of_fieldNumber ha]

theorem word_eq_ok {a w : String} {n v : Nat} (hn : log.fieldNumber a = .ok n)
    (hw : log.wordAt? a v = some w) :
    log.word n v = .ok w := by
  obtain ⟨f, hf, -, hws⟩ := exists_field hn
  unfold Log.word
  simp only [bind_eq_ok_iff, field_eq_ok_iff]
  have : f.word? v = some w := by
    unfold Field.word?
    rw [← hws]
    exact hw
  exact ⟨f, hf, by rw [this]; rfl⟩

theorem mapM_pairs {names : List String} {ds : List Digit} {vs : List Nat}
    (h : List.Forall₂ (Digit.Describes log) names ds) (hv : Digit.Fit ds vs) :
    (((ds.map (·.field)).zip vs).filter (·.2 ≠ 0)).mapM (fun p => do
      return ((← log.field p.1).name, ← log.word p.1 p.2)) = .ok (log.pairsOf names vs) := by
  rw [mapM_eq_ok_iff]
  induction h generalizing vs with
  | nil => exact .nil
  | @cons a d names ds hd _ ih =>
    obtain ⟨v, vs, hvd, hvs, rfl⟩ := List.forall₂_cons_left_iff.1 hv
    obtain ⟨f, hf, hname, hw⟩ := exists_field hd.number
    have ih := ih hvs
    unfold Log.pairsOf at ih ⊢
    by_cases h0 : v = 0
    · simpa [h0, Log.wordAt?] using ih
    · have hlt : v - 1 < (log.wordsOf a).length := by
        rw [radix_eq hd] at hvd
        omega
      have hword : log.wordAt? a v = some (log.wordsOf a)[v - 1] := by
        unfold Log.wordAt?
        rw [if_neg h0, List.getElem?_eq_getElem hlt]
      rw [List.map_cons, List.zip_cons_cons, List.zip_cons_cons,
        List.filter_cons_of_pos (by simpa using h0), List.filterMap_cons_some (by rw [hword]; rfl)]
      refine .cons ?_ ih
      simp only [bind_eq_ok_iff, pure_eq_ok_iff]
      exact ⟨f, field_eq_ok_iff.2 hf, _, word_eq_ok hd.number hword, by rw [hname]⟩

theorem contains_of_addresses (h : layout.Describes log config)
    (hg : layout.groups[i]? = some g) {vs : List Nat} {n : Nat} (ha : layout.Addresses i vs n) :
    g.contains n = true := by
  obtain ⟨c, hc, hfit, rfl⟩ := ha
  obtain rfl : g = c := by simpa [hg] using hc
  have hlt := (h.number_lt (List.mem_of_getElem? hg) hfit).1
  unfold GroupLayout.contains
  simp only [Bool.and_eq_true, decide_eq_true_eq]
  omega

theorem find?_contains (h : layout.Describes log config) (hg : layout.groups[i]? = some g) {n : Nat}
    (hn : g.contains n = true) : layout.groups.find? (·.contains n) = some g := by
  cases hf : layout.groups.find? (·.contains n) with
  | none => exact absurd hn (List.find?_eq_none.1 hf g (List.mem_of_getElem? hg))
  | some c =>
    obtain ⟨j, hj⟩ := List.mem_iff_getElem?.1 (List.mem_of_find?_eq_some hf)
    have hc : c.contains n = true := List.find?_some (p := (GroupLayout.contains · n)) hf
    unfold GroupLayout.contains at hn hc
    simp only [Bool.and_eq_true, decide_eq_true_eq] at hn hc
    obtain rfl := h.stacked.group_unique hg hj hn hc
    rw [← hj, hg]

theorem keyOf_of_addresses (h : layout.Describes log config) (hk : config.keys[i]? = some k)
    {vs : List Nat} {f : FunnelId} (ha : layout.Addresses i vs f.toNat) :
    layout.keyOf log f = .ok ⟨log.pairsOf k.names vs⟩ := by
  obtain ⟨g, hg, hd⟩ := h.exists_group hk
  have hc := contains_of_addresses h hg ha
  obtain ⟨c, hcg, hfit, hf⟩ := ha
  obtain rfl : g = c := by simpa [hg] using hcg
  have hvs : g.values (f.toNat - g.base) = vs := by
    rw [← hf, Nat.add_sub_cancel_left]
    exact Digit.values_offset hd.weighted hfit
  unfold keyOf
  rw [find?_contains h hg hc]
  simp only [hvs, bind_eq_ok_iff, pure_eq_ok_iff]
  exact ⟨_, mapM_pairs hd.digits hfit, rfl⟩

theorem fit_of_eventNumber {e : Event} {m : Nat} (h : eventNumber g e = .ok m) :
    Digit.Fit g.digits (g.fields.map e.value) := by
  unfold eventNumber at h
  unfold Digit.Fit GroupLayout.fields
  rw [List.map_map]
  -- the sum starts at the base, but what it starts at does not matter
  generalize g.base = n at h
  generalize g.digits = ds at h ⊢
  induction ds generalizing n with
  | nil => exact .nil
  | cons d ds ih =>
    rw [List.foldlM_cons, bind_eq_ok_iff] at h
    obtain ⟨c, hc, h⟩ := h
    by_cases hlt : e.value d.field < d.radix
    · exact .cons hlt (ih c h)
    · rw [if_neg hlt] at hc
      exact nomatch hc

theorem eventNumber_eq_ok_iff {e : Event} {m : Nat} : eventNumber g e = .ok m
    ↔ Digit.Fit g.digits (g.fields.map e.value) ∧ place g e = m := by
  constructor
  · intro h
    have hf := fit_of_eventNumber h
    rw [eventNumber_of_fit hf, Except.ok.injEq] at h
    exact ⟨hf, h⟩
  · rintro ⟨hf, rfl⟩
    exact eventNumber_of_fit hf

theorem isAddress_iff (h : layout.Describes log config) {vs : List Nat} :
    config.IsAddress log (i, vs) ↔ ∃ n, layout.Addresses i vs n := by
  constructor
  · rintro ⟨k, hk, hvs⟩
    obtain ⟨g, hg, hd⟩ := h.exists_group hk
    exact ⟨_, g, hg, (fit_iff hd.digits).2 hvs, rfl⟩
  · rintro ⟨n, g, hg, hfit, -⟩
    obtain ⟨k, hk, hd⟩ := h.exists_keyGroup hg
    exact ⟨_, hk, (fit_iff hd.digits).1 hfit⟩

theorem lt_of_addresses (h : layout.Describes log config) {vs : List Nat} {n : Nat}
    (ha : layout.Addresses i vs n) : n < layout.size := by
  obtain ⟨g, hg, hfit, rfl⟩ := ha
  exact (h.number_lt (List.mem_of_getElem? hg) hfit).2

theorem exists_funnel (h : layout.Describes log config) {vs : List Nat} {n : Nat}
    (ha : layout.Addresses i vs n) : ∃ f : FunnelId, f.toNat = n :=
  ⟨UInt32.ofNat n,
    UInt32.toNat_ofNat_of_lt' (Nat.lt_of_lt_of_le (lt_of_addresses h ha) h.size_le)⟩

/-- An event lands in the funnel that has its values for an address. -/
theorem eventFunnel_eq_ok_iff (h : layout.Describes log config) (hk : config.keys[i]? = some k)
    {e : Event} {f : FunnelId} : layout.eventFunnel i e = .ok f
      ↔ layout.Addresses i (log.valuesOf k.names e) f.toNat := by
  obtain ⟨g, hg, hd⟩ := h.exists_group hk
  have hnumber : layout.eventFunnel i e = .ok f ↔ ∃ m, eventNumber g e = .ok m ∧ .ofNat m = f := by
    unfold eventFunnel
    rw [hg]
    exact map_eq_ok_iff
  rw [hnumber]
  simp only [eventNumber_eq_ok_iff, valuesOf_eq hd]
  constructor
  · rintro ⟨m, ⟨hfit, hm⟩, rfl⟩
    unfold place at hm
    rw [valuesOf_eq hd] at hm
    obtain ⟨f, hf⟩ := exists_funnel h ⟨g, hg, hfit, hm⟩
    rw [← hf, UInt32.ofNat_toNat]
    exact ⟨g, hg, hfit, hm.trans hf.symm⟩
  · rintro ⟨c, hc, hfit, hf⟩
    obtain rfl : g = c := by simpa [hg] using hc
    refine ⟨f.toNat, ⟨hfit, ?_⟩, UInt32.ofNat_toNat⟩
    unfold place
    rw [valuesOf_eq hd, hf]

theorem valuesOf_eventAt (h : layout.Describes log config) (hk : config.keys[i]? = some k)
    {vs : List Nat} (ha : config.IsAddress log (i, vs)) :
    log.valuesOf k.names (config.eventAt log (i, vs)) = vs := by
  obtain ⟨g, -, hd⟩ := h.exists_group hk
  obtain ⟨c, hc, hvs⟩ := ha
  obtain rfl : k = c := by simpa [hk] using hc
  have hfields : k.names.map log.numberOf = g.fields := by
    have := (numbered_fields hd).map_eq (v := id) fun _ _ hn => (numberOf_of_fieldNumber hn).symm
    simpa using this.symm
  have hlt : ∀ n ∈ g.fields, n < log.fields.length := by
    intro n hn
    obtain ⟨a, -, ha⟩ := exists_left_of_mem (numbered_fields hd) hn
    exact fieldNumber_lt ha
  have hlen : vs.length = g.fields.length := by
    rw [← hvs.length_eq, ← hfields, List.length_map]
  unfold Config.eventAt
  simp only [hk]
  rw [hfields, ← valuesOf_eq hd]
  refine Eq.trans (List.map_congr_left fun n hn => ?_) (map_lookup_zip hd.distinct hlen)
  exact Event.value_ofValues _ _ (hlt n hn)

theorem bijOn_eventFunnel (h : layout.Describes log config) :
    Set.BijOn (fun a => layout.eventFunnel a.1 (config.eventAt log a))
      {a | config.IsAddress log a} {r | ∃ f : FunnelId, r = .ok f ∧ f.toNat < layout.size} := by
  have hfunnel : ∀ a, config.IsAddress log a → ∀ f,
      layout.eventFunnel a.1 (config.eventAt log a) = .ok f ↔ layout.Addresses a.1 a.2 f.toNat := by
    rintro ⟨i, vs⟩ ha f
    obtain ⟨k, hk, -⟩ := id ha
    rw [eventFunnel_eq_ok_iff h hk, valuesOf_eventAt h hk ha]
  have hmaps : ∀ a, config.IsAddress log a → ∃ f : FunnelId,
      layout.eventFunnel a.1 (config.eventAt log a) = .ok f ∧ f.toNat < layout.size := by
    intro a ha
    obtain ⟨n, hn⟩ := (isAddress_iff h).1 ha
    obtain ⟨f, rfl⟩ := exists_funnel h hn
    exact ⟨f, (hfunnel a ha f).2 hn, lt_of_addresses h hn⟩
  refine ⟨hmaps, fun a ha b hb hab => ?_, ?_⟩
  · obtain ⟨f, hf, -⟩ := hmaps a ha
    have hfa := (hfunnel a ha f).1 hf
    have hfb := (hfunnel b hb f).1 (hab.symm.trans hf)
    exact Prod.ext_iff.2 (h.address_unique hfa hfb)
  · rintro r ⟨f, rfl, hf⟩
    obtain ⟨a, ha, -⟩ := existsUnique_address h hf
    have hadr : config.IsAddress log a := (isAddress_iff h).2 ⟨_, ha⟩
    exact ⟨a, hadr, (hfunnel a hadr f).2 ha⟩

theorem exists_eventNumber_take {e : Event} {n : Nat} (h : eventNumber g e = .ok n) (j : Nat) :
    ∃ m, eventNumber { g with digits := g.digits.take j } e = .ok m ∧ m ≤ n := by
  obtain ⟨hfit, rfl⟩ := eventNumber_eq_ok_iff.1 h
  have hfields : (GroupLayout.fields { g with digits := g.digits.take j }).map e.value
      = (g.fields.map e.value).take j := by
    unfold GroupLayout.fields
    rw [List.map_take, List.map_take]
  refine ⟨_, eventNumber_eq_ok_iff.2 ⟨?_, rfl⟩, ?_⟩
  · rw [hfields]
    exact List.forall₂_take j hfit
  · unfold place
    rw [hfields]
    exact Nat.add_le_add_left (Digit.offset_take_le j _ _) _

/-- What an event comes to in a funnel of a key group. -/
structure Lands (log : Log) (layout : Layout) (i : Nat) (k : KeyGroup) (e : Event) (f : FunnelId) :
    Prop where
  /-- The sum is the funnel's number as it stands, and it does not get larger on the way. -/
  sum : ∃ g, layout.groups[i]? = some g ∧ eventNumber g e = .ok f.toNat
    ∧ ∀ j, ∃ m, eventNumber { g with digits := g.digits.take j } e = .ok m ∧ m ≤ f.toNat
  key : layout.keyOf log f = .ok ⟨log.pairsOf k.names (log.valuesOf k.names e)⟩

/-- How the funnels of a layout are numbered. -/
structure Numbers (log : Log) (config : Config) (layout : Layout) : Prop where
  size : layout.size = config.funnelCount log
  size_le : layout.size ≤ funnelLimit
  /-- The event at an address has the values of the address. -/
  values : ∀ (i : Nat) (k : KeyGroup) (vs : List Nat), config.keys[i]? = some k →
    config.IsAddress log (i, vs) → log.valuesOf k.names (config.eventAt log (i, vs)) = vs
  /-- Addresses and numbers of funnels determine each other. -/
  bijective : Set.BijOn (fun a => layout.eventFunnel a.1 (config.eventAt log a))
    {a | config.IsAddress log a} {r | ∃ f : FunnelId, r = .ok f ∧ f.toNat < layout.size}
  /-- An event's funnel is that of its values in the fields of the group. -/
  address : ∀ (i : Nat) (k : KeyGroup) (e : Event), config.keys[i]? = some k →
    config.IsAddress log (i, log.valuesOf k.names e) →
      layout.eventFunnel i e
        = layout.eventFunnel i (config.eventAt log (i, log.valuesOf k.names e))
  /-- It has one exactly when no value is beyond the words of its field. -/
  event : ∀ (i : Nat) (k : KeyGroup) (e : Event), config.keys[i]? = some k →
    ((∃ f, layout.eventFunnel i e = .ok f)
      ↔ ∀ a ∈ k.names, e.value (log.numberOf a) ≤ (log.wordsOf a).length)
  lands : ∀ (i : Nat) (k : KeyGroup) (e : Event) (f : FunnelId), config.keys[i]? = some k →
    layout.eventFunnel i e = .ok f → layout.Lands log i k e f

theorem lands_of_eventFunnel (h : layout.Describes log config) (hk : config.keys[i]? = some k)
    {e : Event} {f : FunnelId} (hf : layout.eventFunnel i e = .ok f) :
    layout.Lands log i k e f := by
  have ha := (eventFunnel_eq_ok_iff h hk).1 hf
  obtain ⟨g, hg, hd⟩ := h.exists_group hk
  refine ⟨⟨g, hg, ?_⟩, keyOf_of_addresses h hk ha⟩
  obtain ⟨c, hc, hfit, hn⟩ := ha
  obtain rfl : g = c := by simpa [hg] using hc
  have hsum : eventNumber g e = .ok f.toNat := by
    rw [eventNumber_eq_ok_iff]
    unfold place
    rw [valuesOf_eq hd]
    exact ⟨hfit, hn⟩
  exact ⟨hsum, exists_eventNumber_take hsum⟩

theorem isAddress_valuesOf_iff (hk : config.keys[i]? = some k) {e : Event} :
    config.IsAddress log (i, log.valuesOf k.names e)
      ↔ ∀ a ∈ k.names, e.value (log.numberOf a) ≤ (log.wordsOf a).length := by
  unfold Config.IsAddress Log.valuesOf
  simp only [hk, Option.some.injEq, exists_eq_left', List.forall₂_map_right_iff, List.forall₂_same]

theorem numbers_of_describes (h : layout.Describes log config)
    (hs : layout.size = config.funnelCount log) : layout.Numbers log config where
  size := hs
  size_le := h.size_le
  values _ _ _ hk ha := valuesOf_eventAt h hk ha
  bijective := bijOn_eventFunnel h
  address i k e hk ha := by
    have hsame := valuesOf_eventAt h hk ha
    obtain ⟨n, hn⟩ := (isAddress_iff h).1 ha
    obtain ⟨f, rfl⟩ := exists_funnel h hn
    rw [(eventFunnel_eq_ok_iff h hk).2 hn, (eventFunnel_eq_ok_iff h hk).2 (hsame.symm ▸ hn)]
  event i k e hk := by
    rw [← isAddress_valuesOf_iff hk, isAddress_iff h]
    simp only [eventFunnel_eq_ok_iff h hk]
    constructor
    · rintro ⟨f, hf⟩
      exact ⟨_, hf⟩
    · rintro ⟨n, hn⟩
      obtain ⟨f, rfl⟩ := exists_funnel h hn
      exact ⟨f, hn⟩
  lands _ _ _ _ hk hf := lands_of_eventFunnel h hk hf

/-- A layout is made exactly when its funnels can be numbered, and numbers them one to one. -/
theorem build_numbers (log : Log) (config : Config) (mask : Option Nat)
    (hc : config.check log = .ok mask) (hnd : ∀ k ∈ config.keys, k.names.Nodup) :
    ((∃ layout, build log config = .ok layout) ↔ config.funnelCount log ≤ funnelLimit)
      ∧ (funnelLimit < config.funnelCount log
        → ∃ n, build log config = .error (.capacity (.funnels n)))
      ∧ ∀ layout, build log config = .ok layout → layout.Numbers log config := by
  by_cases hle : config.funnelCount log ≤ funnelLimit
  · obtain ⟨layout, hl, hs⟩ := exists_build_of_le hc hnd hle
    refine ⟨iff_of_true ⟨layout, hl⟩ hle, fun hlt => absurd hle (Nat.not_le.2 hlt), fun l h => ?_⟩
    obtain rfl : layout = l := by simpa [hl] using h
    exact numbers_of_describes (describes_of_build hl) hs
  · have herror := build_of_lt hc hnd (Nat.lt_of_not_le hle)
    have hnone : ∀ layout, build log config ≠ .ok layout := by simp [herror]
    exact ⟨iff_of_false (fun ⟨l, h⟩ => hnone l h) hle, fun _ => ⟨_, herror⟩,
      fun l h => absurd h (hnone l)⟩

/-- Three events of two fields, of which one is left unset once. -/
def pairedLog : Log :=
  .replay ["a", "b"] [⟨0, 3, ["x", "y"]⟩, ⟨2, 1, ["z", ""]⟩, ⟨0, 2, ["x", "v"]⟩]

theorem build_numbers_pairedLog :
    Config.check pairedLog ⟨[.many [], .many ["b", "a"]], some "a"⟩ = .ok (some 0)
      ∧ Config.funnelCount pairedLog ⟨[.many [], .many ["b", "a"]], some "a"⟩ = 10
      ∧ ∃ layout, build pairedLog ⟨[.many [], .many ["b", "a"]], some "a"⟩ = .ok layout
        ∧ layout.Numbers pairedLog ⟨[.many [], .many ["b", "a"]], some "a"⟩ := by
  obtain ⟨hiff, -, hnumbers⟩ := build_numbers pairedLog ⟨[.many [], .many ["b", "a"]], some "a"⟩
    (some 0) (by decide) (by decide)
  obtain ⟨layout, hl⟩ := hiff.2 (by decide)
  exact ⟨by decide, by decide, layout, hl, hnumbers layout hl⟩

end Layout

end Cohort
