import Cohort.Proofs.Digits
import Cohort.Proofs.Outcome

/-!
# What a layout is made of

A layout's groups are those of its description, with one digit for each field, and their ranges of
numbers follow one another from 0 on (`Layout.Describes`, `Layout.describes_of_build`). So every
number below the size belongs to one group and one value for each of its fields
(`Layout.existsUnique_address`), and an event of the log has such a number in every group
(`Layout.eventFunnel_of_coded`).
-/

namespace Cohort

/-- A digit stands for the field of a name and has room for all words of the field. -/
structure Digit.Describes (log : Log) (name : String) (d : Digit) : Prop where
  number : log.fieldNumber name = .ok d.field
  radix : ∃ f, log.fields[d.field]? = some f ∧ d.radix = f.words.length + 1

/-- A group's digits stand for the fields of some names, all different. -/
structure GroupLayout.Describes (log : Log) (names : List String) (g : GroupLayout) : Prop where
  digits : List.Forall₂ (Digit.Describes log) names g.digits
  distinct : g.fields.Nodup
  weighted : Digit.Weighted 1 g.digits g.count

namespace Layout

/-- The ranges of groups follow one another from a number on, up to a last one. -/
def Stacked : Nat → List GroupLayout → Nat → Prop
  | n, [], size => size = n
  | n, g :: gs, size => g.base = n ∧ Stacked (n + g.count) gs size

/-- A layout has the groups and the mask field of a description. -/
structure Describes (log : Log) (config : Config) (layout : Layout) : Prop where
  mask : config.check log = .ok layout.maskField
  groups : List.Forall₂ (fun k g => GroupLayout.Describes log k.names g) config.keys layout.groups
  stacked : Stacked 0 layout.groups layout.size
  size_le : layout.size ≤ funnelLimit

section Build

variable {log : Log} {config : Config}

theorem reckon_eq_ok_iff {m n : Nat} : reckon m = .ok n ↔ m ≤ largest ∧ m = n := by
  unfold reckon
  split <;> simp_all

theorem field_eq_ok_iff {n : Nat} {f : Field} : log.field n = .ok f ↔ log.fields[n]? = some f := by
  unfold Log.field
  cases log.fields[n]? <;> simp

/-- What a list is checked not to have keeps its members different. -/
theorem nodup_snoc {α : Type} {f : α → Nat} {l : List α} {a : α} (hl : (l.map f).Nodup)
    (ha : ¬ (l.any fun b => f b = f a) = true) : ((l ++ [a]).map f).Nodup := by
  rw [List.map_append, List.nodup_append]
  refine ⟨hl, by simp, ?_⟩
  rintro m hm k hk rfl
  obtain ⟨b, hb, rfl⟩ := List.mem_map.1 hm
  rw [List.map_singleton, List.mem_singleton] at hk
  exact ha (List.any_eq_true.2 ⟨b, hb, decide_eq_true hk⟩)

theorem describes_of_addField {names : List String} {group group' : List Digit × Nat}
    {name : String} {base : Nat} (hg : GroupLayout.Describes log names ⟨group.1, base, group.2⟩)
    (h : addField log group name = .ok group') :
    GroupLayout.Describes log (names ++ [name]) ⟨group'.1, base, group'.2⟩ := by
  unfold addField at h
  simp only [bind_eq_ok_iff, guard_eq_ok_iff, pure_eq_ok_iff, field_eq_ok_iff,
    reckon_eq_ok_iff] at h
  obtain ⟨n, hn, hnew, f, hf, count, ⟨-, rfl⟩, rfl⟩ := h
  exact ⟨List.rel_append hg.digits (.cons ⟨hn, f, hf, rfl⟩ .nil), nodup_snoc hg.distinct hnew,
    hg.weighted.snoc (by omega)⟩

theorem stacked_snoc {g : GroupLayout} : ∀ {n size : Nat} {gs : List GroupLayout},
    Stacked n gs size → g.base = size → Stacked n (gs ++ [g]) (size + g.count)
  | n, size, [], h, hg => by
    unfold Stacked at h
    subst h
    exact ⟨hg, rfl⟩
  | n, size, c :: gs, h, hg => ⟨h.1, stacked_snoc h.2 hg⟩

theorem describes_of_addGroup {keys : List KeyGroup} {k : KeyGroup}
    {layout layout' : List GroupLayout × Nat}
    (hg : List.Forall₂ (fun k g => GroupLayout.Describes log k.names g) keys layout.1
      ∧ Stacked 0 layout.1 layout.2) (h : addGroup log layout k = .ok layout') :
    List.Forall₂ (fun k g => GroupLayout.Describes log k.names g) (keys ++ [k]) layout'.1
      ∧ Stacked 0 layout'.1 layout'.2 := by
  unfold addGroup at h
  simp only [bind_eq_ok_iff, pure_eq_ok_iff, reckon_eq_ok_iff] at h
  obtain ⟨⟨digits, count⟩, hd, size, ⟨-, rfl⟩, rfl⟩ := h
  have hnil : GroupLayout.Describes log [] ⟨[], layout.2, 1⟩ := ⟨.nil, List.nodup_nil, rfl⟩
  have hk : GroupLayout.Describes log k.names ⟨digits, layout.2, count⟩ :=
    of_foldlM (P := fun names (d : List Digit × Nat) =>
      GroupLayout.Describes log names ⟨d.1, layout.2, d.2⟩)
      (fun _ _ _ _ => describes_of_addField) hnil hd
  exact ⟨List.rel_append hg.1 (.cons hk .nil), stacked_snoc hg.2 rfl⟩

/-- What is built from a description describes it. -/
theorem describes_of_build {layout : Layout} (h : build log config = .ok layout) :
    layout.Describes log config := by
  unfold build at h
  simp only [bind_eq_ok_iff, guard_eq_ok_iff, pure_eq_ok_iff] at h
  obtain ⟨maskField, hm, ⟨groups, size⟩, hg, hs, rfl⟩ := h
  have hnil : Stacked 0 [] 0 := rfl
  obtain ⟨hf, hst⟩ := of_foldlM (P := fun keys (l : List GroupLayout × Nat) =>
    List.Forall₂ (fun k g => GroupLayout.Describes log k.names g) keys l.1 ∧ Stacked 0 l.1 l.2)
    (fun _ _ _ _ => describes_of_addGroup) ⟨.nil, hnil⟩ hg
  exact ⟨hm, hf, hst, Nat.le_of_not_gt hs⟩

end Build

section Mask

variable {log : Log} {config : Config}

/-- The mask field of a layout is the description's, and masks have a position for each word. -/
theorem exists_name_of_check {n : Nat} (h : config.check log = .ok (some n)) :
    ∃ name f, config.maskField = some name ∧ log.fieldNumber name = .ok n
      ∧ log.fields[n]? = some f ∧ 1 ≤ f.words.length ∧ f.words.length < 64 := by
  unfold Config.check at h
  simp only [guard_eq_ok_iff, bind_eq_ok_iff] at h
  obtain ⟨-, -, -, h⟩ := h
  cases hm : config.maskField with
  | none => simp [hm, pure_eq_ok_iff] at h
  | some name =>
    unfold Config.checkMask at h
    simp only [hm, bind_eq_ok_iff, guard_eq_ok_iff, pure_eq_ok_iff, field_eq_ok_iff,
      Option.some.injEq] at h
    obtain ⟨m, ⟨k, hk, f, hf, hlo, hhi, rfl⟩, rfl⟩ := h
    unfold maskWidth at hhi
    exact ⟨name, f, rfl, hk, hf, by omega, by omega⟩

end Mask

section Stacked

theorem Stacked.bounds : ∀ {n size : Nat} {gs : List GroupLayout}, Stacked n gs size →
    n ≤ size ∧ ∀ g ∈ gs, n ≤ g.base ∧ g.base + g.count ≤ size
  | n, size, [], h => by
    unfold Stacked at h
    simp [h]
  | n, size, g :: gs, h => by
    obtain ⟨rfl, hgs⟩ := h
    obtain ⟨hle, hall⟩ := hgs.bounds
    refine ⟨by omega, fun k hk => ?_⟩
    rcases List.mem_cons.1 hk with rfl | hk
    · exact ⟨Nat.le_refl _, hle⟩
    · have := hall k hk
      omega

theorem Stacked.exists_group : ∀ {n size m : Nat} {gs : List GroupLayout}, Stacked n gs size →
    n ≤ m → m < size →
      ∃ (i : Nat) (g : GroupLayout), gs[i]? = some g ∧ g.base ≤ m ∧ m < g.base + g.count
  | n, size, m, [], h, hn, hm => by
    unfold Stacked at h
    omega
  | n, size, m, g :: gs, h, hn, hm => by
    obtain ⟨rfl, hgs⟩ := h
    by_cases hlt : m < g.base + g.count
    · exact ⟨0, g, rfl, hn, hlt⟩
    · obtain ⟨i, k, hi, hk⟩ := hgs.exists_group (by omega) hm
      exact ⟨i + 1, k, hi, hk⟩

theorem Stacked.before : ∀ {n size i j : Nat} {gs : List GroupLayout} {g k : GroupLayout},
    Stacked n gs size → gs[i]? = some g → gs[j]? = some k → i < j → g.base + g.count ≤ k.base
  | n, size, 0, j + 1, c :: gs, g, k, h, hg, hk, _ => by
    rw [List.getElem?_cons_zero, Option.some.injEq] at hg
    obtain ⟨rfl, hgs⟩ := h
    exact hg ▸ (hgs.bounds.2 k (List.mem_of_getElem? hk)).1
  | n, size, i + 1, j + 1, c :: gs, g, k, h, hg, hk, hij =>
    Stacked.before h.2 (by simpa using hg) (by simpa using hk) (by omega)

/-- No number is in the ranges of two groups. -/
theorem Stacked.group_unique {n size i j m : Nat} {gs : List GroupLayout} {g k : GroupLayout}
    (h : Stacked n gs size) (hg : gs[i]? = some g) (hk : gs[j]? = some k)
    (hmg : g.base ≤ m ∧ m < g.base + g.count) (hmk : k.base ≤ m ∧ m < k.base + k.count) :
    i = j := by
  rcases Nat.lt_trichotomy i j with hij | rfl | hij
  · have := h.before hg hk hij
    omega
  · rfl
  · have := h.before hk hg hij
    omega

end Stacked

/-- A group and values for its fields make up a number. -/
def Addresses (layout : Layout) (group : Nat) (values : List Nat) (n : Nat) : Prop :=
  ∃ g, layout.groups[group]? = some g ∧ Digit.Fit g.digits values
    ∧ g.base + Digit.offset g.digits values = n

section Addresses

variable {log : Log} {config : Config} {layout : Layout} {g : GroupLayout} {n : Nat}

theorem Describes.exists_key (h : layout.Describes log config) (hg : g ∈ layout.groups) :
    ∃ k ∈ config.keys, g.Describes log k.names :=
  exists_left_of_mem h.groups hg

theorem Describes.exists_group (h : layout.Describes log config) {i : Nat} {k : KeyGroup}
    (hk : config.keys[i]? = some k) : ∃ g, layout.groups[i]? = some g ∧ g.Describes log k.names :=
  exists_right_of_getElem? (R := fun (k : KeyGroup) g => GroupLayout.Describes log k.names g)
    h.groups hk

theorem Describes.exists_keyGroup (h : layout.Describes log config) {i : Nat}
    (hg : layout.groups[i]? = some g) : ∃ k, config.keys[i]? = some k ∧ g.Describes log k.names :=
  exists_left_of_getElem? (R := fun (k : KeyGroup) g => GroupLayout.Describes log k.names g)
    h.groups hg

theorem Describes.weighted (h : layout.Describes log config) (hg : g ∈ layout.groups) :
    Digit.Weighted 1 g.digits g.count := by
  obtain ⟨k, -, hk⟩ := h.exists_key hg
  exact hk.weighted

theorem Describes.number_lt (h : layout.Describes log config) (hg : g ∈ layout.groups)
    {values : List Nat} (hv : Digit.Fit g.digits values) :
    g.base + Digit.offset g.digits values < g.base + g.count
      ∧ g.base + Digit.offset g.digits values < layout.size := by
  have hlt := Digit.offset_lt (h.weighted hg) hv
  have hle := (h.stacked.bounds.2 g hg).2
  omega

/-- Every number below the size has one address. -/
theorem existsUnique_address (h : layout.Describes log config) (hn : n < layout.size) :
    ∃! a : Nat × List Nat, layout.Addresses a.1 a.2 n := by
  obtain ⟨i, g, hg, hle, hlt⟩ := h.stacked.exists_group (Nat.zero_le n) hn
  have hw := h.weighted (List.mem_of_getElem? hg)
  refine ⟨(i, Digit.values g.digits (n - g.base)), ⟨g, hg, ?_, ?_⟩, ?_⟩
  · exact Digit.fit_values hw.radix_pos _
  · rw [Digit.offset_values hw (by omega)]
    omega
  · rintro ⟨j, vs⟩ ⟨k, hk, hfit, rfl⟩
    have hmk := h.number_lt (List.mem_of_getElem? hk) hfit
    obtain rfl := h.stacked.group_unique hg hk ⟨hle, hlt⟩ ⟨by omega, hmk.1⟩
    obtain rfl : g = k := by simpa [hg] using hk
    rw [Nat.add_sub_cancel_left, Digit.values_offset hw hfit]

theorem Describes.address_unique (h : layout.Describes log config) {i j : Nat} {us vs : List Nat}
    (hu : layout.Addresses i us n) (hv : layout.Addresses j vs n) : i = j ∧ us = vs := by
  obtain ⟨g, hg, hf, rfl⟩ := hu
  have hlt := (h.number_lt (List.mem_of_getElem? hg) hf).2
  obtain ⟨a, -, ha⟩ := existsUnique_address h hlt
  have hi : (i, us) = a := ha (i, us) ⟨g, hg, hf, rfl⟩
  have hj : (j, vs) = a := ha (j, vs) hv
  simpa using hi.trans hj.symm

end Addresses

section Events

variable {log : Log} {config : Config} {layout : Layout} {g : GroupLayout} {e : Event}

omit layout config in
theorem fit_of_coded {names : List String} (h : g.Describes log names)
    (he : e.Coded log.fields) : Digit.Fit g.digits (g.fields.map e.value) := by
  unfold Digit.Fit GroupLayout.fields
  rw [List.map_map, List.forall₂_map_right_iff, List.forall₂_same]
  intro d hd
  obtain ⟨name, -, hname⟩ := exists_left_of_mem h.digits hd
  obtain ⟨f, hf, hr⟩ := hname.radix
  have := he.2 d.field f hf
  simp only [Function.comp_apply]
  omega

theorem eventNumber_of_fit (h : Digit.Fit g.digits (g.fields.map e.value)) :
    eventNumber g e = .ok (g.base + Digit.offset g.digits (g.fields.map e.value)) := by
  unfold eventNumber GroupLayout.fields at *
  generalize g.base = n
  generalize g.digits = ds at *
  induction ds generalizing n with
  | nil => rfl
  | cons d ds ih =>
    obtain ⟨hd, hds⟩ := List.forall₂_cons.1 h
    rw [List.foldlM_cons, if_pos hd]
    refine (ih _ hds).trans ?_
    simp only [List.map_cons, Digit.offset, Nat.add_assoc]

/-- The number of an event's funnel in a group. -/
def place (g : GroupLayout) (e : Event) : Nat :=
  g.base + Digit.offset g.digits (g.fields.map e.value)

/-- Whether an event lands in a funnel. -/
def lands (layout : Layout) (f : FunnelId) (e : Event) : Bool :=
  layout.groups.any fun g => place g e == f.toNat

theorem eventFunnel_of_coded (h : layout.Describes log config) (he : e.Coded log.fields)
    {i : Nat} (hg : layout.groups[i]? = some g) : ∃ f : FunnelId,
      layout.eventFunnel i e = .ok f ∧ f.toNat = place g e ∧ f.toNat < layout.size := by
  obtain ⟨k, -, hk⟩ := h.exists_key (List.mem_of_getElem? hg)
  have hf := fit_of_coded hk he
  have hlt := (h.number_lt (List.mem_of_getElem? hg) hf).2
  have hle := h.size_le
  refine ⟨UInt32.ofNat (place g e), ?_, ?_⟩
  · unfold eventFunnel
    rw [hg]
    simp only []
    rw [eventNumber_of_fit hf]
    rfl
  · unfold place
    rw [UInt32.toNat_ofNat_of_lt' (Nat.lt_of_lt_of_le hlt hle)]
    exact ⟨rfl, hlt⟩

/-- An event lands in a funnel exactly when it has the values of the funnel's address. -/
theorem lands_iff (h : layout.Describes log config) (he : e.Coded log.fields) {f : FunnelId}
    {i : Nat} {values : List Nat} (ha : layout.Addresses i values f.toNat)
    (hg : layout.groups[i]? = some g) :
    layout.lands f e = true ↔ g.fields.map e.value = values := by
  unfold lands
  rw [List.any_eq_true]
  simp only [beq_iff_eq]
  constructor
  · rintro ⟨k, hk, hp⟩
    obtain ⟨j, hj⟩ := List.mem_iff_getElem?.1 hk
    obtain ⟨name, -, hname⟩ := h.exists_key hk
    obtain ⟨rfl, hv⟩ := h.address_unique ⟨k, hj, fit_of_coded hname he, hp⟩ ha
    obtain rfl : g = k := by simpa [hg] using hj
    exact hv
  · rintro rfl
    obtain ⟨k, hk, hf, hp⟩ := ha
    obtain rfl : g = k := by simpa [hg] using hk
    exact ⟨g, List.mem_of_getElem? hg, hp⟩

theorem lands_iff_eventFunnel (h : layout.Describes log config) (he : e.Coded log.fields)
    {f : FunnelId} : layout.lands f e = true ↔ ∃ i, layout.eventFunnel i e = .ok f := by
  unfold lands
  rw [List.any_eq_true]
  simp only [beq_iff_eq]
  constructor
  · rintro ⟨k, hk, hp⟩
    obtain ⟨i, hi⟩ := List.mem_iff_getElem?.1 hk
    obtain ⟨f', hf', hp', -⟩ := eventFunnel_of_coded h he hi
    obtain rfl : f' = f := UInt32.toNat_inj.1 (hp'.trans hp)
    exact ⟨i, hf'⟩
  · rintro ⟨i, hi⟩
    cases hk : layout.groups[i]? with
    | none =>
      unfold eventFunnel at hi
      rw [hk] at hi
      exact nomatch hi
    | some k =>
      obtain ⟨f', hf', hp, -⟩ := eventFunnel_of_coded h he hk
      obtain rfl : f' = f := Except.ok.inj (hf'.symm.trans hi)
      exact ⟨k, List.mem_of_getElem? hk, hp.symm⟩

end Events

end Layout

end Cohort
