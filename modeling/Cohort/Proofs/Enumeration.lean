import Cohort.Layout.Keys
import Cohort.Proofs.KeyInverse
import Mathlib.Data.List.Pairwise

/-!
# The keys that a layout lists

The listed keys are those that give every field of some group one of its words
(`Layout.keys_eq_ok`, `Log.mem_fullKeys`). They are made group by group but resolved by their
fields, so each has a funnel of the first group of its fields, and two have the same funnel exactly
when they differ in the order of their pairs (`Layout.resolve_eq_iff_perm`). Hence all keys and all
funnels are different exactly when no two groups have the same fields (`Layout.keys_listed`).
-/

namespace Cohort

section Choices

variable {α : Type}

theorem mem_choices : ∀ {ls : List (List α)} {ws : List α},
    ws ∈ choices ls ↔ List.Forall₂ (· ∈ ·) ws ls
  | [], ws => by simp [choices]
  | l :: ls, ws => by
    have ih : ∀ vs, vs ∈ choices ls ↔ List.Forall₂ (· ∈ ·) vs ls := fun vs => mem_choices
    simp only [choices, List.mem_flatMap, List.mem_map, ih, List.forall₂_cons_right_iff]
    constructor
    · rintro ⟨a, ha, vs, hvs, rfl⟩
      exact ⟨a, vs, ha, hvs, rfl⟩
    · rintro ⟨a, vs, ha, hvs, rfl⟩
      exact ⟨a, ha, vs, hvs, rfl⟩

theorem nodup_choices : ∀ {ls : List (List α)}, (∀ l ∈ ls, l.Nodup) → (choices ls).Nodup
  | [], _ => List.nodup_singleton []
  | l :: ls, h => by
    obtain ⟨hl, hls⟩ := List.forall_mem_cons.1 h
    refine List.nodup_flatMap.2 ⟨fun a _ => ?_, hl.imp fun hne => ?_⟩
    · exact (nodup_choices hls).map fun _ _ h => (List.cons.inj h).2
    · refine List.disjoint_left.2 fun ws ha hb => ?_
      obtain ⟨_, -, rfl⟩ := List.mem_map.1 ha
      obtain ⟨_, -, he⟩ := List.mem_map.1 hb
      exact hne (List.cons.inj he).1.symm

end Choices

namespace Log

variable {log : Log} {names : List String} {key : Key}

theorem nodup_wordsOf (log : Log) (a : String) : (log.wordsOf a).Nodup := by
  unfold wordsOf
  cases log.fields.find? (·.name = a) with
  | none => exact List.nodup_nil
  | some f => exact f.distinct

/-- The keys that give each of some fields one of its words. -/
def fullKeys (log : Log) (names : List String) : List Key :=
  (choices (names.map log.wordsOf)).map fun ws => ⟨names.zip ws⟩

theorem length_of_mem_choices {ws : List String} (h : ws ∈ choices (names.map log.wordsOf)) :
    ws.length = names.length := by
  simpa using (mem_choices.1 h).length_eq

theorem mem_fullKeys : key ∈ log.fullKeys names
    ↔ key.pairs.map (·.1) = names ∧ ∀ p ∈ key.pairs, p.2 ∈ log.wordsOf p.1 := by
  unfold fullKeys
  simp only [List.mem_map]
  constructor
  · rintro ⟨ws, hws, rfl⟩
    have hlen := length_of_mem_choices hws
    rw [mem_choices, List.forall₂_map_right_iff] at hws
    exact ⟨List.map_fst_zip hlen.ge, fun p hp => List.forall₂_zip hws.flip hp⟩
  · rintro ⟨rfl, hw⟩
    refine ⟨key.pairs.map (·.2), ?_, ?_⟩
    · rw [mem_choices]
      simpa only [List.forall₂_map_left_iff, List.forall₂_map_right_iff, List.forall₂_same] using hw
    · rw [List.zip_map', List.map_id']

theorem nodup_fullKeys (log : Log) (names : List String) : (log.fullKeys names).Nodup := by
  refine List.Nodup.map_on (fun ws hws vs hvs h => ?_) (nodup_choices ?_)
  · have hzip := congrArg (List.map Prod.snd) (Key.mk.inj h)
    rwa [List.map_snd_zip (length_of_mem_choices hws).le,
      List.map_snd_zip (length_of_mem_choices hvs).le] at hzip
  · simpa using fun a _ => log.nodup_wordsOf a

theorem exists_fullKey_iff :
    (∃ key, key ∈ log.fullKeys names) ↔ ∀ a ∈ names, log.wordsOf a ≠ [] := by
  constructor
  · rintro ⟨key, h⟩ a ha
    obtain ⟨rfl, hw⟩ := mem_fullKeys.1 h
    obtain ⟨p, hp, rfl⟩ := List.mem_map.1 ha
    exact List.ne_nil_of_mem (hw p hp)
  · intro h
    have hex : ∀ a ∈ names, ∃ w, w ∈ log.wordsOf a :=
      fun a ha => List.exists_mem_of_ne_nil _ (h a ha)
    choose! word hword using hex
    refine ⟨⟨names.map fun a => (a, word a)⟩, mem_fullKeys.2 ⟨?_, fun p hp => ?_⟩⟩
    · rw [List.map_map]
      exact List.map_id' names
    · obtain ⟨a, ha, rfl⟩ := List.mem_map.1 hp
      exact hword a ha

theorem perm_inOrder_of_mem_fullKeys (hn : names.Nodup) (h : key ∈ log.fullKeys names)
    {names' : List String} (hp : names.Perm names') :
    (key.inOrder names').pairs.Perm key.pairs := by
  obtain ⟨rfl, -⟩ := mem_fullKeys.1 h
  exact Key.perm_inOrder hn (hp.nodup_iff.1 hn) fun p hm => hp.mem_iff.1 (List.mem_map_of_mem hm)

theorem inOrder_mem_fullKeys (hn : names.Nodup) (h : key ∈ log.fullKeys names)
    {names' : List String} (hp : names.Perm names') :
    key.inOrder names' ∈ log.fullKeys names' := by
  have hperm := perm_inOrder_of_mem_fullKeys hn h hp
  obtain ⟨rfl, hw⟩ := mem_fullKeys.1 h
  refine mem_fullKeys.2 ⟨?_, fun p hm => hw p (hperm.mem_iff.1 hm)⟩
  have hgiven : ∀ a ∈ names', ((key.get? a).map (a, ·)).map Prod.fst = some a := by
    intro a ha
    obtain ⟨p, hm, rfl⟩ := List.mem_map.1 (hp.mem_iff.2 ha)
    rw [(Key.get?_eq_some_iff hn).2 hm]
    rfl
  unfold Key.inOrder
  rw [List.map_filterMap]
  exact (List.filterMap_congr hgiven).trans List.filterMap_some

end Log

namespace Key

variable {key key' : Key}

theorem get?_eq_of_perm (hd : (key.pairs.map (·.1)).Nodup) (h : key.pairs.Perm key'.pairs)
    (a : String) : key.get? a = key'.get? a := by
  have hd' : (key'.pairs.map (·.1)).Nodup := (h.map _).nodup_iff.1 hd
  exact Option.ext fun v => by rw [get?_eq_some_iff hd, get?_eq_some_iff hd', h.mem_iff]

theorem Admissible.of_perm {log : Log} {c : Config} (h : key.Admissible log c)
    (hp : key.pairs.Perm key'.pairs) : key'.Admissible log c where
  known p hm := h.known p (hp.mem_iff.2 hm)
  distinct := (hp.map _).nodup_iff.1 h.distinct
  covered := by
    obtain ⟨k, hk, hcover⟩ := h.covered
    exact ⟨k, hk, fun p hm => hcover p (hp.mem_iff.2 hm)⟩
  words p hm := h.words p (hp.mem_iff.2 hm)

theorem inOrder_self (hd : (key.pairs.map (·.1)).Nodup) :
    key.inOrder (key.pairs.map (·.1)) = key := by
  have hpair : ∀ p ∈ key.pairs, (key.get? p.1).map (p.1, ·) = some p := fun p hp => by
    rw [(get?_eq_some_iff hd).2 hp, Option.map_some]
  unfold inOrder
  rw [List.filterMap_map]
  exact congrArg mk ((List.filterMap_congr hpair).trans List.filterMap_some)

end Key

/-- Two groups have the same fields, and all of these have words. -/
def KeyGroup.Repeats (log : Log) (k k' : KeyGroup) : Prop :=
  k.names.Perm k'.names ∧ ∀ a ∈ k.names, log.wordsOf a ≠ []

theorem KeyGroup.Repeats.symm {log : Log} {k k' : KeyGroup} (h : k.Repeats log k') :
    k'.Repeats log k :=
  ⟨h.1.symm, fun a ha => h.2 a (h.1.mem_iff.2 ha)⟩

instance (log : Log) (k k' : KeyGroup) : Decidable (k.Repeats log k') :=
  inferInstanceAs (Decidable (_ ∧ _))

namespace Config

variable {log : Log} {c : Config} {k k' : KeyGroup}

/-- No key group repeats another. -/
def Unrepeated (log : Log) (c : Config) : Prop :=
  c.keys.Pairwise fun k k' => ¬ k.Repeats log k'

/-- The keys that give every field of some group one of its words. -/
def fullKeys (log : Log) (c : Config) : List Key := c.keys.flatMap fun k => log.fullKeys k.names

instance (log : Log) (c : Config) : Decidable (c.Unrepeated log) :=
  inferInstanceAs (Decidable (List.Pairwise _ _))

theorem Unrepeated.eq_of_repeats (h : c.Unrepeated log) (hk : k ∈ c.keys) (hk' : k' ∈ c.keys)
    (hr : k.Repeats log k') : k = k' := by
  have : Std.Symm fun k k' : KeyGroup => ¬ k.Repeats log k' := ⟨fun _ _ h hr => h hr.symm⟩
  by_contra hne
  exact List.Pairwise.forall h hk hk' hne hr

theorem mem_fullKeys {key : Key} :
    key ∈ c.fullKeys log ↔ ∃ k ∈ c.keys, key ∈ log.fullKeys k.names := List.mem_flatMap

theorem Unrepeated.nodup_fullKeys (h : c.Unrepeated log) : (c.fullKeys log).Nodup := by
  refine List.nodup_flatMap.2 ⟨fun k _ => log.nodup_fullKeys k.names, h.imp fun hne => ?_⟩
  refine List.disjoint_left.2 fun key hk hk' => hne ⟨?_, Log.exists_fullKey_iff.1 ⟨key, hk⟩⟩
  rw [← (Log.mem_fullKeys.1 hk).1, ← (Log.mem_fullKeys.1 hk').1]

theorem place?_eq_of_perm {as bs : List String} (h : as.Perm bs) : c.place? as = c.place? bs := by
  have hc : (fun a => as.contains a) = fun a => bs.contains a := funext fun a => h.contains_eq
  unfold place?
  simp only [h.all_eq, hc]

end Config

namespace Layout

variable {log : Log} {config : Config} {layout : Layout} {g : GroupLayout} {k : KeyGroup}
  {key key' : Key} {f : FunnelId}

theorem groupWords_eq_ok {names : List String} (hg : g.Describes log names) :
    groupWords log g = .ok (names.map fun a => (a, log.wordsOf a)) := by
  unfold groupWords
  rw [mapM_eq_ok_iff, List.forall₂_map_right_iff]
  refine (numbered_fields hg).flip.imp fun n a ha => ?_
  obtain ⟨f, hf, hname, hwords⟩ := exists_field ha
  simp only [bind_eq_ok_iff, pure_eq_ok_iff, field_eq_ok_iff]
  exact ⟨f, hf, by rw [hname, hwords]⟩

theorem keys_eq_ok (hd : layout.Describes log config) :
    layout.keys log = .ok (config.fullKeys log) := by
  unfold keys
  simp only [bind_eq_ok_iff, pure_eq_ok_iff, mapM_eq_ok_iff]
  refine ⟨config.keys.map fun k => k.names.map fun a => (a, log.wordsOf a), ?_, ?_⟩
  · rw [List.forall₂_map_right_iff]
    exact hd.groups.flip.imp fun g k hg => groupWords_eq_ok hg
  · unfold Config.fullKeys Log.fullKeys keyFor
    simp [List.flatMap_map, Function.comp_def]

theorem nodup_names (hd : layout.Describes log config) (hk : k ∈ config.keys) :
    k.names.Nodup := by
  obtain ⟨g, -, hg⟩ := exists_right_of_mem hd.groups hk
  exact (numbered_fields hg).nodup_iff.2 hg.distinct

theorem admissible_of_mem_fullKeys (hd : layout.Describes log config) (hk : k ∈ config.keys)
    (h : key ∈ log.fullKeys k.names) : key.Admissible log config := by
  obtain ⟨hnames, hwords⟩ := Log.mem_fullKeys.1 h
  have hmem : ∀ p ∈ key.pairs, p.1 ∈ k.names := fun p hp => hnames ▸ List.mem_map_of_mem hp
  obtain ⟨g, -, hg⟩ := exists_right_of_mem hd.groups hk
  refine ⟨fun p hp => ?_, hnames ▸ nodup_names hd hk, ⟨k, hk, hmem⟩, hwords⟩
  obtain ⟨n, -, hn⟩ := exists_right_of_mem (numbered_fields hg) (hmem p hp)
  exact exists_fieldNumber_iff.1 ⟨n, hn⟩

theorem resolve_eq_of_perm (hd : layout.Describes log config) (hp : key.pairs.Perm key'.pairs)
    (h : layout.resolve log key = .ok f) : layout.resolve log key' = .ok f := by
  have hkey := (exists_resolve_iff hd).1 ⟨f, h⟩
  obtain ⟨f', h'⟩ := (exists_resolve_iff hd).2 (hkey.of_perm hp)
  obtain ⟨i, -, c, -, -, hi, hc, ⟨g, hg, -, hn⟩, -⟩ := exists_address_of_resolve hd h
  obtain ⟨i', -, c', -, -, hi', hc', ⟨g', hg', -, hn'⟩, -⟩ := exists_address_of_resolve hd h'
  -- both keys have the same group and the same values, hence the same address
  obtain rfl : i = i' := by
    rw [Config.place?_eq_of_perm (hp.map _), hi', Option.some.injEq] at hi
    exact hi.symm
  obtain rfl : c = c' := by simpa [hc] using hc'
  obtain rfl : g = g' := by simpa [hg] using hg'
  have hvalue : key.value = key'.value := funext fun a => by
    unfold Key.value
    rw [Key.get?_eq_of_perm hkey.distinct hp]
  rw [hvalue, hn'] at hn
  rw [h', UInt32.toNat_inj.1 hn]

/-- Keys have the same funnel exactly when they differ in the order of their pairs only. -/
theorem resolve_eq_iff_perm (hd : layout.Describes log config) (hkey : key.Admissible log config) :
    layout.resolve log key = layout.resolve log key' ↔ key.pairs.Perm key'.pairs := by
  obtain ⟨f, hf⟩ := (exists_resolve_iff hd).2 hkey
  rw [hf, eq_comm]
  refine ⟨fun hf' => ?_, fun hp => resolve_eq_of_perm hd hp hf⟩
  obtain ⟨_, _, k, _, _, _, _, hk, hp⟩ := (resolved_of_resolve hd hf).group
  obtain ⟨_, _, k', _, _, _, _, hk', hp'⟩ := (resolved_of_resolve hd hf').group
  have hsame : key.inOrder k.names = key'.inOrder k'.names := by simpa [hk] using hk'
  exact hp.symm.trans (hsame ▸ hp')

theorem perm_of_owner? (hd : layout.Describes log config) (hk : k ∈ config.keys)
    {k' : KeyGroup} (h : config.owner? k.names = some k') : k'.names.Perm k.names := by
  have hfind : (config.keys.find? fun g =>
      k.names.all g.names.contains && g.names.all k.names.contains) = some k' := by
    unfold Config.owner? at h
    rcases Option.or_eq_some_iff.1 h with h | ⟨hnone, -⟩
    · exact h
    · rw [List.find?_eq_none] at hnone
      simpa using hnone k hk
  have hboth := List.find?_some hfind
  simp only [Bool.and_eq_true, List.all_eq_true, List.contains_iff_mem] at hboth
  have hk' := List.mem_of_find?_eq_some hfind
  exact (List.perm_ext_iff_of_nodup (nodup_names hd hk') (nodup_names hd hk)).2
    fun a => ⟨hboth.2 a, hboth.1 a⟩

/-- What is so of a listed key: it has a funnel, and the funnel's key has the same pairs in the
order of the first group of these fields. -/
structure ListedKey (log : Log) (config : Config) (layout : Layout) (key : Key) (f : FunnelId)
    (k : KeyGroup) : Prop where
  resolve : layout.resolve log key = .ok f
  lt : f.toNat < layout.size
  owner : config.owner? (key.pairs.map (·.1)) = some k
  names : k.names.Perm (key.pairs.map (·.1))
  keyOf : layout.keyOf log f = .ok (key.inOrder k.names)
  pairs : (key.inOrder k.names).pairs.Perm key.pairs

theorem exists_listedKey (hd : layout.Describes log config) (h : key ∈ config.fullKeys log) :
    ∃ f k, layout.ListedKey log config key f k := by
  obtain ⟨k, hk, h⟩ := Config.mem_fullKeys.1 h
  obtain ⟨f, hf⟩ := (exists_resolve_iff hd).2 (admissible_of_mem_fullKeys hd hk h)
  have hr := resolved_of_resolve hd hf
  obtain ⟨i, -, k', hi, -, hk', -, hkeyOf, hpairs⟩ := hr.group
  have howner := Config.owner?_eq_some_iff.2 ⟨i, hi, hk'⟩
  obtain ⟨hnames, -⟩ := Log.mem_fullKeys.1 h
  exact ⟨f, k', hf, hr.lt, howner, hnames ▸ perm_of_owner? hd hk (hnames ▸ howner), hkeyOf, hpairs⟩

/-- All of some keys are different, they have different funnels, and these have them as keys. -/
structure Apart (log : Log) (layout : Layout) (ks : List Key) : Prop where
  nodup : ks.Nodup
  injective : Set.InjOn (layout.resolve log) {key | key ∈ ks}
  keyOf : ∀ key ∈ ks, ∀ f, layout.resolve log key = .ok f → layout.keyOf log f = .ok key

theorem apart_of_unrepeated (hd : layout.Describes log config) (h : config.Unrepeated log) :
    layout.Apart log (config.fullKeys log) := by
  have hback : ∀ key ∈ config.fullKeys log, ∀ f, layout.resolve log key = .ok f →
      layout.keyOf log f = .ok key := by
    intro key hkey f hf
    obtain ⟨f', k', hlisted⟩ := exists_listedKey hd hkey
    obtain rfl : f' = f := by simpa [hlisted.resolve] using hf
    obtain ⟨k, hk, hkey⟩ := Config.mem_fullKeys.1 hkey
    obtain ⟨hnames, -⟩ := Log.mem_fullKeys.1 hkey
    -- the first group of the key's fields is the one that it is listed for
    obtain ⟨i, -, hi⟩ := Config.owner?_eq_some_iff.1 hlisted.owner
    have hrepeats : k.Repeats log k' :=
      ⟨hnames ▸ hlisted.names.symm, Log.exists_fullKey_iff.1 ⟨key, hkey⟩⟩
    obtain rfl := h.eq_of_repeats hk (List.mem_of_getElem? hi) hrepeats
    rw [hlisted.keyOf, ← hnames, Key.inOrder_self (hnames ▸ nodup_names hd hk)]
  refine ⟨h.nodup_fullKeys, fun key hkey key' hkey' hsame => ?_, hback⟩
  obtain ⟨f, k, hlisted⟩ := exists_listedKey hd hkey
  have hkeyOf := hback key hkey f hlisted.resolve
  rwa [hback key' hkey' f (hsame ▸ hlisted.resolve), Except.ok.injEq, eq_comm] at hkeyOf

theorem unrepeated_of_apart (hd : layout.Describes log config)
    (h : layout.Apart log (config.fullKeys log)) : config.Unrepeated log := by
  refine (List.nodup_flatMap.1 h.nodup).2.imp_of_mem fun {k k'} hk hk' hdisjoint hr => ?_
  -- the keys of the one group are those of the other in another order, with the same funnels
  obtain ⟨key, hkey⟩ := Log.exists_fullKey_iff.2 hr.2
  have hkey' := Log.inOrder_mem_fullKeys (nodup_names hd hk) hkey hr.1
  have hperm := Log.perm_inOrder_of_mem_fullKeys (nodup_names hd hk) hkey hr.1
  have hsame := (resolve_eq_iff_perm hd (admissible_of_mem_fullKeys hd hk hkey)).2 hperm.symm
  have heq : key = key.inOrder k'.names :=
    h.injective (Config.mem_fullKeys.2 ⟨k, hk, hkey⟩) (Config.mem_fullKeys.2 ⟨k', hk', hkey'⟩) hsame
  exact List.disjoint_left.1 hdisjoint hkey (heq ▸ hkey')

/-- What the keys that a layout lists come to. -/
structure Lists (log : Log) (config : Config) (layout : Layout) (ks : List Key) : Prop where
  listed : ∀ key ∈ ks, ∃ f k, layout.ListedKey log config key f k
  /-- Keys of one funnel are the same but for the order of their pairs. -/
  same : ∀ key ∈ ks, ∀ key' ∈ ks,
    layout.resolve log key = layout.resolve log key' ↔ key.pairs.Perm key'.pairs
  apart : layout.Apart log ks ↔ config.Unrepeated log

/-- A layout lists keys that all have funnels. They are kept apart, and each read back as it is
listed, exactly when no key group repeats another. -/
theorem keys_listed (log : Log) (config : Config) (layout : Layout)
    (hl : build log config = .ok layout) :
    ∃ ks, layout.keys log = .ok ks ∧ layout.Lists log config ks := by
  have hd := describes_of_build hl
  refine ⟨config.fullKeys log, keys_eq_ok hd, fun key hkey => exists_listedKey hd hkey,
    fun key hkey key' _ => ?_, unrepeated_of_apart hd, apart_of_unrepeated hd⟩
  obtain ⟨k, hk, h⟩ := Config.mem_fullKeys.1 hkey
  exact resolve_eq_iff_perm hd (admissible_of_mem_fullKeys hd hk h)

/-- The groups have a field in common, but none repeats another. -/
theorem keys_listed_pairedLog :
    ∃ layout ks, build pairedLog ⟨[.many [], .many ["b", "a"], .one "a"], none⟩ = .ok layout
      ∧ layout.keys pairedLog = .ok ks ∧ layout.Apart pairedLog ks := by
  obtain ⟨layout, hl⟩ : ∃ layout,
      build pairedLog ⟨[.many [], .many ["b", "a"], .one "a"], none⟩ = .ok layout := ⟨_, rfl⟩
  obtain ⟨ks, hks, hlists⟩ := keys_listed _ _ _ hl
  exact ⟨layout, ks, hl, hks, hlists.apart.2 (by decide)⟩

/-- Three groups of the same fields, two of them in the same order. -/
def repeatedGroups : Config := ⟨[.many ["a", "b"], .many ["b", "a"], .many ["b", "a"]], none⟩

/-- The second and third group list the same keys. The funnel of such a key is that of a key of the
first group, and is read back as this one. -/
theorem keys_repeated :
    ∃ layout ks f, build pairedLog repeatedGroups = .ok layout ∧ layout.keys pairedLog = .ok ks
      ∧ ¬ ks.Nodup ∧ ⟨[("a", "x"), ("b", "y")]⟩ ∈ ks ∧ ⟨[("b", "y"), ("a", "x")]⟩ ∈ ks
      ∧ layout.resolve pairedLog ⟨[("a", "x"), ("b", "y")]⟩ = .ok f
      ∧ layout.resolve pairedLog ⟨[("b", "y"), ("a", "x")]⟩ = .ok f
      ∧ layout.keyOf pairedLog f = .ok ⟨[("a", "x"), ("b", "y")]⟩ :=
  ⟨_, _, _, rfl, rfl, by decide, by decide, by decide, rfl, rfl, rfl⟩

end Layout

end Cohort
