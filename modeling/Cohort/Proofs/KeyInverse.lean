import Cohort.Proofs.Numbering
import Mathlib.Data.List.Induction
import Mathlib.Data.List.Nodup

/-!
# Keys and the funnels they are resolved to

A key has a funnel exactly when its fields are known, none is given twice, some group has them all
and every value is a word of its field (`Layout.exists_resolve_iff`). Reading the funnel back gives
the key's pairs in the order of the group (`Layout.resolved_of_resolve`), so keys of one funnel
differ in the order of their pairs only (`Layout.resolve_inverse`).
-/

namespace Cohort

/-- A key that a log and a description have a funnel for. -/
structure Key.Admissible (log : Log) (c : Config) (key : Key) : Prop where
  known : ∀ p ∈ key.pairs, p.1 ∈ log.fields.map (·.name)
  distinct : (key.pairs.map (·.1)).Nodup
  covered : ∃ k ∈ c.keys, ∀ p ∈ key.pairs, p.1 ∈ k.names
  words : ∀ p ∈ key.pairs, p.2 ∈ log.wordsOf p.1

/-- The pairs of a key in the order of some fields. -/
def Key.inOrder (key : Key) (names : List String) : Key :=
  ⟨names.filterMap fun a => (key.get? a).map (a, ·)⟩

namespace Key

variable {key : Key}

theorem mem_of_get? {a v : String} (h : key.get? a = some v) : (a, v) ∈ key.pairs := by
  unfold get? at h
  obtain ⟨p, hp, rfl⟩ := Option.map_eq_some_iff.1 h
  have ha : p.1 = a := by simpa using List.find?_some hp
  exact ha ▸ List.mem_of_find?_eq_some hp

theorem get?_eq_some_iff (hd : (key.pairs.map (·.1)).Nodup) {a v : String} :
    key.get? a = some v ↔ (a, v) ∈ key.pairs := by
  refine ⟨mem_of_get?, fun hm => ?_⟩
  cases hg : key.get? a with
  | none =>
    unfold get? at hg
    rw [Option.map_eq_none_iff, List.find?_eq_none] at hg
    simpa using hg _ hm
  | some w =>
    have hpair := List.inj_on_of_nodup_map hd hm (mem_of_get? hg) rfl
    rw [Prod.mk.injEq] at hpair
    rw [hpair.2]

theorem value_of_mem (hd : (key.pairs.map (·.1)).Nodup) {p : String × String}
    (hp : p ∈ key.pairs) : key.value p.1 = p.2 := by
  unfold value
  rw [(get?_eq_some_iff hd).2 hp]
  rfl

theorem perm_inOrder (hd : (key.pairs.map (·.1)).Nodup) {names : List String} (hn : names.Nodup)
    (hc : ∀ p ∈ key.pairs, p.1 ∈ names) : (key.inOrder names).pairs.Perm key.pairs := by
  have hnd : (key.inOrder names).pairs.Nodup := by
    refine hn.filterMap fun a b p hp hq => ?_
    simp only [Option.mem_map] at hp hq
    obtain ⟨v, -, rfl⟩ := hp
    obtain ⟨w, -, hq⟩ := hq
    exact (Prod.ext_iff.1 hq).1.symm
  refine (List.perm_ext_iff_of_nodup hnd hd.of_map).2 fun p => ?_
  unfold inOrder
  simp only [List.mem_filterMap, Option.map_eq_some_iff]
  constructor
  · rintro ⟨a, -, v, hv, rfl⟩
    exact mem_of_get? hv
  · intro hp
    exact ⟨p.1, hc p hp, p.2, (get?_eq_some_iff hd).2 hp, rfl⟩

end Key

namespace Layout

variable {log : Log} {config : Config} {layout : Layout} {key : Key}

theorem exists_fieldNumber_iff {a : String} :
    (∃ n, log.fieldNumber a = .ok n) ↔ a ∈ log.fields.map (·.name) := by
  simp only [fieldNumber_eq_ok_iff, ← Option.isSome_iff_exists, List.findIdx?_isSome,
    List.any_eq_true, List.mem_map, decide_eq_true_eq]

theorem exists_number_iff {a v : String} {n : Nat} (ha : log.fieldNumber a = .ok n) :
    (∃ k, log.number n v = .ok k) ↔ v ∈ log.wordsOf a := by
  obtain ⟨f, hf, -, hw⟩ := exists_field ha
  simp only [number_eq_ok_iff, hf, Option.some.injEq, exists_eq_left', hw]
  rw [← Option.isSome_iff_exists, ← not_iff_not, Option.not_isSome_iff_eq_none,
    Field.number?_eq_none_iff]

theorem Numbered.nodup_iff {as : List String} {ns : List Nat} (h : Numbered log as ns) :
    as.Nodup ↔ ns.Nodup := by
  induction h with
  | nil => simp
  | cons ha hrest ih =>
    rw [List.nodup_cons, List.nodup_cons, ih, Numbered.mem_iff hrest ha]

theorem exists_resolveFields (pairs : List (String × String))
    (hk : ∀ p ∈ pairs, p.1 ∈ log.fields.map (·.name)) (hd : (pairs.map (·.1)).Nodup) :
    ∃ fields, resolveFields log ⟨pairs⟩ = .ok fields := by
  -- each pair is checked against those before it
  induction pairs using List.reverseRecOn with
  | nil => exact ⟨[], rfl⟩
  | append_singleton pairs p ih =>
    obtain ⟨hk, hp⟩ := List.forall_mem_append.1 hk
    obtain ⟨n, hn⟩ := exists_fieldNumber_iff.2 (hp p (List.mem_singleton_self p))
    rw [List.map_append, List.nodup_append] at hd
    obtain ⟨hd, -, hnew⟩ := hd
    obtain ⟨fields, hf⟩ := ih hk hd
    have hfresh : ¬ (fields.any fun q => q.1 = n) = true := by
      rw [List.any_eq_true]
      rintro ⟨q, hq, hqn⟩
      have hgiven := given_of_resolveFields hf
      have hmem : n ∈ fields.map (·.1) := List.mem_map.2 ⟨q, hq, of_decide_eq_true hqn⟩
      exact hnew _ ((hgiven.numbered.mem_iff hn).2 hmem) p.1 (by simp) rfl
    refine ⟨fields ++ [(n, p.2)], ?_⟩
    unfold resolveFields at hf ⊢
    rw [List.foldlM_append, hf]
    simp only [bind_eq_ok_iff, guard_eq_ok_iff, pure_eq_ok_iff, List.foldlM_cons, List.foldlM_nil,
      Except.ok.injEq]
    exact ⟨fields, rfl, _, ⟨n, hn, hfresh, rfl⟩, rfl⟩

theorem exists_key_of_place {c : Config} {fields : List String} {i : Nat}
    (h : c.place? fields = some i) : ∃ k, c.keys[i]? = some k ∧ ∀ a ∈ fields, a ∈ k.names := by
  unfold Config.place? at h
  rcases Option.or_eq_some_iff.1 h with h | ⟨-, h⟩ <;>
    obtain ⟨hlt, hp, -⟩ := List.findIdx?_eq_some_iff_getElem.1 h <;>
    refine ⟨_, List.getElem?_eq_getElem hlt, ?_⟩
  · simpa using (Bool.and_eq_true_iff.1 hp).1
  · simpa using hp

theorem exists_place {c : Config} {fields : List String} {k : KeyGroup} (hk : k ∈ c.keys)
    (h : ∀ a ∈ fields, a ∈ k.names) : ∃ i, c.place? fields = some i := by
  rw [← Option.isSome_iff_exists]
  unfold Config.place?
  simp only [Option.isSome_or, List.findIdx?_isSome, Bool.or_eq_true, List.any_eq_true,
    List.all_eq_true, List.contains_iff_mem]
  exact .inr ⟨k, hk, h⟩

theorem exists_owner_iff (hd : layout.Describes log config) {as : List String} {ns : List Nat}
    (hn : Numbered log as ns) : (∃ g, layout.owner log ns = .ok g)
      ↔ ∃ k ∈ config.keys, ∀ a ∈ as, a ∈ k.names := by
  simp only [owner_iff_place hd hn]
  constructor
  · rintro ⟨g, i, hi, -⟩
    obtain ⟨k, hk, hcover⟩ := exists_key_of_place hi
    exact ⟨k, List.mem_of_getElem? hk, hcover⟩
  · rintro ⟨k, hk, hcover⟩
    obtain ⟨i, hi⟩ := exists_place hk hcover
    obtain ⟨_, hki, -⟩ := exists_key_of_place hi
    obtain ⟨g, hg, -⟩ := hd.exists_group hki
    exact ⟨g, i, hi, hg⟩

theorem admissible_of_owner (hd : layout.Describes log config) {fields : List (Nat × String)}
    {g : GroupLayout} (hf : resolveFields log key = .ok fields)
    (hg : layout.owner log (fields.map (·.1)) = .ok g)
    (hw : ∀ p ∈ key.pairs, p.2 ∈ log.wordsOf p.1) : key.Admissible log config := by
  have hgiven := given_of_resolveFields hf
  refine ⟨fun p hp => ?_, ?_, ?_, hw⟩
  · obtain ⟨q, -, hpq, -⟩ := exists_right_of_mem hgiven.named hp
    exact exists_fieldNumber_iff.1 ⟨q.1, hpq⟩
  · exact hgiven.numbered.nodup_iff.2 hgiven.distinct
  · simpa using (exists_owner_iff hd hgiven.numbered).1 ⟨g, hg⟩

theorem exists_resolve_iff (hd : layout.Describes log config) :
    (∃ f, layout.resolve log key = .ok f) ↔ key.Admissible log config := by
  constructor
  · rintro ⟨f, h⟩
    unfold resolve at h
    simp only [bind_eq_ok_iff] at h
    obtain ⟨fields, hf, g, hg, number, hn, -⟩ := h
    obtain ⟨-, hwords⟩ := summed_of_foldlM hn
    refine admissible_of_owner hd hf hg fun p hp => ?_
    obtain ⟨q, hq, hpq, hv⟩ := exists_right_of_mem (given_of_resolveFields hf).named hp
    exact (exists_number_iff hpq).1 (hv ▸ hwords q hq)
  · -- what is admissible passes the lookups of fields, of the group and of words in turn
    intro ha
    obtain ⟨fields, hf⟩ := exists_resolveFields key.pairs ha.known ha.distinct
    have hgiven := given_of_resolveFields hf
    obtain ⟨g, hg⟩ := (exists_owner_iff hd hgiven.numbered).2 (by simpa using ha.covered)
    have hwords : ∀ q ∈ fields, ∃ k, log.number q.1 q.2 = .ok k := by
      intro q hq
      obtain ⟨p, hp, hpq, hv⟩ := exists_left_of_mem hgiven.named hq
      exact (exists_number_iff hpq).2 (hv ▸ ha.words p hp)
    obtain ⟨number, hn⟩ := exists_foldlM_of_forall (l := fields)
      (f := fun number q => do return number + (← log.number q.1 q.2) * g.weight q.1)
      (fun b q hq => by
        obtain ⟨k, hk⟩ := hwords q hq
        exact ⟨_, bind_eq_ok_iff.2 ⟨k, hk, rfl⟩⟩) g.base
    refine ⟨UInt32.ofNat number, ?_⟩
    unfold resolve
    simp only [bind_eq_ok_iff, pure_eq_ok_iff]
    exact ⟨fields, hf, g, hg, number, hn, rfl⟩

section RoundTrip

theorem wordAt?_codeIn (hw : ∀ p ∈ key.pairs, p.2 ∈ log.wordsOf p.1) {a : String} {n : Nat}
    (ha : log.fieldNumber a = .ok n) :
    log.wordAt? a (log.codeIn a (key.value a)) = key.get? a := by
  obtain ⟨f, hf, -, hwords⟩ := exists_field ha
  have hword : log.wordAt? a (f.code (key.value a)) = f.word? (f.code (key.value a)) := by
    unfold Log.wordAt? Field.word?
    rw [hwords]
  rw [codeIn_eq_code ha hf, hword]
  unfold Key.value
  cases hg : key.get? a with
  | none =>
    rw [Option.getD_none, Field.code_empty]
    rfl
  | some v =>
    rw [Option.getD_some]
    have hv : v ∈ f.words := hwords ▸ hw _ (Key.mem_of_get? hg)
    cases hn : f.number? v with
    | none => exact absurd hv (Field.number?_eq_none_iff.1 hn)
    | some m =>
      unfold Field.code
      rw [hn]
      exact Field.number?_eq_some_iff.1 hn

theorem pairsOf_codes {g : GroupLayout} {names : List String} (hg : g.Describes log names)
    (hw : ∀ p ∈ key.pairs, p.2 ∈ log.wordsOf p.1) :
    log.pairsOf names (names.map fun a => log.codeIn a (key.value a))
      = (key.inOrder names).pairs := by
  unfold Log.pairsOf Key.inOrder
  rw [← List.map_prod_left_eq_zip, List.filterMap_map]
  refine List.filterMap_congr fun a hm => ?_
  obtain ⟨n, -, hn⟩ := exists_right_of_mem (numbered_fields hg) hm
  rw [Function.comp_apply, wordAt?_codeIn hw hn]

/-- What a funnel is that a key is resolved to. -/
structure Resolved (log : Log) (config : Config) (layout : Layout) (key : Key) (f : FunnelId) :
    Prop where
  lt : f.toNat < layout.size
  /-- It is a funnel of the group that the key's fields address, and its key has the key's pairs in
  the order of this group. -/
  group : ∃ i g k, config.place? (key.pairs.map (·.1)) = some i ∧ layout.groups[i]? = some g
    ∧ config.keys[i]? = some k ∧ g.contains f.toNat = true
    ∧ layout.keyOf log f = .ok (key.inOrder k.names)
    ∧ (key.inOrder k.names).pairs.Perm key.pairs

theorem resolved_of_resolve (hd : layout.Describes log config) {f : FunnelId}
    (h : layout.resolve log key = .ok f) : layout.Resolved log config key f := by
  have hkey := (exists_resolve_iff hd).1 ⟨f, h⟩
  obtain ⟨i, g, k, hg, hdk, hplace, hk, ha, -⟩ := exists_address_of_resolve hd h
  refine ⟨lt_of_addresses hd ha, i, g, k, hplace, hg, hk, contains_of_addresses hd hg ha, ?_, ?_⟩
  · rw [keyOf_of_addresses hd hk ha, pairsOf_codes hdk hkey.words]
  · obtain ⟨k', hk', hcover⟩ := exists_key_of_place hplace
    obtain rfl : k = k' := by simpa [hk] using hk'
    exact Key.perm_inOrder hkey.distinct ((numbered_fields hdk).nodup_iff.2 hdk.distinct)
      fun p hp => hcover _ (List.mem_map_of_mem hp)

/-- A key has a funnel exactly when it is admissible, the funnel has the key's pairs in the order of
its group, and so it is that of no other key except for the order of pairs. -/
theorem resolve_inverse (log : Log) (config : Config) (layout : Layout)
    (hl : build log config = .ok layout) (key : Key) :
    ((∃ f, layout.resolve log key = .ok f) ↔ key.Admissible log config)
      ∧ (∀ f, layout.resolve log key = .ok f → layout.Resolved log config key f)
      ∧ ∀ f key', layout.resolve log key = .ok f → layout.resolve log key' = .ok f →
        key.pairs.Perm key'.pairs := by
  have hd := describes_of_build hl
  refine ⟨exists_resolve_iff hd, fun f h => resolved_of_resolve hd h, fun f key' h h' => ?_⟩
  obtain ⟨_, _, k, _, _, _, _, hk, hp⟩ := (resolved_of_resolve hd h).group
  obtain ⟨_, _, k', _, _, _, _, hk', hp'⟩ := (resolved_of_resolve hd h').group
  have hsame : key.inOrder k.names = key'.inOrder k'.names := by simpa [hk] using hk'
  exact hp.symm.trans (hsame ▸ hp')

/-- Both groups have the field `a`. A key of `a` alone is in the second, and one of both fields in
the first, which turns its pairs round. -/
theorem resolve_inverse_pairedLog :
    ∃ layout, build pairedLog ⟨[.many ["b", "a"], .one "a"], none⟩ = .ok layout
      ∧ (∃ f, layout.resolve pairedLog ⟨[("a", "z"), ("b", "v")]⟩ = .ok f
        ∧ layout.keyOf pairedLog f = .ok ⟨[("b", "v"), ("a", "z")]⟩)
      ∧ ∃ f g, layout.resolve pairedLog ⟨[("a", "z")]⟩ = .ok f ∧ layout.groups[1]? = some g
        ∧ g.contains f.toNat = true := by
  obtain ⟨layout, hl⟩ : ∃ layout,
      build pairedLog ⟨[.many ["b", "a"], .one "a"], none⟩ = .ok layout := ⟨_, rfl⟩
  obtain ⟨hboth, hresolved, -⟩ := resolve_inverse _ _ _ hl ⟨[("a", "z"), ("b", "v")]⟩
  obtain ⟨f, hf⟩ := hboth.2 ⟨by decide, by decide, by decide, by decide⟩
  obtain ⟨i, g, k, hi, -, hk, -, hkey, -⟩ := (hresolved f hf).group
  obtain rfl : 0 = i := Option.some.inj hi
  obtain rfl : KeyGroup.many ["b", "a"] = k := Option.some.inj hk
  obtain ⟨hone, hresolved, -⟩ := resolve_inverse _ _ _ hl ⟨[("a", "z")]⟩
  obtain ⟨f', hf'⟩ := hone.2 ⟨by decide, by decide, by decide, by decide⟩
  obtain ⟨i, g', -, hi, hg', -, hc, -⟩ := (hresolved f' hf').group
  obtain rfl : 1 = i := Option.some.inj hi
  exact ⟨layout, hl, ⟨f, hf, hkey⟩, f', g', hf', hg', hc⟩

end RoundTrip

end Layout

end Cohort
