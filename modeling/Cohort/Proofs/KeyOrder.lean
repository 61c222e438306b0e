import Cohort.Proofs.Enumeration

/-!
# The order of the keys that a layout lists

A word's number is its place among the words of its field, so choosing words in their order, the
last field's fastest, goes through the keys of a group in the order of their value numbers
(`Log.fullKeys_ascending`). An event with the value numbers of a listed key lands in a funnel of the
group that has this key (`Layout.exists_eventFunnel_of_codes`), although the funnels are numbered
with the first field for the lowest digit. So the listing goes through the groups one after the
other, and through all keys of each in order (`Layout.keys_enumerated`).
-/

namespace Cohort

section Choices

variable {ι α : Type}

theorem length_choices : ∀ ls : List (List α), (choices ls).length = (ls.map List.length).prod
  | [] => rfl
  | l :: ls => by
    simp only [choices, List.length_flatMap, List.length_map, length_choices ls, List.map_cons,
      List.prod_cons, List.map_const', List.sum_replicate_nat]

/-- Choosing from lists that are each in the order of their codes goes through the lists of codes
as through a dictionary. -/
theorem choices_ascending {words : ι → List α} {code : ι → α → Nat} : ∀ {names : List ι},
    (∀ a ∈ names, (words a).Pairwise fun v w => code a v < code a w) →
      (choices (names.map words)).Pairwise fun vs ws =>
        List.Lex (· < ·) (List.zipWith code names vs) (List.zipWith code names ws)
  | [], _ => List.pairwise_singleton _ _
  | a :: names, h => by
    obtain ⟨ha, hnames⟩ := List.forall_mem_cons.1 h
    rw [List.map_cons, choices, List.pairwise_flatMap]
    refine ⟨fun v _ => ?_, ha.imp fun hvw vs hvs ws hws => ?_⟩
    · rw [List.pairwise_map]
      exact (choices_ascending hnames).imp List.Lex.cons
    · obtain ⟨_, -, rfl⟩ := List.mem_map.1 hvs
      obtain ⟨_, -, rfl⟩ := List.mem_map.1 hws
      exact .rel hvw

end Choices

namespace Field

variable {f : Field}

theorem code_getElem {i : Nat} (h : i < f.words.length) : f.code f.words[i] = i + 1 := by
  have hword : f.word? (i + 1) = some f.words[i] := by
    unfold word?
    rw [if_neg (Nat.succ_ne_zero i), Nat.add_sub_cancel, List.getElem?_eq_getElem h]
  exact (knows_of_number? (number?_eq_some_iff.2 hword)).2

theorem codes_ascending (f : Field) : f.words.Pairwise fun v w => f.code v < f.code w := by
  rw [List.pairwise_iff_getElem]
  intro i j hi hj hij
  rw [code_getElem hi, code_getElem hj]
  omega

end Field

namespace Log

variable {log : Log} {names : List String} {key : Key}

/-- The numbers of the values that a key gives, in the order of its pairs. -/
def codes (log : Log) (key : Key) : List Nat := key.pairs.map fun p => log.codeIn p.1 p.2

theorem codeIn_ascending {a : String} {n : Nat} (ha : log.fieldNumber a = .ok n) :
    (log.wordsOf a).Pairwise fun v w => log.codeIn a v < log.codeIn a w := by
  obtain ⟨f, hf, -, hw⟩ := Layout.exists_field ha
  simp only [hw, Layout.codeIn_eq_code ha hf]
  exact f.codes_ascending

theorem codes_zip (names ws : List String) :
    log.codes ⟨names.zip ws⟩ = List.zipWith log.codeIn names ws :=
  List.map_uncurry_zip_eq_zipWith (f := log.codeIn)

/-- The keys of some fields are listed in the order of their value numbers. -/
theorem fullKeys_ascending (hn : ∀ a ∈ names, ∃ n, log.fieldNumber a = .ok n) :
    (log.fullKeys names).Pairwise fun k k' => List.Lex (· < ·) (log.codes k) (log.codes k') := by
  unfold fullKeys
  rw [List.pairwise_map]
  simp only [codes_zip]
  refine choices_ascending fun a ha => ?_
  obtain ⟨n, hn⟩ := hn a ha
  exact codeIn_ascending hn

theorem length_fullKeys (log : Log) (names : List String) :
    (log.fullKeys names).length = (names.map fun a => (log.wordsOf a).length).prod := by
  unfold fullKeys
  rw [List.length_map, length_choices, List.map_map]
  rfl

theorem fullKeys_eq_nil (h : ∃ a ∈ names, log.wordsOf a = []) : log.fullKeys names = [] := by
  rw [List.eq_nil_iff_forall_not_mem]
  intro key hkey
  obtain ⟨a, ha, hnil⟩ := h
  exact exists_fullKey_iff.1 ⟨key, hkey⟩ a ha hnil

end Log

namespace Layout

variable {log : Log} {config : Config} {layout : Layout} {key : Key} {k : KeyGroup} {i : Nat}

theorem codes_eq_map_value (hd : (key.pairs.map (·.1)).Nodup) :
    log.codes key = (key.pairs.map (·.1)).map fun a => log.codeIn a (key.value a) := by
  unfold Log.codes
  rw [List.map_map]
  refine List.map_congr_left fun p hp => ?_
  rw [Function.comp_apply, Key.value_of_mem hd hp]

/-- An event with the values of a listed key lands in a funnel that has this key. -/
theorem exists_eventFunnel_of_codes (hd : layout.Describes log config)
    (hk : config.keys[i]? = some k) (hkey : key ∈ log.fullKeys k.names) {e : Event}
    (he : log.valuesOf k.names e = log.codes key) :
    ∃ f, layout.eventFunnel i e = .ok f ∧ layout.keyOf log f = .ok key := by
  obtain ⟨g, -, hg⟩ := hd.exists_group hk
  have hnames := nodup_names hd (List.mem_of_getElem? hk)
  obtain ⟨hfields, hwords⟩ := Log.mem_fullKeys.1 hkey
  have hcodes : log.codes key = k.names.map fun a => log.codeIn a (key.value a) :=
    hfields ▸ codes_eq_map_value (hfields ▸ hnames)
  have hadr : config.IsAddress log (i, log.valuesOf k.names e) := by
    refine ⟨k, hk, ?_⟩
    rw [he, hcodes, List.forall₂_map_right_iff, List.forall₂_same]
    intro a ha
    obtain ⟨n, -, hn⟩ := exists_right_of_mem (numbered_fields hg) ha
    obtain ⟨f, hf, -, hw⟩ := exists_field hn
    rw [hw, codeIn_eq_code hn hf]
    exact f.code_le _
  obtain ⟨n, hn⟩ := (isAddress_iff hd).1 hadr
  obtain ⟨f, rfl⟩ := exists_funnel hd hn
  refine ⟨f, (eventFunnel_eq_ok_iff hd hk).2 hn, ?_⟩
  rw [keyOf_of_addresses hd hk hn, he, hcodes, pairsOf_codes hg hwords, ← hfields,
    Key.inOrder_self (hfields ▸ hnames)]

/-- Some keys are all those of a key group, in order. -/
structure Enumerates (log : Log) (layout : Layout) (i : Nat) (k : KeyGroup) (ks : List Key) :
    Prop where
  /-- They are those that give each field of the group, in its order, one of its words. -/
  mem_iff : ∀ key, key ∈ ks
    ↔ key.pairs.map (·.1) = k.names ∧ ∀ p ∈ key.pairs, p.2 ∈ log.wordsOf p.1
  /-- They are in the order of their value numbers, the last field's varying fastest. -/
  ascending : ks.Pairwise fun key key' => List.Lex (· < ·) (log.codes key) (log.codes key')
  nodup : ks.Nodup
  length : ks.length = (k.names.map fun a => (log.wordsOf a).length).prod
  /-- A group without fields has the key without pairs. -/
  noField : k.names = [] → ks = [⟨[]⟩]
  noWord : (∃ a ∈ k.names, log.wordsOf a = []) → ks = []
  /-- An event with a key's value numbers lands in the funnel of this key. -/
  event : ∀ key ∈ ks, ∀ e : Event, log.valuesOf k.names e = log.codes key →
    ∃ f, layout.eventFunnel i e = .ok f ∧ layout.keyOf log f = .ok key

theorem enumerates_fullKeys (hd : layout.Describes log config) (hk : config.keys[i]? = some k) :
    layout.Enumerates log i k (log.fullKeys k.names) where
  mem_iff _ := Log.mem_fullKeys
  ascending := Log.fullKeys_ascending (known_of_check hd.mask k (List.mem_of_getElem? hk))
  nodup := log.nodup_fullKeys k.names
  length := log.length_fullKeys k.names
  noField h := by
    rw [h]
    rfl
  noWord := Log.fullKeys_eq_nil
  event _ hkey _ he := exists_eventFunnel_of_codes hd hk hkey he

/-- The listing of a layout's keys goes through the key groups one after the other, and through all
keys of each in the order of their value numbers. The first so many can be had alone. -/
theorem keys_enumerated (log : Log) (config : Config) (layout : Layout)
    (hl : build log config = .ok layout) :
    ∃ kss : List (List Key), layout.keys log = .ok kss.flatten
      ∧ (∀ n, layout.firstKeys log n = .ok (kss.flatten.take n))
      ∧ kss.length = config.keys.length
      ∧ ∀ (i : Nat) (k : KeyGroup) (ks : List Key), config.keys[i]? = some k → kss[i]? = some ks →
        layout.Enumerates log i k ks := by
  have hd := describes_of_build hl
  have hkeys : layout.keys log = .ok (config.keys.map fun k => log.fullKeys k.names).flatten :=
    keys_eq_ok hd
  refine ⟨_, hkeys, fun n => ?_, List.length_map _,
    fun i k ks hk hks => ?_⟩
  · rw [firstKeys_eq_take, hkeys]
    rfl
  · rw [List.getElem?_map, hk, Option.map_some, Option.some.injEq] at hks
    exact hks ▸ enumerates_fullKeys hd hk

/-- The event has the second word of field `a` and the first of field `b`. -/
theorem keys_enumerated_pairedLog : ∃ layout ks f,
    build pairedLog ⟨[.many [], .many ["b", "a"]], none⟩ = .ok layout
      ∧ layout.Enumerates pairedLog 1 (.many ["b", "a"]) ks
      ∧ layout.eventFunnel 1 ⟨7, [2, 1]⟩ = .ok f
      ∧ layout.keyOf pairedLog f = .ok ⟨[("b", "y"), ("a", "z")]⟩ := by
  obtain ⟨layout, hl⟩ : ∃ layout,
      build pairedLog ⟨[.many [], .many ["b", "a"]], none⟩ = .ok layout := ⟨_, rfl⟩
  obtain ⟨kss, -, -, hlen, hall⟩ := keys_enumerated _ _ _ hl
  have hlt : 1 < kss.length := hlen ▸ Nat.one_lt_two
  have henum := hall 1 _ _ rfl (List.getElem?_eq_getElem hlt)
  obtain ⟨f, hf, hkey⟩ := henum.event ⟨[("b", "y"), ("a", "z")]⟩
    ((henum.mem_iff _).2 (by decide)) ⟨7, [2, 1]⟩ (by decide)
  exact ⟨layout, _, f, hl, henum, hf, hkey⟩

end Layout

end Cohort
