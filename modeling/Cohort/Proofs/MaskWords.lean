import Cohort.Proofs.Filters
import Cohort.Proofs.Growth

/-!
# The words of a mask

A word of the mask field is at the position of its number, so a mask is read as the words at its
positions, in order, if none is beyond the last word (`Database.exists_maskWords_iff`). The
positions of these words make the mask again, without position 0 (`Database.decodes`). The mask of
some events has the positions of the words that they carry, so these are what is read from it
(`Database.maskWords_maskOf`). In an index built from a log, this is what an entity of a leaf has
for its mask (`Database.maskWords_inverse`).
-/

namespace Cohort

namespace Mask

variable {m : Mask} {n i : Nat}

/-- The positions from 1 to a number that a mask has, in ascending order. -/
def positions (m : Mask) (n : Nat) : List Nat := (List.range' 1 n).filter m.getLsbD

theorem mem_positions : i ∈ m.positions n ↔ (1 ≤ i ∧ i ≤ n) ∧ m.getLsbD i = true := by
  unfold positions
  rw [List.mem_filter, List.mem_range'_1, Nat.lt_one_add_iff]

theorem nodup_positions (m : Mask) (n : Nat) : (m.positions n).Nodup :=
  (List.nodup_range' 1).filter _

/-- Beyond the last position there is nothing to find. -/
theorem positions_eq {k : Nat} (hn : n ≤ k) (h : ∀ i, m.getLsbD i = true → i ≤ n) :
    m.positions k = m.positions n := by
  obtain ⟨d, rfl⟩ := Nat.exists_eq_add_of_le hn
  have hbeyond : (List.range' (1 + n) d).filter m.getLsbD = [] := by
    rw [List.filter_eq_nil_iff]
    intro i hi hbit
    have := (List.mem_range'_1.1 hi).1
    have := h i hbit
    omega
  unfold positions
  rw [← List.range'_append_1, List.filter_append, hbeyond, List.append_nil]

/-- The positions of a mask make the mask, without position 0. -/
theorem foldr_positions (h : ∀ i, m.getLsbD i = true → i ≤ n) :
    (m.positions n).foldr (fun i m => Mask.bit i ||| m) 0 = m &&& ~~~Mask.bit 0 := by
  refine BitVec.eq_of_getLsbD_eq fun i hi => ?_
  rw [Bool.eq_iff_iff, Layout.getLsbD_foldr_or, mem_positions, BitVec.getLsbD_and,
    BitVec.getLsbD_not, getLsbD_bit]
  by_cases hbit : m.getLsbD i = true
  · have := h i hbit
    simp only [hi, hbit, decide_true, Bool.true_and, true_and, and_true, Bool.not_eq_true',
      decide_eq_false_iff_not]
    omega
  · simp [hbit]

end Mask

namespace Log

/-- An event has a value in a field. -/
def Carries (log : Log) (field w : String) (e : Event) : Prop :=
  ∃ n, log.fieldNumber field = .ok n ∧ log.word n (e.value n) = .ok w

end Log

namespace Database

section Words

variable {ε : Type} [Evaluator ε] {db : Database ε} {field : String} {m : Mask} {vs : List String}

/-- The word of a number is that at the position. -/
theorem maskPosition_iff_word {n i : Nat} {w : String} (hn : db.layout.maskField = some n) :
    db.maskPosition w = .ok i ↔ db.log.word n i = .ok w := by
  rw [maskPosition_eq_ok_iff, Log.word_eq_ok_iff, hn]
  simp only [Option.some.injEq, exists_eq_left', Layout.number_eq_ok_iff,
    Field.number?_eq_some_iff]

theorem exists_maskPosition_iff (hm : db.config.maskField = some field) {i : Nat} :
    (∃ w, db.maskPosition w = .ok i) ↔ 1 ≤ i ∧ i ≤ (db.log.wordsOf field).length := by
  simp only [maskPosition_iff hm, exists_and_left, ← Option.isSome_iff_exists, isSome_getElem?]
  omega

theorem maskWords_eq {n : Nat} (hn : db.layout.maskField = some n) (m : Mask) :
    db.maskWords m = (m.positions 63).mapM (db.log.word n) := by
  unfold maskWords maskField
  rw [hn]
  rfl

/-- A mask is read as the words at the positions that it has from 1 to 63. -/
theorem maskWords_eq_ok_iff (hm : db.config.maskField = some field) : db.maskWords m = .ok vs
    ↔ List.Forall₂ (fun i v => db.maskPosition v = .ok i) (m.positions 63) vs := by
  obtain ⟨n, f, hn, -⟩ := exists_maskField hm
  rw [maskWords_eq hn, mapM_eq_ok_iff]
  simp only [maskPosition_iff_word hn]

/-- It can be read if none of its positions is beyond the last word. -/
theorem exists_maskWords_iff (hm : db.config.maskField = some field) :
    (∃ vs, db.maskWords m = .ok vs)
      ↔ ∀ i, m.getLsbD i = true → i ≤ (db.log.wordsOf field).length := by
  obtain ⟨n, f, hn, -⟩ := exists_maskField hm
  rw [maskWords_eq hn, exists_mapM_iff]
  simp only [← maskPosition_iff_word hn, exists_maskPosition_iff hm, Mask.mem_positions]
  constructor
  · intro h i hbit
    have hlt : i < 64 := BitVec.lt_of_getLsbD hbit
    rcases Nat.eq_zero_or_pos i with rfl | hpos
    · exact Nat.zero_le _
    · exact (h i ⟨⟨hpos, Nat.le_of_lt_succ hlt⟩, hbit⟩).2
  · exact fun h i hi => ⟨hi.1.1, h i hi.2⟩

theorem mem_maskWords (hm : db.config.maskField = some field) (hvs : db.maskWords m = .ok vs)
    {w : String} : w ∈ vs ↔ ∃ i, db.maskPosition w = .ok i ∧ m.getLsbD i = true := by
  rw [maskWords_eq_ok_iff hm] at hvs
  constructor
  · intro hw
    obtain ⟨i, hi, hposition⟩ := exists_left_of_mem hvs hw
    exact ⟨i, hposition, (Mask.mem_positions.1 hi).2⟩
  · rintro ⟨i, hposition, hbit⟩
    have hlt : i < 64 := BitVec.lt_of_getLsbD hbit
    have hpos := ((exists_maskPosition_iff hm).1 ⟨w, hposition⟩).1
    obtain ⟨v, hv, hvi⟩ :=
      exists_right_of_mem hvs (Mask.mem_positions.2 ⟨⟨hpos, Nat.le_of_lt_succ hlt⟩, hbit⟩)
    exact position_inj hvi hposition ▸ hv

theorem nodup_maskWords (hm : db.config.maskField = some field) (hvs : db.maskWords m = .ok vs) :
    vs.Nodup := by
  have hunique : Relator.BiUnique fun i v => db.maskPosition v = .ok i :=
    ⟨fun _ _ _ hi hj => Except.ok.inj (hi.symm.trans hj), fun _ _ _ => position_inj⟩
  exact (List.rel_nodup hunique ((maskWords_eq_ok_iff hm).1 hvs)).1 (Mask.nodup_positions m 63)

/-- The words of a mask are those at its positions, and a mask with their positions is the mask. -/
structure Decodes (db : Database ε) (field : String) (m : Mask) : Prop where
  /-- A mask can be read if it has no position beyond the last word. -/
  succeeds : (∃ vs, db.maskWords m = .ok vs)
    ↔ ∀ i, m.getLsbD i = true → i ≤ (db.log.wordsOf field).length
  /-- Then its words are those at its positions, in the order of these. -/
  words : ∀ vs, db.maskWords m = .ok vs →
    List.Forall₂ (fun i v => (db.log.wordsOf field)[i - 1]? = some v)
      (m.positions (db.log.wordsOf field).length) vs
  /-- The words' positions together are those of the mask, without position 0. -/
  mask : ∀ vs, db.maskWords m = .ok vs → ∃ ps, vs.mapM db.maskPosition = .ok ps
    ∧ ps.foldr (fun i m => Mask.bit i ||| m) 0 = m &&& ~~~Mask.bit 0

theorem decodes (hm : db.config.maskField = some field) (m : Mask) : db.Decodes field m := by
  have hwords : ∀ vs, db.maskWords m = .ok vs →
      (∀ i, m.getLsbD i = true → i ≤ (db.log.wordsOf field).length)
        ∧ List.Forall₂ (fun i v => db.maskPosition v = .ok i)
          (m.positions (db.log.wordsOf field).length) vs := by
    intro vs hvs
    obtain ⟨n, f, -, -, -, hw, hlt⟩ := exists_maskField hm
    have hle := (exists_maskWords_iff hm).1 ⟨vs, hvs⟩
    rw [maskWords_eq_ok_iff hm, Mask.positions_eq (hw ▸ Nat.le_of_lt_succ hlt) hle] at hvs
    exact ⟨hle, hvs⟩
  refine ⟨exists_maskWords_iff hm, fun vs hvs => ?_, fun vs hvs => ?_⟩
  · exact (hwords vs hvs).2.imp fun i v hi => ((maskPosition_iff hm).1 hi).2
  · obtain ⟨hle, hvs⟩ := hwords vs hvs
    exact ⟨_, mapM_eq_ok_iff.2 hvs.flip, Mask.foldr_positions hle⟩

/-- What is read from the mask of some events is the words that they carry, each once. -/
theorem maskWords_maskOf (hm : db.config.maskField = some field) (es : List Event)
    (hes : ∀ e ∈ es, e.Coded db.log.fields) :
    ∃ vs, db.maskWords (db.layout.maskOf es) = .ok vs ∧ vs.Nodup
      ∧ ∀ w, w ∈ vs ↔ ∃ e ∈ es, db.log.Carries field w e := by
  obtain ⟨n, f, hn, hfield, hf, hw, hlt⟩ := exists_maskField hm
  have hvalue : ∀ e ∈ es, e.value n ≤ (db.log.wordsOf field).length :=
    fun e he => hw ▸ (hes e he).2 n f hf
  have hbit : ∀ i, (db.layout.maskOf es).getLsbD i = true
      ↔ i < 64 ∧ i ≠ 0 ∧ ∃ e ∈ es, e.value n = i := by
    intro i
    rw [Layout.getLsbD_maskOf, hn]
    simp only [Option.some.injEq, exists_eq_left']
  have hcarries : ∀ w e, db.log.Carries field w e ↔ db.maskPosition w = .ok (e.value n) := by
    intro w e
    unfold Log.Carries
    simp only [hfield, Except.ok.injEq, exists_eq_left', maskPosition_iff_word hn]
  obtain ⟨vs, hvs⟩ := (exists_maskWords_iff hm).2 fun i hi => by
    obtain ⟨-, -, e, he, rfl⟩ := (hbit i).1 hi
    exact hvalue e he
  refine ⟨vs, hvs, nodup_maskWords hm hvs, fun w => ?_⟩
  rw [mem_maskWords hm hvs]
  simp only [hbit, hcarries]
  constructor
  · rintro ⟨_, hposition, -, -, e, he, rfl⟩
    exact ⟨e, he, hposition⟩
  · rintro ⟨e, he, hposition⟩
    have hle := hw ▸ hvalue e he
    have hne := ((maskPosition_iff hm).1 hposition).1
    exact ⟨_, hposition, by omega, hne, e, he, rfl⟩

end Words

section Build

variable {log : Log} {config : Config} {db : Database Index}

/-- What is listed of a leaf comes with its mask in the funnel. -/
theorem mask?_of_mem_elements {l : Leaf} {els : List (Except Error Element)}
    (h : db.elements (.leaf l) = .ok els) {a : Element} (ha : .ok a ∈ els) :
    db.index.mask? l.funnel a.id = some a.mask := by
  obtain ⟨es, hselect, rfl⟩ := elements_eq_ok_iff.1 h
  obtain ⟨b, hb, hab⟩ := List.mem_map.1 ha
  obtain rfl : b = a := Except.ok.inj hab
  exact (Index.evaluate_leaf_eq_some_iff.1 ((Index.mem_select_iff hselect).1 hb).2).1

/-- What is read from the mask of an entity in a leaf is the words that the entity's events in the
leaf's funnel carry. -/
theorem maskWords_of_build (hdb : Database.build log config = .ok db) {field : String}
    (hm : config.maskField = some field) {l : Leaf} {els : List (Except Error Element)}
    (h : db.elements (.leaf l) = .ok els) {a : Element} (ha : .ok a ∈ els) :
    ∃ vs, db.maskWords a.mask = .ok vs ∧ vs.Nodup
      ∧ ∀ w, w ∈ vs ↔ ∃ e ∈ log.eventsOf a.id,
        (∃ i, db.layout.eventFunnel i e = .ok l.funnel) ∧ log.Carries field w e := by
  have hmask := mask?_of_mem_elements h ha
  obtain ⟨rfl, hl, hi⟩ := of_build hdb
  have hd := Layout.describes_of_build hl
  rw [Index.mask?_of_build hl hi] at hmask
  unfold Layout.maskIn? at hmask
  split at hmask
  · exact nomatch hmask
  · rw [← Option.some.inj hmask]
    have hconfig : db.config.maskField = some field := config_of_build hdb ▸ hm
    obtain ⟨vs, hvs, hnodup, hmem⟩ := maskWords_maskOf hconfig
      ((db.log.eventsOf a.id).filter (db.layout.lands l.funnel))
      fun e he => Log.coded_of_mem_eventsOf (List.mem_of_mem_filter he)
    refine ⟨vs, hvs, hnodup, fun w => (hmem w).trans ?_⟩
    simp only [List.mem_filter, and_assoc]
    refine exists_congr fun e => and_congr_right fun he => ?_
    rw [Layout.lands_iff_eventFunnel hd (Log.coded_of_mem_eventsOf he)]

/-- Reading a mask inverts putting words together to one, in any database with a mask field. In one
built from a log, the mask of an entity in a leaf is read as the words that its events in the leaf's
funnel carry. -/
theorem maskWords_inverse :
    (∀ (ε : Type) [Evaluator ε] (db : Database ε) (field : String),
        db.config.maskField = some field → ∀ m, db.Decodes field m)
      ∧ ∀ (log : Log) (config : Config) (db : Database Index) (field : String),
        Database.build log config = .ok db → config.maskField = some field →
          ∀ (l : Leaf) (els : List (Except Error Element)), db.elements (.leaf l) = .ok els →
            ∀ a, .ok a ∈ els → ∃ vs, db.maskWords a.mask = .ok vs ∧ vs.Nodup
              ∧ ∀ w, w ∈ vs ↔ ∃ e ∈ log.eventsOf a.id,
                (∃ i, db.layout.eventFunnel i e = .ok l.funnel) ∧ log.Carries field w e :=
  ⟨fun _ _ _ _ hm m => decodes hm m,
    fun _ _ _ _ hdb hm _ _ hels _ ha => maskWords_of_build hdb hm hels ha⟩

/-- Entity 0 has the visits `n` with `v` and `b` with `w`, and the funnel is that of `n`. -/
theorem maskWords_inverse_visits : ∃ (db : Database Index) (els : List (Except Error Element)),
    Database.build visits.log ⟨[.one "c"], some "k"⟩ = .ok db
      ∧ db.Decodes "k" 7#64
      ∧ db.elements (.leaf ⟨1, .always⟩) = .ok els ∧ .ok ⟨0, 2#64⟩ ∈ els
      ∧ ∃ vs, db.maskWords 2#64 = .ok vs ∧ vs.Nodup
        ∧ ∀ w, w ∈ vs ↔ ∃ e ∈ visits.log.eventsOf 0,
          (∃ i, db.layout.eventFunnel i e = .ok 1) ∧ visits.log.Carries "k" w e := by
  have hels : visitsDatabase.elements (.leaf ⟨1, .always⟩)
      = .ok [.ok ⟨0, 2#64⟩, .ok ⟨2, 2#64⟩] := by cbv
  exact ⟨_, _, build_visits, maskWords_inverse.1 _ _ "k" rfl 7#64, hels, List.mem_cons_self,
    maskWords_inverse.2 _ _ _ _ build_visits rfl _ _ hels _ List.mem_cons_self⟩

/-- Position 0 is left out, and there is no word at 3. -/
example : visitsDatabase.maskWords 7#64 = .ok ["v", "w"]
    ∧ visitsDatabase.maskWords 8#64 = .error (.notFound (.valueNumber 3 "k")) := by decide

end Build

end Database

end Cohort
