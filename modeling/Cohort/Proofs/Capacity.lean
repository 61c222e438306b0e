import Cohort.Proofs.Resolution
import Mathlib.Algebra.BigOperators.Group.List.Basic

/-!
# How many funnels a description needs

Each key group needs as many funnels as there are ways to give its fields a value or leave them
unset, which is the product of the fields' numbers of words, each plus one. A layout is made
exactly when all groups together need no more funnels than there are funnel ids, and has as many
(`Layout.exists_build_of_le`, `Layout.build_of_lt`): a product or sum that grows too large to reckon
with on the way is larger than that at the end.
-/

namespace Cohort

namespace Log

/-- The words of the field of a name. -/
def wordsOf (log : Log) (name : String) : List String :=
  ((log.fields.find? (·.name = name)).map (·.words)).getD []

/-- How many ways there are to give each of some fields one of its words or leave it unset. -/
def ways (log : Log) (names : List String) : Nat :=
  (names.map fun a => (log.wordsOf a).length + 1).prod

theorem ways_cons (log : Log) (a : String) (names : List String) :
    log.ways (a :: names) = ((log.wordsOf a).length + 1) * log.ways names := List.prod_cons

theorem ways_pos (log : Log) : ∀ names : List String, 0 < log.ways names
  | [] => Nat.one_pos
  | a :: names => by
    rw [ways_cons]
    exact Nat.mul_pos (Nat.succ_pos _) (ways_pos log names)

end Log

/-- How many funnels the groups of a description need together. -/
def Config.funnelCount (log : Log) (c : Config) : Nat := (c.keys.map fun k => log.ways k.names).sum

namespace Layout

variable {log : Log} {config : Config}

theorem exists_field {a : String} {n : Nat} (h : log.fieldNumber a = .ok n) :
    ∃ f, log.fields[n]? = some f ∧ f.name = a ∧ log.wordsOf a = f.words := by
  rw [fieldNumber_eq_ok_iff, List.findIdx?_eq_some_iff_findIdx_eq] at h
  obtain ⟨hn, rfl⟩ := h
  refine ⟨_, List.getElem?_eq_getElem hn, by simpa using List.findIdx_getElem (w := hn), ?_⟩
  unfold Log.wordsOf
  rw [List.find?_eq_getElem?_findIdx, List.getElem?_eq_getElem hn]
  rfl

theorem checkMask_eq_ok_iff {name : String} {n : Nat} : Config.checkMask log name = .ok n
    ↔ log.fieldNumber name = .ok n ∧ 1 ≤ (log.wordsOf name).length
      ∧ (log.wordsOf name).length < 64 := by
  unfold Config.checkMask
  simp only [bind_eq_ok_iff, guard_eq_ok_iff, pure_eq_ok_iff, field_eq_ok_iff]
  constructor
  · rintro ⟨_, hn, f, hf, hlo, hhi, rfl⟩
    obtain ⟨f', hf', -, hw⟩ := exists_field hn
    obtain rfl : f = f' := by simpa [hf] using hf'
    exact ⟨hn, hw ▸ Nat.not_lt.1 hlo, hw ▸ Nat.not_le.1 hhi⟩
  · rintro ⟨hn, hlo, hhi⟩
    obtain ⟨f, hf, -, hw⟩ := exists_field hn
    rw [hw] at hlo hhi
    exact ⟨n, hn, f, hf, Nat.not_lt.2 hlo, Nat.not_le.2 hhi, rfl⟩

theorem discard_eq_ok_iff {a : String} :
    discard (log.fieldNumber a) = .ok () ↔ ∃ n, log.fieldNumber a = .ok n := by
  cases log.fieldNumber a <;> simp [discard, Functor.mapConst, Except.map]

/-- A description passes when it has groups, their fields are known, and the mask field has words,
but fewer than masks have positions. -/
theorem check_eq_ok_iff {mask : Option Nat} : config.check log = .ok mask ↔ config.keys ≠ []
    ∧ (∀ k ∈ config.keys, ∀ a ∈ k.names, ∃ n, log.fieldNumber a = .ok n)
    ∧ Option.Rel (fun name n => log.fieldNumber name = .ok n ∧ 1 ≤ (log.wordsOf name).length
      ∧ (log.wordsOf name).length < 64) config.maskField mask := by
  unfold Config.check
  simp only [guard_eq_ok_iff, bind_eq_ok_iff, List.isEmpty_iff]
  refine and_congr_right fun _ => ?_
  constructor
  · rintro ⟨_, hk, h⟩
    refine ⟨fun k hkm a ha => ?_, ?_⟩
    · exact discard_eq_ok_iff.1 (forIn_eq_ok_iff.1 (forIn_eq_ok_iff.1 hk k hkm) a ha)
    · revert h
      cases hm : config.maskField <;> cases mask <;>
        simp [pure_eq_ok_iff, map_eq_ok_iff, checkMask_eq_ok_iff]
  · rintro ⟨hk, h⟩
    refine ⟨(), ?_, ?_⟩
    · refine forIn_eq_ok_iff.2 fun k hkm => forIn_eq_ok_iff.2 fun a ha => ?_
      exact discard_eq_ok_iff.2 (hk k hkm a ha)
    · revert h
      cases hm : config.maskField <;> cases mask <;>
        simp [pure_eq_ok_iff, map_eq_ok_iff, checkMask_eq_ok_iff]

theorem known_of_check {mask : Option Nat} (h : config.check log = .ok mask) :
    ∀ k ∈ config.keys, ∀ a ∈ k.names, ∃ n, log.fieldNumber a = .ok n :=
  (check_eq_ok_iff.1 h).2.1

theorem reckon_of_lt {n : Nat} (h : largest < n) :
    reckon n = .error (.capacity (.funnels largest)) := if_neg (Nat.not_le.2 h)

theorem addField_of_new {ds : List Digit} {w n : Nat} {a : String}
    (hn : log.fieldNumber a = .ok n) (hnew : ∀ d ∈ ds, d.field ≠ n) :
    addField log (ds, w) a = (fun m => (ds ++ [⟨n, (log.wordsOf a).length + 1, w⟩], m)) <$>
      reckon (w * ((log.wordsOf a).length + 1)) := by
  obtain ⟨f, hf, -, hw⟩ := exists_field hn
  have hany : ¬ (ds.any fun d => d.field = n) = true := by simpa using hnew
  unfold addField
  rw [hn, hw]
  show (if (ds.any fun d => d.field = n) = true then _ else _) = _
  rw [if_neg hany, field_eq_ok_iff.2 hf]
  rfl

theorem foldlM_addField : ∀ {names : List String} (ds : List Digit) {w : Nat}, w ≤ largest →
    (∀ a ∈ names, ∃ n, log.fieldNumber a = .ok n ∧ ∀ d ∈ ds, d.field ≠ n) → names.Nodup →
      (w * log.ways names ≤ largest →
          ∃ ds', names.foldlM (addField log) (ds, w) = .ok (ds', w * log.ways names))
        ∧ (largest < w * log.ways names →
          names.foldlM (addField log) (ds, w) = .error (.capacity (.funnels largest)))
  | [], ds, w, hw, _, _ => by
    have h1 : w * log.ways [] = w := Nat.mul_one w
    rw [h1]
    exact ⟨fun _ => ⟨ds, rfl⟩, fun h => by omega⟩
  | a :: names, ds, w, hw, hk, hnd => by
    obtain ⟨⟨n, hn, hnew⟩, hk⟩ := List.forall_mem_cons.1 hk
    obtain ⟨ha, hnd⟩ := List.nodup_cons.1 hnd
    rw [Log.ways_cons, ← Nat.mul_assoc, List.foldlM_cons, addField_of_new hn hnew]
    by_cases hr : w * ((log.wordsOf a).length + 1) ≤ largest
    · rw [reckon_eq_ok_iff.2 ⟨hr, rfl⟩]
      refine foldlM_addField _ hr (fun b hb => ?_) hnd
      obtain ⟨m, hm, hold⟩ := hk b hb
      refine ⟨m, hm, fun d hd => ?_⟩
      rcases List.mem_append.1 hd with hd | hd
      · exact hold d hd
      · rw [List.mem_singleton.1 hd]
        rintro rfl
        exact ha (fieldNumber_inj hn hm ▸ hb)
    · have hlt : largest < w * ((log.wordsOf a).length + 1) := Nat.lt_of_not_le hr
      -- no radix is 0, so what is too large stays too large
      have hmono := Nat.le_mul_of_pos_right (w * ((log.wordsOf a).length + 1)) (log.ways_pos names)
      rw [reckon_of_lt hlt]
      exact ⟨fun h => by omega, fun _ => rfl⟩

theorem addGroup_of_known (gs : List GroupLayout) (n : Nat) {k : KeyGroup}
    (hk : ∀ a ∈ k.names, ∃ m, log.fieldNumber a = .ok m) (hnd : k.names.Nodup) :
    (n + log.ways k.names ≤ largest →
        ∃ gs', addGroup log (gs, n) k = .ok (gs', n + log.ways k.names))
      ∧ (largest < n + log.ways k.names →
        addGroup log (gs, n) k = .error (.capacity (.funnels largest))) := by
  have hone : 1 ≤ largest := by decide
  have hgroup := foldlM_addField [] hone (fun a ha => by simpa using hk a ha) hnd
  rw [Nat.one_mul] at hgroup
  unfold addGroup
  by_cases hw : log.ways k.names ≤ largest
  · obtain ⟨ds, hds⟩ := hgroup.1 hw
    simp only [hds]
    refine ⟨fun h => ⟨gs ++ [⟨ds, n, log.ways k.names⟩], ?_⟩, fun h => ?_⟩
    · simp only [bind_eq_ok_iff, pure_eq_ok_iff, reckon_eq_ok_iff]
      exact ⟨_, rfl, _, ⟨h, rfl⟩, rfl⟩
    · show (reckon (n + log.ways k.names) >>= _) = _
      rw [reckon_of_lt h]
      rfl
  · rw [hgroup.2 (by omega)]
    exact ⟨fun h => by omega, fun _ => rfl⟩

theorem foldlM_addGroup : ∀ {keys : List KeyGroup} (gs : List GroupLayout) {n : Nat},
    n ≤ largest → (∀ k ∈ keys, ∀ a ∈ k.names, ∃ m, log.fieldNumber a = .ok m) →
    (∀ k ∈ keys, k.names.Nodup) →
      (n + (keys.map fun k => log.ways k.names).sum ≤ largest →
          ∃ gs', keys.foldlM (addGroup log) (gs, n)
            = .ok (gs', n + (keys.map fun k => log.ways k.names).sum))
        ∧ (largest < n + (keys.map fun k => log.ways k.names).sum →
          keys.foldlM (addGroup log) (gs, n) = .error (.capacity (.funnels largest)))
  | [], gs, n, hn, _, _ => by
    simp only [List.map_nil, List.sum_nil, Nat.add_zero]
    exact ⟨fun _ => ⟨gs, rfl⟩, fun h => by omega⟩
  | k :: keys, gs, n, hn, hk, hnd => by
    obtain ⟨hka, hk⟩ := List.forall_mem_cons.1 hk
    obtain ⟨hda, hnd⟩ := List.forall_mem_cons.1 hnd
    obtain ⟨hok, herr⟩ := addGroup_of_known gs n hka hda
    rw [List.map_cons, List.sum_cons, ← Nat.add_assoc, List.foldlM_cons]
    by_cases hr : n + log.ways k.names ≤ largest
    · obtain ⟨gs', hgs'⟩ := hok hr
      rw [hgs']
      exact foldlM_addGroup gs' hr hk hnd
    · rw [herr (by omega)]
      exact ⟨fun h => by omega, fun _ => rfl⟩

variable {mask : Option Nat}

theorem exists_build_of_le (hc : config.check log = .ok mask)
    (hnd : ∀ k ∈ config.keys, k.names.Nodup) (h : config.funnelCount log ≤ funnelLimit) :
    ∃ layout, build log config = .ok layout ∧ layout.size = config.funnelCount log := by
  have hle : funnelLimit ≤ largest := by decide
  have hkeys := foldlM_addGroup [] (Nat.zero_le _) (known_of_check hc) hnd
  rw [Nat.zero_add] at hkeys
  obtain ⟨gs, hgs⟩ := hkeys.1 (Nat.le_trans h hle)
  refine ⟨⟨gs, config.funnelCount log, mask⟩, ?_, rfl⟩
  unfold build
  simp only [bind_eq_ok_iff, guard_eq_ok_iff, pure_eq_ok_iff]
  exact ⟨mask, hc, _, hgs, Nat.not_lt.2 h, rfl⟩

/-- If they need more, the number of funnels is refused, or the first one on the way to it that is
too large to reckon with. -/
theorem build_of_lt (hc : config.check log = .ok mask)
    (hnd : ∀ k ∈ config.keys, k.names.Nodup) (h : funnelLimit < config.funnelCount log) :
    build log config = .error (.capacity (.funnels (min (config.funnelCount log) largest))) := by
  have hkeys := foldlM_addGroup [] (Nat.zero_le _) (known_of_check hc) hnd
  rw [Nat.zero_add] at hkeys
  unfold build
  rw [hc]
  by_cases hl : config.funnelCount log ≤ largest
  · obtain ⟨gs, hgs⟩ := hkeys.1 hl
    rw [Nat.min_eq_left hl]
    show (config.keys.foldlM (addGroup log) ([], 0) >>= _) = _
    rw [hgs]
    exact if_pos h
  · rw [Nat.min_eq_right (by omega)]
    show (config.keys.foldlM (addGroup log) ([], 0) >>= _) = _
    rw [hkeys.2 (Nat.lt_of_not_le hl)]
    rfl

end Layout

end Cohort
