import Cohort.Proofs.KeyInverse

/-!
# Layouts of logs that have grown

A log goes on learning words after a layout was made for it. What it knew by then it looks up as
before (`Log.Extends`), so the keys of these words keep their funnels (`Layout.resolve_of_extends`,
`Layout.keyOf_of_extends`). A key with a word that came up later is resolved all the same
(`Layout.resolve_grown`), by a number that its digit has no room for, to a funnel of another key or
to none.
-/

namespace Cohort

namespace Field

theorem Extends.refl (f : Field) : f.Extends f := ⟨rfl, List.prefix_rfl⟩

theorem Extends.trans {f g k : Field} (h : f.Extends g) (h' : g.Extends k) : f.Extends k :=
  ⟨h'.name.trans h.name, h.words.trans h'.words⟩

theorem forall₂_extends_trans : ∀ {fs gs ks : List Field}, List.Forall₂ Extends fs gs →
    List.Forall₂ Extends gs ks → List.Forall₂ Extends fs ks
  | _, _, _, .nil, .nil => .nil
  | _, _, _, .cons h hs, .cons h' hs' => .cons (h.trans h') (forall₂_extends_trans hs hs')

end Field

namespace Log

/-- A log of the same fields, each with at least the words that another log has for it. -/
def Extends (log log' : Log) : Prop := List.Forall₂ Field.Extends log.fields log'.fields

variable {log log' : Log}

theorem Extends.refl (log : Log) : log.Extends log :=
  List.forall₂_same.2 fun f _ => Field.Extends.refl f

theorem extends_learn : ∀ {fields : List Field} {values : List String},
    values.length = fields.length → List.Forall₂ Field.Extends fields (learn fields values)
  | [], [], _ => .nil
  | f :: _, v :: _, h => .cons (f.extends_learn v) (extends_learn (by simpa using h))

theorem extends_record (log : Log) (c : Entry) : log.Extends (log.record c) := by
  by_cases hc : c.values.length = log.fields.length
  · unfold Extends
    rw [fields_record hc]
    exact extends_learn hc
  · rw [record_refused hc]
    exact Extends.refl log

theorem extends_foldl : ∀ (calls : List Entry) (log : Log), log.Extends (calls.foldl record log)
  | [], log => Extends.refl log
  | c :: calls, log =>
    Field.forall₂_extends_trans (log.extends_record c) (extends_foldl calls (log.record c))

theorem Extends.fieldNumber (h : log.Extends log') (a : String) :
    log'.fieldNumber a = log.fieldNumber a := by
  have hname : ∀ f f' : Field, f.Extends f' → decide (f.name = a) = decide (f'.name = a) :=
    fun f f' hf => by rw [hf.name]
  unfold Log.fieldNumber
  rw [findIdx?_rel (R := Field.Extends) hname h]

theorem Extends.exists_field (h : log.Extends log') {n : Nat} {f : Field}
    (hf : log.fields[n]? = some f) : ∃ f', log'.fields[n]? = some f' ∧ f.Extends f' :=
  exists_right_of_getElem? (R := Field.Extends) h hf

theorem Extends.number (h : log.Extends log') {n k : Nat} {w : String}
    (hk : log.number n w = .ok k) : log'.number n w = .ok k := by
  rw [Layout.number_eq_ok_iff] at hk ⊢
  obtain ⟨f, hf, hn⟩ := hk
  obtain ⟨f', hf', he⟩ := h.exists_field hf
  exact ⟨f', hf', he.number? hn⟩

theorem word_eq_ok_iff {n v : Nat} {w : String} :
    log.word n v = .ok w ↔ ∃ f, log.fields[n]? = some f ∧ f.word? v = some w := by
  unfold word
  simp only [bind_eq_ok_iff, Layout.field_eq_ok_iff]
  refine exists_congr fun f => and_congr_right fun _ => ?_
  cases f.word? v <;> simp [throw_ne_ok, pure_eq_ok_iff]

theorem Extends.word (h : log.Extends log') {n v : Nat} {w : String}
    (hw : log.word n v = .ok w) : log'.word n v = .ok w := by
  rw [word_eq_ok_iff] at hw ⊢
  obtain ⟨f, hf, hv⟩ := hw
  obtain ⟨f', hf', he⟩ := h.exists_field hf
  exact ⟨f', hf', he.word? hv⟩

end Log

namespace Layout

variable {log log' : Log} {config : Config} {layout : Layout} {key : Key} {f : FunnelId}

theorem resolveFields_of_extends (h : log.Extends log') (key : Key) :
    resolveFields log' key = resolveFields log key := by
  unfold resolveFields
  simp only [h.fieldNumber]

theorem resolve_of_extends (he : log.Extends log') (h : layout.resolve log key = .ok f) :
    layout.resolve log' key = .ok f := by
  unfold resolve at h ⊢
  simp only [bind_eq_ok_iff, pure_eq_ok_iff] at h ⊢
  obtain ⟨fields, hf, g, hg, number, hn, rfl⟩ := h
  refine ⟨fields, resolveFields_of_extends he key ▸ hf, g, owner_eq_ok_iff.2 (owner_eq_ok_iff.1 hg),
    number, foldlM_eq_ok_of_imp (fun n q m hm => ?_) hn, rfl⟩
  simp only [bind_eq_ok_iff, pure_eq_ok_iff] at hm ⊢
  obtain ⟨k, hk, rfl⟩ := hm
  exact ⟨k, he.number hk, rfl⟩

theorem keyOf_of_extends (he : log.Extends log') (h : layout.keyOf log f = .ok key) :
    layout.keyOf log' f = .ok key := by
  unfold keyOf at h ⊢
  cases hg : layout.groups.find? (·.contains f.toNat) with
  | none =>
    rw [hg] at h
    exact absurd h throw_ne_ok
  | some g =>
    rw [hg] at h
    simp only [bind_eq_ok_iff, pure_eq_ok_iff, mapM_eq_ok_iff, field_eq_ok_iff] at h ⊢
    obtain ⟨pairs, hp, rfl⟩ := h
    refine ⟨pairs, hp.imp fun p q hq => ?_, rfl⟩
    obtain ⟨F, hF, w, hw, rfl⟩ := hq
    obtain ⟨F', hF', hE⟩ := he.exists_field hF
    exact ⟨F', hF', w, he.word hw, by rw [hE.name]⟩

/-- A key whose values a log knew is resolved as it was then. -/
theorem exists_resolve_of_known (hd : layout.Describes log config) (he : log.Extends log')
    (h : layout.resolve log' key = .ok f) (hw : ∀ p ∈ key.pairs, p.2 ∈ log.wordsOf p.1) :
    layout.resolve log key = .ok f := by
  have hkey : key.Admissible log config := by
    unfold resolve at h
    simp only [bind_eq_ok_iff] at h
    obtain ⟨fields, hf, g, hg, -⟩ := h
    exact admissible_of_owner hd (resolveFields_of_extends he key ▸ hf)
      (owner_eq_ok_iff.2 (owner_eq_ok_iff.1 hg)) hw
  obtain ⟨f', hf'⟩ := (exists_resolve_iff hd).2 hkey
  rw [hf', ← h, resolve_of_extends he hf']

theorem mem_wordsOf_of_mem_pairsOf {names : List String} {vs : List Nat} {p : String × String}
    (h : p ∈ log.pairsOf names vs) : p.2 ∈ log.wordsOf p.1 := by
  unfold Log.pairsOf at h
  simp only [List.mem_filterMap, Option.map_eq_some_iff] at h
  obtain ⟨⟨a, v⟩, -, w, hw, rfl⟩ := h
  unfold Log.wordAt? at hw
  split at hw
  · exact nomatch hw
  · exact List.mem_of_getElem? hw

/-- The key of a funnel has words that the log knew when the layout was made. -/
theorem mem_wordsOf_of_keyOf (hd : layout.Describes log config) (he : log.Extends log')
    (hlt : f.toNat < layout.size) (h : layout.keyOf log' f = .ok key) :
    ∀ p ∈ key.pairs, p.2 ∈ log.wordsOf p.1 := by
  obtain ⟨⟨i, vs⟩, ha, -⟩ := existsUnique_address hd hlt
  obtain ⟨g, hg, -⟩ := id ha
  obtain ⟨k, hk, -⟩ := hd.exists_keyGroup hg
  have hkey := keyOf_of_extends he (keyOf_of_addresses hd hk ha)
  rw [h, Except.ok.injEq] at hkey
  subst hkey
  exact fun p hp => mem_wordsOf_of_mem_pairsOf hp

/-- A key that had a funnel when the layout was made keeps it. A key that is resolved later is that
of its funnel exactly when all its values were known by then. -/
theorem resolve_grown (log : Log) (config : Config) (layout : Layout)
    (hl : build log config = .ok layout) (calls : List Entry) (key : Key) :
    (∀ f, layout.resolve log key = .ok f →
        layout.resolve (calls.foldl Log.record log) key = .ok f)
      ∧ ∀ f, layout.resolve (calls.foldl Log.record log) key = .ok f →
        ((f.toNat < layout.size ∧ ∃ k, layout.keyOf (calls.foldl Log.record log) f = .ok k
            ∧ k.pairs.Perm key.pairs)
          ↔ ∀ p ∈ key.pairs, p.2 ∈ log.wordsOf p.1) := by
  have hd := describes_of_build hl
  have he := Log.extends_foldl calls log
  refine ⟨fun f h => resolve_of_extends he h, fun f h => ⟨?_, fun hw => ?_⟩⟩
  · rintro ⟨hlt, k, hk, hperm⟩ p hp
    exact mem_wordsOf_of_keyOf hd he hlt hk p (hperm.mem_iff.2 hp)
  · have hr := resolved_of_resolve hd (exists_resolve_of_known hd he h hw)
    obtain ⟨_, _, k, -, -, -, -, hk, hperm⟩ := hr.group
    exact ⟨hr.lt, _, keyOf_of_extends he hk, hperm⟩

/-- One event of two fields, and two later ones that give the first field a new word each. -/
def firstLog : Log := .replay ["a", "b"] [⟨0, 1, ["x", "u"]⟩]

@[inherit_doc firstLog]
def laterCalls : List Entry := [⟨1, 1, ["y", ""]⟩, ⟨2, 1, ["z", ""]⟩]

/-- The key of the first word keeps its funnel and is read back from it. -/
theorem resolve_grown_firstWord :
    ∃ layout f, build firstLog ⟨[.one "a", .one "b"], none⟩ = .ok layout
      ∧ layout.resolve (laterCalls.foldl Log.record firstLog) ⟨[("a", "x")]⟩ = .ok f
      ∧ f.toNat < layout.size
      ∧ ∃ k, layout.keyOf (laterCalls.foldl Log.record firstLog) f = .ok k
        ∧ k.pairs.Perm [("a", "x")] := by
  obtain ⟨layout, hl⟩ : ∃ layout, build firstLog ⟨[.one "a", .one "b"], none⟩ = .ok layout :=
    ⟨_, rfl⟩
  obtain ⟨hkept, hread⟩ := resolve_grown _ _ _ hl laterCalls ⟨[("a", "x")]⟩
  have hx : Key.Admissible firstLog ⟨[.one "a", .one "b"], none⟩ ⟨[("a", "x")]⟩ :=
    ⟨by decide, by decide, by decide, by decide⟩
  obtain ⟨f, hf⟩ := (exists_resolve_iff (describes_of_build hl)).2 hx
  obtain ⟨hlt, hk⟩ := (hread f (hkept f hf)).2 (by decide)
  exact ⟨layout, f, hl, hkept f hf, hlt, hk⟩

/-- The last word's number is beyond the radix of its digit. As the value of an event it is refused,
but the key that asks for it is resolved, to the funnel of a value of the other field. -/
theorem resolve_laterWord :
    ∃ layout f, build firstLog ⟨[.one "a", .one "b"], none⟩ = .ok layout
      ∧ layout.eventFunnel 0 ⟨1, [3, 0]⟩ = .error (.format (.valueOutOfRange 3 0))
      ∧ layout.resolve (laterCalls.foldl Log.record firstLog) ⟨[("a", "z")]⟩ = .ok f
      ∧ layout.keyOf (laterCalls.foldl Log.record firstLog) f = .ok ⟨[("b", "u")]⟩ :=
  ⟨_, _, rfl, rfl, rfl, rfl⟩

end Layout

end Cohort
