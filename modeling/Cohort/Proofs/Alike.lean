import Cohort.Proofs.LeafIdentity
import Cohort.Proofs.Queries

/-!
# Logs with the same words

Logs whose fields have the same names and words may number the words differently
(`Log.Alike`). A layout depends on how many words there are, so it is the same for both
(`Log.Alike.build`). Numbers of funnels, positions in masks and tests differ, but databases over
such logs have the same texts for leaves, and the same texts for one leaf
(`Database.Alike.leaf_eq_iff`). So the parts of a query stand for each other one by one, and a query
makes a selection for both or for neither (`Database.Alike.exists_query_iff`).
-/

namespace Cohort

/-- Logs with the same fields and words, which may be numbered differently. -/
structure Log.Alike (log log' : Log) : Prop where
  names : log.fields.map (·.name) = log'.fields.map (·.name)
  words : ∀ a, (log.wordsOf a).Perm (log'.wordsOf a)

namespace Log.Alike

variable {log log' : Log}

theorem symm (h : log.Alike log') : log'.Alike log := ⟨h.names.symm, fun a => (h.words a).symm⟩

theorem fieldNumber (h : log.Alike log') (a : String) :
    log.fieldNumber a = log'.fieldNumber a := by
  have hnames : ∀ l : Log, l.fields.findIdx? (·.name = a)
      = (l.fields.map (·.name)).findIdx? (· = a) := by
    intro l
    rw [List.findIdx?_map]
    rfl
  unfold Log.fieldNumber
  rw [hnames, hnames, h.names]

/-- What is made of a field by the number of its words is the same. -/
theorem field_bind (h : log.Alike log') {a : String} {n : Nat} (ha : log.fieldNumber a = .ok n)
    {γ : Type} {F : Field → Except Error γ}
    (hF : ∀ f f' : Field, f.words.length = f'.words.length → F f = F f') :
    log.field n >>= F = log'.field n >>= F := by
  obtain ⟨f, hf, -, hw⟩ := Layout.exists_field ha
  obtain ⟨f', hf', -, hw'⟩ := Layout.exists_field (h.fieldNumber a ▸ ha)
  rw [Layout.field_eq_ok_iff.2 hf, Layout.field_eq_ok_iff.2 hf']
  refine hF f f' ?_
  rw [← hw, ← hw', (h.words a).length_eq]

theorem checkMask (h : log.Alike log') (a : String) :
    Config.checkMask log a = Config.checkMask log' a := by
  unfold Config.checkMask
  rw [← h.fieldNumber]
  cases ha : log.fieldNumber a with
  | error e => rfl
  | ok n =>
    refine h.field_bind ha fun f f' hlen => ?_
    simp only [hlen]

theorem check (h : log.Alike log') (config : Config) : config.check log = config.check log' := by
  unfold Config.check
  simp only [h.fieldNumber, h.checkMask]

theorem addField (h : log.Alike log') (group : List Digit × Nat) (a : String) :
    Layout.addField log group a = Layout.addField log' group a := by
  unfold Layout.addField
  rw [← h.fieldNumber]
  cases ha : log.fieldNumber a with
  | error e => rfl
  | ok n =>
    show (if (group.1.any fun d => d.field = n) = true then _ else _)
      = if (group.1.any fun d => d.field = n) = true then _ else _
    split
    · rfl
    · refine h.field_bind ha fun f f' hlen => ?_
      simp only [hlen]

/-- The layout of an index is the same. -/
theorem build (h : log.Alike log') (config : Config) :
    Layout.build log config = Layout.build log' config := by
  have hfield : Layout.addField log = Layout.addField log' :=
    funext fun group => funext fun a => h.addField group a
  have hgroup : Layout.addGroup log = Layout.addGroup log' := by
    unfold Layout.addGroup
    rw [hfield]
  unfold Layout.build
  rw [h.check, hgroup]

theorem admissible (h : log.Alike log') {k : Key} {config : Config}
    (hk : k.Admissible log config) : k.Admissible log' config where
  known p hp := h.names ▸ hk.known p hp
  distinct := hk.distinct
  covered := hk.covered
  words p hp := (h.words p.1).mem_iff.1 (hk.words p hp)

end Log.Alike

namespace Database

/-- Databases of one description over logs with the same words. -/
structure Alike (db db' : Database Index) : Prop where
  log : db.log.Alike db'.log
  config : db.config = db'.config

/-- Leaves that a text is in one database and in another. -/
def Twins (db db' : Database Index) (l l' : Leaf) : Prop :=
  ∃ t, db.leaf t = .ok l ∧ db'.leaf t = .ok l'

namespace Alike

variable {db db' : Database Index}

theorem symm (h : db.Alike db') : db'.Alike db := ⟨h.log.symm, h.config.symm⟩

theorem hasMaskWord (h : db.Alike db') {v : String} (hv : db.HasMaskWord v) :
    db'.HasMaskWord v := by
  obtain ⟨field, hfield, hv⟩ := hv
  exact ⟨field, h.config ▸ hfield, (h.log.words field).mem_iff.1 hv⟩

theorem exists_maskTest (h : db.Alike db') {f : Formula String}
    (hf : ∃ t, db.maskTest f = .ok t) : ∃ t, db'.maskTest f = .ok t := by
  rw [exists_maskTest_iff] at hf ⊢
  exact fun v hv => h.hasMaskWord (hf v hv)

theorem exists_resolve (h : db.Alike db') {k : Key}
    (hk : ∃ f, db.layout.resolve db.log k = .ok f) :
    ∃ f, db'.layout.resolve db'.log k = .ok f := by
  rw [exists_resolve_iff] at hk ⊢
  exact h.config ▸ h.log.admissible hk

theorem exists_leaf (h : db.Alike db') {t : String} (ht : ∃ l, db.leaf t = .ok l) :
    ∃ l, db'.leaf t = .ok l := by
  rw [exists_leaf_iff] at ht ⊢
  obtain ⟨k, f, hread, hk, hf⟩ := ht
  exact ⟨k, f, hread, h.config ▸ h.log.admissible hk, fun v hv => h.hasMaskWord (hf v hv)⟩

/-- Texts that are the same leaf in one database are the same leaf in the other. -/
theorem leaf_eq_iff {l m l' m' : Leaf} (hl : Twins db db' l l') (hm : Twins db db' m m') :
    l = m ↔ l' = m' := by
  obtain ⟨t, hl, hl'⟩ := hl
  obtain ⟨u, hm, hm'⟩ := hm
  -- keys and formulas are read off the texts, which are the same on both sides
  obtain ⟨k, f, ht, -⟩ := leaf_eq_ok_iff.1 hl
  obtain ⟨k', f', hu, -⟩ := leaf_eq_ok_iff.1 hm
  rw [Database.leaf_eq_iff hl hm ht hu, Database.leaf_eq_iff hl' hm' ht hu]

theorem asks (h : db.Alike db') {text : String} {f : Formula String} (hf : db.Asks text f) :
    db'.Asks text f :=
  ⟨hf.parse, fun t ht => h.exists_leaf (hf.leaf t ht)⟩

/-- The parts of a query stand for each other, one by one. -/
theorem parts_rel {text : String} {f : Formula String} (hf : db.Asks text f)
    (hf' : db'.Asks text f) : List.Forall₂ (Twins db db') (db.parts f) (db'.parts f) := by
  have hvisited : List.Forall₂ (Twins db db') (db.visited f) (db'.visited f) :=
    (mapM_rel (mapM_leaf hf) (mapM_leaf hf')).imp fun _ _ ⟨l, h⟩ => ⟨l.term, h⟩
  exact eraseDups_rel (fun _ _ _ _ => leaf_eq_iff) hvisited

theorem exists_query (h : db.Alike db') {text : String} (hs : ∃ s, db.query text = .ok s) :
    ∃ s, db'.query text = .ok s := by
  rw [exists_query_iff] at hs ⊢
  obtain ⟨f, hf, hne, hle⟩ := hs
  have hlen := (parts_rel hf (h.asks hf)).length_eq
  rw [← List.length_pos_iff] at hne
  exact ⟨f, h.asks hf, List.length_pos_iff.1 (hlen ▸ hne), hlen ▸ hle⟩

/-- A text makes a selection in both databases or in neither. -/
theorem exists_query_iff (h : db.Alike db') {text : String} :
    (∃ s, db.query text = .ok s) ↔ ∃ s, db'.query text = .ok s :=
  ⟨h.exists_query, h.symm.exists_query⟩

end Alike

end Database

end Cohort
