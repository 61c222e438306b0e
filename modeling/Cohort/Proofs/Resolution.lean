import Cohort.Proofs.History

/-!
# The funnel of a key

A key is resolved by field numbers, and its group found by these. Field numbers stand for names one
to one, so the group is the one that the names determine in the description (`Config.place?`,
`Layout.owner_iff_place`), and the funnel is that whose address has, for each field of the group,
the number of the key's value or of the empty string (`Layout.exists_address_of_resolve`).
-/

namespace Cohort

/-- The group that fields address: the first that has exactly these, or else the first that has all
of them. -/
def Config.owner? (c : Config) (fields : List String) : Option KeyGroup :=
  (c.keys.find? fun g => fields.all g.names.contains && g.names.all fields.contains).or
    (c.keys.find? fun g => fields.all g.names.contains)

/-- The place of the group that fields address. -/
def Config.place? (c : Config) (fields : List String) : Option Nat :=
  (c.keys.findIdx? fun g => fields.all g.names.contains && g.names.all fields.contains).or
    (c.keys.findIdx? fun g => fields.all g.names.contains)

theorem or_find?_eq_some_iff {α : Type} {p q : α → Bool} {l : List α} {a : α} :
    (l.find? p).or (l.find? q) = some a
      ↔ ∃ i, (l.findIdx? p).or (l.findIdx? q) = some i ∧ l[i]? = some a := by
  rw [List.find?_eq_bind_findIdx?_getElem?, List.find?_eq_bind_findIdx?_getElem?]
  cases hp : l.findIdx? p with
  | none => simp [Option.bind_eq_some_iff]
  | some j =>
    obtain ⟨hj, -⟩ := List.findIdx?_eq_some_iff_getElem.1 hp
    simp [List.getElem?_eq_getElem hj]

theorem Config.owner?_eq_some_iff {c : Config} {fields : List String} {k : KeyGroup} :
    c.owner? fields = some k ↔ ∃ i, c.place? fields = some i ∧ c.keys[i]? = some k :=
  or_find?_eq_some_iff

/-- The value that a key asks for in a field; fields that it leaves out are unset. -/
def Key.value (k : Key) (field : String) : String := (k.get? field).getD ""

theorem findIdx?_rel {α β : Type} {R : α → β → Prop} {p : α → Bool} {q : β → Bool}
    (h : ∀ a b, R a b → p a = q b) {l : List α} {m : List β} (hR : List.Forall₂ R l m) :
    l.findIdx? p = m.findIdx? q := by
  induction hR with
  | nil => rfl
  | cons hab _ ih => rw [List.findIdx?_cons, List.findIdx?_cons, h _ _ hab, ih]

namespace Layout

variable {log : Log} {config : Config} {layout : Layout} {g : GroupLayout} {key : Key}

section Names

theorem fieldNumber_eq_ok_iff {a : String} {n : Nat} :
    log.fieldNumber a = .ok n ↔ log.fields.findIdx? (·.name = a) = some n := by
  unfold Log.fieldNumber
  cases log.fields.findIdx? (·.name = a) <;> simp

theorem fieldNumber_inj {a b : String} {n : Nat} (ha : log.fieldNumber a = .ok n)
    (hb : log.fieldNumber b = .ok n) : a = b := by
  rw [fieldNumber_eq_ok_iff, List.findIdx?_eq_some_iff_getElem] at ha hb
  obtain ⟨h, hna, -⟩ := ha
  obtain ⟨_, hnb, -⟩ := hb
  simp only [decide_eq_true_eq] at hna hnb
  exact hna.symm.trans hnb

/-- Names and their numbers. -/
abbrev Numbered (log : Log) : List String → List Nat → Prop :=
  List.Forall₂ fun a n => log.fieldNumber a = .ok n

theorem Numbered.mem_iff {as : List String} {ns : List Nat} (h : Numbered log as ns) {a : String}
    {n : Nat} (ha : log.fieldNumber a = .ok n) : a ∈ as ↔ n ∈ ns := by
  constructor
  · intro hm
    obtain ⟨k, hk, hak⟩ := exists_right_of_mem h hm
    rw [ha, Except.ok.injEq] at hak
    exact hak ▸ hk
  · intro hm
    obtain ⟨b, hb, hbn⟩ := exists_left_of_mem h hm
    exact fieldNumber_inj hbn ha ▸ hb

theorem Numbered.all_contains {as bs : List String} {ns ms : List Nat} (h : Numbered log as ns)
    (hb : Numbered log bs ms) : as.all bs.contains = ns.all ms.contains := by
  induction h with
  | nil => rfl
  | cons ha _ ih =>
    rw [List.all_cons, List.all_cons, ih]
    congr 1
    rw [Bool.eq_iff_iff, List.contains_iff_mem, List.contains_iff_mem, hb.mem_iff ha]

theorem Numbered.map_eq {as : List String} {ns : List Nat} (h : Numbered log as ns) {v : Nat → Nat}
    {w : String → Nat} (hv : ∀ a n, log.fieldNumber a = .ok n → v n = w a) :
    ns.map v = as.map w := by
  induction h with
  | nil => rfl
  | cons ha _ ih => rw [List.map_cons, List.map_cons, hv _ _ ha, ih]

theorem numbered_fields {names : List String} (h : g.Describes log names) :
    Numbered log names g.fields := by
  unfold Numbered GroupLayout.fields
  rw [List.forall₂_map_right_iff]
  exact h.digits.imp fun _ _ hd => hd.number

end Names

theorem owner_eq_ok_iff {ns : List Nat} : layout.owner log ns = .ok g
    ↔ (layout.groups.find? fun g => ns.all g.hasField && g.fields.all ns.contains).or
      (layout.groups.find? fun g => ns.all g.hasField) = some g := by
  unfold owner
  simp only [List.find?_filter, Bool.decide_and, Bool.decide_eq_true]
  cases hx : layout.groups.find? fun g => ns.all g.hasField && g.fields.all ns.contains with
  | some c => simp
  | none =>
    rw [Option.none_or, ← List.head?_filter]
    cases hf : layout.groups.filter fun g => ns.all g.hasField with
    | cons c cs => simp
    | nil =>
      simp only [List.head?_nil, reduceCtorEq, iff_false]
      split
      · simp [bind_eq_ok_iff, throw_ne_ok]
      · nofun

/-- The group that addresses a key is that of the description which the key's names determine. -/
theorem owner_iff_place (hd : layout.Describes log config) {as : List String} {ns : List Nat}
    (hn : Numbered log as ns) : layout.owner log ns = .ok g
      ↔ ∃ i, config.place? as = some i ∧ layout.groups[i]? = some g := by
  have hcover : ∀ (k : KeyGroup) (g : GroupLayout), g.Describes log k.names →
      as.all k.names.contains = ns.all g.hasField := by
    intro k g hg
    exact hn.all_contains (numbered_fields hg)
  have hexact : ∀ (k : KeyGroup) (g : GroupLayout), g.Describes log k.names →
      (as.all k.names.contains && k.names.all as.contains)
        = (ns.all g.hasField && g.fields.all ns.contains) := by
    intro k g hg
    rw [hcover k g hg, (numbered_fields hg).all_contains hn]
  unfold Config.place?
  rw [owner_eq_ok_iff, or_find?_eq_some_iff, findIdx?_rel hexact hd.groups,
    findIdx?_rel hcover hd.groups]

section Values

/-- The number of a value in the field of a number. -/
def codeAt (log : Log) (n : Nat) (v : String) : Nat := ((log.fields[n]?).map (·.code v)).getD 0

/-- Fields by number with their values, as a key gives them by name. -/
structure Given (log : Log) (pairs : List (String × String)) (fields : List (Nat × String)) :
    Prop where
  named : List.Forall₂ (fun p q => log.fieldNumber p.1 = .ok q.1 ∧ q.2 = p.2) pairs fields
  distinct : (fields.map (·.1)).Nodup

theorem given_of_resolveFields {fields : List (Nat × String)}
    (h : resolveFields log key = .ok fields) : Given log key.pairs fields := by
  unfold resolveFields at h
  refine of_foldlM (P := Given log) (fun done known p known' hg h => ?_)
    ⟨.nil, List.nodup_nil⟩ h
  simp only [bind_eq_ok_iff, guard_eq_ok_iff, pure_eq_ok_iff] at h
  obtain ⟨n, hn, hnew, rfl⟩ := h
  exact ⟨List.rel_append hg.named (.cons ⟨hn, rfl⟩ .nil), nodup_snoc hg.distinct hnew⟩

theorem Given.numbered {pairs : List (String × String)} {fields : List (Nat × String)}
    (h : Given log pairs fields) : Numbered log (pairs.map (·.1)) (fields.map (·.1)) := by
  unfold Numbered
  rw [List.forall₂_map_left_iff, List.forall₂_map_right_iff]
  exact h.named.imp fun _ _ hq => hq.1

/-- The number that some fields have for one of them; 0 if it is not among them. -/
def valueAt (log : Log) (fields : List (Nat × String)) (n : Nat) : Nat :=
  ((fields.filter (·.1 = n)).map fun q => codeAt log q.1 q.2).sum

theorem codeAt_empty (log : Log) (n : Nat) : codeAt log n "" = 0 := by
  unfold codeAt
  cases log.fields[n]? with
  | none => rfl
  | some f => exact f.code_empty

theorem valueAt_of_given {a : String} {n : Nat} (ha : log.fieldNumber a = .ok n) :
    ∀ {pairs : List (String × String)} {fields : List (Nat × String)}, Given log pairs fields →
      valueAt log fields n = codeAt log n (Key.value ⟨pairs⟩ a)
  | [], [], _ => by
    rw [show Key.value ⟨[]⟩ a = "" from rfl, codeAt_empty]
    rfl
  | p :: pairs, q :: fields, h => by
    obtain ⟨⟨hq, hv⟩, hrest⟩ := List.forall₂_cons.1 h.named
    obtain ⟨hnew, hdistinct⟩ := List.nodup_cons.1 h.distinct
    have ih := valueAt_of_given ha ⟨hrest, hdistinct⟩
    unfold valueAt Key.value Key.get? at *
    by_cases hpa : p.1 = a
    · have hqn : q.1 = n := by rwa [hpa, ha, Except.ok.injEq, eq_comm] at hq
      have hnone : fields.filter (·.1 = n) = [] := by
        rw [List.filter_eq_nil_iff]
        intro r hr hrn
        exact hnew (List.mem_map.2 ⟨r, hr, (of_decide_eq_true hrn).trans hqn.symm⟩)
      simp [hpa, hqn, hnone, hv]
    · have hqn : q.1 ≠ n := by
        rintro rfl
        exact hpa (fieldNumber_inj hq ha)
      simpa [hpa, hqn] using ih

/-- What values add up to by their fields' weights is what they add up to digit by digit. -/
theorem sum_weights (log : Log) (hg : g.fields.Nodup) (fields : List (Nat × String)) :
    (fields.map fun q => codeAt log q.1 q.2 * g.weight q.1).sum
      = Digit.offset g.digits (g.digits.map fun d => valueAt log fields d.field) := by
  induction fields with
  | nil => exact (Digit.offset_zero fun _ _ => rfl).symm
  | cons q fields ih =>
    have hsplit : ∀ d : Digit, valueAt log (q :: fields) d.field
        = (if d.field = q.1 then codeAt log q.1 q.2 else 0) + valueAt log fields d.field := by
      intro d
      unfold valueAt
      by_cases h : q.1 = d.field
      · simp [h]
      · simp [h, Ne.symm h]
    simp only [hsplit]
    rw [Digit.offset_add, Digit.offset_single hg, List.map_cons, List.sum_cons, ih]
    rfl

theorem number_eq_ok_iff {n k : Nat} {w : String} :
    log.number n w = .ok k ↔ ∃ f, log.fields[n]? = some f ∧ f.number? w = some k := by
  unfold Log.number
  simp only [bind_eq_ok_iff, field_eq_ok_iff]
  refine exists_congr fun f => and_congr_right fun _ => ?_
  cases f.number? w <;> simp [throw_ne_ok, pure_eq_ok_iff]

end Values

end Layout

namespace Log

/-- The number of a value in the field of a name. -/
def codeIn (log : Log) (name v : String) : Nat :=
  match log.fieldNumber name with
  | .ok n => Layout.codeAt log n v
  | .error _ => 0

/-- There is a field of a name, and it has a number for a value. -/
def KnowsIn (log : Log) (name v : String) : Prop :=
  ∃ n f, log.fieldNumber name = .ok n ∧ log.fields[n]? = some f ∧ f.Knows v

theorem codeIn_inj {log : Log} {name v w : String} (hv : log.KnowsIn name v)
    (hw : log.KnowsIn name w) : log.codeIn name v = log.codeIn name w ↔ v = w := by
  obtain ⟨n, f, hn, hf, hv⟩ := hv
  obtain ⟨m, k, hm, hk, hw⟩ := hw
  obtain rfl : n = m := by simpa [hn] using hm
  obtain rfl : f = k := by simpa [hf] using hk
  unfold codeIn Layout.codeAt
  simp only [hn, hf, Option.map_some, Option.getD_some]
  exact Field.code_inj hv hw

end Log

namespace Layout

variable {log : Log} {config : Config} {layout : Layout} {g : GroupLayout} {key : Key}

theorem codeIn_of_fieldNumber {a : String} {n : Nat} (h : log.fieldNumber a = .ok n) (v : String) :
    log.codeIn a v = codeAt log n v := by
  unfold Log.codeIn
  rw [h]

theorem codeIn_eq_code {a : String} {n : Nat} {f : Field} (ha : log.fieldNumber a = .ok n)
    (hf : log.fields[n]? = some f) (v : String) : log.codeIn a v = f.code v := by
  rw [codeIn_of_fieldNumber ha]
  unfold codeAt
  rw [hf]
  rfl

/-- A value given for a field is one that the field knows. -/
theorem knowsIn_of_given {fields : List (Nat × String)} (hg : Given log key.pairs fields)
    (hk : ∀ q ∈ fields, ∃ k, log.number q.1 q.2 = .ok k) {a : String} {n : Nat} {f : Field}
    (ha : log.fieldNumber a = .ok n) (hf : log.fields[n]? = some f) :
    log.KnowsIn a (key.value a) := by
  refine ⟨n, f, ha, hf, ?_⟩
  unfold Key.value Key.get?
  cases hp : key.pairs.find? (·.1 = a) with
  | none => exact .inl rfl
  | some p =>
    obtain ⟨q, hq, hpq, hv⟩ := exists_right_of_mem hg.named (List.mem_of_find?_eq_some hp)
    obtain ⟨k, hk⟩ := hk q hq
    have hpa : p.1 = a := by simpa using List.find?_some hp
    obtain rfl : q.1 = n := by simpa [hpa, ha, eq_comm] using hpq
    obtain ⟨f', hf', hn⟩ := number_eq_ok_iff.1 hk
    obtain rfl : f = f' := by simpa [hf] using hf'
    rw [hv] at hn
    exact (Field.knows_of_number? hn).1

/-- What values of fields add up to, when each field knows its value. -/
def Summed (log : Log) (weight : Nat → Nat) (n : Nat) (fields : List (Nat × String))
    (number : Nat) : Prop :=
  number = n + (fields.map fun q => codeAt log q.1 q.2 * weight q.1).sum
    ∧ ∀ q ∈ fields, ∃ k, log.number q.1 q.2 = .ok k

theorem summed_of_foldlM {fields : List (Nat × String)} {n number : Nat} {weight : Nat → Nat}
    (h : fields.foldlM (fun number q => do
      return number + (← log.number q.1 q.2) * weight q.1) n = .ok number) :
    Summed log weight n fields number := by
  have hnil : Summed log weight n [] n := ⟨rfl, by simp⟩
  refine of_foldlM (P := Summed log weight n) ?_ hnil h
  rintro done b q b' ⟨rfl, hk⟩ h
  simp only [bind_eq_ok_iff, pure_eq_ok_iff] at h
  obtain ⟨k, hq, rfl⟩ := h
  obtain ⟨f, hf, hn⟩ := number_eq_ok_iff.1 hq
  have hcode : codeAt log q.1 q.2 = k := by
    unfold codeAt
    rw [hf]
    exact (Field.knows_of_number? hn).2
  refine ⟨by simp [hcode, Nat.add_assoc], fun r hr => ?_⟩
  rcases List.mem_append.1 hr with hr | hr
  · exact hk r hr
  · rw [List.mem_singleton] at hr
    exact ⟨k, hr ▸ hq⟩

/-- A key's funnel is that of the values which the key gives the fields of its group. -/
theorem exists_address_of_resolve (hd : layout.Describes log config) {f : FunnelId}
    (h : layout.resolve log key = .ok f) :
    ∃ i g k, layout.groups[i]? = some g ∧ g.Describes log k.names
      ∧ config.place? (key.pairs.map (·.1)) = some i ∧ config.keys[i]? = some k
      ∧ layout.Addresses i (k.names.map fun a => log.codeIn a (key.value a)) f.toNat
      ∧ ∀ a ∈ k.names, log.KnowsIn a (key.value a) := by
  unfold resolve at h
  simp only [bind_eq_ok_iff, pure_eq_ok_iff] at h
  obtain ⟨fields, hf, g, hg, number, hn, rfl⟩ := h
  have hgiven := given_of_resolveFields hf
  obtain ⟨i, hplace, hi⟩ := (owner_iff_place hd hgiven.numbered).1 hg
  obtain ⟨k, hk, hdk⟩ := hd.exists_keyGroup hi
  obtain ⟨rfl, hknown⟩ := summed_of_foldlM hn
  have hvalues : g.fields.map (valueAt log fields)
      = k.names.map fun a => log.codeIn a (key.value a) := by
    refine (numbered_fields hdk).map_eq fun a n ha => ?_
    rw [valueAt_of_given ha hgiven, codeIn_of_fieldNumber ha]
  have hfit : Digit.Fit g.digits (g.fields.map (valueAt log fields)) := by
    unfold Digit.Fit GroupLayout.fields
    rw [List.map_map, List.forall₂_map_right_iff, List.forall₂_same]
    intro d hdm
    obtain ⟨a, -, ha⟩ := exists_left_of_mem hdk.digits hdm
    obtain ⟨F, hF, hr⟩ := ha.radix
    rw [Function.comp_apply, valueAt_of_given ha.number hgiven]
    unfold codeAt
    rw [hF, hr]
    exact Nat.lt_succ_of_le (F.code_le _)
  have hsum := sum_weights log hdk.distinct fields
  have hlt := (hd.number_lt (List.mem_of_getElem? hi) hfit).2
  unfold GroupLayout.fields at hfit hvalues hlt
  rw [List.map_map] at hfit hvalues hlt
  refine ⟨i, g, k, hi, hdk, hplace, hk, ⟨g, hi, hvalues ▸ hfit, ?_⟩, fun a ha => ?_⟩
  · rw [← hvalues, UInt32.toNat_ofNat_of_lt', hsum]
    · rfl
    · rw [hsum]
      exact Nat.lt_of_lt_of_le hlt hd.size_le
  · obtain ⟨d, -, had⟩ := exists_right_of_mem hdk.digits ha
    obtain ⟨F, hF, -⟩ := had.radix
    exact knowsIn_of_given hgiven hknown had.number hF

end Layout

end Cohort
