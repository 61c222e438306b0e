import Cohort.Proofs.FilterText
import Cohort.Proofs.FormulaText

/-!
# Formulas over conditions, written and read again

A condition whose field and value are trimmed and have no signs, the field no `=` either, can stand
in a formula's text (`Condition.Plain`): its text is a term there, and the condition is what the
term states (`Condition.parse_render`). What a term of any text states is such
(`Condition.plain_of_stated`). Formulas over such conditions are read back from their texts
(`Formula.conditions_of_text`). Their literals and clauses stand in the order of the conditions on
one side and of the conditions' texts on the other, where `=` parts field and value.
-/

namespace Cohort

open Text Token

namespace Text

variable {cs : List Char} {c : Char}

theorem mem_of_mem_trim (h : c ∈ trim cs) : c ∈ cs :=
  (List.dropWhile_sublist isBlank).subset ((List.rdropWhile_prefix isBlank _).subset h)

theorem getLast?_trim (h : (trim cs).getLast? = some c) : isBlank c = false := getLast?_trimEnd h

theorem head?_trim (h : (trim cs).head? = some c) : isBlank c = false := by
  unfold trim at h
  cases hl : trimStart cs with
  | nil =>
    rw [hl] at h
    exact nomatch h
  | cons d ds =>
    have hd : isBlank d = false := head?_trimStart (by rw [hl, List.head?_cons])
    rw [hl, head?_trimEnd hd] at h
    exact Option.some.inj h ▸ hd

theorem trim_eq_self_iff : trim cs = cs ↔ (∀ c, cs.head? = some c → isBlank c = false)
    ∧ ∀ c, cs.getLast? = some c → isBlank c = false := by
  constructor
  · intro h
    exact ⟨fun c hc => head?_trim (h.symm ▸ hc), fun c hc => getLast?_trim (h.symm ▸ hc)⟩
  · rintro ⟨hstart, hfinish⟩
    have hkeep : trimStart cs = cs := by
      unfold trimStart
      rw [List.dropWhile_eq_self_iff]
      intro hlt
      rw [hstart _ (List.head?_eq_getElem? ▸ List.getElem?_eq_getElem hlt)]
      exact Bool.false_ne_true
    unfold trim
    rw [hkeep, trimEnd_eq_self hfinish]

theorem trim_trim (cs : List Char) : trim (trim cs) = trim cs :=
  trim_eq_self_iff.2 ⟨fun _ => head?_trim, fun _ => getLast?_trim⟩

end Text

namespace Condition

variable {k : Condition} {t : String}

/-- A condition that can stand in a formula's text. -/
structure Plain (k : Condition) : Prop where
  undivided : '=' ∉ k.field.toList
  field_trimmed : trim k.field.toList = k.field.toList
  value_trimmed : trim k.value.toList = k.value.toList
  field_plain : ∀ c ∈ k.field.toList, isPlain c = true
  value_plain : ∀ c ∈ k.value.toList, isPlain c = true

/-- Its text is a term wherever it stands; without a field, the term starts with the `=`, and
without a value it ends with it. -/
theorem Plain.isTerm (h : k.Plain) : IsTerm (Formula.name render k) := by
  have hsign : isBlank '=' = false := by decide
  obtain ⟨hstart, -⟩ := trim_eq_self_iff.1 h.field_trimmed
  obtain ⟨-, hfinish⟩ := trim_eq_self_iff.1 h.value_trimmed
  refine ⟨?_, ?_, ?_, ?_⟩
  · intro he
    rw [← String.toList_inj, String.toList_ofList] at he
    exact List.append_ne_nil_of_right_ne_nil _ (List.cons_ne_nil _ _) he
  · rw [String.toList_ofList]
    refine List.forall_mem_append.2 ⟨h.field_plain, List.forall_mem_cons.2 ⟨?_, h.value_plain⟩⟩
    decide
  · intro c hc
    rw [String.toList_ofList, render, List.head?_append] at hc
    cases hf : k.field.toList.head? with
    | none =>
      rw [hf] at hc
      exact Option.some.inj hc ▸ hsign
    | some d =>
      rw [hf] at hc
      exact Option.some.inj hc ▸ hstart d hf
  · intro c hc
    rw [String.toList_ofList, render, List.getLast?_append, List.getLast?_cons] at hc
    cases hv : k.value.toList.getLast? with
    | none =>
      rw [hv] at hc
      exact Option.some.inj hc ▸ hsign
    | some d =>
      rw [hv] at hc
      exact Option.some.inj hc ▸ hfinish d hv

theorem Plain.stated (h : k.Plain) : Stated (Formula.name render k) k := by
  refine ⟨k.field.toList, k.value.toList, String.toList_ofList, h.undivided, ?_⟩
  rw [h.field_trimmed, h.value_trimmed, String.ofList_toList, String.ofList_toList]

/-- A condition is what its text states. -/
theorem parse_render (h : k.Plain) : parse (Formula.name render k) = .ok k :=
  parse_eq_ok_iff.2 h.stated

theorem plain_of_stated (ht : IsTerm t) (h : Stated t k) : k.Plain := by
  obtain ⟨a, v, happ, hnot, rfl⟩ := h
  have hplain := ht.plain
  rw [happ, List.forall_mem_append, List.forall_mem_cons] at hplain
  refine ⟨?_, ?_, ?_, ?_, ?_⟩ <;> rw [String.toList_ofList]
  · exact fun hmem => hnot (mem_of_mem_trim hmem)
  · exact trim_trim a
  · exact trim_trim v
  · exact fun c hc => hplain.1 c (mem_of_mem_trim hc)
  · exact fun c hc => hplain.2.2 c (mem_of_mem_trim hc)

end Condition

namespace Formula

/-- The text of a formula over conditions. -/
def conditionText (f : Formula Condition) : String := String.ofList (f.render Condition.render)

/-- The text of a formula is read as the formula, and its terms as the conditions. -/
def ReadsBack (f : Formula Condition) : Prop :=
  ∃ g, parse .standard f.conditionText = .ok g ∧ g.tryMap Condition.parse = .ok f

theorem readsBack_of_plain {f : Formula Condition} (h : ∀ k ∈ f.terms, k.Plain) :
    f.ReadsBack := by
  have hplain : ∀ l ∈ f.literals, l.term.Plain := forall_terms_iff.1 h
  refine ⟨f.map (name Condition.render), parse_ofList_render fun l hl => (hplain l hl).isTerm, ?_⟩
  -- the texts have an order of their own, but each gives its condition back
  rw [tryMap_map (h := id) fun l hl => Condition.parse_render (hplain l hl), map_id]

theorem plain_of_parse {dialect : Dialect} {text : String} {g : Formula String}
    {f : Formula Condition} (hg : parse dialect text = .ok g)
    (hf : g.tryMap Condition.parse = .ok f) : ∀ k ∈ f.terms, k.Plain := by
  refine forall_terms_iff.2 fun m hm => ?_
  obtain ⟨l, hl, k, hk, rfl⟩ := (mem_literals_tryMap hf).1 hm
  have hterm : IsTerm l.term := isTerm_of_parse hg l.term (mem_terms.2 ⟨l, hl, rfl⟩)
  exact Condition.plain_of_stated hterm (Condition.parse_eq_ok_iff.1 hk)

/-- A formula over conditions that can stand in a text is what is read from its text, with the
conditions for its terms. The conditions that are read from any text are such, so their formula is
read from its own text too. -/
theorem conditions_of_text :
    (∀ f : Formula Condition, (∀ k ∈ f.terms, k.Plain) → f.ReadsBack)
      ∧ ∀ (dialect : Dialect) (text : String) (g : Formula String) (f : Formula Condition),
        parse dialect text = .ok g → g.tryMap Condition.parse = .ok f →
          (∀ k ∈ f.terms, k.Plain) ∧ f.ReadsBack := by
  refine ⟨fun f h => readsBack_of_plain h, fun dialect text g f hg hf => ?_⟩
  exact ⟨plain_of_parse hg hf, readsBack_of_plain (plain_of_parse hg hf)⟩

/-- The condition on `a` stands before that on `a!`, and the text of the other before its own. -/
theorem conditions_of_text_reordered : ∃ g f, parse .standard " a= y|~a!=x " = .ok g
    ∧ g.tryMap Condition.parse = .ok f
    ∧ g.text = "~a!=x | a= y" ∧ f.conditionText = "a=y | ~a!=x"
    ∧ (∀ k ∈ f.terms, k.Plain) ∧ f.ReadsBack := by
  have hread : Expression.parse (" a= y|~a!=x ".toList.map Dialect.standard.sign)
      = .ok (some (.or (.term "a= y") (.not (.term "a!=x")))) := by decide +kernel
  have hg := parse_of_expression hread
  have hliterals : ((term "a= y").or (term "a!=x").not).literals
      = [.negative "a!=x", .plain "a= y"] := by cbv
  let k (t : String) : Condition := if t = "a= y" then ⟨"a", "y"⟩ else ⟨"a!", "x"⟩
  have hf : ((term "a= y").or (term "a!=x").not).tryMap Condition.parse
      = .ok (((term "a= y").or (term "a!=x").not).map k) := by
    refine tryMap_eq_map ?_
    rw [hliterals]
    decide +kernel
  have hplain := (conditions_of_text.2 _ _ _ _ hg hf).1
  exact ⟨_, _, hg, hf, by cbv, by cbv, hplain, conditions_of_text.1 _ hplain⟩

end Formula

end Cohort
