import Cohort.Proofs.Grammar

/-!
# Where a text stops being a formula

The reader refuses a token exactly when no formula has that token after those it has taken, which
still start one (`Grammar.Taken.viable`, `Grammar.not_prefix_of_refuses`). Which error it gives can
be told from the tokens alone: the one before the refused token, and the parentheses that are open
there (`Grammar.fault?`, `Grammar.Reached.fault?_eq`). So a text is refused exactly where it stops
being a formula (`Formula.parse_fault`), and the places in errors are numbers of bytes of the text
as it was given, in either dialect.
-/

namespace Cohort

namespace Token

namespace Kind

/-- The signs that an operand has to follow. -/
def isOperator : Kind → Bool
  | conj | disj | neg => true
  | term | opening | closing | finish => false

/-- What the last token of an operand is. -/
def endsOperand : Kind → Bool
  | term | closing => true
  | conj | disj | neg | opening | finish => false

theorem isOperator_of_endsOperand : ∀ {k : Kind}, k.endsOperand = true → k.isOperator = false
  | term, _ | closing, _ => rfl

end Kind

/-- The places of open parentheses after one more token, the last one first. -/
def track (places : List Nat) (t : Token) : List Nat :=
  match t.kind with
  | .opening => t.start :: places
  | .closing => places.tail
  | .term | .conj | .disj | .neg | .finish => places

/-- The places of the parentheses that are open after some tokens, the last one first. -/
def unclosed (ts : List Token) : List Nat := ts.foldl track []

theorem unclosed_concat (ts : List Token) (t : Token) :
    unclosed (ts ++ [t]) = track (unclosed ts) t := by
  simp [unclosed]

end Token

namespace Expression

def State.pending : State → List Pending
  | .before s _ | .after s _ => s

@[simp] theorem State.pending_before (s : List Pending) (op : Option Token) :
    (before s op).pending = s := rfl

@[simp] theorem State.pending_after (s : List Pending) (e : Expression) :
    (after s e).pending = s := rfl

/-- The places of pending parentheses, the innermost first. -/
def places : List Pending → List Nat
  | [] => []
  | .group n :: s => n :: places s
  | .not :: s | .and _ :: s | .andNot _ :: s | .or _ :: s => places s

theorem places_closeOperand : ∀ (s : List Pending) (e : Expression),
    places (closeOperand s e).1 = places s
  | [], _ | .and _ :: _, _ | .andNot _ :: _, _ | .or _ :: _, _ | .group _ :: _, _ => rfl
  | .not :: s, e => places_closeOperand s (.not e)

@[simp] theorem State.places_ofOperand (s : List Pending) (e : Expression) :
    places (ofOperand s e).pending = places s := places_closeOperand s e

theorem places_closeDisjunction : ∀ (s : List Pending) (e : Expression),
    places (closeDisjunction s e).1 = places s
  | [], _ | .not :: _, _ | .and _ :: _, _ | .andNot _ :: _, _ | .or _ :: _, _
  | .group _ :: _, _ => rfl

section Steps

variable {st st' : State} {t : Token}

/-- What a token makes of a state that takes it. -/
inductive Steps (t : Token) : State → State → Prop
  | term {s op} (hk : t.kind = .term) : Steps t (.before s op) (.ofOperand s (.term t.text))
  | not {s op} (hk : t.kind = .neg) : Steps t (.before s op) (.before (.not :: s) (some t))
  | group {s op} (hk : t.kind = .opening) :
    Steps t (.before s op) (.before (.group t.start :: s) none)
  | and {s e} (hk : t.kind = .conj) : Steps t (.after s e) (.before (.and e :: s) (some t))
  | andNot {s e} (hk : t.kind = .neg) : Steps t (.after s e) (.before (.andNot e :: s) (some t))
  | or {s e s' e'} (hk : t.kind = .disj) (hc : closeDisjunction s e = (s', e')) :
    Steps t (.after s e) (.before (.or e' :: s') (some t))
  | close {s e n s' e'} (hk : t.kind = .closing)
    (hc : closeDisjunction s e = (.group n :: s', e')) :
    Steps t (.after s e) (.ofOperand s' (.group e'))

theorem steps_of_step (h : st.step t = .ok st') : Steps t st st' := by
  cases st with
  | before s op =>
    cases hk : t.kind <;> simp only [State.step, hk, reduceCtorEq, Except.ok.injEq] at h <;>
      subst h
    · exact .term hk
    · exact .not hk
    · exact .group hk
  | after s e =>
    cases hk : t.kind <;> simp only [State.step, hk] at h
    case conj =>
      obtain rfl := Except.ok.inj h
      exact .and hk
    case neg =>
      obtain rfl := Except.ok.inj h
      exact .andNot hk
    case disj =>
      obtain rfl := Except.ok.inj h
      exact .or hk rfl
    case closing =>
      split at h
      · next hc =>
        obtain rfl := Except.ok.inj h
        exact .close hk hc
      · exact nomatch h
    case term | opening | finish => split at h <;> exact nomatch h

theorem Steps.places (h : Steps t st st') :
    places st'.pending = Token.track (places st.pending) t := by
  cases h with
  | term hk => simp [Token.track, hk]
  | not hk | group hk | and hk | andNot hk => simp [Token.track, hk, Expression.places]
  | @or s e _ _ hk hc =>
    have hplaces := places_closeDisjunction s e
    rw [hc] at hplaces
    simp [Token.track, hk, Expression.places, hplaces]
  | @close s e _ _ _ hk hc =>
    have hplaces := places_closeDisjunction s e
    rw [hc] at hplaces
    simp [Token.track, hk, ← hplaces, Expression.places]

end Steps

end Expression

namespace Grammar

open Expression

/-- The error at a token that comes after others. There is none at the end of the text, after an
operand that no parenthesis is open around. -/
def fault? (done : List Token) (next : Token) : Option ParseError :=
  match done.getLast? with
  | none => some (.unexpected .operand next)
  | some last =>
    if last.kind.isOperator then some (.missingOperand last)
    else if last.kind.endsOperand then
      if next.kind = .finish then (Token.unclosed done).head?.map .unclosed
      else some (.unexpected (if Token.unclosed done = [] then .finish else .closing) next)
    else some (.unexpected .operand next)

/-- The tokens of a formula. A formula without tokens is the one without clauses. -/
def Accepted (ts : List Token) : Prop := ts = [] ∨ ∃ d : Disjunction, d.tokens = ts

/-- The first token which no formula has there: those before it start a formula, and with it they
start none, with the token for its end included. -/
structure FirstFault (ts done : List Token) (next : Token) : Prop where
  reached : done ++ [next] <+: ts
  viable : ∃ us, Accepted us ∧ done <+: us
  stuck : ∀ us z, Accepted us → z.kind = .finish → ¬ done ++ [next] <+: us ++ [z]

section Viable

/-- What a rule derives. -/
def Rule.Derives : Rule → List Token → Prop
  | .disjunction, ts => ∃ d : Disjunction, d.tokens = ts
  | .conjunction, ts => ∃ c : Conjunction, c.tokens = ts
  | .operand, ts => ∃ o : Operand, o.tokens = ts

/-- Where a rule is to be applied, whatever it derives goes on to a formula. -/
theorem Awaits.completes {rule : Rule} {s : List Pending} {ts : List Token}
    (h : Awaits rule s ts) :
    ∀ {us : List Token}, rule.Derives us → ∃ d : Disjunction, ts ++ us <+: d.tokens := by
  induction h with
  | start =>
    rintro _ ⟨d, rfl⟩
    exact ⟨d, List.prefix_rfl⟩
  | @group s ts t h ht ih =>
    -- the other rules derive a part of what is derived around them; here the end is still missing
    rintro _ ⟨d, rfl⟩
    obtain ⟨e, he⟩ := ih ⟨.group t ht d ⟨.closing, ")", 0⟩ rfl, rfl⟩
    refine ⟨e, List.IsPrefix.trans ?_ he⟩
    simp [Operand.tokens]
  | first h ih =>
    rintro _ ⟨c, rfl⟩
    exact ih ⟨.one c, rfl⟩
  | or h d ht ih =>
    rintro _ ⟨c, rfl⟩
    simpa [Disjunction.tokens] using ih ⟨.or d _ ht c, rfl⟩
  | head h ih =>
    rintro _ ⟨o, rfl⟩
    exact ih ⟨.one o, rfl⟩
  | and h c ht ih =>
    rintro _ ⟨o, rfl⟩
    simpa [Conjunction.tokens] using ih ⟨.and c _ ht o, rfl⟩
  | andNot h c ht ih =>
    rintro _ ⟨o, rfl⟩
    simpa [Conjunction.tokens] using ih ⟨.andNot c _ ht o, rfl⟩
  | not h ht ih =>
    rintro _ ⟨o, rfl⟩
    simpa [Operand.tokens] using ih ⟨.not _ ht o, rfl⟩

theorem Taken.viable {st : State} {ts : List Token} (h : Taken st ts) :
    ∃ us, Accepted us ∧ ts <+: us := by
  cases h with
  | before h =>
    obtain ⟨d, hd⟩ := h.completes ⟨.term ⟨.term, "", 0⟩ rfl, rfl⟩
    exact ⟨d.tokens, .inr ⟨d, rfl⟩, (List.prefix_append _ _).trans hd⟩
  | after h c _ ht =>
    obtain ⟨d, hd⟩ := h.completes ⟨c, rfl⟩
    exact ⟨d.tokens, .inr ⟨d, rfl⟩, ht ▸ hd⟩

end Viable

section Refusal

variable {z : Token} {ts done : List Token} {next : Token} {st : State} {e : ParseError}

/-- A state does not take a token, which may be the one for the end of the text. -/
inductive Refuses (st : State) (t : Token) (e : ParseError) : Prop
  | step (hk : t.kind ≠ .finish) (h : st.step t = .error e)
  | finish (hk : t.kind = .finish) (h : st.finish t = .error e)

theorem read_eq_foldlM (z : Token) : ∀ (st : State) (ts : List Token),
    read z st ts = ts.foldlM State.step st >>= (·.finish z)
  | _, [] => rfl
  | st, t :: ts => by
    rw [Expression.read, List.foldlM_cons, bind_assoc]
    exact congrArg _ (funext fun st => read_eq_foldlM z st ts)

/-- Reading fails at the first token that the state there refuses. -/
theorem read_eq_error_iff (hz : z.kind = .finish) (hts : ∀ t ∈ ts, t.kind ≠ .finish) :
    read z st ts = .error e ↔ ∃ done next st', done ++ [next] <+: ts ++ [z]
      ∧ done.foldlM State.step st = .ok st' ∧ Refuses st' next e := by
  rw [read_eq_foldlM, bind_eq_error_iff, foldlM_eq_error_iff]
  constructor
  · rintro (⟨done, t, rest, st', rfl, hdone, he⟩ | ⟨st', hts', he⟩)
    · exact ⟨done, t, st', by simp, hdone, .step (hts t (by simp)) he⟩
    · exact ⟨ts, z, st', List.prefix_rfl, hts', .finish hz he⟩
  · rintro ⟨done, next, st', hle, hdone, hr⟩
    rcases List.prefix_concat_iff.1 hle with hall | ⟨rest, rfl⟩
    · obtain ⟨rfl, hnext⟩ := List.append_inj' hall rfl
      obtain rfl := List.singleton_inj.1 hnext
      cases hr with
      | step hk => exact absurd hz hk
      | finish _ he => exact .inr ⟨st', hdone, he⟩
    · cases hr with
      | step _ he => exact .inl ⟨done, next, rest, st', by simp, hdone, he⟩
      | finish hk => exact absurd hk (hts next (by simp))

mutual

theorem Disjunction.kind_ne_finish : ∀ (d : Disjunction), ∀ t ∈ d.tokens, t.kind ≠ .finish
  | .one c => c.kind_ne_finish
  | .or l sign h r => by
    have hl := l.kind_ne_finish
    have hr := r.kind_ne_finish
    simp only [Disjunction.tokens, List.forall_mem_append, List.forall_mem_cons, h]
    exact ⟨hl, nofun, hr⟩

theorem Conjunction.kind_ne_finish : ∀ (c : Conjunction), ∀ t ∈ c.tokens, t.kind ≠ .finish
  | .one o => o.kind_ne_finish
  | .and l sign h r | .andNot l sign h r => by
    have hl := l.kind_ne_finish
    have hr := r.kind_ne_finish
    simp only [Conjunction.tokens, List.forall_mem_append, List.forall_mem_cons, h]
    exact ⟨hl, nofun, hr⟩

theorem Operand.kind_ne_finish : ∀ (o : Operand), ∀ t ∈ o.tokens, t.kind ≠ .finish
  | .term t h => by simp [Operand.tokens, h]
  | .not sign h o => by
    have ho := o.kind_ne_finish
    simp only [Operand.tokens, List.forall_mem_cons, h]
    exact ⟨nofun, ho⟩
  | .group opening ho d closing hc => by
    have hd := d.kind_ne_finish
    simp only [Operand.tokens, List.forall_mem_cons, List.forall_mem_append, ho, hc]
    exact ⟨nofun, hd, nofun, nofun⟩

end

/-- No formula has the token that is refused, nor ends where the end is refused. -/
theorem not_prefix_of_refuses (hdone : done.foldlM State.step (.before [] none) = .ok st)
    (hr : Refuses st next e) (d : Disjunction) (hz : z.kind = .finish) :
    ¬ done ++ [next] <+: d.tokens ++ [z] := by
  intro hle
  have hread := (read_eq_error_iff hz d.kind_ne_finish).2 ⟨done, next, st, hle, hdone, hr⟩
  rw [read_tokens] at hread
  exact nomatch hread

end Refusal

section Reached

/-- What the last token is before each state. -/
inductive Last : State → Option Token → Prop
  | start {s} : Last (.before s none) none
  | opening {s t} (h : t.kind = .opening) : Last (.before s none) (some t)
  | operator {s t} (h : t.kind.isOperator = true) : Last (.before s (some t)) (some t)
  | operand {s e t} (h : t.kind.endsOperand = true) : Last (.after s e) (some t)

variable {st st' : State} {s : List Pending} {done : List Token} {t next : Token} {e : ParseError}

theorem last_of_steps (h : Steps t st st') : Last st' (some t) := by
  cases h with
  | term hk | close hk => exact .operand (by rw [hk]; rfl)
  | not hk | and hk | andNot hk | or hk => exact .operator (by rw [hk]; rfl)
  | group hk => exact .opening hk

/-- What the tokens that have been read tell about the state. -/
structure Reached (done : List Token) (st : State) : Prop where
  taken : Taken st done
  last : Last st done.getLast?
  places : places st.pending = Token.unclosed done

theorem reached_nil : Reached [] (.before [] none) where
  taken := .before (.head (.first .start))
  last := .start
  places := rfl

theorem Reached.step (h : Reached done st) (hs : st.step t = .ok st') :
    Reached (done ++ [t]) st' where
  taken := h.taken.step hs
  last := List.getLast?_concat ▸ last_of_steps (steps_of_step hs)
  places := by rw [(steps_of_step hs).places, h.places, Token.unclosed_concat]

theorem reached_of_foldlM (h : done.foldlM State.step (.before [] none) = .ok st) :
    Reached done st :=
  of_foldlM (P := Reached) (fun _ _ _ _ => Reached.step) reached_nil h

theorem eq_noOperand_of_refuses {op : Option Token} (h : Refuses (.before s op) t e) :
    e = noOperand op t := by
  cases h with
  | step hk he =>
    cases hk : t.kind <;> simp only [State.step, hk, reduceCtorEq, Except.error.injEq] at he <;>
      exact he.symm
  | finish _ he => exact (Except.error.inj he).symm

/-- After an operand, it matters whether a parenthesis is open. -/
theorem error_of_refuses {l : Expression} (hc : Closed (closeDisjunction s l).1)
    (h : Refuses (.after s l) t e) :
    (if t.kind = .finish then (places s).head?.map .unclosed
      else some (.unexpected (if places s = [] then .finish else .closing) t)) = some e := by
  rw [← places_closeDisjunction s l]
  generalize hclose : closeDisjunction s l = p at hc
  obtain ⟨s', l'⟩ := p
  cases h with
  | step hk he =>
    rw [if_neg hk]
    match s', hc with
    | [], _ | .group _ :: _, _ =>
      cases ht : t.kind <;>
        simp only [State.step, ht, hclose, reduceCtorEq, Except.error.injEq] at he <;>
        simp [places, ← he]
  | finish hk he =>
    rw [if_pos hk]
    match s', hc with
    | [], _ => simp [State.finish, hclose] at he
    | .group _ :: _, _ =>
      simp only [State.finish, hclose, Except.error.injEq] at he
      simp [places, ← he]

theorem Taken.closed {l : Expression} (h : Taken (.after s l) done) :
    Closed (closeDisjunction s l).1 := by
  cases h with
  | after h c he ht =>
    subst he
    obtain ⟨s', us, d, hd, hclose, -⟩ := h.conjunction c
    rw [hclose]
    exact hd.closed

theorem Reached.fault?_eq (h : Reached done st) (hr : Refuses st next e) :
    fault? done next = some e := by
  obtain ⟨htaken, hlast, hplaces⟩ := h
  unfold fault?
  rw [← hplaces]
  generalize done.getLast? = last at hlast
  cases hlast with
  | start => rw [eq_noOperand_of_refuses hr, noOperand]
  | opening hk =>
    rw [eq_noOperand_of_refuses hr, noOperand]
    simp [hk, Token.Kind.isOperator, Token.Kind.endsOperand]
  | operator hk =>
    rw [eq_noOperand_of_refuses hr, noOperand]
    simp [hk]
  | operand hk =>
    simp only [hk, Token.Kind.isOperator_of_endsOperand hk, Bool.false_eq_true, if_false, if_true]
    exact error_of_refuses htaken.closed hr

end Reached

section Unique

variable {ts done done' : List Token} {next next' : Token}

theorem FirstFault.eq_of_prefix (h : FirstFault ts done next) (h' : FirstFault ts done' next')
    (hle : done ++ [next] <+: done' ++ [next']) : done = done' ∧ next = next' := by
  rcases List.prefix_concat_iff.1 hle with heq | hshort
  · obtain ⟨hdone, hnext⟩ := List.append_inj' heq rfl
    exact ⟨hdone, List.singleton_inj.1 hnext⟩
  · obtain ⟨us, hus, hdone⟩ := h'.viable
    have hlong : done ++ [next] <+: us ++ [.finish 0] :=
      (hshort.trans hdone).trans (List.prefix_append _ _)
    exact absurd hlong (h.stuck us (.finish 0) hus rfl)

theorem FirstFault.unique (h : FirstFault ts done next) (h' : FirstFault ts done' next') :
    done = done' ∧ next = next' := by
  rcases List.prefix_or_prefix_of_prefix h.reached h'.reached with hle | hle
  · exact h.eq_of_prefix h' hle
  · exact (h'.eq_of_prefix h hle).imp Eq.symm Eq.symm

end Unique

end Grammar

namespace Dialect

variable (dialect : Dialect)

theorem utf8Size_sign (c : Char) : (dialect.sign c).utf8Size = c.utf8Size := by
  unfold sign
  split <;> rfl

theorem byteSize_map_sign (cs : List Char) :
    Token.byteSize (cs.map dialect.sign) = Token.byteSize cs := by
  induction cs with
  | nil => rfl
  | cons c cs ih => rw [List.map_cons, Token.byteSize_cons, utf8Size_sign, ih, Token.byteSize_cons]

end Dialect

namespace Formula

open Grammar

variable {dialect : Dialect} {text : String} {done : List Token} {next : Token} {e : ParseError}

/-- The tokens of a text, in the plain signs, the last one marking its end. -/
def scan (dialect : Dialect) (text : String) : List Token :=
  Token.scan (text.toList.map dialect.sign)

theorem scan_eq (dialect : Dialect) (text : String) : scan dialect text
    = tokens dialect text ++ [.finish (Token.byteSize (text.toList.map dialect.sign))] := rfl

theorem kind_ne_finish_of_mem_tokens : ∀ t ∈ tokens dialect text, t.kind ≠ .finish :=
  Token.kind_ne_finish_of_mem_scanFrom _ _

theorem parse_eq_error_iff_refuses (h : tokens dialect text ≠ []) : parse dialect text = .error e
    ↔ ∃ done next st, done ++ [next] <+: scan dialect text
      ∧ done.foldlM Expression.State.step (.before [] none) = .ok st ∧ Refuses st next e := by
  rw [parse_eq_read h, map_eq_error_iff, read_eq_error_iff rfl kind_ne_finish_of_mem_tokens,
    scan_eq]

theorem tokens_ne_nil_of_parse_eq_error (he : parse dialect text = .error e) :
    tokens dialect text ≠ [] := by
  intro h
  rw [parse_of_tokens_eq_nil h] at he
  exact nomatch he

/-- The text without tokens ends at once where a formula starts otherwise. -/
theorem not_prefix_finish {z : Token} (h : tokens dialect text ≠ [])
    (hreached : done ++ [next] <+: scan dialect text) (hz : z.kind = .finish) :
    ¬ done ++ [next] <+: [z] := by
  intro hle
  have hnil : done = [] := by
    have hlength := hle.length_le
    simpa using hlength
  obtain ⟨t, ts, hts⟩ := List.exists_cons_of_ne_nil h
  have hnext : next = t := by
    rw [scan_eq, hts, hnil] at hreached
    exact (List.cons_prefix_cons.1 hreached).1
  rw [hnil] at hle
  have hkind : t.kind = .finish := hnext ▸ (List.cons_prefix_cons.1 hle).1 ▸ hz
  exact kind_ne_finish_of_mem_tokens t (hts ▸ List.mem_cons_self) hkind

theorem exists_firstFault (he : parse dialect text = .error e) :
    ∃ done next, FirstFault (scan dialect text) done next ∧ fault? done next = some e := by
  have hne := tokens_ne_nil_of_parse_eq_error he
  obtain ⟨done, next, st, hreached, hdone, hr⟩ := (parse_eq_error_iff_refuses hne).1 he
  have hst := reached_of_foldlM hdone
  refine ⟨done, next, ⟨hreached, hst.taken.viable, ?_⟩, hst.fault?_eq hr⟩
  rintro us z (rfl | ⟨d, rfl⟩) hz
  · exact not_prefix_finish hne hreached hz
  · exact not_prefix_of_refuses hdone hr d hz

theorem not_accepted_of_firstFault (h : FirstFault (scan dialect text) done next) :
    ¬ Accepted (tokens dialect text) := by
  intro haccepted
  exact h.stuck _ _ haccepted rfl (scan_eq dialect text ▸ h.reached)

theorem accepted_of_parse_eq_ok {f : Formula String} (hf : parse dialect text = .ok f) :
    Accepted (tokens dialect text) := by
  by_cases h : tokens dialect text = []
  · exact .inl h
  · obtain ⟨d, hd, -⟩ := (parse_eq_ok_iff h).1 hf
    exact .inr ⟨d, hd⟩

theorem parse_eq_error_iff : parse dialect text = .error e
    ↔ ∃ done next, FirstFault (scan dialect text) done next ∧ fault? done next = some e := by
  refine ⟨exists_firstFault, ?_⟩
  rintro ⟨done, next, h, he⟩
  cases hparse : parse dialect text with
  | ok f => exact absurd (accepted_of_parse_eq_ok hparse) (not_accepted_of_firstFault h)
  | error e' =>
    obtain ⟨done', next', h', he'⟩ := exists_firstFault hparse
    obtain ⟨rfl, rfl⟩ := h.unique h'
    rw [← Option.some.inj (he.symm.trans he')]

theorem exists_place_of_mem_scan {t : Token} (ht : t ∈ scan dialect text) :
    ∃ before rest : String, text = before ++ rest ∧ t.start = before.utf8ByteSize
      ∧ t.text.toList <+: rest.toList.map dialect.sign := by
  obtain ⟨before, rest, hsplit, hstart, htext⟩ := Token.exists_place_of_mem_scan _ t ht
  obtain ⟨cs, ds, hcs, rfl, rfl⟩ := List.map_eq_append_iff.1 hsplit
  refine ⟨.ofList cs, .ofList ds, ?_, ?_, ?_⟩
  · rw [← String.ofList_append, ← hcs, String.ofList_toList]
  · rw [hstart, Dialect.byteSize_map_sign, Token.byteSize_eq_utf8ByteSize]
  · rwa [String.toList_ofList]

/-- A text is refused at the first token which no formula has there. The error tells the operator
before that token if there is one, the last open parenthesis if the text ends after an operand, and
the token itself otherwise. Tokens are where they say they are in the text, in bytes and whatever
its signs. -/
theorem parse_fault (dialect : Dialect) (text : String) :
    (∀ e, parse dialect text = .error e
        ↔ ∃ done next, FirstFault (scan dialect text) done next ∧ fault? done next = some e)
      ∧ ∀ t ∈ scan dialect text, ∃ before rest : String, text = before ++ rest
        ∧ t.start = before.utf8ByteSize ∧ t.text.toList <+: rest.toList.map dialect.sign :=
  ⟨fun _ => parse_eq_error_iff, fun _ => exists_place_of_mem_scan⟩

example : parse .extended "é+(b,c" = .error (.unclosed 3) := by decide +kernel

end Formula

end Cohort
