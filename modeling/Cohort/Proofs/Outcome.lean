import Mathlib.Data.List.Forall2

/-!
# Operations that may fail

When a sequence of operations succeeds. Each step of a sequence has to succeed in its turn
(`bind_eq_ok_iff`), and going through a list has to succeed for every member (`mapM_eq_ok_iff`,
`forM_eq_ok_iff`, `forIn_eq_ok_iff`). What relates a fold's result to the members taken in so far is
carried from one member to the next (`of_foldlM`, `exists_foldlM`). When going through a list fails,
the error is that of the first member which does (`error?_mapM`, `error?_forM`, `error?_foldlM`,
`foldlM_eq_error_iff`).
-/

namespace Cohort

variable {ε α β γ : Type}

theorem bind_eq_ok_iff {x : Except ε α} {f : α → Except ε β} {b : β} :
    (x >>= f) = .ok b ↔ ∃ a, x = .ok a ∧ f a = .ok b := by
  cases x <;> simp [bind, Except.bind]

theorem pure_eq_ok_iff {a b : α} : (pure a : Except ε α) = .ok b ↔ a = b := by
  simp [pure, Except.pure]

theorem map_eq_ok_iff {x : Except ε α} {f : α → β} {b : β} :
    f <$> x = .ok b ↔ ∃ a, x = .ok a ∧ f a = b := by
  cases x <;> simp

theorem bind_eq_error_iff {x : Except ε α} {f : α → Except ε β} {e : ε} :
    (x >>= f) = .error e ↔ x = .error e ∨ ∃ a, x = .ok a ∧ f a = .error e := by
  cases x <;> simp [bind, Except.bind]

theorem map_eq_error_iff {x : Except ε α} {f : α → β} {e : ε} :
    f <$> x = .error e ↔ x = .error e := by
  cases x <;> simp

theorem throw_ne_ok {e : ε} {a : α} : (throw e : Except ε α) ≠ .ok a := nofun

theorem exists_error_iff {x : Except ε α} : (∃ e, x = .error e) ↔ ¬ ∃ a, x = .ok a := by
  cases x <;> simp

theorem toOption_eq_iff {x : Except ε α} {y : Except ε α} :
    x.toOption = y.toOption ↔ ∀ a, x = .ok a ↔ y = .ok a := by
  have hsome : ∀ (z : Except ε α) (a : α), z.toOption = some a ↔ z = .ok a := by
    intro z a
    cases z <;> simp [Except.toOption]
  simp only [Option.ext_iff, hsome]

/-- Past a check that throws, the check was passed. -/
theorem guard_eq_ok_iff {p : Prop} [Decidable p] {e : ε} {f : γ → Except ε α} {x : Except ε α}
    {a : α} : (if p then throw e >>= f else x) = .ok a ↔ ¬ p ∧ x = .ok a := by
  by_cases h : p <;> simp [h, bind_eq_ok_iff, throw_ne_ok]

theorem mapM_eq_ok_iff {f : α → Except ε β} :
    ∀ {l : List α} {m : List β}, l.mapM f = .ok m ↔ List.Forall₂ (fun a b => f a = .ok b) l m
  | [], m => by
    rw [List.mapM_nil, pure_eq_ok_iff, List.forall₂_nil_left_iff]
    exact eq_comm
  | a :: l, m => by
    simp only [List.mapM_cons, bind_eq_ok_iff, pure_eq_ok_iff, mapM_eq_ok_iff (l := l),
      List.forall₂_cons_left_iff]
    constructor
    · rintro ⟨b, hb, m, hm, rfl⟩
      exact ⟨b, m, hb, hm, rfl⟩
    · rintro ⟨b, m, hb, hm, rfl⟩
      exact ⟨b, hb, m, hm, rfl⟩

/-- Going through a list succeeds exactly when it does for every member, with their results. -/
theorem mapM_eq_ok_iff_filterMap {f : α → Except ε β} : ∀ {l : List α} {m : List β},
    l.mapM f = .ok m
      ↔ (∀ a ∈ l, ∃ b, f a = .ok b) ∧ l.filterMap (fun a => (f a).toOption) = m
  | [], m => by simp [pure_eq_ok_iff]
  | a :: l, m => by
    simp only [List.mapM_cons, bind_eq_ok_iff, pure_eq_ok_iff, mapM_eq_ok_iff_filterMap (l := l),
      List.forall_mem_cons]
    constructor
    · rintro ⟨b, hb, _, ⟨hl, rfl⟩, rfl⟩
      exact ⟨⟨⟨b, hb⟩, hl⟩, by simp [hb, Except.toOption]⟩
    · rintro ⟨⟨⟨b, hb⟩, hl⟩, rfl⟩
      exact ⟨b, hb, _, ⟨hl, rfl⟩, by simp [hb, Except.toOption]⟩

theorem exists_mapM_iff {f : α → Except ε β} {l : List α} :
    (∃ m, l.mapM f = .ok m) ↔ ∀ a ∈ l, ∃ b, f a = .ok b := by
  simp only [mapM_eq_ok_iff_filterMap, exists_and_left, exists_eq', and_true]

theorem exists_bind_pure_iff {x : Except ε α} {f : α → β} :
    (∃ b, (x >>= fun a => pure (f a)) = .ok b) ↔ ∃ a, x = .ok a := by
  cases x <;> simp [bind, Except.bind, pure, Except.pure]

/-- The results of two operations, member by member, are those for the same member. -/
theorem mapM_rel {f : α → Except ε β} {g : α → Except ε γ} : ∀ {l : List α} {m : List β}
    {k : List γ}, l.mapM f = .ok m → l.mapM g = .ok k →
      List.Forall₂ (fun b c => ∃ a, f a = .ok b ∧ g a = .ok c) m k
  | [], m, k, hm, hk => by
    rw [List.mapM_nil, pure_eq_ok_iff] at hm hk
    subst hm hk
    exact .nil
  | a :: l, m, k, hm, hk => by
    simp only [List.mapM_cons, bind_eq_ok_iff, pure_eq_ok_iff] at hm hk
    obtain ⟨b, hb, m, hm, rfl⟩ := hm
    obtain ⟨c, hc, k, hk, rfl⟩ := hk
    exact .cons ⟨a, hb, hc⟩ (mapM_rel hm hk)

theorem mapM_map_results {f : α → Except ε β} {g : β → γ} : ∀ l : List α,
    l.mapM (fun a => g <$> f a) = List.map g <$> l.mapM f
  | [] => rfl
  | a :: l => by
    rw [List.mapM_cons, List.mapM_cons, mapM_map_results l]
    cases f a with
    | error e => rfl
    | ok b => cases l.mapM f <;> rfl

theorem exists_left_of_mem {R : α → β → Prop} {l : List α} {m : List β}
    (h : List.Forall₂ R l m) {b : β} (hb : b ∈ m) : ∃ a ∈ l, R a b := by
  induction h with
  | nil => simp at hb
  | cons hR _ ih =>
    rcases List.mem_cons.1 hb with rfl | hb
    · exact ⟨_, List.mem_cons_self, hR⟩
    · obtain ⟨a, ha, hab⟩ := ih hb
      exact ⟨a, List.mem_cons_of_mem _ ha, hab⟩

theorem exists_right_of_mem {R : α → β → Prop} {l : List α} {m : List β}
    (h : List.Forall₂ R l m) {a : α} (ha : a ∈ l) : ∃ b ∈ m, R a b :=
  exists_left_of_mem h.flip ha

theorem exists_right_of_getElem? {R : α → β → Prop} : ∀ {l : List α} {m : List β} {i : Nat} {a : α},
    List.Forall₂ R l m → l[i]? = some a → ∃ b, m[i]? = some b ∧ R a b
  | _, _, 0, _, .cons h _, ha => ⟨_, rfl, Option.some.inj ha ▸ h⟩
  | _ :: _, _ :: _, i + 1, _, .cons _ h, ha => exists_right_of_getElem? (i := i) h ha

theorem exists_left_of_getElem? {R : α → β → Prop} {l : List α} {m : List β}
    (h : List.Forall₂ R l m) {i : Nat} {b : β} (hb : m[i]? = some b) :
    ∃ a, l[i]? = some a ∧ R a b :=
  exists_right_of_getElem? h.flip hb

theorem forM_eq_ok_iff {f : α → Except ε Unit} {u : Unit} :
    ∀ {l : List α}, l.forM f = .ok u ↔ ∀ a ∈ l, f a = .ok u
  | [] => by simp [List.forM, pure_eq_ok_iff]
  | a :: l => by
    show (f a >>= fun _ => l.forM f) = _ ↔ _
    rw [bind_eq_ok_iff, List.forall_mem_cons]
    constructor
    · rintro ⟨_, ha, hl⟩
      exact ⟨ha, forM_eq_ok_iff.1 hl⟩
    · rintro ⟨ha, hl⟩
      exact ⟨u, ha, forM_eq_ok_iff.2 hl⟩

theorem forIn_eq_ok_iff {f : α → Except ε Unit} {u : Unit} : ∀ {l : List α},
    (forIn l () fun a _ => do f a; pure (.yield ())) = .ok u ↔ ∀ a ∈ l, f a = .ok ()
  | [] => by simp [pure_eq_ok_iff]
  | a :: l => by
    have ih := forIn_eq_ok_iff (f := f) (u := u) (l := l)
    simp only [List.forIn_cons, bind_eq_ok_iff, pure_eq_ok_iff, List.forall_mem_cons]
    constructor
    · rintro ⟨_, ⟨_, ha, rfl⟩, hl⟩
      exact ⟨ha, ih.1 hl⟩
    · rintro ⟨ha, hl⟩
      exact ⟨_, ⟨_, ha, rfl⟩, ih.2 hl⟩

/-- What every step that succeeds carries on to one more member holds of a fold's result. -/
theorem of_foldlM {f : β → α → Except ε β} {P : List α → β → Prop}
    (step : ∀ done b a b', P done b → f b a = .ok b' → P (done ++ [a]) b') :
    ∀ {l done : List α} {b b' : β}, P done b → l.foldlM f b = .ok b' → P (done ++ l) b'
  | [], done, b, b', hb, h => by
    rw [List.foldlM_nil, pure_eq_ok_iff] at h
    simpa [← h] using hb
  | a :: l, done, b, b', hb, h => by
    rw [List.foldlM_cons, bind_eq_ok_iff] at h
    obtain ⟨c, hc, h⟩ := h
    simpa using of_foldlM step (step done b a c hb hc) h

/-- A fold succeeds if every step does and carries on what the next one needs. -/
theorem exists_foldlM {f : β → α → Except ε β} {P : List α → β → Prop} :
    ∀ {l done : List α} {b : β},
      (∀ done b, ∀ a ∈ l, P done b → ∃ b', f b a = .ok b' ∧ P (done ++ [a]) b') → P done b →
        ∃ b', l.foldlM f b = .ok b' ∧ P (done ++ l) b'
  | [], done, b, _, hb => ⟨b, rfl, by simpa using hb⟩
  | a :: l, done, b, step, hb => by
    obtain ⟨c, hc, hP⟩ := step done b a List.mem_cons_self hb
    obtain ⟨b', hb', hP'⟩ :=
      exists_foldlM (fun done b x hx => step done b x (List.mem_cons_of_mem _ hx)) hP
    refine ⟨b', ?_, by simpa using hP'⟩
    rw [List.foldlM_cons, hc]
    exact hb'

theorem exists_foldlM_of_forall {f : β → α → Except ε β} :
    ∀ {l : List α}, (∀ b, ∀ a ∈ l, ∃ b', f b a = .ok b') → ∀ b, ∃ b', l.foldlM f b = .ok b'
  | [], _, b => ⟨b, rfl⟩
  | a :: l, h, b => by
    obtain ⟨c, hc⟩ := h b a List.mem_cons_self
    obtain ⟨b', hb'⟩ :=
      exists_foldlM_of_forall (fun b x hx => h b x (List.mem_cons_of_mem _ hx)) c
    refine ⟨b', ?_⟩
    rw [List.foldlM_cons, hc]
    exact hb'

/-- A fold goes on to succeed, with the same result, if its steps do. -/
theorem foldlM_eq_ok_of_imp {f g : β → α → Except ε β}
    (h : ∀ b a c, f b a = .ok c → g b a = .ok c) :
    ∀ {l : List α} {b c : β}, l.foldlM f b = .ok c → l.foldlM g b = .ok c
  | [], _, _, hc => hc
  | a :: l, b, c, hc => by
    rw [List.foldlM_cons, bind_eq_ok_iff] at hc ⊢
    obtain ⟨d, hd, hc⟩ := hc
    exact ⟨d, h b a d hd, foldlM_eq_ok_of_imp h hc⟩

/-- A fold fails where one of its steps does after those before it have succeeded. -/
theorem foldlM_eq_error_iff {f : β → α → Except ε β} {e : ε} : ∀ {l : List α} {b : β},
    l.foldlM f b = .error e
      ↔ ∃ done a rest c, l = done ++ a :: rest ∧ done.foldlM f b = .ok c ∧ f c a = .error e
  | [], b => by
    rw [List.foldlM_nil]
    simp [pure, Except.pure]
  | x :: l, b => by
    rw [List.foldlM_cons, bind_eq_error_iff]
    constructor
    · rintro (hx | ⟨d, hd, hl⟩)
      · exact ⟨[], x, l, b, rfl, rfl, hx⟩
      · obtain ⟨done, a, rest, c, rfl, hc, he⟩ := foldlM_eq_error_iff.1 hl
        refine ⟨x :: done, a, rest, c, rfl, ?_, he⟩
        rw [List.foldlM_cons, hd]
        exact hc
    · rintro ⟨_ | ⟨y, done⟩, a, rest, c, hl, hc, he⟩
      · obtain ⟨rfl, -⟩ := List.cons.inj hl
        rw [List.foldlM_nil, pure_eq_ok_iff] at hc
        exact .inl (hc ▸ he)
      · obtain ⟨rfl, rfl⟩ := List.cons.inj hl
        rw [List.foldlM_cons, bind_eq_ok_iff] at hc
        obtain ⟨d, hd, hc⟩ := hc
        exact .inr ⟨d, hd, foldlM_eq_error_iff.2 ⟨done, a, rest, c, rfl, hc, he⟩⟩

section Errors

/-- The error of an operation that fails. -/
def error? : Except ε α → Option ε
  | .ok _ => none
  | .error e => some e

theorem error?_eq_some_iff {x : Except ε α} {e : ε} : error? x = some e ↔ x = .error e := by
  cases x <;> simp [error?]

theorem error?_eq_none_iff {x : Except ε α} : error? x = none ↔ ∃ a, x = .ok a := by
  cases x <;> simp [error?]

theorem error?_bind_pure {x : Except ε α} {f : α → β} :
    error? (x >>= fun a => pure (f a)) = error? x := by
  cases x <;> rfl

theorem error?_mapM {f : α → Except ε β} :
    ∀ l : List α, error? (l.mapM f) = l.findSome? fun a => error? (f a)
  | [] => rfl
  | a :: l => by
    rw [List.mapM_cons, List.findSome?_cons]
    cases f a with
    | error e => rfl
    | ok b => exact error?_bind_pure.trans (error?_mapM l)

theorem error?_forM {f : α → Except ε Unit} :
    ∀ l : List α, error? (l.forM f) = l.findSome? fun a => error? (f a)
  | [] => rfl
  | a :: l => by
    rw [List.findSome?_cons]
    show error? (f a >>= fun _ => l.forM f) = _
    cases f a with
    | error e => rfl
    | ok _ => exact error?_forM l

theorem findSome?_flatMap (g : α → List β) (f : β → Option γ) :
    ∀ l : List α, (l.flatMap g).findSome? f = l.findSome? fun a => (g a).findSome? f
  | [] => rfl
  | a :: l => by
    rw [List.flatMap_cons, List.findSome?_append, List.findSome?_cons, findSome?_flatMap g f l]
    cases (g a).findSome? f <;> rfl

theorem exists_of_mapM_error {f : α → Except ε β} {l : List α} {e : ε} (h : l.mapM f = .error e) :
    ∃ a ∈ l, f a = .error e := by
  rw [← error?_eq_some_iff, error?_mapM] at h
  obtain ⟨a, ha, hfa⟩ := List.exists_of_findSome?_eq_some h
  exact ⟨a, ha, error?_eq_some_iff.1 hfa⟩

/-- The errors of a fold whose steps fail on account of the member alone. -/
theorem error?_foldlM {f : β → α → Except ε β} {fault : α → Option ε}
    (h : ∀ b a, error? (f b a) = fault a) :
    ∀ (l : List α) (b : β), error? (l.foldlM f b) = l.findSome? fault
  | [], _ => rfl
  | a :: l, b => by
    rw [List.foldlM_cons, List.findSome?_cons, ← h b a]
    cases f b a with
    | error e => rfl
    | ok c => exact error?_foldlM h l c

end Errors

end Cohort
