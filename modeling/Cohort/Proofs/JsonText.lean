import Cohort.Json.Stored
import Mathlib.Data.List.Forall2
import Mathlib.Data.List.TakeWhile
import Mathlib.Tactic.Choose

/-!
# JSON written and read again

What is written for a value is read as that value wherever it stands, as long as no letter or digit
follows it (`Json.Denotes`). So a type's values are read back from what is written for them once
reading takes the JSON for them (`Stored.Faithful`), which masks and maps by number pass on to what
they are parts of.
-/

namespace Cohort

namespace Json

/-- The characters of a string, as written between its quotes. -/
def escapeText (s : String) : List Char := s.toList.flatMap escape

section Strings

variable {c : Char}

theorem hexDigit?_hexDigit {n : Nat} (h : n < 16) : hexDigit? (hexDigit n) = some n := by
  have hall : ∀ d : Fin 16, hexDigit? (hexDigit d) = some d.val := by decide
  exact hall ⟨n, h⟩

theorem unit?_hexDigit (h : c < ' ') :
    unit? '0' '0' (hexDigit (c.toNat / 16)) (hexDigit (c.toNat % 16)) = some c.toNat := by
  have hlt : c.toNat < 32 := h
  have hzero : hexDigit? '0' = some 0 := by decide
  unfold unit?
  rw [hexDigit?_hexDigit (by omega), hexDigit?_hexDigit (by omega), hzero]
  exact congrArg some (by omega)

/-- A character is written by a letter, by its number or as it is. -/
theorem escape_cases (c : Char) : (∃ e, e ≠ 'u' ∧ escape c = ['\\', e] ∧ escaped? e = some c)
    ∨ (c < ' '
      ∧ escape c = ['\\', 'u', '0', '0', hexDigit (c.toNat / 16), hexDigit (c.toNat % 16)])
    ∨ (escape c = [c] ∧ c ≠ '"' ∧ c ≠ '\\' ∧ ¬c < ' ') := by
  unfold escape
  split_ifs with h₁ h₂ h₃ h₄ h₅ h₆ h₇ h₈
  case pos | pos | pos | pos | pos | pos | pos =>
    subst c
    exact .inl ⟨_, by decide, rfl, rfl⟩
  · exact .inr (.inl ⟨h₈, rfl⟩)
  · exact .inr (.inr ⟨rfl, h₁, h₂, h₈⟩)

theorem upToQuote_escape (c : Char) (cs : List Char) :
    upToQuote (escape c ++ cs) = (upToQuote cs).map fun p => (escape c ++ p.1, p.2) := by
  rcases escape_cases c with ⟨e, hu, he, hc⟩ | ⟨hc, he⟩ | ⟨he, hquote, hback, hblank⟩
  · rw [he, List.cons_append, List.singleton_append, upToQuote]
    · simp [hc]
    · rintro _ _ _ _ _ rfl
      exact absurd rfl hu
  · rw [he]
    simp [upToQuote, unit?_hexDigit hc]
  · rw [he, List.singleton_append, upToQuote]
    · simp [hback, hblank]
    · exact hquote
    · exact fun _ _ _ _ _ h => absurd h hback
    · exact fun _ _ h => absurd h hback

theorem unescape_escape (c : Char) (cs : List Char) :
    unescape (escape c ++ cs) = (unescape cs).map (c :: ·) := by
  rcases escape_cases c with ⟨e, hu, he, hc⟩ | ⟨hc, he⟩ | ⟨he, hquote, hback, hblank⟩
  · rw [he, List.cons_append, List.singleton_append, unescape]
    · simp [hc]
    · rintro _ _ _ _ _ rfl
      exact absurd rfl hu
  · have hlt : c.toNat < 32 := hc
    have hlead : isLeading c.toNat = false := by simp [isLeading]; omega
    have htrail : isTrailing c.toNat = false := by simp [isTrailing]; omega
    rw [he]
    simp [unescape, unit?_hexDigit hc, hlead, htrail]
  · rw [he, List.singleton_append, unescape]
    · exact fun _ _ _ _ _ h => absurd h hback
    · exact fun _ _ h => absurd h hback

theorem upToQuote_escapeText (s : String) (cs : List Char) :
    upToQuote (escapeText s ++ '"' :: cs) = some (escapeText s, cs) := by
  unfold escapeText
  induction s.toList with
  | nil => rfl
  | cons c l ih => rw [List.flatMap_cons, List.append_assoc, upToQuote_escape, ih, Option.map_some]

theorem unescape_escapeText (s : String) : unescape (escapeText s) = some s.toList := by
  unfold escapeText
  induction s.toList with
  | nil => rfl
  | cons c l ih => rw [List.flatMap_cons, unescape_escape, ih, Option.map_some]

end Strings

section Numbers

theorem isDigit_of_mem_writeNat {n : Nat} {c : Char} (h : c ∈ writeNat n) : c.isDigit = true :=
  Nat.isDigit_of_mem_toDigits (by decide) (by decide) h

/-- A number is written without a leading zero. -/
theorem writeNat_of_pos (n : Nat) (h : 0 < n) :
    ∃ c cs, writeNat n = c :: cs ∧ '1' ≤ c ∧ c ≤ '9' := by
  unfold writeNat
  rw [Nat.toDigits_eq_if (by decide)]
  split
  · next hlt =>
    have hall : ∀ d : Fin 10, 0 < d.val → '1' ≤ d.val.digitChar ∧ d.val.digitChar ≤ '9' := by
      decide
    exact ⟨_, [], rfl, hall ⟨n, hlt⟩ h⟩
  · obtain ⟨c, cs, hc, hrange⟩ := writeNat_of_pos (n / 10) (by omega)
    unfold writeNat at hc
    exact ⟨c, cs ++ [(n % 10).digitChar], by rw [hc, List.cons_append], hrange⟩

theorem wholeNumber?_writeNat (n : Nat) : wholeNumber? (writeNat n) = some n := by
  obtain rfl | h := Nat.eq_zero_or_pos n
  · rfl
  obtain ⟨c, cs, hn, hrange⟩ := writeNat_of_pos n h
  have hdigits : cs.all Char.isDigit = true :=
    List.all_eq_true.2 fun d hd => isDigit_of_mem_writeNat (hn ▸ List.mem_cons_of_mem c hd)
  have hvalue : (writeNat n).foldl (fun n d => 10 * n + (d.toNat - 48)) 0 = n :=
    Nat.ofDigitChars_ten_toDigits
  rw [hn] at hvalue ⊢
  rw [wholeNumber?, if_pos ⟨hrange.1, hrange.2, hdigits⟩, hvalue]
  rintro rfl
  exact absurd hrange.1 (by decide)

theorem isNumber_writeNat (n : Nat) : isNumber (writeNat n) = true := by
  obtain rfl | h := Nat.eq_zero_or_pos n
  · rfl
  obtain ⟨c, cs, hn, hrange⟩ := writeNat_of_pos n h
  have hdigit : ∀ d ∈ c :: cs, d.isDigit = true := fun d hd => isDigit_of_mem_writeNat (hn ▸ hd)
  obtain ⟨hc, hcs⟩ := List.forall_mem_cons.1 hdigit
  have hwhole : afterWhole? (c :: cs) = some [] := by
    have hdrop : cs.dropWhile Char.isDigit = [] := List.dropWhile_eq_nil_iff.2 hcs
    rw [afterWhole?, afterDigits?, if_pos hc, hdrop]
    rintro _ ⟨⟩
    exact absurd hrange.1 (by decide)
  unfold isNumber
  rw [hn]
  split
  · next hminus =>
    obtain rfl := (List.cons.inj hminus).1
    exact absurd hc (by decide)
  · show (((afterWhole? (c :: cs)).bind afterFraction?).bind afterExponent? == some []) = true
    rw [hwhole]
    rfl

theorem scalar?_writeNat (n : Nat) : scalar? (writeNat n) = some (.number (writeNat n)) := by
  have hword : ∀ w : List Char, (∃ c ∈ w, c.isDigit = false) → writeNat n ≠ w := by
    rintro w ⟨c, hc, hd⟩ rfl
    rw [isDigit_of_mem_writeNat hc] at hd
    exact nomatch hd
  unfold scalar?
  rw [if_neg (hword _ ⟨'n', by decide, rfl⟩), if_neg (hword _ ⟨'t', by decide, rfl⟩),
    if_neg (hword _ ⟨'f', by decide, rfl⟩), if_pos (isNumber_writeNat n)]

end Numbers

section Tokens

/-- What a number can stand before. -/
def Ends (cs : List Char) : Prop := ∀ c, cs.head? = some c → isScalarChar c = false

/-- A text that is cut into certain tokens wherever it stands. -/
def Lexes (cs : List Char) (ts : List Token) : Prop :=
  ∀ rest, Ends rest → tokens? (cs ++ rest) = (tokens? rest).map (ts ++ ·)

variable {c : Char} {t : Token} {cs ds : List Char} {ts us : List Token}

theorem Token.ofSign?_eq_some (h : ofSign? c = some t) :
    isSpace c = false ∧ c ≠ '"' ∧ isScalarChar c = false := by
  unfold ofSign? at h
  split at h
  all_goals first | decide | exact absurd h nofun

theorem ends_cons (h : isScalarChar c = false) : Ends (c :: cs) := by
  rintro _ ⟨⟩
  exact h

theorem Ends.append (hc : Ends cs) (hd : Ends ds) : Ends (cs ++ ds) := by
  cases cs with
  | nil => exact hd
  | cons c cs => exact ends_cons (hc c rfl)

theorem tokens?_nil : tokens? [] = some [] := by
  rw [tokens?]

theorem lexes_nil : Lexes [] [] := by
  intro rest _
  exact Option.map_id'.symm

theorem tokens?_sign (h : Token.ofSign? c = some t) (cs : List Char) :
    tokens? (c :: cs) = (tokens? cs).map (t :: ·) := by
  obtain ⟨hspace, hquote, -⟩ := Token.ofSign?_eq_some h
  rw [tokens?, hspace, h]
  simp [hquote]

theorem Lexes.sign (hd : Lexes ds us) (h : Token.ofSign? c = some t) :
    Lexes (c :: ds) (t :: us) := by
  intro rest hr
  rw [List.cons_append, tokens?_sign h, hd rest hr, Option.map_map]
  rfl

theorem Lexes.append (hc : Lexes cs ts) (hd : Lexes ds us) (he : Ends ds) :
    Lexes (cs ++ ds) (ts ++ us) := by
  intro rest hr
  rw [List.append_assoc, hc _ (he.append hr), hd rest hr, Option.map_map]
  refine congrArg (Option.map · _) (funext fun l => ?_)
  exact (List.append_assoc ts us l).symm

theorem lexes_quote (s : String) : Lexes (quote s) [.string (escapeText s)] := by
  intro rest _
  have hquote : quote s ++ rest = '"' :: (escapeText s ++ '"' :: rest) := by
    unfold quote escapeText
    simp
  rw [hquote, tokens?, if_neg (by decide), if_pos rfl, upToQuote_escapeText s rest]
  rfl

theorem starts_of_isDigit (h : c.isDigit = true) :
    isSpace c = false ∧ c ≠ '"' ∧ Token.ofSign? c = none := by
  refine ⟨?_, ?_, ?_⟩
  · refine Bool.eq_false_iff.2 fun hspace => ?_
    simp only [isSpace, Bool.or_eq_true, beq_iff_eq] at hspace
    rcases hspace with ((rfl | rfl) | rfl) | rfl <;> exact absurd h (by decide)
  · rintro rfl
    exact absurd h (by decide)
  · unfold Token.ofSign?
    split <;> first | rfl | exact absurd h (by decide)

theorem isScalarChar_of_isDigit (h : c.isDigit = true) : isScalarChar c = true := by
  unfold isScalarChar isNumberChar
  simp [h]

/-- A word or a number is cut off whole. -/
theorem lexes_scalar {v : Json} (hc : isSpace c = false ∧ c ≠ '"' ∧ Token.ofSign? c = none)
    (hcs : ∀ d ∈ cs, isScalarChar d = true) (hv : scalar? (c :: cs) = some v) :
    Lexes (c :: cs) [.scalar v] := by
  intro rest hr
  obtain ⟨hspace, hquote, hsign⟩ := hc
  have hrest : rest.takeWhile isScalarChar = [] ∧ rest.dropWhile isScalarChar = rest := by
    cases rest with
    | nil => exact ⟨rfl, rfl⟩
    | cons d ds => simp [hr d rfl]
  have htake : (cs ++ rest).takeWhile isScalarChar = cs := by
    rw [List.takeWhile_append_of_pos hcs, hrest.1, List.append_nil]
  have hdrop : (cs ++ rest).dropWhile isScalarChar = rest := by
    rw [List.dropWhile_append_of_pos hcs, hrest.2]
  rw [List.cons_append, tokens?, hspace, hsign]
  simp [hquote, htake, hdrop, hv]

theorem lexes_writeNat (n : Nat) : Lexes (writeNat n) [.scalar (.number (writeNat n))] := by
  have hscalar := scalar?_writeNat n
  obtain ⟨c, cs, hn⟩ := List.exists_cons_of_ne_nil (Nat.toDigits_ne_nil (n := n) (b := 10))
  have hdigit : ∀ d ∈ c :: cs, d.isDigit = true := fun d hd => isDigit_of_mem_writeNat (hn ▸ hd)
  obtain ⟨hc, hcs⟩ := List.forall_mem_cons.1 hdigit
  change writeNat n = c :: cs at hn
  rw [hn] at hscalar ⊢
  exact lexes_scalar (starts_of_isDigit hc) (fun d hd => isScalarChar_of_isDigit (hcs d hd)) hscalar

/-- Texts that are cut into tokens are so when commas join them. -/
theorem lexes_intercalate : ∀ {items : List (List Char)} {tss : List (List Token)},
    List.Forall₂ Lexes items tss →
      Lexes (List.intercalate [','] items) (List.intercalate [.comma] tss)
  | _, _, .nil => lexes_nil
  | _, _, .cons h .nil => by simpa using h
  | _, _, .cons h (.cons h' hs) => by
    rw [List.intercalate_cons_cons, List.intercalate_cons_cons, List.append_assoc,
      List.append_assoc]
    exact h.append ((lexes_intercalate (.cons h' hs)).sign rfl) (ends_cons rfl)

end Tokens

section Values

/-- Tokens that the reader takes for a value, where a value has to come. -/
def Gives (ts : List Token) (v : Json) : Prop :=
  ∀ opened fs, ts.foldlM State.step (.value opened fs) = some (.after v fs)

/-- A text that is read as a value wherever it stands. -/
def Denotes (cs : List Char) (v : Json) : Prop := ∃ ts, Lexes cs ts ∧ Gives ts v

theorem read?_of_denotes {cs : List Char} {v : Json} (h : Denotes cs v) : read? cs = some v := by
  obtain ⟨ts, hlex, hgives⟩ := h
  have htokens : tokens? cs = some ts := by
    have := hlex [] nofun
    rwa [List.append_nil, tokens?_nil, Option.map_some, List.append_nil] at this
  unfold read?
  rw [htokens]
  show (ts.foldlM State.step (.value false []) >>= State.finish?) = _
  rw [hgives]
  rfl

theorem denotes_writeNat (n : Nat) : Denotes (writeNat n) (.number (writeNat n)) :=
  ⟨_, lexes_writeNat n, fun _ _ => rfl⟩

theorem denotes_quote (s : String) : Denotes (quote s) (.string (escapeText s)) :=
  ⟨_, lexes_quote s, fun _ _ => rfl⟩

theorem denotes_null : Denotes ['n', 'u', 'l', 'l'] .null :=
  ⟨_, lexes_scalar (by decide) (List.all_eq_true.1 (by decide)) rfl, fun _ _ => rfl⟩

/-- The reader takes values, joined by commas, and the sign that ends the array. -/
theorem gives_items : ∀ {tss : List (List Token)} {vs : List Json}, List.Forall₂ Gives tss vs →
    vs ≠ [] → ∀ opened done fs,
      (List.intercalate [Token.comma] tss ++ [Token.closeArray]).foldlM State.step
          (.value opened (.array done :: fs))
        = some (.after (.array (done.reverse ++ vs)) fs)
  | _, _, .cons (a := ts) h .nil, _, opened, done, fs => by
    rw [List.intercalate_singleton, List.foldlM_append]
    show (ts.foldlM State.step _ >>= _) = _
    rw [h]
    simp [State.step]
  | _, _, .cons (a := ts) h (.cons h' hs), _, opened, done, fs => by
    rw [List.intercalate_cons_cons, List.append_assoc, List.append_assoc, List.foldlM_append]
    show (ts.foldlM State.step _ >>= _) = _
    rw [h]
    refine (gives_items (.cons h' hs) (List.cons_ne_nil _ _) false (_ :: done) fs).trans ?_
    rw [List.reverse_cons, List.append_assoc, List.singleton_append]

theorem denotes_writeArray {items : List (List Char)} {values : List Json}
    (h : List.Forall₂ Denotes items values) : Denotes (writeArray items) (.array values) := by
  have hitems : ∃ tss, List.Forall₂ Lexes items tss ∧ List.Forall₂ Gives tss values := by
    induction h with
    | nil => exact ⟨[], .nil, .nil⟩
    | cons hv _ ih =>
      obtain ⟨ts, hlex, hgives⟩ := hv
      obtain ⟨tss, hlexes, hvalues⟩ := ih
      exact ⟨ts :: tss, .cons hlex hlexes, .cons hgives hvalues⟩
  obtain ⟨tss, hlexes, hvalues⟩ := hitems
  refine ⟨.openArray :: (List.intercalate [.comma] tss ++ [.closeArray]), ?_, fun opened fs => ?_⟩
  · exact ((lexes_intercalate hlexes).append (lexes_nil.sign rfl) (ends_cons rfl)).sign rfl
  · cases hvalues with
    | nil => rfl
    | cons hv hvs => exact gives_items (.cons hv hvs) (List.cons_ne_nil _ _) true [] fs

/-- The reader takes named values, joined by commas, and the sign that ends the object. -/
theorem gives_members : ∀ {tss : List (List Token)} {members : List (List Char × Json)},
    List.Forall₂ (fun ts m => ∃ us, ts = .string m.1 :: .colon :: us ∧ Gives us m.2) tss members →
      members ≠ [] → ∀ opened done fs,
        (List.intercalate [Token.comma] tss ++ [Token.closeObject]).foldlM State.step
            (.name opened done fs)
          = some (.after (.object (done.reverse ++ members)) fs)
  | _, _, .cons ⟨us, rfl, h⟩ .nil, _, opened, done, fs => by
    rw [List.intercalate_singleton, List.foldlM_append]
    show (us.foldlM State.step _ >>= _) = _
    rw [h]
    simp [State.step]
  | _, _, .cons ⟨us, rfl, h⟩ (.cons h' hs), _, opened, done, fs => by
    rw [List.intercalate_cons_cons, List.append_assoc, List.append_assoc, List.foldlM_append]
    show (us.foldlM State.step _ >>= _) = _
    rw [h]
    refine (gives_members (.cons h' hs) (List.cons_ne_nil _ _) false (_ :: done) fs).trans ?_
    rw [List.reverse_cons, List.append_assoc, List.singleton_append]

theorem denotes_writeObject {members : List (String × List Char)} {values : List (List Char × Json)}
    (h : List.Forall₂ (fun m v => escapeText m.1 = v.1 ∧ Denotes m.2 v.2) members values) :
    Denotes (writeObject members) (.object values) := by
  have hmembers : ∃ tss, List.Forall₂ Lexes (members.map fun m => quote m.1 ++ ':' :: m.2) tss
      ∧ List.Forall₂ (fun ts v => ∃ us, ts = Token.string v.1 :: .colon :: us ∧ Gives us v.2)
        tss values := by
    induction h with
    | nil => exact ⟨[], .nil, .nil⟩
    | cons hm _ ih =>
      obtain ⟨hname, us, hlex, hgives⟩ := hm
      obtain ⟨tss, hlexes, hvalues⟩ := ih
      exact ⟨_, .cons ((lexes_quote _).append (hlex.sign rfl) (ends_cons rfl)) hlexes,
        .cons ⟨us, hname ▸ rfl, hgives⟩ hvalues⟩
  obtain ⟨tss, hlexes, hvalues⟩ := hmembers
  refine ⟨.openObject :: (List.intercalate [.comma] tss ++ [.closeObject]), ?_, fun opened fs => ?_⟩
  · exact ((lexes_intercalate hlexes).append (lexes_nil.sign rfl) (ends_cons rfl)).sign rfl
  · cases hvalues with
    | nil => rfl
    | cons hv hvs => exact gives_members (.cons hv hvs) (List.cons_ne_nil _ _) true [] fs

end Values

section Records

theorem mapM_map_eq_some {α β γ : Type} {f : β → Option γ} {g : α → β} {h : α → γ} :
    ∀ {l : List α}, (∀ a ∈ l, f (g a) = some (h a)) → (l.map g).mapM f = some (l.map h)
  | [], _ => rfl
  | a :: l, hl => by
    obtain ⟨ha, hl⟩ := List.forall_mem_cons.1 hl
    rw [List.map_cons, List.mapM_cons, ha, mapM_map_eq_some hl]
    rfl

theorem filter_name : ∀ {members : List (String × Json)}, (members.map (·.1)).Nodup →
    ∀ m ∈ members, (members.filter fun n => n.1 = m.1) = [m]
  | a :: l, hn, m, hm => by
    rw [List.map_cons, List.nodup_cons] at hn
    rcases List.mem_cons.1 hm with rfl | hm
    · have hrest : (l.filter fun n => n.1 = m.1) = [] := by
        refine List.filter_eq_nil_iff.2 fun n hmem => ?_
        rw [decide_eq_true_eq]
        exact fun he => hn.1 (he ▸ List.mem_map_of_mem hmem)
      rw [List.filter_cons_of_pos (by simp), hrest]
    · have hne : ¬a.1 = m.1 := fun he => hn.1 (he ▸ List.mem_map_of_mem hm)
      rw [List.filter_cons_of_neg (by simpa using hne), filter_name hn.2 m hm]

theorem memberOnce?_of_mem {members : List (String × Json)} (hn : (members.map (·.1)).Nodup) :
    ∀ m ∈ members, memberOnce? members m.1 = some (some m.2) := by
  intro m hm
  unfold memberOnce?
  rw [filter_name hn m hm]

/-- An object of different names has the fields that it is made of. -/
theorem fields?_object {members : List (String × Json)} (h : (members.map (·.1)).Nodup) :
    fields? (members.map (·.1)) (.object (members.map fun m => (escapeText m.1, m.2)))
      = some (members.map fun m => some m.2) := by
  have hnames : (members.map fun m => (escapeText m.1, m.2)).mapM
      (fun m => do return (String.ofList (← unescape m.1), m.2)) = some (members.map id) := by
    refine mapM_map_eq_some fun m _ => ?_
    rw [unescape_escapeText]
    simp
  show (List.mapM _ (members.map _) >>= fun known => (members.map _).mapM (memberOnce? known)) = _
  rw [hnames, List.map_id]
  exact mapM_map_eq_some (memberOnce?_of_mem h)

theorem escape_of_isDigit {c : Char} (h : c.isDigit = true) : escape c = [c] := by
  have hblank : ¬c < ' ' := by
    simp only [Char.isDigit, Bool.and_eq_true, decide_eq_true_eq, ge_iff_le] at h
    exact fun hlt => absurd (UInt32.lt_of_le_of_lt h.1 hlt) (by decide)
  unfold escape
  split_ifs
  case pos | pos | pos | pos | pos | pos | pos =>
    subst c
    exact absurd h (by decide)
  rfl

theorem escapeText_repr (n : Nat) : escapeText n.repr = writeNat n := by
  have hdigits : ∀ c ∈ writeNat n, escape c = [c] :=
    fun c hc => escape_of_isDigit (isDigit_of_mem_writeNat hc)
  unfold escapeText
  rw [Nat.repr_eq_ofList_toDigits, String.toList_ofList]
  exact (List.flatMap_congr hdigits).trans (List.flatMap_singleton' _)

theorem boundedBy_writeNat {bound n : Nat} (h : n < bound) :
    boundedBy bound (writeNat n) = some n := by
  unfold boundedBy
  rw [wholeNumber?_writeNat]
  simp [h]

end Records

end Json

namespace Stored

open Json

/-- What is written for any value of a type is JSON that is read as this value. -/
def Faithful (α : Type) [Stored α] : Prop := ∀ a : α, ∃ v, Denotes (write a) v ∧ read? v = some a

theorem faithful_mask : Faithful Mask := by
  intro m
  have hlt : m.toNat < bound64 := m.isLt
  refine ⟨_, denotes_writeNat m.toNat, ?_⟩
  show (boundedBy bound64 (writeNat m.toNat)).map (BitVec.ofNat 64) = some m
  rw [boundedBy_writeNat hlt]
  simp

theorem faithful_sortedMap {α : Type} [Stored α] (h : Faithful α) :
    Faithful (SortedMap UInt32 α) := by
  choose json hdenotes hread using h
  intro m
  refine ⟨.object (m.entries.map fun e => (escapeText e.1.toNat.repr, json e.2)), ?_, ?_⟩
  · refine denotes_writeObject ?_
    rw [List.forall₂_map_left_iff, List.forall₂_map_right_iff, List.forall₂_same]
    exact fun e _ => ⟨rfl, hdenotes e.2⟩
  · -- names are digits, which are written as they are
    have hentries : entries? bound32 (read? (α := α))
        (.object (m.entries.map fun e => (escapeText e.1.toNat.repr, json e.2)))
          = some (m.entries.map fun e => (e.1.toNat, e.2)) := by
      refine mapM_map_eq_some fun e _ => ?_
      have hlt : e.1.toNat < bound32 := e.1.toNat_lt
      rw [escapeText_repr, boundedBy_writeNat hlt, hread]
      rfl
    show (entries? bound32 read? _ >>= _) = _
    rw [hentries]
    show some (SortedMap.ofList _) = _
    rw [List.map_map, List.map_congr_left (g := id), List.map_id, SortedMap.ofList_entries]
    simp

end Stored

end Cohort
