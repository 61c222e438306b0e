import Cohort.Key
import Cohort.Proofs.Outcome
import Mathlib.Logic.Function.Basic

/-!
# Keys written and read again

Form encoding leaves letters, digits and five signs only, so the commas and the first equals sign of
a key's text stand where its pairs part. A byte is read back from its own characters, whatever
follows them (`Text.formBytes_encodeByte`), and what was encoded is UTF-8, so a key is what is read
from its text (`Key.text_round_trip`).
-/

namespace Cohort

namespace Text

/-- The characters of form encoding. -/
def isFormChar (c : Char) : Bool := c.isAlphanum || ['_', '.', '-', '+', '%'].contains c

theorem hexValue?_hexDigit {n : Nat} (h : n < 16) : hexValue? (hexDigit n) = some n := by
  have hall : ∀ d : Fin 16, hexValue? (hexDigit d) = some d.val := by decide
  exact hall ⟨n, h⟩

theorem isAlphanum_hexDigit {n : Nat} (h : n < 16) : (hexDigit n).isAlphanum = true := by
  have hall : ∀ d : Fin 16, (hexDigit d).isAlphanum = true := by decide
  exact hall ⟨n, h⟩

theorem isUnreserved_iff {b : UInt8} : isUnreserved b = true
    ↔ ((Char.ofNat b.toNat).isAlphanum = true ∧ b.toNat < 128)
      ∨ b = 0x5F ∨ b = 0x2E ∨ b = 0x2D := by
  unfold isUnreserved
  simp [UInt8.lt_iff_toNat_lt, or_assoc]

theorem isFormChar_of_mem_encodeByte {b : UInt8} {c : Char} (h : c ∈ encodeByte b) :
    isFormChar c = true := by
  have hb : b.toNat < 256 := b.toNat_lt
  unfold isFormChar
  unfold encodeByte at h
  split at h
  · next hu =>
    obtain rfl := List.mem_singleton.1 h
    rcases isUnreserved_iff.1 hu with ⟨hc, -⟩ | rfl | rfl | rfl
    · rw [hc, Bool.true_or]
    all_goals decide
  split at h
  · obtain rfl := List.mem_singleton.1 h
    decide
  · simp only [List.mem_cons, List.not_mem_nil, or_false] at h
    rcases h with rfl | rfl | rfl
    · decide
    all_goals rw [isAlphanum_hexDigit (by omega), Bool.true_or]

theorem isFormChar_of_mem_encodeForm {s : List Char} {c : Char} (h : c ∈ encodeForm s) :
    isFormChar c = true := by
  obtain ⟨b, -, hc⟩ := List.mem_flatMap.1 h
  exact isFormChar_of_mem_encodeByte hc

/-- An unreserved byte is that of an ASCII character which stands for itself. -/
theorem unreserved_char {b : UInt8} (h : isUnreserved b = true) :
    String.utf8EncodeChar (Char.ofNat b.toNat) = [b] ∧ Char.ofNat b.toNat ≠ '%'
      ∧ Char.ofNat b.toNat ≠ '+' := by
  rcases isUnreserved_iff.1 h with ⟨hc, hb⟩ | rfl | rfl | rfl
  · have hvalid : b.toNat.isValidChar := .inl (by omega)
    have hnat : (Char.ofNat b.toNat).val.toNat = b.toNat := by
      unfold Char.ofNat
      rw [dif_pos hvalid]
      rfl
    refine ⟨?_, ?_, ?_⟩
    · unfold String.utf8EncodeChar
      simp only [hnat]
      rw [if_pos (by omega), UInt8.ofNat_toNat]
    all_goals
      intro he
      rw [he] at hc
      exact absurd hc (by decide)
  all_goals decide

theorem formBytes_cons {c : Char} (h : c ≠ '%') (h' : c ≠ '+') (cs : List Char) :
    formBytes (c :: cs) = String.utf8EncodeChar c ++ formBytes cs := by
  rw [formBytes]
  · exact fun _ _ _ he => absurd he h
  · exact h'

/-- A byte is read back from its own characters, whatever follows. -/
theorem formBytes_encodeByte (b : UInt8) (cs : List Char) :
    formBytes (encodeByte b ++ cs) = b :: formBytes cs := by
  have hb : b.toNat < 256 := b.toNat_lt
  unfold encodeByte
  split
  · next hu =>
    obtain ⟨hbyte, hpercent, hplus⟩ := unreserved_char hu
    rw [List.singleton_append, formBytes_cons hpercent hplus, hbyte, List.singleton_append]
  split
  · next hs =>
    subst hs
    rw [List.singleton_append, formBytes]
  · show formBytes ('%' :: hexDigit (b.toNat / 16) :: hexDigit (b.toNat % 16) :: cs) = _
    rw [formBytes, hexValue?_hexDigit (by omega), hexValue?_hexDigit (by omega)]
    simp only []
    rw [show 16 * (b.toNat / 16) + b.toNat % 16 = b.toNat by omega, UInt8.ofNat_toNat]

theorem formBytes_flatMap_encodeByte : ∀ bs : List UInt8, formBytes (bs.flatMap encodeByte) = bs
  | [] => by simp [formBytes]
  | b :: bs => by
    rw [List.flatMap_cons, formBytes_encodeByte, formBytes_flatMap_encodeByte bs]

theorem decodeUtf8_utf8EncodeChar (s : List Char) :
    decodeUtf8 (s.flatMap String.utf8EncodeChar) = .ok (String.ofList s) := by
  have hs : String.fromUTF8? (s.flatMap String.utf8EncodeChar).toByteArray
      = some (String.ofList s) := dif_pos ⟨s, rfl⟩
  unfold decodeUtf8
  rw [hs]

theorem decodeForm_encodeForm (s : List Char) :
    decodeForm (encodeForm s) = .ok (String.ofList s) := by
  unfold decodeForm encodeForm
  rw [formBytes_flatMap_encodeByte, decodeUtf8_utf8EncodeChar]

end Text

namespace Key

open Text

/-- The characters of keys' texts: those of form encoding, the equals sign and the comma. -/
def isTextChar (c : Char) : Bool := isFormChar c || c == '=' || c == ','

variable {p : String × String}

theorem readPart_encodeForm (s : String) : readPart (encodeForm s.toList) = .ok s := by
  unfold readPart
  rw [decodeForm_encodeForm, String.ofList_toList]
  rfl

theorem readPair_renderPair (p : String × String) : readPair (renderPair p) = .ok p := by
  have hsign : '=' ∉ encodeForm p.1.toList := fun h =>
    absurd (isFormChar_of_mem_encodeForm h) (by decide)
  unfold readPair renderPair
  rw [cut_append hsign]
  simp only [readPart_encodeForm]
  rfl

theorem mem_renderPair {c : Char} (h : c ∈ renderPair p) : c = '=' ∨ isFormChar c = true := by
  unfold renderPair at h
  rcases List.mem_append.1 h with h | h
  · exact .inr (isFormChar_of_mem_encodeForm h)
  · exact (List.mem_cons.1 h).imp id isFormChar_of_mem_encodeForm

theorem comma_not_mem_renderPair : ',' ∉ renderPair p := fun h =>
  (mem_renderPair h).elim (by decide) (by decide)

theorem renderPair_ne_nil : renderPair p ≠ [] := by
  simp [renderPair]

/-- The segments of a key's text that are not skipped are its pairs. -/
theorem segments_render (k : Key) :
    (pieces ',' k.render).filter (!·.isEmpty) = k.pairs.map renderPair := by
  unfold render
  by_cases h : k.pairs = []
  · rw [h]
    rfl
  · have hcomma : ∀ s ∈ k.pairs.map renderPair, ',' ∉ s := by
      rw [List.forall_mem_map]
      exact fun _ _ => comma_not_mem_renderPair
    rw [pieces_eq_splitOn, List.splitOn_intercalate _ hcomma (by simpa using h),
      List.filter_eq_self, List.forall_mem_map]
    simp [renderPair_ne_nil]

theorem parse_render (k : Key) : parse k.text = .ok k := by
  have hpairs : (k.pairs.map renderPair).mapM readPair = .ok k.pairs := by
    rw [mapM_eq_ok_iff, List.forall₂_map_left_iff, List.forall₂_same]
    exact fun p _ => readPair_renderPair p
  unfold parse text
  rw [String.toList_ofList, segments_render, hpairs]
  rfl

theorem isTextChar_of_mem_renderPair {c : Char} (h : c ∈ renderPair p) : isTextChar c = true := by
  unfold isTextChar
  rcases mem_renderPair h with rfl | hc
  · rfl
  · rw [hc, Bool.true_or, Bool.true_or]

theorem isTextChar_of_mem_intercalate {c : Char} (ps : List (String × String))
    (h : c ∈ List.intercalate [','] (ps.map renderPair)) : isTextChar c = true := by
  rcases mem_intercalate h with h | ⟨s, hs, h⟩
  · obtain rfl := List.mem_singleton.1 h
    rfl
  · obtain ⟨p, -, rfl⟩ := List.mem_map.1 hs
    exact isTextChar_of_mem_renderPair h

/-- A key is read back from its text, pair by pair, and the text is made of ASCII letters, digits
and the signs `_`, `.`, `-`, `+`, `%`, `=` and `,` alone. -/
theorem text_round_trip :
    (∀ k : Key, parse k.text = .ok k)
      ∧ (∀ k : Key, k.text.toList.all isTextChar = true)
      ∧ Function.Injective text := by
  refine ⟨parse_render, fun k => ?_, fun k k' h => ?_⟩
  · unfold text
    rw [String.toList_ofList, List.all_eq_true]
    exact fun c hc => isTextChar_of_mem_intercalate _ hc
  · have := parse_render k
    rw [h, parse_render k', Except.ok.injEq] at this
    exact this.symm

example : text ⟨[("", ""), ("a b", "1+1=2"), ("", ",%é")]⟩ = "=,a+b=1%2B1%3D2,=%2C%25%C3%A9" := by
  decide

end Key

end Cohort
