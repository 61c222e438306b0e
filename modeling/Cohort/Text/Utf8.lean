/-!
# Reading UTF-8

Bytes that are not the UTF-8 of any text have a first place where no character's bytes stand
(`Flaw`). What stands there is either the start of a character's bytes that the end cuts off, or so
many bytes that could still start a character, followed by one that cannot go on.
-/

namespace Cohort.Text

/-- Where and how bytes stop being UTF-8. -/
structure Flaw where
  /-- How many bytes stand before the flaw. -/
  start : Nat
  /-- How many bytes belong to it; none if the end cuts a character off. -/
  length : Option Nat
  deriving DecidableEq

/-- The text of a flaw. -/
def Flaw.message (f : Flaw) : String :=
  match f.length with
  | none => "incomplete utf-8 byte sequence from index " ++ f.start.repr
  | some n => "invalid utf-8 sequence of " ++ n.repr ++ " bytes from index " ++ f.start.repr

/-- A range of bytes, with both ends. -/
abbrev ByteRange := UInt8 × UInt8

/-- The bytes that go on with a character, where nothing more is asked of them. -/
def continuation : ByteRange := (0x80, 0xBF)

/-- The ranges in which the bytes after a character's first byte have to lie; none if no character
starts with that byte. Longer forms of shorter characters, surrogates and numbers beyond the last
code point are excluded by the range of the second byte. -/
def continuations (first : UInt8) : Option (List ByteRange) :=
  if first < 0x80 then some []
  else if first < 0xC2 then none
  else if first < 0xE0 then some [continuation]
  else if first = 0xE0 then some [(0xA0, 0xBF), continuation]
  else if first = 0xED then some [(0x80, 0x9F), continuation]
  else if first < 0xF0 then some [continuation, continuation]
  else if first = 0xF0 then some [(0x90, 0xBF), continuation, continuation]
  else if first < 0xF4 then some [continuation, continuation, continuation]
  else if first = 0xF4 then some [(0x80, 0x8F), continuation, continuation]
  else none

/-- How the bytes after a first one fail to go on through the ranges, having gone on for `n` bytes
before: cut off (`some none`), or broken after so many bytes. -/
def broken? (n : Nat) : List ByteRange → List UInt8 → Option (Option Nat)
  | [], _ => none
  | _ :: _, [] => some none
  | r :: rs, b :: bs => if r.1 ≤ b ∧ b ≤ r.2 then broken? (n + 1) rs bs else some (some n)

/-- The first flaw of bytes that stand after so many others. -/
def flawFrom? (start : Nat) : List UInt8 → Option Flaw
  | [] => none
  | b :: bs =>
    match continuations b with
    | none => some ⟨start, some 1⟩
    | some rs =>
      match broken? 1 rs bs with
      | some length => some ⟨start, length⟩
      | none => flawFrom? (start + 1 + rs.length) (bs.drop rs.length)
  termination_by bs => bs.length
  decreasing_by simp only [List.length_drop, List.length_cons]; omega

/-- The text whose UTF-8 the bytes are, or where they stop being UTF-8. -/
def decodeUtf8 (bytes : List UInt8) : Except Flaw String :=
  match String.fromUTF8? bytes.toByteArray with
  | some s => .ok s
  | none => .error ((flawFrom? 0 bytes).getD ⟨bytes.length, none⟩)

end Cohort.Text
